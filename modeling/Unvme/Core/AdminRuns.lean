import Unvme.Core.AdminQueue
import Unvme.Core.QueueSafety

set_option autoImplicit false

/-! # Runs of the admin queue

The admin queue has two users. The client issues `unvme_acmd` and `unvme_apoll` with queue id -1, which
take their command ids from `unvme_get_cid` and their completions in `unvme_check_completion`; the
driver issues its synchronous commands, with the tail as command id and `nvme_wait_completion` as the
consumer. `AdminState` is the queue with a log of who did what; no function of the driver reads it. -/

namespace Unvme.Core

open Unvme.Lib Unvme.Nvme

/-- Who took a completion from the ring: `nvme_wait_completion` or `unvme_check_completion`. -/
inductive Taker where
  | wait
  | check
  deriving DecidableEq, Repr

/-- A synchronous command as it happened: its position, the status returned, what was stored through
    `res`, and the history when it returned. -/
structure SyncRecord where
  seq : ℕ
  command : Command
  ret : ℤ
  res : ℕ
  hist : History

/-- The admin queue with the positions of the synchronous commands, the taker of every completion
    reaped, and the results of the synchronous commands. -/
structure AdminState where
  sys : Sys
  syncs : List ℕ
  takers : List Taker
  results : List SyncRecord

/-- Freshly set up. -/
def AdminState.boot (qsize : ℕ) (prplist : Dma) (mem disk : ℕ → ℕ) : AdminState :=
  ⟨Sys.boot qsize prplist mem disk, [], [], []⟩

/-- A call of the client or a synchronous command, with the controller's schedule for it, actions of
    the controller in between, or a change of the client's memory. -/
inductive AdminRound where
  | call (c : Call) (σ : List (List CtlAct))
  | sync (c : Command) (σ : List (List CtlAct))
  | idle (acts : List CtlAct)
  | store (mem : ℕ → ℕ)

/-- The number of completions reaped between two states. -/
def Sys.reapCount (s s' : Sys) : ℕ := s'.dev.hist.reaped - s.dev.hist.reaped

/-- The effect of a round; a call has to return. -/
inductive AdminRound.Does (E : Env) (a : AdminState) : AdminRound → AdminState → Prop
  | call (c : Call) (σ : List (List CtlAct)) (v : Ret) (s' : Sys)
      (hv : c.run E (a.sys.withSched σ) = .ok v s') :
      Does E a (.call c σ)
        { a with sys := s', takers := a.takers ++ List.replicate (a.sys.reapCount s') .check }
  | sync (c : Command) (σ : List (List CtlAct)) (r : ℤ × ℕ) (s' : Sys)
      (hr : nvmeAcmd E c (a.sys.withSched σ) = .ok r s') :
      Does E a (.sync c σ)
        { sys := s'
          syncs := a.syncs ++ [a.sys.dev.hist.submitted]
          takers := a.takers ++ List.replicate (a.sys.reapCount s') .wait
          results := a.results ++ [⟨a.sys.dev.hist.submitted, c, r.1, r.2, s'.dev.hist⟩] }
  | idle (acts : List CtlAct) :
      Does E a (.idle acts)
        { a with sys := { a.sys with dev := acts.foldl (Device.act E.media) a.sys.dev } }
  | store (mem : ℕ → ℕ) :
      Does E a (.store mem) { a with sys := { a.sys with dev := { a.sys.dev with mem := mem } } }

/-- Reachable states. -/
inductive AdminRun (E : Env) (L : AdminState → AdminRound → Prop) (a₀ : AdminState) :
    AdminState → Prop
  | nil : AdminRun E L a₀ a₀
  | round {a a' : AdminState} (h : AdminRun E L a₀ a) (r : AdminRound) (hl : L a r)
      (hd : r.Does E a a') : AdminRun E L a₀ a'

/-! ## Synchronous commands alone -/

/-- A synchronous command, with nothing in flight if it is one that returns a feature value, or actions
    of the controller. -/
def AdminRound.FeaturesQuiet (a : AdminState) : AdminRound → Prop
  | .sync c _ => c.sync = true ∧ (c.features = true → a.sys.dev.hist.inFlight = [])
  | .idle _ => True
  | _ => False

/-- A feature command that returned 0 has stored the DW0 of its own completion. -/
def SyncRecord.Own (p : SyncRecord) : Prop :=
  p.command.features = true → p.ret = 0 → ∃ e, (p.seq, e) ∈ p.hist.posts ∧ p.res = e.cs

section

variable {E : Env} {s : Sys}

/-- A check takes at most one completion, whatever state the rings are in. -/
theorem nvmeCheckCompletion_counts (s : Sys) :
    wp (nvmeCheckCompletion E) s
      (fun r s' => s'.dev.hist.subs = s.dev.hist.subs ∧
        s'.dev.hist.reaped = s.dev.hist.reaped + r.toList.length)
      (fun _ _ => False) := by
  unfold nvmeCheckCompletion
  refine wp_bind_of (interfere_keeps s) ?_
  rintro - s₁ ⟨-, hl₁, -⟩
  rw [wp_bind, wp_get, wp_ite]
  split
  · refine wp_bind_of (interfere_keeps s₁) ?_
    rintro - s₂ ⟨-, hl₂, -⟩
    rw [wp_bind, wp_get, wp_bind, wp_modify]
    refine wp_bind_of (interfere_keeps _) ?_
    rintro - s₃ ⟨-, hl₃, -⟩
    rw [wp_bind, wp_get, wp_bind, wp_modify]
    refine wp_bind_of (interfere_keeps _) ?_
    rintro - s₄ ⟨-, hl₄, -⟩
    rw [wp_bind, wp_get, wp_bind, wp_modify, wp_pure]
    have hsubs : s₄.dev.hist.subs = s.dev.hist.subs :=
      hl₄.subs.trans (hl₃.subs.trans (hl₂.subs.trans hl₁.subs))
    have hreaped : s₄.dev.hist.reaped = s.dev.hist.reaped :=
      hl₄.reaped.trans (hl₃.reaped.trans (hl₂.reaped.trans hl₁.reaped))
    exact ⟨hsubs, by rw [← hreaped]; rfl⟩
  · exact ⟨hl₁.subs, hl₁.reaped⟩

theorem Sync.nvmeWaitCompletion_counts (cid n : ℕ) (s : Sys) :
    wp (Sync.nvmeWaitCompletion E cid n) s
      (fun _ s' => s'.dev.hist.subs = s.dev.hist.subs ∧
        s'.dev.hist.reaped ≤ s.dev.hist.reaped + 1)
      (fun _ _ => False) := by
  induction n generalizing s with
  | zero =>
      rw [Sync.nvmeWaitCompletion]
      refine wp_bind_of (nvmeCheckCompletion_counts s) ?_
      rintro (_ | comp) s' ⟨hsubs, hreaped⟩
      · exact ⟨hsubs, hreaped.le.trans (Nat.le_succ _)⟩
      · exact ⟨hsubs, hreaped.le⟩
  | succ n ih =>
      rw [Sync.nvmeWaitCompletion]
      refine wp_bind_of (nvmeCheckCompletion_counts s) ?_
      rintro (_ | comp) s' ⟨hsubs, hreaped⟩
      · change s'.dev.hist.reaped = s.dev.hist.reaped at hreaped
        refine wp_mono (ih s') ?_ (fun _ _ hf => hf)
        rintro r s'' ⟨hsubs', hreaped'⟩
        exact ⟨hsubs'.trans hsubs, by rw [← hreaped]; exact hreaped'⟩
      · exact ⟨hsubs, hreaped.le⟩

/-- One submission, of the entry the builder leaves in the slot, and at most one completion. -/
theorem nvmeAcmd_counts (c : Command) (s : Sys) :
    wp (nvmeAcmd E c) s
      (fun _ s' => (∃ sub old, s'.dev.hist.subs = s.dev.hist.subs ++ [sub] ∧
          sub.entry = c.entry s.dev.sqTail old) ∧
        s'.dev.hist.reaped ≤ s.dev.hist.reaped + 1)
      (fun _ _ => False) := by
  unfold nvmeAcmd
  refine wp_bind_of (interfere_keeps s) ?_
  rintro - s₁ ⟨-, hl₁, -⟩
  rw [wp_bind, wp_get, wp_bind, wp_modify]
  refine wp_bind_of (interfere_keeps _) ?_
  rintro - s₂ ⟨-, hl₂, -⟩
  rw [wp_bind, wp_modify, wp_bind, wp_get]
  refine wp_bind_of (Sync.nvmeWaitCompletion_counts _ _ _) ?_
  rintro err s₃ ⟨hsubs, hreaped⟩
  have hR : s₂.dev.hist.reaped = s.dev.hist.reaped := hl₂.reaped.trans hl₁.reaped
  have hS : ∃ sub old, s₃.dev.hist.subs = s.dev.hist.subs ++ [sub] ∧
      sub.entry = c.entry s.dev.sqTail old := by
    refine ⟨⟨c.entry s₁.dev.sqTail (s₁.dev.sq s₁.dev.sqTail), s₂.q.nalloc, 0, 0, s₂.dev.hist.inFlight⟩,
      s₁.dev.sq s₁.dev.sqTail, ?_, ?_⟩
    · rw [hsubs]
      show s₂.dev.hist.subs ++ [_] = _
      rw [hl₂.subs]
      show s₁.dev.hist.subs ++ [_] = _
      rw [hl₁.subs]
    · show c.entry s₁.dev.sqTail _ = _
      rw [hl₁.sqTail]
  change s₃.dev.hist.reaped ≤ s₂.dev.hist.reaped + 1 at hreaped
  rw [hR] at hreaped
  rw [wp_ite]
  split
  · refine wp_bind_of (interfere_keeps _) ?_
    rintro - s₄ ⟨-, hl₄, -⟩
    rw [wp_bind, wp_get, wp_pure, hl₄.subs, hl₄.reaped]
    exact ⟨hS, hreaped⟩
  · exact ⟨hS, hreaped⟩

/-- Either every command has been reaped and the rings are in step, or one is missing for good. -/
structure Sys.InStep (s : Sys) : Prop where
  reaped_le : s.dev.hist.reaped ≤ s.dev.hist.subs.length
  inStep : s.dev.hist.subs.length ≤ s.dev.hist.reaped →
    s.dev.Inv s.dev.hist.reaped s.dev.hist.reaped

theorem Sys.InStep.later (h : s.InStep) {dev : Device} (hl : s.dev.Later dev)
    (hdev : ∀ k j, s.dev.Inv k j → dev.Inv k j) : Sys.InStep { s with dev := dev } := by
  refine ⟨?_, ?_⟩
  · show dev.hist.reaped ≤ dev.hist.subs.length
    rw [hl.reaped, hl.subs]
    exact h.reaped_le
  · intro hle
    change dev.hist.subs.length ≤ dev.hist.reaped at hle
    rw [hl.reaped, hl.subs] at hle
    show dev.Inv dev.hist.reaped dev.hist.reaped
    rw [hl.reaped]
    exact hdev _ _ (h.inStep hle)

/-- A command on which nothing was in flight; without it the rings stay out of step. -/
theorem Sys.InStep.sync {c : Command} (hc : c.sync = true) (h : s.InStep) {r : ℤ × ℕ} {s' : Sys}
    (hr : nvmeAcmd E c s = .ok r s') : s'.InStep := by
  obtain ⟨⟨sub, old, hsubs, -⟩, hR⟩ := (nvmeAcmd_counts c s).of_ok hr
  have hS : s'.dev.hist.subs.length = s.dev.hist.subs.length + 1 := by
    rw [hsubs, List.length_append, List.length_singleton]
  have hle := h.reaped_le
  refine ⟨by omega, ?_⟩
  intro hdone
  have hquiet : s.dev.hist.subs.length ≤ s.dev.hist.reaped := by omega
  have hdev := h.inStep hquiet
  exact ((nvmeAcmd_spec hc hdev (hdev.inFlight_nil hquiet)).of_ok hr).dev

/-- **Feature values are the command's own.** In every run of synchronous admin commands on a queue of
    any size, completed in any way or not at all, a feature command issued with nothing in flight that
    returns 0 has stored the DW0 of its own completion. -/
theorem feature_values_own {qsize : ℕ} (hq : 2 ≤ qsize) {prplist : Dma} {mem disk : ℕ → ℕ}
    {a : AdminState}
    (hrun : AdminRun E AdminRound.FeaturesQuiet (AdminState.boot qsize prplist mem disk) a) :
    ∀ p ∈ a.results, p.Own := by
  suffices a.sys.InStep ∧ ∀ p ∈ a.results, p.Own from this.2
  induction hrun with
  | nil =>
      refine ⟨⟨Nat.zero_le _, fun _ => ?_⟩, fun p hp => absurd hp List.not_mem_nil⟩
      exact (Sys.Inv.init hq prplist mem disk).dev
  | @round a a' hrun r hl hd ih =>
      obtain ⟨hstep, hown⟩ := ih
      cases hd with
      | call c σ v s' hv => exact hl.elim
      | store mem => exact hl.elim
      | idle acts => exact ⟨hstep.later (Device.Later.acts _ _ _) (fun _ _ h => h.acts _ _), hown⟩
      | sync c σ r s' hr =>
          have hsched : (a.sys.withSched σ).InStep :=
            hstep.later ⟨rfl, rfl, rfl, rfl, rfl, rfl, List.prefix_rfl, rfl⟩ (fun _ _ h => h.sched σ)
          refine ⟨hsched.sync hl.1 hr, ?_⟩
          intro p hp
          rcases List.mem_append.1 hp with hp | hp
          · exact hown p hp
          · rw [List.mem_singleton.1 hp]
            intro hf h0
            have hquiet : (a.sys.withSched σ).dev.hist.inFlight = [] := hl.2 hf
            have hdev := hsched.inStep (History.submitted_le_reaped hquiet)
            rcases ((nvmeAcmd_spec hl.1 hdev hquiet).of_ok hr).done with ⟨hr', -⟩ | ⟨-, e, hpost, -, -, hres⟩
            · change r.1 = 0 at h0
              rw [h0] at hr'
              exact absurd hr' (by decide)
            · exact ⟨e, List.mem_of_getElem? hpost, hres h0 hf⟩

end

/-- A new admin queue of four entries. -/
def sampleAdmin : AdminState := AdminState.boot 4 ⟨0, 0, 0⟩ (fun _ => 0) (fun _ => 0)

/-- The state after a synchronous command that returns `r`. -/
def AdminState.afterSync (a : AdminState) (c : Command) (σ : List (List CtlAct)) (r : ℤ × ℕ) :
    AdminState :=
  let s := final (nvmeAcmd sampleEnv c) (a.sys.withSched σ)
  ⟨s, a.syncs ++ [a.sys.dev.hist.submitted],
    a.takers ++ List.replicate (a.sys.reapCount s) .wait,
    a.results ++ [⟨a.sys.dev.hist.submitted, c, r.1, r.2, s.dev.hist⟩]⟩

theorem AdminRun.sync {L : AdminState → AdminRound → Prop} {a₀ a : AdminState}
    (h : AdminRun sampleEnv L a₀ a) (c : Command) (σ : List (List CtlAct)) (r : ℤ × ℕ)
    (hl : L a (.sync c σ)) (hr : returns (nvmeAcmd sampleEnv c) (a.sys.withSched σ)
      (fun x _ => decide (x = r)) = true) : AdminRun sampleEnv L a₀ (a.afterSync c σ r) :=
  h.round (.sync c σ) hl (.sync c σ r _ (eq_ok_of_returns hr))

/-- The number of queues is read with nothing in flight. -/
theorem feature_values_own_first :
    let a := sampleAdmin.afterSync (.getFeatures 0 7 0 0)
      [[], [], [.fetch, .loadPrps 0, .execute 0, .post 0 5 0]] (0, 5)
    AdminRun sampleEnv AdminRound.FeaturesQuiet sampleAdmin a ∧ ∀ p ∈ a.results, p.Own := by
  intro a
  have hrun : AdminRun sampleEnv AdminRound.FeaturesQuiet sampleAdmin a :=
    AdminRun.nil.sync (.getFeatures 0 7 0 0) [[], [], [.fetch, .loadPrps 0, .execute 0, .post 0 5 0]]
      (0, 5) ⟨rfl, fun _ => by decide +kernel⟩ (by decide +kernel)
  exact ⟨hrun, feature_values_own (by decide) hrun⟩

/-- An identify command is not completed in time. The number of queues is read next; the controller
    completes that command with DW0 5, in slot 0, while the result is taken from slot 1. -/
theorem feature_value_foreign :
    let a := (sampleAdmin.afterSync (.identify 0 0 0) [] (-1, 2 ^ 32 - 1)).afterSync
      (.getFeatures 0 7 0 0)
      [[], [], [.fetch, .fetch, .loadPrps 1, .execute 1, .post 1 5 0]] (0, 0)
    AdminRun sampleEnv (fun _ r => ∃ c σ, r = .sync c σ ∧ c.sync = true) sampleAdmin a ∧
      ¬ ∀ p ∈ a.results, p.Own := by
  intro a
  have hrun : AdminRun sampleEnv (fun _ r => ∃ c σ, r = .sync c σ ∧ c.sync = true) sampleAdmin a :=
    (AdminRun.nil.sync (.identify 0 0 0) [] (-1, 2 ^ 32 - 1) ⟨_, _, rfl, rfl⟩
      (by decide +kernel)).sync (.getFeatures 0 7 0 0)
      [[], [], [.fetch, .fetch, .loadPrps 1, .execute 1, .post 1 5 0]] (0, 0) ⟨_, _, rfl, rfl⟩
      (by decide +kernel)
  refine ⟨hrun, ?_⟩
  intro hown
  obtain ⟨e, he, hcs⟩ := hown _ (List.mem_append_right _ (List.mem_singleton_self _)) rfl rfl
  have hall : (a.sys.dev.hist.posts.all (fun p => p.2.cs == 5)) = true := by decide +kernel
  have h5 := List.all_eq_true.1 hall _ he
  change 0 = e.cs at hcs
  rw [← hcs] at h5
  exact absurd h5 (by decide)

end Unvme.Core
