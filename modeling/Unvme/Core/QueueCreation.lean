import Unvme.Core.AdminShared
import Unvme.Nvme.QueuePairs

set_option autoImplicit false

/-! # The I/O queues are created through the admin queue

`createQueues` with the synchronous admin commands of `AdminQueue.lean` instead of a controller that just
answers: the entries are built in the slots of the submission queue, and the controller fetches them, posts
completions and does whatever else it may between the driver's steps. No command is sent before the one before
it has been completed without error (`Sys.Carried`), so the controller sees the commands of
`createCmds` in their order, and they put the driver's queues into its table (`queues_created_in_order`). The
first command that fails (`Sys.Failed`) ends the process. -/

namespace Unvme.Core

open Unvme.Lib Unvme.Nvme

/-- The driver with its admin queue. Allocating the memory of a queue does not touch it. -/
def adminDriver (E : Env) : AdminDriver (Stop ⊕ Fatal) Sys where
  acmd := fun c => do
    let r ← EStateM.adaptExcept .inl (nvmeAcmd E c)
    pure r.1
  queueInit := fun _ => pure ()
  queueCleanup := fun _ => pure ()
  fatal := fun q => .inr (.ioq q)

/-- Nothing is in flight and the rings are in step. -/
structure Sys.Quiet (s : Sys) : Prop where
  dev : s.dev.Inv s.dev.hist.reaped s.dev.hist.reaped
  submitted : s.dev.hist.subs.length = s.dev.hist.reaped

/-- The commands `cmds` have been sent, each with nothing else in flight, and completed without error. -/
structure Sys.Carried (s : Sys) (cmds : List QueueCmd) (s' : Sys) : Prop where
  quiet : s'.Quiet
  subs : ∃ new, s'.dev.hist.subs = s.dev.hist.subs ++ new ∧
    new.map (fun sub => readQueueCmd (entrySlot sub.entry)) = cmds ∧ ∀ sub ∈ new, sub.others = []
  posts : ∀ i < cmds.length, ∃ e, e.stat = 0 ∧
    s'.dev.hist.posts[s.dev.hist.submitted + i]? = some (s.dev.hist.submitted + i, e)

/-- The command `cmd` has been sent with nothing else in flight, and has not been completed, or with an error.
    (The command id is the tail of the queue, so a success goes unnoticed past 2^16 entries.) -/
structure Sys.Failed (s : Sys) (cmd : QueueCmd) (s' : Sys) : Prop where
  subs : ∃ sub, s'.dev.hist.subs = s.dev.hist.subs ++ [sub] ∧
    readQueueCmd (entrySlot sub.entry) = cmd ∧ sub.others = []
  posts : ∀ e, s'.dev.hist.posts[s.dev.hist.reaped]? = some (s.dev.hist.submitted, e) → e.stat = 0 →
    2 ^ 16 < s.dev.size

/-- The first `q` queues have been created, and one of the two commands for the next one has failed. -/
def Sys.GaveUp (qsize : ℕ) (rings : ℕ → RingPair) (q : ℕ) (s s' : Sys) : Prop :=
  ∃ cmds cmd s₁, s.Carried cmds s₁ ∧ s₁.Failed cmd s' ∧
    (cmds = createCmds qsize rings q ∧ cmd = createCqCmd qsize rings q ∨
      cmds = createCmds qsize rings q ++ [createCqCmd qsize rings q] ∧
        cmd = createSqCmd qsize rings q)

section

variable {E : Env} {s s₁ s' : Sys} {cmds : List QueueCmd} {cmd : QueueCmd} {c : Command}

theorem Sys.Carried.length (h : s.Carried cmds s') :
    s'.dev.hist.subs.length = s.dev.hist.subs.length + cmds.length := by
  obtain ⟨new, hsubs, hcmds, -⟩ := h.subs
  rw [hsubs, List.length_append, ← hcmds, List.length_map]

theorem Sys.Quiet.carried (h : s.Quiet) : s.Carried [] s :=
  ⟨h, ⟨[], (List.append_nil _).symm, rfl, fun _ hin => absurd hin List.not_mem_nil⟩,
    fun i hi => absurd hi (Nat.not_lt_zero i)⟩

/-- One more command. -/
theorem Sys.Carried.snoc (h : s.Carried cmds s₁) {r : ℤ × ℕ} (hs : s₁.Synced c s' r) (h0 : r.1 = 0)
    {sub : Sub} (hsub : s'.dev.hist.subs = s₁.dev.hist.subs ++ [sub])
    (hcmd : readQueueCmd (entrySlot sub.entry) = cmd) : s.Carried (cmds ++ [cmd]) s' := by
  have hlen := h.length
  have hquiet := h.quiet.submitted
  rcases hs.done with ⟨hr, -⟩ | ⟨hreaped, e, hpost, -, hret, -⟩
  · rw [hr] at h0
    exact absurd h0 (by decide)
  have hstat : e.stat = 0 := by
    rw [h0, waitStatus] at hret
    split at hret
    · next hown => exact hown.2
    · split at hret
      · exact absurd hret (by decide)
      · exact Int.ofNat_eq_zero.1 hret.symm
  refine ⟨⟨hs.dev, ?_⟩, ?_, ?_⟩
  · rw [hsub, List.length_append, List.length_singleton, hquiet, hreaped]
  · obtain ⟨new, hnew, hmap, hothers⟩ := h.subs
    obtain ⟨sub', hsub', hothers'⟩ := hs.subs
    obtain rfl : sub = sub' := by
      rw [hsub] at hsub'
      exact List.singleton_inj.1 (List.append_cancel_left hsub')
    refine ⟨new ++ [sub], ?_, ?_, ?_⟩
    · rw [hsub, hnew, List.append_assoc]
    · rw [List.map_append, hmap, List.map_singleton, hcmd]
    · intro x hx
      rcases List.mem_append.1 hx with hx | hx
      · exact hothers x hx
      · rw [List.mem_singleton.1 hx]
        exact hothers'
  · intro i hi
    rw [List.length_append, List.length_singleton] at hi
    unfold History.submitted at hpost ⊢
    by_cases hlast : i = cmds.length
    · subst hlast
      refine ⟨e, hstat, ?_⟩
      rw [← hlen, ← hpost, hquiet]
    · obtain ⟨e', he', hp⟩ := h.posts i (by omega)
      refine ⟨e', he', ?_⟩
      unfold History.submitted at hp
      rw [hs.post_of_lt (by omega)]
      exact hp

/-- A command that is not reported as successful was not. -/
theorem Sys.Quiet.failed (h : s₁.Quiet) {r : ℤ × ℕ} (hs : s₁.Synced c s' r) (h0 : r.1 ≠ 0) {sub : Sub}
    (hsub : s'.dev.hist.subs = s₁.dev.hist.subs ++ [sub])
    (hcmd : readQueueCmd (entrySlot sub.entry) = cmd) : s₁.Failed cmd s' := by
  refine ⟨⟨sub, hsub, hcmd, ?_⟩, ?_⟩
  · obtain ⟨sub', hsub', hothers⟩ := hs.subs
    rw [hsub] at hsub'
    rw [List.singleton_inj.1 (List.append_cancel_left hsub')]
    exact hothers
  · intro e hpost hstat
    rcases hs.done with ⟨-, -, hlen⟩ | ⟨-, e', hpost', hcid, hret, -⟩
    · have hlt := (List.getElem?_eq_some_iff.1 hpost).1
      omega
    · obtain rfl : e = e' := by
        rw [hpost] at hpost'
        exact (Prod.mk.inj (Option.some.inj hpost')).2
      by_contra hsize
      have htail : s₁.dev.sqTail < s₁.dev.size := by
        have := h.dev.two_le
        rw [h.dev.tail]
        exact Nat.mod_lt _ (by omega)
      rw [Nat.mod_eq_of_lt (by omega)] at hcid
      refine h0 (hret.trans ?_)
      rw [waitStatus, if_pos ⟨hcid, hstat⟩]

/-- One admin command on a quiet queue. -/
theorem adminDriver_acmd_spec (h : s.Carried cmds s₁) (hc : c.sync = true)
    (hread : ∀ cid slot, readQueueCmd ((c.layout cid).build slot) = cmd) :
    wp ((adminDriver E).acmd c) s₁
      (fun r s' => (r = 0 → s.Carried (cmds ++ [cmd]) s') ∧ (r ≠ 0 → s₁.Failed cmd s'))
      (fun _ _ => False) := by
  obtain ⟨r, s', hrun, hs⟩ := (nvmeAcmd_spec (E := E) hc h.quiet.dev
    (h.quiet.dev.inFlight_nil h.quiet.submitted.le)).exists_ok
  obtain ⟨⟨sub, old, hsub, hentry⟩, -⟩ := (nvmeAcmd_counts c s₁).of_ok hrun
  have hcmd : readQueueCmd (entrySlot sub.entry) = cmd := by
    rw [hentry]
    exact readQueueCmd_entry hread _ _
  simp only [adminDriver, wp_bind, wp_adaptExcept]
  unfold wp
  rw [hrun]
  exact ⟨fun h0 => h.snoc hs h0 hsub hcmd, fun h0 => h.quiet.failed hs h0 hsub hcmd⟩

end

section

variable {E : Env} {dbstride qsize n : ℕ} {rings : ℕ → RingPair} {s s₁ : Sys}

theorem unvmeIoqCreate_carried (hpos : 1 ≤ qsize) (hmax : qsize ≤ 2 ^ 16) (hn : n + 1 < 2 ^ 16)
    (h : s.Carried (createCmds qsize rings n) s₁) :
    wp (unvmeIoqCreate (adminDriver E) dbstride qsize rings n) s₁
      (fun q s' => q = queueContext dbstride qsize rings n ∧ s.Carried (createCmds qsize rings (n + 1)) s')
      (fun e s' => e = .inr (.ioq (n + 1)) ∧ s.GaveUp qsize rings n s') := by
  have hinit : (adminDriver E).queueInit n = pure () := rfl
  unfold unvmeIoqCreate nvmeIoqCreate
  rw [wp_bind, hinit, wp_pure]
  simp only [wp_bind]
  refine wp_mono (adminDriver_acmd_spec h rfl
    (fun cid slot => readQueueCmd_createCq hn hpos hmax _)) ?_ (fun _ _ hf => hf.elim)
  rintro r₁ s₂ ⟨h₁, hfailed₁⟩
  rw [wp_ite]
  by_cases hr₁ : r₁ = 0
  · rw [if_neg (not_not.2 hr₁), wp_bind]
    refine wp_mono (adminDriver_acmd_spec (h₁ hr₁) rfl
      (fun cid slot => readQueueCmd_createSq hn hpos hmax _)) ?_ (fun _ _ hf => hf.elim)
    rintro r₂ s₃ ⟨h₂, hfailed₂⟩
    rw [wp_ite]
    by_cases hr₂ : r₂ = 0
    · rw [if_neg (not_not.2 hr₂)]
      refine ⟨rfl, ?_⟩
      have hcarried := h₂ hr₂
      rw [List.append_assoc] at hcarried
      exact hcarried
    · rw [if_pos hr₂]
      exact ⟨rfl, _, _, s₂, h₁ hr₁, hfailed₂ hr₂, Or.inr ⟨rfl, rfl⟩⟩
  · rw [if_pos hr₁]
    exact ⟨rfl, _, _, s₁, h, hfailed₁ hr₁, Or.inl ⟨rfl, rfl⟩⟩

theorem createQueues_carried (hpos : 1 ≤ qsize) (hmax : qsize ≤ 2 ^ 16) (hn : n < 2 ^ 16) (h : s.Quiet) :
    wp (createQueues (adminDriver E) dbstride qsize rings n) s
      (fun qs s' => qs = (List.range n).map (queueContext dbstride qsize rings) ∧
        s.Carried (createCmds qsize rings n) s')
      (fun e s' => ∃ q < n, e = .inr (.ioq (q + 1)) ∧ s.GaveUp qsize rings q s') := by
  induction n with
  | zero => exact ⟨rfl, h.carried⟩
  | succ n ih =>
      rw [createQueues]
      refine wp_bind_of (wp_mono (ih (Nat.lt_of_succ_lt hn)) (fun _ _ hq => hq) ?_) ?_
      · rintro e s' ⟨q, hq, rfl, hgave⟩
        exact ⟨q, Nat.lt_succ_of_lt hq, rfl, hgave⟩
      · rintro qs s₁ ⟨rfl, h₁⟩
        rw [wp_bind]
        refine wp_mono (unvmeIoqCreate_carried hpos hmax hn h₁) ?_ ?_
        · rintro q s₂ ⟨rfl, h₂⟩
          refine ⟨?_, h₂⟩
          rw [List.range_succ, List.map_append]
          rfl
        · rintro e s₂ ⟨rfl, hgave⟩
          exact ⟨n, Nat.lt_succ_self n, rfl, hgave⟩

/-- **The queues are created in order.** Starting on an admin queue with nothing in flight, whatever the
    controller does between the driver's steps: if the process goes on, then all commands have been completed
    without error, one after the other, and carried out in this order they put exactly the driver's queues
    into a table without queues. If it stops at queue `q + 1`, the same holds of the first `q` queues, and a
    command for the next one has failed. -/
theorem queues_created_in_order (hpos : 1 ≤ qsize) (hmax : qsize ≤ 2 ^ 16) (hn : n < 2 ^ 16)
    (h : s.Quiet) {t : QueueTable} (ht : t.Holds qsize rings 0) :
    wp (createQueues (adminDriver E) dbstride qsize rings n) s
      (fun qs s' => qs = (List.range n).map (queueContext dbstride qsize rings) ∧
        ∃ cmds t', s.Carried cmds s' ∧ t.run cmds = some t' ∧ t'.Holds qsize rings n)
      (fun e s' => ∃ q < n, e = .inr (.ioq (q + 1)) ∧ s.GaveUp qsize rings q s' ∧
        ∃ t', t.run (createCmds qsize rings q) = some t' ∧ t'.Holds qsize rings q) := by
  refine wp_mono (createQueues_carried hpos hmax hn h) ?_ ?_
  · rintro qs s' ⟨hqs, hcarried⟩
    obtain ⟨t', hrun, ht'⟩ := ht.run_createCmds
    exact ⟨hqs, _, t', hcarried, hrun, ht'⟩
  · rintro e s' ⟨q, hq, rfl, hgave⟩
    exact ⟨q, hq, rfl, hgave, ht.run_createCmds⟩

end

/-- A new admin queue, on which the controller completes each of two commands at the first check. -/
def sampleQuiet : Sys := newAdmin.sys.withSched
  [[], [], [.fetch, .loadPrps 0, .execute 0, .post 0 0 0], [], [], [],
    [], [], [.fetch, .loadPrps 0, .execute 0, .post 0 0 0]]

theorem sampleQuiet_quiet : sampleQuiet.Quiet := by
  have hinit : newAdmin.sys.Inv .idle :=
    @Sys.Inv.init adminQsize (by decide) ⟨0, 0, 0⟩ (fun _ => 0) (fun _ => 0)
  exact ⟨(hinit.withSched _).dev, rfl⟩

/-- One queue is created. -/
theorem queues_created_in_order_one :
    ∃ s', createQueues (adminDriver sampleEnv) 1 256 sampleRings 1 sampleQuiet
        = .ok [queueContext 1 256 sampleRings 0] s' ∧
      ∃ cmds t', sampleQuiet.Carried cmds s' ∧ (samplePairs 0).table.run cmds = some t' ∧
        t'.Holds 256 sampleRings 1 := by
  have hspec : wp (createQueues (adminDriver sampleEnv) 1 256 sampleRings 1) sampleQuiet _ _ :=
    queues_created_in_order (by decide) (by decide) (by decide) sampleQuiet_quiet
      (samplePairs_created 0).table
  have hret : returns (createQueues (adminDriver sampleEnv) 1 256 sampleRings 1) sampleQuiet
      (fun _ _ => true) = true := by
    decide +kernel
  obtain ⟨qs, s', hrun, -⟩ := returns_iff.1 hret
  obtain ⟨rfl, hcarried⟩ := hspec.of_ok hrun
  exact ⟨s', hrun, hcarried⟩

end Unvme.Core
