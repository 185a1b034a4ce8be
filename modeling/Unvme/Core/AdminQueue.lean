import Unvme.Nvme.Commands
import Unvme.Core.Runs

set_option autoImplicit false

/-! # Synchronous admin commands (`nvme_acmd_*`, `nvme_wait_completion`)

The driver's own admin commands take the tail of the submission queue as their command id, ring the
doorbell and wait for one completion, whatever command it is for. The feature commands then read their
result from the slot of the completion queue that has the number of the command id.

All of this is right while submissions and completions run in step: when a command is issued with
nothing in flight, the next completion is its own and arrives in the slot of that number
(`nvmeAcmd_spec`). A command whose wait gave up leaves the queue out of step for good, since every
later command consumes at most one completion. -/

namespace Unvme.Core

open Unvme.Lib Unvme.Nvme

/-- The status reported for the first completion that arrives. -/
def waitStatus (cid : ℕ) (c : Completion) : ℤ :=
  if c.cid = cid ∧ c.stat = 0 then 0
  else if c.cid ≠ cid then -1
  else c.stat

section

variable (E : Env)

/-- Wait for a given command completion until timeout, checking up to `n + 1` times. -/
def Sync.nvmeWaitCompletion (cid : ℕ) : ℕ → Drv ℤ
  | 0 => do
      match ← nvmeCheckCompletion E with
      | some c => pure (waitStatus cid c)
      | none => pure (-1)
  | n + 1 => do
      match ← nvmeCheckCompletion E with
      | some c => pure (waitStatus cid c)
      | none => Sync.nvmeWaitCompletion cid n

/-- Submit an admin command and wait for completion. Returns the completion status (0 if ok) and, for
    the feature commands, what is stored through `res`. The command has no descriptor. -/
def nvmeAcmd (c : Command) : Drv (ℤ × ℕ) := do
  interfere E
  let s ← get
  let cid := s.dev.sqTail
  let e := c.entry cid (s.dev.sq cid)
  modify fun s => { s with dev := s.dev.fill e }
  interfere E
  modify fun s =>
    { s with dev := s.dev.submit ⟨e, s.q.nalloc, 0, 0, s.dev.hist.inFlight⟩ }
  let s ← get
  let err ← Sync.nvmeWaitCompletion E cid s.dev.sched.length
  if err = 0 ∧ c.features = true then
    interfere E
    let s ← get
    pure (err, s.dev.cq.csAt cid)
  else pure (err, 2 ^ 32 - 1)

end

variable {E : Env} {s : Sys}

/-! ## The commands of a client

They come from builders of the same kind, so what the driver submits for them is what the controller reads
from the slot, whatever was in it before. -/

theorem Command.entry_rw (opc : BitVec 32) (cid : BitVec 16) (nsid : BitVec 32) (slba : BitVec 64)
    (nlb : BitVec 32) (prp1 prp2 : BitVec 64) (tail : ℕ) (old : SqEntry) :
    (Command.rw opc cid nsid slba nlb prp1 prp2).entry tail old =
      rwEntry opc.toNat cid.toNat nsid.toNat slba.toNat nlb.toNat prp1.toNat prp2.toNat := by
  unfold Command.entry
  rw [Command.layout, slotEntry_rw, sqEntry, rwEntry]
  have hnlb : (nlb - 1).toNat % 2 ^ 16 = (nlb.toNat + 65535) % 65536 := by
    have hone : (1 : BitVec 32).toNat = 1 := rfl
    rw [BitVec.toNat_sub, hone]
    omega
  have hslba : slba.toNat / 2 ^ 32 % 2 ^ 32 = slba.toNat / 2 ^ 32 := by
    have := slba.isLt
    omega
  rw [hnlb, hslba]

theorem Command.entry_vs (opc : BitVec 32) (cid : BitVec 16) (nsid : BitVec 32) (prp1 prp2 : BitVec 64)
    (cdw10_15 : Option (Vector (BitVec 32) 6)) (tail : ℕ) (old : SqEntry) :
    (Command.vs opc cid nsid prp1 prp2 cdw10_15).entry tail old =
      vsEntry opc.toNat cid.toNat nsid.toNat prp1.toNat prp2.toNat
        (cdw10_15.map (fun v => v.map BitVec.toNat)) := by
  unfold Command.entry
  rw [Command.layout, slotEntry_vs, sqEntry, vsEntry]
  congr 1
  cases cdw10_15 with
  | none => rfl
  | some v =>
      ext i hi
      have hcases : i = 0 ∨ i = 1 ∨ i = 2 ∨ i = 3 ∨ i = 4 ∨ i = 5 := by omega
      rcases hcases with rfl | rfl | rfl | rfl | rfl | rfl <;> simp [Vector.get]

/-- A read or write of a client is the builder's. -/
theorem nvmeCmdRw_eq (opc : BitVec 32) (cid : BitVec 16) (nsid : BitVec 32) (slba : BitVec 64)
    (nlb : BitVec 32) (prp1 prp2 : BitVec 64) (d buf bufsz tail : ℕ) (old : SqEntry) :
    nvmeCmdRw E opc.toNat cid.toNat nsid.toNat slba.toNat nlb.toNat prp1.toNat prp2.toNat d buf bufsz =
      nvmeCmd E ((Command.rw opc cid nsid slba nlb prp1 prp2).entry tail old) d buf bufsz := by
  rw [Command.entry_rw, nvmeCmdRw]

/-- So is a generic command. -/
theorem nvmeCmdVs_eq (opc : BitVec 32) (cid : BitVec 16) (nsid : BitVec 32) (prp1 prp2 : BitVec 64)
    (cdw10_15 : Option (Vector (BitVec 32) 6)) (d buf bufsz tail : ℕ) (old : SqEntry) :
    nvmeCmdVs E opc.toNat cid.toNat nsid.toNat prp1.toNat prp2.toNat
        (cdw10_15.map (fun v => v.map BitVec.toNat)) d buf bufsz =
      nvmeCmd E ((Command.vs opc cid nsid prp1 prp2 cdw10_15).entry tail old) d buf bufsz := by
  rw [Command.entry_vs, nvmeCmdVs]

/-! ## One command -/

/-- The wait ends with the next completion, or with none posted. -/
theorem Sync.nvmeWaitCompletion_spec (cid n : ℕ) (h : s.dev.Inv s.dev.hist.reaped s.dev.hist.reaped) :
    wp (Sync.nvmeWaitCompletion E cid n) s
      (fun r s' => ∃ dev, s.dev.hist.Same dev.hist ∧ dev.size = s.dev.size ∧
        (r = -1 ∧ dev.Inv s.dev.hist.reaped s.dev.hist.reaped ∧
            dev.hist.posts.length = s.dev.hist.reaped ∧ s' = ⟨s.q, dev⟩ ∨
          dev.Inv (s.dev.hist.reaped + 1) (s.dev.hist.reaped + 1) ∧
            ∃ k e, dev.hist.posts[dev.hist.reaped]? = some (k, e) ∧
              r = waitStatus cid e.completion ∧ s' = ⟨s.q, dev.reap⟩))
      (fun _ _ => False) := by
  induction n generalizing s with
  | zero =>
      rw [Sync.nvmeWaitCompletion]
      refine wp_bind_of (nvmeCheckCompletion_reads h) ?_
      rintro (_ | comp) s' ⟨dev, hsame, hsize, hrest⟩
      · exact ⟨dev, hsame, hsize, Or.inl ⟨rfl, hrest⟩⟩
      · obtain ⟨hdev, k, e, hpost, rfl, rfl⟩ := hrest
        exact ⟨dev, hsame, hsize, Or.inr ⟨hdev, k, e, hpost, rfl, rfl⟩⟩
  | succ n ih =>
      rw [Sync.nvmeWaitCompletion]
      refine wp_bind_of (nvmeCheckCompletion_reads h) ?_
      rintro (_ | comp) s' ⟨dev, hsame, hsize, hrest⟩
      · obtain ⟨hdev, -, rfl⟩ := hrest
        rw [← hsame.reaped] at hdev
        refine wp_mono (ih hdev) ?_ (fun _ _ hf => hf)
        rintro r s'' ⟨dev', hsame', hsize', hrest'⟩
        refine ⟨dev', hsame.trans hsame', hsize'.trans hsize, ?_⟩
        simp only [hsame.reaped] at hrest'
        exact hrest'
      · obtain ⟨hdev, k, e, hpost, rfl, rfl⟩ := hrest
        exact ⟨dev, hsame, hsize, Or.inr ⟨hdev, k, e, hpost, rfl, rfl⟩⟩

/-- What a synchronous command issued with nothing in flight leaves behind: the wait gave up with no
    completion posted, or the next completion was reaped, and it is the command's own. -/
structure Sys.Synced (c : Command) (s s' : Sys) (r : ℤ × ℕ) : Prop where
  q : s'.q = s.q
  size : s'.dev.size = s.dev.size
  dev : s'.dev.Inv s'.dev.hist.reaped s'.dev.hist.reaped
  subs : ∃ sub, s'.dev.hist.subs = s.dev.hist.subs ++ [sub] ∧ sub.others = []
  posts : s'.dev.hist.posts.take s.dev.hist.reaped = s.dev.hist.posts.take s.dev.hist.reaped
  done : r.1 = -1 ∧ s'.dev.hist.reaped = s.dev.hist.reaped ∧
      s'.dev.hist.posts.length = s.dev.hist.reaped ∨
    s'.dev.hist.reaped = s.dev.hist.reaped + 1 ∧
      ∃ e, s'.dev.hist.posts[s.dev.hist.reaped]? = some (s.dev.hist.submitted, e) ∧
        e.cid = s.dev.sqTail % 2 ^ 16 ∧ r.1 = waitStatus s.dev.sqTail e.completion ∧
        (r.1 = 0 → c.features = true → r.2 = e.cs)

/-- A command has been submitted with nothing else in flight. -/
structure Sys.Sent (s s' : Sys) (sub : Sub) : Prop where
  q : s'.q = s.q
  size : s'.dev.size = s.dev.size
  subs : s'.dev.hist.subs = s.dev.hist.subs ++ [sub]
  reaped : s'.dev.hist.reaped = s.dev.hist.reaped
  posts : s'.dev.hist.posts.take s.dev.hist.reaped = s.dev.hist.posts.take s.dev.hist.reaped

theorem Sys.Sent.same {s₁ s₂ : Sys} {sub : Sub} (h : s.Sent s₁ sub)
    (hs : s₁.dev.hist.Same s₂.dev.hist) (hq : s₂.q = s₁.q) (hsize : s₂.dev.size = s₁.dev.size) :
    s.Sent s₂ sub := by
  have hposts := hs.posts
  rw [hs.reaped, h.reaped] at hposts
  exact ⟨hq.trans h.q, hsize.trans h.size, hs.subs.trans h.subs, hs.reaped.trans h.reaped,
    hposts.trans h.posts⟩

/-- The next completion is the one of the command sent. -/
theorem Sys.Sent.next {s' : Sys} {sub : Sub} {i j : ℕ} (h : s.Sent s' sub) (hdev : s'.dev.Inv i j)
    (hquiet : s.dev.hist.inFlight = []) {k : ℕ} {e : CqEntry}
    (hp : s'.dev.hist.posts[s'.dev.hist.reaped]? = some (k, e)) :
    k = s.dev.hist.subs.length ∧ e.cid = sub.entry.cid := by
  obtain ⟨x, hx, hcid, hnew⟩ := hdev.next_pending hp
  have hlt := (List.getElem?_eq_some_iff.1 hx).1
  rw [h.subs, List.length_append, List.length_singleton] at hlt
  have hk : k = s.dev.hist.subs.length := by
    by_contra hne
    have hold : k < s.dev.hist.subs.length := by omega
    refine hnew ?_
    rw [History.reapedSeqs, h.reaped, h.posts]
    exact History.reaped_of_quiet hquiet hold
  refine ⟨hk, ?_⟩
  rw [h.subs, hk, List.getElem?_append_right le_rfl, Nat.sub_self] at hx
  cases hx
  exact hcid

/-- The completion of the command sent has been reaped, and the controller may have run since. -/
theorem Sys.Sent.synced {c : Command} {dev : Device} {sub : Sub} {e : CqEntry}
    (h : s.Sent ⟨s.q, dev⟩ sub) (hnone : sub.others = [])
    (hpost : dev.hist.posts[dev.hist.reaped]? = some (s.dev.hist.subs.length, e))
    (hcid : e.cid = s.dev.sqTail % 2 ^ 16) {s' : Sys} {res : ℕ} (hq : s'.q = s.q)
    (hl : dev.reap.Later s'.dev)
    (hdev : s'.dev.Inv (dev.hist.reaped + 1) (dev.hist.reaped + 1))
    (hres : waitStatus s.dev.sqTail e.completion = 0 → c.features = true → res = e.cs) :
    s.Synced c s' (waitStatus s.dev.sqTail e.completion, res) := by
  have hR : dev.hist.reaped = s.dev.hist.reaped := h.reaped
  have hreaped : s'.dev.hist.reaped = s.dev.hist.reaped + 1 := by
    rw [hl.reaped, ← hR]
    rfl
  obtain ⟨more, hmore⟩ := hl.posts
  change dev.hist.posts ++ more = _ at hmore
  have hlt := (List.getElem?_eq_some_iff.1 hpost).1
  refine ⟨hq, hl.size.trans h.size, ?_, ⟨sub, hl.subs.trans h.subs, hnone⟩, ?_,
    Or.inr ⟨hreaped, e, ?_, hcid, rfl, hres⟩⟩
  · rw [hreaped, ← hR]
    exact hdev
  · rw [← hmore, List.take_append_of_le_length (by omega)]
    exact h.posts
  · rw [← hmore, List.getElem?_append_left (by omega), ← hR]
    exact hpost

/-- **A synchronous command issued with nothing in flight waits for its own completion.** -/
theorem nvmeAcmd_spec {c : Command} (hc : c.sync = true)
    (h : s.dev.Inv s.dev.hist.reaped s.dev.hist.reaped) (hquiet : s.dev.hist.inFlight = []) :
    wp (nvmeAcmd E c) s (fun r s' => s.Synced c s' r) (fun _ _ => False) := by
  have hSR : s.dev.hist.subs.length = s.dev.hist.reaped := by
    have h1 := History.submitted_le_reaped hquiet
    have h2 := h.reaped_le_posted
    have h3 := h.posted_le
    have h4 := h.fetched_le
    omega
  unfold nvmeAcmd
  refine wp_bind_of (interfere_keeps s) ?_
  rintro - s₁ ⟨hq₁, hl₁, hinv₁⟩
  have h₁ := hinv₁ _ _ h
  rw [wp_bind, wp_get, wp_bind, wp_modify]
  have hcid := Command.entry_cid hc s₁.dev.sqTail (s₁.dev.sq s₁.dev.sqTail)
  rw [hl₁.sqTail] at hcid ⊢
  generalize c.entry s.dev.sqTail (s₁.dev.sq s.dev.sqTail) = e at hcid ⊢
  refine wp_bind_of (interfere_keeps _) ?_
  rintro - s₂ ⟨hq₂, hl₂, hinv₂⟩
  have h₂ := hinv₂ _ _ (h₁.fill e)
  have hfill : s₂.dev.sq s₂.dev.sqTail = e := by
    rw [hl₂.sq, hl₂.sqTail]
    exact Function.update_self _ _ _
  have hfilled : s₁.dev.hist.Same (s₁.dev.fill e).hist := ⟨rfl, rfl, rfl⟩
  have hsame₂ : s.dev.hist.Same s₂.dev.hist := ((hl₁.same h.reaped_le_posted).trans hfilled).trans
    (hl₂.same (h₁.fill e).reaped_le_posted)
  have hothers : s₂.dev.hist.inFlight = [] := by
    rw [List.eq_nil_iff_forall_not_mem] at hquiet ⊢
    intro x hx
    obtain ⟨k, hk⟩ := History.mem_inFlight.1 hx
    exact hquiet x (History.mem_inFlight.2 ⟨k, hsame₂.pending_iff.1 hk⟩)
  have hsize₂ : s₂.dev.size = s.dev.size := hl₂.size.trans hl₁.size
  have hq₂ : s₂.q = s.q := hq₂.trans hq₁
  rw [wp_bind, wp_modify, wp_bind, wp_get, hothers, hq₂]
  generalize hsub : (⟨e, s.q.nalloc, 0, 0, []⟩ : Nvme.Sub) = sub
  have hentry : sub.entry = e := by rw [← hsub]
  have hnone : sub.others = [] := by rw [← hsub]
  have hsent : s.Sent ⟨s.q, s₂.dev.submit sub⟩ sub := by
    have hposts := hsame₂.posts
    rw [hsame₂.reaped] at hposts
    refine ⟨rfl, hsize₂, ?_, hsame₂.reaped, hposts⟩
    show s₂.dev.hist.subs ++ [sub] = _
    rw [hsame₂.subs]
  have hroom : s₂.dev.hist.subs.length + 1 < s₂.dev.hist.reaped + s₂.dev.size := by
    have := h.two_le
    rw [hsame₂.subs, hsame₂.reaped, hsize₂]
    omega
  have h₃ := h₂.submit (by rw [hentry]; exact hfill) hroom
  rw [← hsent.reaped] at h₃
  refine wp_bind_of (Sync.nvmeWaitCompletion_spec s.dev.sqTail _ h₃) ?_
  rintro err s₄ ⟨dev, hsame, hsize, ⟨rfl, hdev, hlen, rfl⟩ | ⟨hdev, k, e', hpost, rfl, rfl⟩⟩
  · rw [hsent.reaped] at hdev hlen
    have hs₄ : s.Sent ⟨s.q, dev⟩ sub := hsent.same hsame rfl hsize
    rw [wp_ite, if_neg (fun hz => absurd hz.1 (by decide)), wp_pure]
    refine ⟨rfl, hs₄.size, ?_, ⟨sub, hs₄.subs, hnone⟩, hs₄.posts, Or.inl ⟨rfl, hs₄.reaped, hlen⟩⟩
    show dev.Inv dev.hist.reaped dev.hist.reaped
    rw [show dev.hist.reaped = s.dev.hist.reaped from hs₄.reaped]
    exact hdev
  · have hs₄ : s.Sent ⟨s.q, dev⟩ sub := hsent.same hsame rfl hsize
    obtain ⟨rfl, hcid'⟩ := hs₄.next hdev hquiet hpost
    rw [hentry, hcid] at hcid'
    have hR : dev.hist.reaped = s.dev.hist.reaped := hs₄.reaped
    rw [hsent.reaped, ← hR] at hdev
    have h₅ := hdev.reap rfl
    have hsubs : dev.hist.subs.length = dev.hist.reaped + 1 := by
      rw [show dev.hist.subs = _ from hs₄.subs, List.length_append, List.length_singleton, hR, hSR]
    rw [wp_ite]
    split
    · refine wp_bind_of (interfere_keeps _) ?_
      rintro - s₅ ⟨hq₅, hl₅, hinv₅⟩
      have h₆ := hinv₅ _ _ h₅
      rw [wp_bind, wp_get, wp_pure]
      refine hs₄.synced hnone hpost hcid' hq₅ hl₅ h₆ (fun _ _ => ?_)
      -- submissions and completions are in step, so the slot with the number of the tail is the one
      -- the completion was posted to
      obtain ⟨more, hmore⟩ := hl₅.posts
      change dev.hist.posts ++ more = _ at hmore
      have hpost₅ : s₅.dev.hist.posts[s.dev.hist.reaped]? = some (s.dev.hist.subs.length, e') := by
        rw [← hmore, ← hR, List.getElem?_append_left (List.getElem?_eq_some_iff.1 hpost).1]
        exact hpost
      have hlen : s₅.dev.hist.posts.length = s.dev.hist.reaped + 1 := by
        have h1 := h₆.posted_le
        have h2 := h₆.fetched_le
        have h3 : s₅.dev.hist.subs.length = dev.hist.subs.length := by rw [hl₅.subs]; rfl
        have h4 := (List.getElem?_eq_some_iff.1 hpost₅).1
        omega
      have hcs := h₆.csAt_last hpost₅ hlen
      rw [hl₅.size, show dev.reap.size = s.dev.size from hs₄.size, ← hSR, ← h.tail] at hcs
      exact hcs
    · next hnot =>
        rw [wp_pure]
        exact hs₄.synced hnone hpost hcid' rfl (Device.Later.refl _) h₅
          (fun h0 hf => absurd ⟨h0, hf⟩ hnot)

end Unvme.Core
