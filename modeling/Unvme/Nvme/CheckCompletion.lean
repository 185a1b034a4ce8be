import Unvme.Nvme.CompletionRing

set_option autoImplicit false

/-! # The completion ring refines a FIFO

One consumer calling `nvme_check_completion` again and again, one controller posting whenever there
is room, interleaved access by access: the controller may post between any two accesses of a call,
in particular between the doorbell write and the final read of `cqe->cid`. The abstract side is a
FIFO of the posted completions: a call that does not return -1 takes its front, and a call returns
-1 only when it is empty. -/

namespace Unvme.Nvme

open Unvme.Lib

/-- The point a call of `nvme_check_completion` has reached, with what it has read so far. -/
inductive CheckPc where
  | enter
  | readStat (slot : ℕ)
  | advance (slot stat : ℕ)
  | readCs (slot stat : ℕ)
  | ring (slot stat cs : ℕ)
  | readCid (slot stat cs : ℕ)
  deriving DecidableEq, Repr

/-- The next access of a call. The last component is the call's result when it returns; -1 is
    `none`. -/
def checkStep (r : CqRing) : CheckPc → CqRing × CheckPc × Option (Option Completion)
  | .enter =>
      if r.pending then (r, .readStat r.cqHead, none) else (r, .enter, some none)
  | .readStat slot => (r, .advance slot (r.statAt slot), none)
  | .advance slot stat => (r.advance, .readCs slot stat, none)
  | .readCs slot stat => (r, .ring slot stat (r.csAt slot), none)
  | .ring slot stat cs => (r.ring, .readCid slot stat cs, none)
  | .readCid slot stat cs => (r, .enter, some (some ⟨r.cidAt slot, stat, cs⟩))

/-- Ring, consumer, and what has been posted and returned so far. -/
structure CheckSys where
  ring : CqRing
  pc : CheckPc
  posted : List CqEntry
  results : List (Option Completion)

/-- One step of the consumer or of the controller. -/
inductive CheckAct where
  | drive
  | post (e : CqEntry)
  deriving DecidableEq, Repr

def CheckSys.init (size : ℕ) : CheckSys := ⟨CqRing.init size, .enter, [], []⟩

/-- A post without room does not happen. -/
def CheckSys.step (s : CheckSys) : CheckAct → CheckSys
  | .drive =>
      let next := checkStep s.ring s.pc
      { s with ring := next.1, pc := next.2.1, results := s.results ++ next.2.2.toList }
  | .post e =>
      if s.ring.canPost then { s with ring := s.ring.post e, posted := s.posted ++ [e] } else s

def CheckSys.run (size : ℕ) (acts : List CheckAct) : CheckSys :=
  acts.foldl CheckSys.step (CheckSys.init size)

/-- The completions returned so far. -/
def CheckSys.returned (s : CheckSys) : List Completion := s.results.filterMap id

/-! ## The invariant, point by point -/

/-- A call that is past its phase test is consuming entry `k`, whose slot it keeps. -/
def Consuming (r : CqRing) (posted : List CqEntry) (k slot : ℕ) (e : CqEntry) : Prop :=
  posted[k]? = some e ∧ slot = k % r.size

/-- What holds at each point of a call that started after `k` completions. -/
def CheckPc.Inv (r : CqRing) (posted : List CqEntry) (k : ℕ) : CheckPc → Prop
  | .enter => r.Inv posted k k
  | .readStat slot => r.Inv posted k k ∧ ∃ e, Consuming r posted k slot e
  | .advance slot stat => r.Inv posted k k ∧ ∃ e, Consuming r posted k slot e ∧ stat = e.stat
  | .readCs slot stat =>
      r.Inv posted (k + 1) k ∧ ∃ e, Consuming r posted k slot e ∧ stat = e.stat
  | .ring slot stat cs =>
      r.Inv posted (k + 1) k ∧ ∃ e, Consuming r posted k slot e ∧ stat = e.stat ∧ cs = e.cs
  | .readCid slot stat cs =>
      r.Inv posted (k + 1) (k + 1) ∧
        ∃ e, Consuming r posted k slot e ∧ stat = e.stat ∧ cs = e.cs

/-- The entry under consumption stays in its slot: even after the doorbell the controller may only
    post `size - 1` entries beyond the new head. -/
theorem Consuming.slot_eq {r : CqRing} {posted : List CqEntry} {k k' j slot : ℕ} {e : CqEntry}
    (hc : Consuming r posted k slot e) (h : r.Inv posted k' j) (hj : j ≤ k + 1) :
    r.cq slot = e.tagged ((k / r.size + 1) % 2) := by
  rw [hc.2]
  exact h.slot k e hc.1 (by have := h.room; omega)

theorem Consuming.append {r r' : CqRing} {posted : List CqEntry} {k slot : ℕ} {e : CqEntry}
    (hc : Consuming r posted k slot e) (hsz : r'.size = r.size) (e' : CqEntry) :
    Consuming r' (posted ++ [e']) k slot e := by
  refine ⟨?_, hsz ▸ hc.2⟩
  rw [List.getElem?_append_left (List.getElem?_eq_some_iff.1 hc.1).1]
  exact hc.1

/-- `CheckPc.Inv` with the returned completions. -/
structure CheckSys.Inv (s : CheckSys) : Prop where
  fifo : s.returned = (s.posted.map CqEntry.completion).take s.returned.length
  point : s.pc.Inv s.ring s.posted s.returned.length

theorem CheckSys.Inv.init {size : ℕ} (h : 2 ≤ size) : (CheckSys.init size).Inv where
  fifo := by simp [CheckSys.init, CheckSys.returned]
  point := by
    show (CqRing.init size).Inv [] 0 0
    exact CqRing.Inv.init h

theorem CheckPc.Inv.post {r : CqRing} {posted : List CqEntry} {k : ℕ} {pc : CheckPc}
    (h : pc.Inv r posted k) (hc : r.canPost = true) (e : CqEntry) :
    pc.Inv (r.post e) (posted ++ [e]) k := by
  cases pc with
  | enter => exact CqRing.Inv.post h hc e
  | readStat slot =>
      obtain ⟨hi, e', hcon⟩ := h
      exact ⟨hi.post hc e, e', hcon.append rfl e⟩
  | advance slot stat =>
      obtain ⟨hi, e', hcon, hst⟩ := h
      exact ⟨hi.post hc e, e', hcon.append rfl e, hst⟩
  | readCs slot stat =>
      obtain ⟨hi, e', hcon, hst⟩ := h
      exact ⟨hi.post hc e, e', hcon.append rfl e, hst⟩
  | ring slot stat cs =>
      obtain ⟨hi, e', hcon, hst⟩ := h
      exact ⟨hi.post hc e, e', hcon.append rfl e, hst⟩
  | readCid slot stat cs =>
      obtain ⟨hi, e', hcon, hst⟩ := h
      exact ⟨hi.post hc e, e', hcon.append rfl e, hst⟩

theorem CheckSys.Inv.post {s : CheckSys} (h : s.Inv) (e : CqEntry) : (s.step (.post e)).Inv := by
  simp only [CheckSys.step]
  split
  · next hc =>
      refine ⟨?_, h.point.post hc e⟩
      have hle : s.returned.length ≤ (s.posted.map CqEntry.completion).length := by
        have := congrArg List.length h.fifo
        rw [List.length_take] at this
        omega
      show s.returned = ((s.posted ++ [e]).map CqEntry.completion).take s.returned.length
      rw [List.map_append, List.take_append_of_le_length hle]
      exact h.fifo
  · exact h

/-- What one access does, by the point of the call: only the last one returns a completion, and
    that is the next one of the FIFO. -/
theorem checkStep_inv {r : CqRing} {posted : List CqEntry} {k : ℕ} {pc : CheckPc}
    (h : pc.Inv r posted k) :
    match (checkStep r pc).2.2 with
    | none => (checkStep r pc).2.1.Inv (checkStep r pc).1 posted k
    | some none => k = posted.length ∧ (checkStep r pc).2.1.Inv (checkStep r pc).1 posted k
    | some (some c) => (posted.map CqEntry.completion)[k]? = some c ∧
        (checkStep r pc).2.1.Inv (checkStep r pc).1 posted (k + 1) := by
  cases pc with
  | enter =>
      have hi : r.Inv posted k k := h
      have hpend := hi.pending_iff
      by_cases hp : r.pending = true
      · have hk : k < posted.length := hpend.1 hp
        simp only [checkStep, if_pos hp]
        exact ⟨hi, posted[k], List.getElem?_eq_getElem hk, hi.head⟩
      · have hk : ¬ k < posted.length := fun hk => hp (hpend.2 hk)
        simp only [checkStep, if_neg hp]
        exact ⟨by have := hi.consumed; omega, hi⟩
  | readStat slot =>
      obtain ⟨hi, e, hcon⟩ := h
      refine ⟨hi, e, hcon, ?_⟩
      rw [CqRing.statAt, hcon.slot_eq hi (by omega)]
      exact e.tagged_stat (Nat.mod_lt _ (by omega))
  | advance slot stat =>
      obtain ⟨hi, e, hcon, hst⟩ := h
      have hk : k < posted.length := (List.getElem?_eq_some_iff.1 hcon.1).1
      have hsz : r.advance.size = r.size := by unfold CqRing.advance; split <;> rfl
      exact ⟨hi.advance hk, e, ⟨hcon.1, hcon.2.trans (by rw [← hsz]; rfl)⟩, hst⟩
  | readCs slot stat =>
      obtain ⟨hi, e, hcon, hst⟩ := h
      refine ⟨hi, e, hcon, hst, ?_⟩
      rw [CqRing.csAt, hcon.slot_eq hi (by omega)]
      rfl
  | ring slot stat cs =>
      obtain ⟨hi, e, hcon, hst⟩ := h
      exact ⟨hi.ring, e, hcon, hst⟩
  | readCid slot stat cs =>
      obtain ⟨hi, e, hcon, hst, hcs⟩ := h
      refine ⟨?_, hi⟩
      have hcid : r.cidAt slot = e.cid := by
        rw [CqRing.cidAt, hcon.slot_eq hi (by omega)]
        rfl
      rw [List.getElem?_map, hcon.1, hcid, hst, hcs]
      rfl

theorem CheckSys.Inv.drive {s : CheckSys} (h : s.Inv) : (s.step .drive).Inv := by
  have hstep := checkStep_inv h.point
  have hret : (s.step .drive).returned
      = s.returned ++ (checkStep s.ring s.pc).2.2.toList.filterMap id := by
    simp [CheckSys.step, CheckSys.returned]
  rcases hres : (checkStep s.ring s.pc).2.2 with _ | _ | c
  · rw [hres] at hstep hret
    simp only [Option.toList_none, List.filterMap_nil, List.append_nil] at hret
    exact ⟨by rw [hret]; exact h.fifo, by rw [hret]; exact hstep⟩
  · rw [hres] at hstep hret
    replace hret : (s.step .drive).returned = s.returned := by simpa using hret
    exact ⟨by rw [hret]; exact h.fifo, by rw [hret]; exact hstep.2⟩
  · rw [hres] at hstep hret
    replace hret : (s.step .drive).returned = s.returned ++ [c] := by simpa using hret
    have hlen : (s.step .drive).returned.length = s.returned.length + 1 := by rw [hret]; simp
    refine ⟨?_, by rw [hlen]; exact hstep.2⟩
    rw [hlen, hret]
    show s.returned ++ [c] = (s.posted.map CqEntry.completion).take (s.returned.length + 1)
    rw [List.take_add_one, hstep.1, ← h.fifo]
    rfl

theorem CheckSys.run_inv {size : ℕ} (hsize : 2 ≤ size) (acts : List CheckAct) :
    (CheckSys.run size acts).Inv := by
  suffices ∀ s : CheckSys, s.Inv → (acts.foldl CheckSys.step s).Inv from
    this _ (CheckSys.Inv.init hsize)
  induction acts with
  | nil => intro s hs; exact hs
  | cons a rest ih =>
      intro s hs
      refine ih _ ?_
      cases a with
      | drive => exact hs.drive
      | post e => exact hs.post e

/-! ## The refinement -/

/-- **The completion ring refines a FIFO.** After any interleaving of accesses and posts, the calls
    that did not return -1 returned the posted completions in posting order, each once; and the next
    access returns -1 only if every posted completion has been returned. -/
theorem nvmeCheckCompletion_refines_fifo {size : ℕ} (hsize : 2 ≤ size) (acts : List CheckAct) :
    let s := CheckSys.run size acts
    s.returned <+: s.posted.map CqEntry.completion ∧
      ((checkStep s.ring s.pc).2.2 = some none →
        s.returned = s.posted.map CqEntry.completion) := by
  intro s
  have h : s.Inv := CheckSys.run_inv hsize acts
  refine ⟨h.fifo ▸ List.take_prefix _ _, fun hnone => ?_⟩
  have hstep := checkStep_inv h.point
  rw [hnone] at hstep
  have hfifo := h.fifo
  rw [hstep.1] at hfifo
  rw [hfifo, List.take_of_length_le (by simp)]

/-- Three posts and two calls on the smallest ring; the second post arrives between the doorbell
    write and the `cid` read of the first call, the third finds no room. -/
theorem nvmeCheckCompletion_refines_fifo_two :
    let acts : List CheckAct :=
      [.post ⟨7, 0, 0, 3, 4⟩, .drive, .drive, .drive, .drive, .drive, .post ⟨9, 0, 0, 5, 0⟩,
        .drive, .post ⟨1, 0, 0, 1, 0⟩, .drive, .drive, .drive, .drive, .drive, .drive]
    2 ≤ 2 ∧ (CheckSys.run 2 acts).returned = [⟨3, 4, 7⟩, ⟨5, 0, 9⟩] ∧
      (CheckSys.run 2 acts).returned <+: (CheckSys.run 2 acts).posted.map CqEntry.completion := by
  intro acts
  exact ⟨le_rfl, by decide, (nvmeCheckCompletion_refines_fifo le_rfl acts).1⟩

end Unvme.Nvme
