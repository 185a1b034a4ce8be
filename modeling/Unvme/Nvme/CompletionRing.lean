import Unvme.Lib.RingIndex

set_option autoImplicit false

/-! # The completion ring (`nvme_check_completion`)

The completion half of `nvme_queue_t` together with the two registers the controller keeps for it:
the next slot it posts to and the phase tag it posts with. The driver only holds `cq_head` and the
phase `cq_phase` of the entries it has already consumed; an entry is new when its phase tag differs.

`nvme_check_completion` touches memory the controller writes concurrently, so its body is given as
the separate accesses it makes (`CqRing.pending`, `.statAt`, `.advance`, `.csAt`, `.ring`,
`.cidAt`), in the order of the source. -/

namespace Unvme.Nvme

open Unvme.Lib

/-- Completion queue entry (`nvme_cq_entry_t`); `psf` holds the phase tag in bit 0. -/
structure CqEntry where
  cs : ℕ
  sqhd : ℕ
  sqid : ℕ
  cid : ℕ
  psf : ℕ
  deriving DecidableEq, Repr

/-- Phase tag bit. -/
def CqEntry.p (e : CqEntry) : ℕ := e.psf % 2

/-- `psf & 0xfffe` -/
def CqEntry.stat (e : CqEntry) : ℕ := e.psf &&& 0xfffe

/-- The entry as the controller stores it, with phase tag `t`. -/
def CqEntry.tagged (e : CqEntry) (t : ℕ) : CqEntry := { e with psf := e.stat + t }

/-- What a call of `nvme_check_completion` that does not return -1 reports. -/
structure Completion where
  cid : ℕ
  stat : ℕ
  cs : ℕ
  deriving DecidableEq, Repr

/-- The completion an entry reports. -/
def CqEntry.completion (e : CqEntry) : Completion := ⟨e.cid, e.stat, e.cs⟩

/-- The completion ring: `cq`, `cq_head` and `cq_phase` of `nvme_queue_t`, the doorbell register,
    and the controller's own slot and phase tag. -/
structure CqRing where
  size : ℕ
  cq : ℕ → CqEntry
  cqHead : ℕ
  cqPhase : ℕ
  cqDoorbell : ℕ
  cqTail : ℕ
  tag : ℕ

/-- A zeroed ring, nothing posted yet. -/
def CqRing.init (size : ℕ) : CqRing where
  size := size
  cq := fun _ => ⟨0, 0, 0, 0, 0⟩
  cqHead := 0
  cqPhase := 0
  cqDoorbell := 0
  cqTail := 0
  tag := 1

/-! ## The accesses of `nvme_check_completion` -/

/-- `cqe->p != q->cq_phase` -/
def CqRing.pending (r : CqRing) : Bool := (r.cq r.cqHead).p != r.cqPhase

/-- `*stat = cqe->psf & 0xfffe` -/
def CqRing.statAt (r : CqRing) (slot : ℕ) : ℕ := (r.cq slot).stat

/-- `if (++q->cq_head == q->size) { q->cq_head = 0; q->cq_phase = !q->cq_phase; }` -/
def CqRing.advance (r : CqRing) : CqRing :=
  if r.cqHead + 1 = r.size then
    { r with cqHead := 0, cqPhase := if r.cqPhase = 0 then 1 else 0 }
  else { r with cqHead := r.cqHead + 1 }

/-- `*cqe_cs = cqe->cs` -/
def CqRing.csAt (r : CqRing) (slot : ℕ) : ℕ := (r.cq slot).cs

/-- `w32(q->dev, q->cq_doorbell, q->cq_head)` -/
def CqRing.ring (r : CqRing) : CqRing := { r with cqDoorbell := r.cqHead }

/-- `cqe->cid` -/
def CqRing.cidAt (r : CqRing) (slot : ℕ) : ℕ := (r.cq slot).cid

/-! ## The controller's side -/

/-- Room for one more entry: at most `size - 1` beyond the last head written to the doorbell. -/
def CqRing.canPost (r : CqRing) : Bool := (r.cqTail + 1) % r.size != r.cqDoorbell

/-- Post `e` in the next slot; the phase tag is inverted on each wrap. -/
def CqRing.post (r : CqRing) (e : CqEntry) : CqRing :=
  { r with
    cq := Function.update r.cq r.cqTail (e.tagged r.tag)
    cqTail := wrapSucc r.size r.cqTail
    tag := if r.cqTail + 1 = r.size then 1 - r.tag else r.tag }

@[simp] theorem CqRing.post_size (r : CqRing) (e : CqEntry) : (r.post e).size = r.size := rfl

/-! ## The ring against the list of entries ever posted -/

/-- `k` of the entries `posted` so far are consumed, and `j` of those are acknowledged to the
    controller. The last lap of posted entries is still in the ring, the phase tags tell the laps
    apart, and a slot never posted to still has tag 0. -/
structure CqRing.Inv (r : CqRing) (posted : List CqEntry) (k j : ℕ) : Prop where
  two_le : 2 ≤ r.size
  head : r.cqHead = k % r.size
  phase : r.cqPhase = k / r.size % 2
  bell : r.cqDoorbell = j % r.size
  tail : r.cqTail = posted.length % r.size
  tag : r.tag = (posted.length / r.size + 1) % 2
  acked : j ≤ k
  consumed : k ≤ posted.length
  room : posted.length < j + r.size
  slot : ∀ i e, posted[i]? = some e → posted.length ≤ i + r.size →
    r.cq (i % r.size) = e.tagged ((i / r.size + 1) % 2)
  fresh : ∀ i, i < r.size → posted.length ≤ i → (r.cq i).p = 0

theorem CqEntry.stat_even (e : CqEntry) : e.stat % 2 = 0 := by
  have h := Nat.and_mod_two_pow (a := e.psf) (b := 0xfffe) (n := 1)
  simpa [CqEntry.stat] using h

theorem CqEntry.tagged_p (e : CqEntry) {t : ℕ} (ht : t < 2) : (e.tagged t).p = t := by
  have := e.stat_even
  simp only [CqEntry.p, CqEntry.tagged]
  omega

theorem CqEntry.tagged_stat (e : CqEntry) {t : ℕ} (ht : t < 2) : (e.tagged t).stat = e.stat := by
  -- the status word is even, so adding the tag only sets bit 0, which the mask drops again
  have hsplit : ∀ x : ℕ, x &&& 0xfffe = 2 * (x / 2 &&& 0x7fff) := by
    intro x
    have hmod : (x &&& 0xfffe) % 2 = 0 := by
      simpa using Nat.and_mod_two_pow (a := x) (b := 0xfffe) (n := 1)
    have hdiv : (x &&& 0xfffe) / 2 = x / 2 &&& 0x7fff := by
      simpa using Nat.and_div_two_pow (a := x) (b := 0xfffe) (n := 1)
    omega
  have hhalf : (2 * (e.psf / 2 &&& 0x7fff) + t) / 2 = e.psf / 2 &&& 0x7fff := by omega
  simp only [CqEntry.tagged, CqEntry.stat]
  rw [hsplit e.psf, hsplit (2 * _ + t), hhalf, Nat.and_assoc, Nat.and_self]

namespace CqRing.Inv

variable {r : CqRing} {posted : List CqEntry} {k j : ℕ}

theorem init {size : ℕ} (h : 2 ≤ size) : (CqRing.init size).Inv [] 0 0 where
  two_le := h
  head := by simp [CqRing.init]
  phase := by simp [CqRing.init]
  bell := by simp [CqRing.init]
  tail := by simp [CqRing.init]
  tag := by simp [CqRing.init]
  acked := le_rfl
  consumed := le_rfl
  room := by simp [CqRing.init]; omega
  slot := by simp
  fresh := by simp [CqRing.init, CqEntry.p]

/-- The entry to consume next is in the head slot, with the tag of its lap. -/
theorem at_head (h : r.Inv posted k j) {e : CqEntry} (he : posted[k]? = some e) :
    r.cq r.cqHead = e.tagged ((k / r.size + 1) % 2) := by
  rw [h.head]
  exact h.slot k e he (by have := h.room; have := h.acked; omega)

/-- **An entry is pending exactly when one is posted and not yet consumed.** -/
theorem pending_iff (h : r.Inv posted k j) : r.pending = true ↔ k < posted.length := by
  have hN : 0 < r.size := by have := h.two_le; omega
  simp only [CqRing.pending, bne_iff_ne, h.phase]
  constructor
  · intro hp
    by_contra hk
    have hk : k = posted.length := by have := h.consumed; omega
    apply hp
    by_cases hlap : posted.length < r.size
    · -- first lap: the head slot was never posted to
      rw [h.head, hk, Nat.mod_eq_of_lt hlap, Nat.div_eq_of_lt hlap]
      exact h.fresh _ hlap le_rfl
    · -- the head slot still holds the entry of the previous lap
      have hi : posted.length - r.size < posted.length := by omega
      have hslot := h.slot (posted.length - r.size) _ (List.getElem?_eq_getElem hi) (by omega)
      have heq : k = posted.length - r.size + r.size := by omega
      have hdiv : k / r.size = (posted.length - r.size) / r.size + 1 := by
        rw [heq]; exact add_self_div hN _
      have hmod : k % r.size = (posted.length - r.size) % r.size := by
        rw [heq, Nat.add_mod_right]
      rw [h.head, hmod, hslot, CqEntry.tagged_p _ (Nat.mod_lt _ (by omega)), hdiv]
  · intro hk
    rw [h.at_head (List.getElem?_eq_getElem hk), CqEntry.tagged_p _ (Nat.mod_lt _ (by omega))]
    omega

theorem advance (h : r.Inv posted k j) (hk : k < posted.length) :
    r.advance.Inv posted (k + 1) j := by
  have hN : 0 < r.size := by have := h.two_le; omega
  have hsz : r.advance.size = r.size := by unfold CqRing.advance; split <;> rfl
  have hcq : r.advance.cq = r.cq := by unfold CqRing.advance; split <;> rfl
  have hdb : r.advance.cqDoorbell = r.cqDoorbell := by unfold CqRing.advance; split <;> rfl
  have htl : r.advance.cqTail = r.cqTail := by unfold CqRing.advance; split <;> rfl
  have htg : r.advance.tag = r.tag := by unfold CqRing.advance; split <;> rfl
  have hhead : r.advance.cqHead = (k + 1) % r.size := by
    rw [← wrapSucc_mod hN, ← h.head]
    unfold CqRing.advance wrapSucc
    split <;> rfl
  have hphase : r.advance.cqPhase = (k + 1) / r.size % 2 := by
    have hp := h.phase
    unfold CqRing.advance
    split
    · next hw =>
        rw [succ_div_of_wrap hN (h.head ▸ hw)]
        dsimp only
        split <;> omega
    · next hw =>
        rw [succ_div_of_not_wrap hN (h.head ▸ hw)]
        exact hp
  refine ⟨?_, ?_, ?_, ?_, ?_, ?_, ?_, ?_, ?_, ?_, ?_⟩ <;> try rw [hsz]
  · exact h.two_le
  · exact hhead
  · exact hphase
  · rw [hdb]; exact h.bell
  · rw [htl]; exact h.tail
  · rw [htg]; exact h.tag
  · have := h.acked; omega
  · omega
  · exact h.room
  · rw [hcq]; exact h.slot
  · rw [hcq]; exact h.fresh

theorem ring (h : r.Inv posted k j) : r.ring.Inv posted k k where
  two_le := h.two_le
  head := h.head
  phase := h.phase
  bell := h.head
  tail := h.tail
  tag := h.tag
  acked := le_rfl
  consumed := h.consumed
  room := by
    have h1 := h.room
    have h2 := h.acked
    show posted.length < k + r.size
    omega
  slot := h.slot
  fresh := h.fresh

/-- Posting where there is room appends the entry and disturbs none still in the ring. -/
theorem post (h : r.Inv posted k j) (hc : r.canPost = true) (e : CqEntry) :
    (r.post e).Inv (posted ++ [e]) k j := by
  have hN : 0 < r.size := by have := h.two_le; omega
  -- the test on the slots is the bound on the counts
  have hroom : posted.length + 1 < j + r.size := by
    by_contra hge
    have hfull : posted.length + 1 = j + r.size := by have := h.room; omega
    have : (r.cqTail + 1) % r.size = r.cqDoorbell := by
      rw [h.tail, Nat.mod_add_mod, hfull, Nat.add_mod_right, h.bell]
    simp [CqRing.canPost, this] at hc
  refine ⟨h.two_le, h.head, h.phase, h.bell, ?_, ?_, h.acked, ?_, ?_, ?_, ?_⟩
  · show wrapSucc r.size r.cqTail = (posted ++ [e]).length % r.size
    rw [h.tail, wrapSucc_mod hN, List.length_append, List.length_singleton]
  · show (if r.cqTail + 1 = r.size then 1 - r.tag else r.tag) = _
    have ht := h.tag
    rw [List.length_append, List.length_singleton, CqRing.post_size]
    split
    · next hw => rw [succ_div_of_wrap hN (h.tail ▸ hw)]; omega
    · next hw => rw [succ_div_of_not_wrap hN (h.tail ▸ hw)]; exact ht
  · have := h.consumed
    simp only [List.length_append, List.length_singleton]
    omega
  · simpa using hroom
  · intro i e' he' hlap
    simp only [List.length_append, List.length_singleton, CqRing.post_size] at hlap
    show Function.update r.cq r.cqTail (e.tagged r.tag) (i % r.size) = _
    rcases Nat.lt_trichotomy i posted.length with hi | hi | hi
    · rw [List.getElem?_append_left hi] at he'
      have hne : i % r.size ≠ r.cqTail := by
        rw [h.tail]
        exact mod_ne_of_lt hi (by omega)
      rw [Function.update_of_ne hne]
      exact h.slot i e' he' (by omega)
    · subst hi
      simp only [List.getElem?_concat_length, Option.some.injEq] at he'
      rw [← h.tail, Function.update_self, h.tag, he']
      rfl
    · rw [List.getElem?_eq_none (by simp; omega)] at he'
      exact absurd he' (by simp)
  · intro i hi hlen
    simp only [List.length_append, List.length_singleton] at hlen
    have hne : i ≠ r.cqTail := by
      rw [h.tail, Nat.mod_eq_of_lt (show posted.length < r.size by
        have : i < r.size := hi
        omega)]
      omega
    show (Function.update r.cq r.cqTail (e.tagged r.tag) i).p = 0
    rw [Function.update_of_ne hne]
    exact h.fresh i hi (by omega)

end CqRing.Inv

end Unvme.Nvme
