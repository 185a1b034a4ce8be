import Mathlib.Data.Finset.Card
import Mathlib.Data.Finset.Range
import Mathlib.Tactic.Ring

set_option autoImplicit false

/-! # Bit masks stored in 64-bit words

A set of small numbers kept as an array of 64-bit words: bit `c` lives in word `c >> 6` at position
`c & 63`. `WordMask.test`, `.set` and `.clear` are the usual word expressions; `WordMask.bits` is
the set a mask stands for, and the lemmas below say that the word operations are membership,
insertion and removal there, so users of a mask reason about a `Finset`. -/

namespace Unvme.Lib

/-- A bit mask as an array of words. -/
structure WordMask where
  words : List (BitVec 64)
  deriving DecidableEq, Repr

namespace WordMask

/-- The number of words. -/
def length (m : WordMask) : ℕ := m.words.length

/-- `(u64)1 << (c & 63)` -/
def bit (c : ℕ) : BitVec 64 := 1#64 <<< (c &&& 63)

/-- `mask[c >> 6]` -/
def word (m : WordMask) (c : ℕ) : BitVec 64 := m.words.getD (c >>> 6) 0#64

/-- `mask[c >> 6] & bit` -/
def test (m : WordMask) (c : ℕ) : Bool := m.word c &&& bit c != 0#64

/-- `mask[c >> 6] |= bit` -/
def set (m : WordMask) (c : ℕ) : WordMask := ⟨m.words.set (c >>> 6) (m.word c ||| bit c)⟩

/-- `mask[c >> 6] &= ~bit` -/
def clear (m : WordMask) (c : ℕ) : WordMask := ⟨m.words.set (c >>> 6) (m.word c &&& ~~~ bit c)⟩

/-- A mask of `n` zero words. -/
def zeros (n : ℕ) : WordMask := ⟨List.replicate n 0#64⟩

@[simp] theorem length_set (m : WordMask) (c : ℕ) : (m.set c).length = m.length := by
  simp [length, set]

@[simp] theorem length_clear (m : WordMask) (c : ℕ) : (m.clear c).length = m.length := by
  simp [length, clear]

@[simp] theorem length_zeros (n : ℕ) : (zeros n).length = n := by simp [length, zeros]

/-! ## The word expressions, bit by bit -/

theorem getLsbD_bit (c i : ℕ) : (bit c).getLsbD i = decide (i = c % 64) := by
  have hc : c &&& 63 = c % 64 := Nat.and_two_pow_sub_one_eq_mod c 6
  have hlt : c % 64 < 64 := Nat.mod_lt _ (by omega)
  rw [bit, hc]
  rcases Nat.lt_trichotomy i (c % 64) with h | h | h
  · simp [BitVec.getLsbD_shiftLeft, h, Nat.ne_of_lt h]
  · simp [h, hlt]
  · have hne : i ≠ c % 64 := Nat.ne_of_gt h
    have hsub : i - c % 64 ≠ 0 := by omega
    simp [BitVec.getLsbD_shiftLeft, hne, BitVec.getLsbD_one, hsub]

/-- Testing a bit reads one bit of one word. -/
theorem test_eq (m : WordMask) (c : ℕ) : m.test c = (m.word c).getLsbD (c % 64) := by
  have hlt : c % 64 < 64 := Nat.mod_lt _ (by omega)
  rw [test, Bool.eq_iff_iff, bne_iff_ne]
  constructor
  · intro hne
    by_contra hb
    apply hne
    apply BitVec.eq_of_getLsbD_eq
    intro i _
    rw [BitVec.getLsbD_and, getLsbD_bit c i, BitVec.getLsbD_zero]
    by_cases hic : i = c % 64
    · subst hic; simpa using hb
    · simp [hic]
  · intro hb hz
    have := congrArg (fun w => w.getLsbD (c % 64)) hz
    simp [BitVec.getLsbD_and, getLsbD_bit c (c % 64), hb] at this

theorem eq_of_word_bit {c c' : ℕ} (hw : c >>> 6 = c' >>> 6) (hb : c % 64 = c' % 64) : c = c' := by
  simp only [Nat.shiftRight_eq_div_pow] at hw
  omega

theorem word_set (m : WordMask) (c c' : ℕ) (hc : c / 64 < m.length) :
    (m.set c).word c' = if c' >>> 6 = c >>> 6 then m.word c ||| bit c else m.word c' := by
  have hlen : c >>> 6 < m.words.length := by
    rw [Nat.shiftRight_eq_div_pow]; exact hc
  by_cases h : c' >>> 6 = c >>> 6
  · rw [if_pos h]
    simp [set, word, h, List.getD_eq_getElem?_getD, hlen]
  · rw [if_neg h]
    simp [set, word, List.getD_eq_getElem?_getD, List.getElem?_set_ne (Ne.symm h)]

theorem word_clear (m : WordMask) (c c' : ℕ) (hc : c / 64 < m.length) :
    (m.clear c).word c' = if c' >>> 6 = c >>> 6 then m.word c &&& ~~~ bit c else m.word c' := by
  have hlen : c >>> 6 < m.words.length := by
    rw [Nat.shiftRight_eq_div_pow]; exact hc
  by_cases h : c' >>> 6 = c >>> 6
  · rw [if_pos h]
    simp [clear, word, h, List.getD_eq_getElem?_getD, hlen]
  · rw [if_neg h]
    simp [clear, word, List.getD_eq_getElem?_getD, List.getElem?_set_ne (Ne.symm h)]

/-- Setting a bit changes that bit only. -/
theorem test_set (m : WordMask) (c c' : ℕ) (hc : c / 64 < m.length) :
    (m.set c).test c' = (decide (c' = c) || m.test c') := by
  have hlt : c' % 64 < 64 := Nat.mod_lt _ (by omega)
  rw [test_eq, test_eq, word_set m c c' hc]
  by_cases hw : c' >>> 6 = c >>> 6
  · rw [if_pos hw, BitVec.getLsbD_or, getLsbD_bit c _]
    have hword : m.word c = m.word c' := by rw [word, word, hw]
    by_cases hb : c' % 64 = c % 64
    · have hcc : c' = c := eq_of_word_bit hw hb
      simp [hcc]
    · have hcc : c' ≠ c := fun he => hb (he ▸ rfl)
      simp [hb, hcc, hword]
  · have hcc : c' ≠ c := fun he => hw (he ▸ rfl)
    simp [hw, hcc]

/-- Clearing a bit changes that bit only. -/
theorem test_clear (m : WordMask) (c c' : ℕ) (hc : c / 64 < m.length) :
    (m.clear c).test c' = (!decide (c' = c) && m.test c') := by
  have hlt : c' % 64 < 64 := Nat.mod_lt _ (by omega)
  rw [test_eq, test_eq, word_clear m c c' hc]
  by_cases hw : c' >>> 6 = c >>> 6
  · rw [if_pos hw, BitVec.getLsbD_and, BitVec.getLsbD_not, getLsbD_bit c _]
    have hword : m.word c = m.word c' := by rw [word, word, hw]
    by_cases hb : c' % 64 = c % 64
    · have hcc : c' = c := eq_of_word_bit hw hb
      simp [hcc]
    · have hcc : c' ≠ c := fun he => hb (he ▸ rfl)
      simp [hb, hcc, hword, hlt]
  · have hcc : c' ≠ c := fun he => hw (he ▸ rfl)
    simp [hw, hcc]

/-- A set bit lies in an existing word. -/
theorem lt_of_test {m : WordMask} {c : ℕ} (h : m.test c = true) : c / 64 < m.length := by
  by_contra hge
  have hz : m.word c = 0#64 := by
    rw [word, Nat.shiftRight_eq_div_pow, List.getD_eq_getElem?_getD, List.getElem?_eq_none]
    · rfl
    · exact Nat.not_lt.1 hge
  rw [test_eq, hz] at h
  simp at h

/-! ## The set a mask stands for -/

/-- The set of bits that are set. -/
def bits (m : WordMask) : Finset ℕ := (Finset.range (64 * m.length)).filter (fun c => m.test c)

@[simp] theorem mem_bits {m : WordMask} {c : ℕ} : c ∈ m.bits ↔ m.test c = true := by
  simp only [bits, Finset.mem_filter, Finset.mem_range, and_iff_right_iff_imp]
  intro h
  have := lt_of_test h
  omega

theorem bits_set {m : WordMask} {c : ℕ} (hc : c / 64 < m.length) :
    (m.set c).bits = insert c m.bits := by
  ext x
  simp [test_set m c x hc]

theorem bits_clear {m : WordMask} {c : ℕ} (hc : c / 64 < m.length) :
    (m.clear c).bits = m.bits.erase c := by
  ext x
  simp [test_clear m c x hc]

@[simp] theorem bits_zeros (n : ℕ) : (zeros n).bits = ∅ := by
  ext x
  simp only [mem_bits, Finset.notMem_empty, iff_false]
  rw [test_eq, word, zeros, List.getD_eq_getElem?_getD, List.getElem?_replicate]
  split <;> simp

end WordMask

end Unvme.Lib
