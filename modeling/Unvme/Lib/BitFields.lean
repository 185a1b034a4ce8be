import Mathlib.Data.Nat.Basic
import Mathlib.Tactic.Ring

set_option autoImplicit false

/-! # Bit fields

Members of a C bit field or of a register word: `bits off len v` is the field of `len` bits at `off` of
`v`, and `setBits off len x v` assigns `x` to it, truncated to the field. An assigned field reads back
(`bits_setBits`) and leaves the disjoint ones alone (`bits_setBits_of_disjoint`). -/

namespace Unvme.Lib

/-- Read a field. -/
def bits (off len v : ℕ) : ℕ := v / 2 ^ off % 2 ^ len

/-- Assign a field. -/
def setBits (off len x v : ℕ) : ℕ :=
  2 ^ off * (2 ^ len * (v / 2 ^ (off + len)) + x % 2 ^ len) + v % 2 ^ off

theorem bits_lt (off len v : ℕ) : bits off len v < 2 ^ len := Nat.mod_lt _ (Nat.two_pow_pos len)

theorem testBit_bits (off len v i : ℕ) :
    (bits off len v).testBit i = (decide (i < len) && v.testBit (i + off)) := by
  rw [bits, Nat.testBit_mod_two_pow, Nat.testBit_div_two_pow]

theorem testBit_setBits (off len x v i : ℕ) : (setBits off len x v).testBit i =
    if off ≤ i ∧ i < off + len then x.testBit (i - off) else v.testBit i := by
  rw [setBits, Nat.testBit_two_pow_mul_add _ (Nat.mod_lt _ (Nat.two_pow_pos off)),
    Nat.testBit_two_pow_mul_add _ (Nat.mod_lt _ (Nat.two_pow_pos len))]
  by_cases hlo : i < off
  · rw [if_pos hlo, if_neg (by omega), Nat.testBit_mod_two_pow, decide_eq_true hlo, Bool.true_and]
  · rw [if_neg hlo]
    by_cases hhi : i - off < len
    · rw [if_pos hhi, if_pos (by omega), Nat.testBit_mod_two_pow, decide_eq_true hhi, Bool.true_and]
    · rw [if_neg hhi, if_neg (by omega), Nat.testBit_div_two_pow]
      congr 1
      omega

/-- The field that was assigned. -/
theorem bits_setBits (off len x v : ℕ) : bits off len (setBits off len x v) = x % 2 ^ len := by
  refine Nat.eq_of_testBit_eq (fun i => ?_)
  rw [testBit_bits, Nat.testBit_mod_two_pow, testBit_setBits]
  by_cases hi : i < len
  · rw [if_pos (by omega), Nat.add_sub_cancel]
  · rw [decide_eq_false hi, Bool.false_and, Bool.false_and]

/-- Another field. -/
theorem bits_setBits_of_disjoint {off len off' len' : ℕ} (x v : ℕ)
    (h : off' + len' ≤ off ∨ off + len ≤ off') :
    bits off' len' (setBits off len x v) = bits off' len' v := by
  refine Nat.eq_of_testBit_eq (fun i => ?_)
  rw [testBit_bits, testBit_bits, testBit_setBits]
  by_cases hi : i < len'
  · rw [if_neg (by omega)]
  · rw [decide_eq_false hi, Bool.false_and, Bool.false_and]

/-- The low part of a field. -/
theorem bits_mod {off len len' : ℕ} (h : len' ≤ len) (v : ℕ) :
    bits off len v % 2 ^ len' = bits off len' v :=
  Nat.mod_mod_of_dvd _ (Nat.pow_dvd_pow 2 h)

/-- A register is wide enough for its fields. -/
theorem bits_mod_two_pow {off len w : ℕ} (h : off + len ≤ w) (v : ℕ) :
    bits off len (v % 2 ^ w) = bits off len v := by
  refine Nat.eq_of_testBit_eq (fun i => ?_)
  rw [testBit_bits, testBit_bits, Nat.testBit_mod_two_pow]
  by_cases hi : i < len
  · rw [decide_eq_true (show i + off < w by omega), Bool.true_and]
  · rw [decide_eq_false hi, Bool.false_and, Bool.false_and]

end Unvme.Lib
