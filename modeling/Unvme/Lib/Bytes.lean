import Mathlib.Data.Nat.ModEq
import Mathlib.Tactic.Ring

set_option autoImplicit false

/-! # Fields in a block of bytes

A block of `n` bytes in which little-endian fields are stored at byte offsets, as a C struct overlaid
on raw memory has them. `putField` stores a field, `getField` reads one, `clear` zeroes the first bytes.
Reading a stored field gives the value modulo its width (`getField_putField`), and fields that do not
overlap are independent (`getField_putField_of_disjoint`). -/

namespace Unvme.Lib

/-- A block of `n` bytes. -/
abbrev Block (n : ℕ) := Fin n → BitVec 8

namespace Block

variable {n : ℕ}

/-- Zero the first `len` bytes. -/
def clear (s : Block n) (len : ℕ) : Block n := fun i => if i.val < len then 0 else s i

/-- Store `v` in the `len` bytes at offset `off`, least significant byte first. -/
def putField (s : Block n) (off len v : ℕ) : Block n :=
  fun i => if off ≤ i.val ∧ i.val < off + len then BitVec.ofNat 8 (v / 256 ^ (i.val - off)) else s i

/-- The byte at offset `off`, zero outside the block. -/
def byte (s : Block n) (off : ℕ) : ℕ := if h : off < n then (s ⟨off, h⟩).toNat else 0

/-- The number in the `len` bytes at offset `off`. -/
def getField (s : Block n) : ℕ → ℕ → ℕ
  | _, 0 => 0
  | off, len + 1 => s.byte off + 256 * s.getField (off + 1) len

/-- Bytes that are the digits of a number make a field with that number. -/
theorem getField_eq (s : Block n) (len : ℕ) {off v : ℕ}
    (h : ∀ k < len, s.byte (off + k) = v / 256 ^ k % 256) : s.getField off len = v % 256 ^ len := by
  induction len generalizing off v with
  | zero => rw [getField, Nat.pow_zero, Nat.mod_one]
  | succ len ih =>
      have hrest : s.getField (off + 1) len = v / 256 % 256 ^ len := by
        apply ih
        intro k hk
        have hk' := h (k + 1) (by omega)
        rw [Nat.pow_succ', ← Nat.div_div_eq_div_mul] at hk'
        rw [← hk', Nat.add_right_comm, Nat.add_assoc]
      have hfirst := h 0 (by omega)
      rw [Nat.pow_zero, Nat.div_one, Nat.add_zero] at hfirst
      rw [getField, hfirst, hrest, Nat.pow_succ', Nat.mod_mul]

/-- Fields depend on their own bytes only. -/
theorem getField_congr {s s' : Block n} (len : ℕ) {off : ℕ}
    (h : ∀ k < len, s.byte (off + k) = s'.byte (off + k)) :
    s.getField off len = s'.getField off len := by
  induction len generalizing off with
  | zero => rfl
  | succ len ih =>
      have hrest : s.getField (off + 1) len = s'.getField (off + 1) len := by
        apply ih
        intro k hk
        rw [Nat.add_right_comm, Nat.add_assoc]
        exact h (k + 1) (by omega)
      have hfirst : s.byte off = s'.byte off := h 0 (by omega)
      rw [getField, getField, hfirst, hrest]

/-- A field is its low bytes followed by the rest. -/
theorem getField_add (s : Block n) (a b : ℕ) {off : ℕ} :
    s.getField off (a + b) = s.getField off a + 256 ^ a * s.getField (off + a) b := by
  induction a generalizing off with
  | zero => rw [Nat.zero_add, getField, Nat.pow_zero, Nat.zero_add, Nat.one_mul, Nat.add_zero]
  | succ a ih =>
      have hoff : off + 1 + a = off + (a + 1) := by omega
      rw [Nat.add_right_comm, getField, getField, ih, hoff]
      ring

theorem byte_lt (s : Block n) (off : ℕ) : s.byte off < 256 := by
  unfold byte
  split
  · exact BitVec.isLt _
  · decide

theorem getField_lt (s : Block n) (off len : ℕ) : s.getField off len < 256 ^ len := by
  induction len generalizing off with
  | zero => exact Nat.one_pos
  | succ len ih =>
      have hrest := ih (off + 1)
      have hbyte := s.byte_lt off
      rw [getField, Nat.pow_succ]
      omega

/-- The low part of a field. -/
theorem getField_mod (s : Block n) (a b : ℕ) {off : ℕ} :
    s.getField off (a + b) % 256 ^ a = s.getField off a := by
  rw [s.getField_add, Nat.add_mul_mod_self_left, Nat.mod_eq_of_lt (s.getField_lt off a)]

/-- The high part of a field. -/
theorem getField_div (s : Block n) (a b : ℕ) {off : ℕ} :
    s.getField off (a + b) / 256 ^ a = s.getField (off + a) b := by
  rw [s.getField_add, Nat.add_mul_div_left _ _ (Nat.pow_pos (by decide)),
    Nat.div_eq_of_lt (s.getField_lt off a), Nat.zero_add]

/-- Bytes `k` to `k + len'` of a stored value. -/
theorem getField_putField_sub {s : Block n} {off len v k len' : ℕ} (hn : off + len ≤ n)
    (hk : k + len' ≤ len) :
    (s.putField off len v).getField (off + k) len' = v / 256 ^ k % 256 ^ len' := by
  apply getField_eq
  intro j hj
  have hlt : off + k + j < n := by omega
  have hin : off ≤ off + k + j ∧ off + k + j < off + len := by omega
  have hsub : off + k + j - off = k + j := by omega
  simp only [byte, putField, hlt, hin, and_self, if_true, dif_pos, BitVec.toNat_ofNat, hsub]
  rw [Nat.div_div_eq_div_mul, ← Nat.pow_add]

theorem getField_putField {s : Block n} {off len v : ℕ} (h : off + len ≤ n) :
    (s.putField off len v).getField off len = v % 256 ^ len := by
  have hsub := getField_putField_sub (s := s) (v := v) (k := 0) h (by omega : 0 + len ≤ len)
  rw [Nat.add_zero, Nat.pow_zero, Nat.div_one] at hsub
  exact hsub

theorem getField_putField_of_disjoint {s : Block n} {off len v off' len' : ℕ}
    (h : off' + len' ≤ off ∨ off + len ≤ off') :
    (s.putField off len v).getField off' len' = s.getField off' len' := by
  apply getField_congr
  intro k hk
  have hout : ¬ (off ≤ off' + k ∧ off' + k < off + len) := by omega
  simp only [byte, putField, hout, if_false]

theorem getField_clear {s : Block n} {m off len : ℕ} (h : off + len ≤ m) :
    (s.clear m).getField off len = 0 := by
  have hzero : (s.clear m).getField off len = 0 % 256 ^ len := by
    apply getField_eq
    intro k hk
    have hin : off + k < m := by omega
    simp [byte, clear, hin]
  rw [hzero, Nat.zero_mod]

end Block

end Unvme.Lib
