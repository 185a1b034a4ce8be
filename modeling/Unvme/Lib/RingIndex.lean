import Mathlib.Data.Nat.ModEq
import Mathlib.Tactic.Ring

set_option autoImplicit false

/-! # Positions in a ring

A ring of `N` slots is used in laps: the `n`-th entry ever written goes to slot `n % N` on lap
`n / N`. Code keeps only the slot and advances it by comparing with `N` (`wrapSucc`); these lemmas
relate that to the unbounded count, and say when two counts share a slot. -/

namespace Unvme.Lib

/-- The slot after `i` in a ring of `N` slots. -/
def wrapSucc (N i : ℕ) : ℕ := if i + 1 = N then 0 else i + 1

theorem wrapSucc_mod {N : ℕ} (hN : 0 < N) (n : ℕ) : wrapSucc N (n % N) = (n + 1) % N := by
  have hlt : n % N < N := Nat.mod_lt n hN
  rw [wrapSucc, ← Nat.mod_add_mod]
  split
  · next h => rw [h, Nat.mod_self]
  · next h => exact (Nat.mod_eq_of_lt (by omega)).symm

theorem succ_div_of_wrap {N n : ℕ} (hN : 0 < N) (h : n % N + 1 = N) : (n + 1) / N = n / N + 1 := by
  have hdm := Nat.div_add_mod n N
  have hn : n + 1 = N * (n / N + 1) := by rw [Nat.mul_add, Nat.mul_one]; omega
  rw [hn, Nat.mul_div_cancel_left _ hN]

theorem succ_div_of_not_wrap {N n : ℕ} (hN : 0 < N) (h : n % N + 1 ≠ N) : (n + 1) / N = n / N := by
  have hdm := Nat.div_add_mod n N
  have hlt : n % N < N := Nat.mod_lt n hN
  rw [Nat.div_eq_of_lt_le]
  · rw [Nat.mul_comm]; omega
  · rw [Nat.mul_comm, Nat.mul_add, Nat.mul_one]; omega

/-- Less than one lap apart, two counts have different slots. -/
theorem mod_ne_of_lt {N i j : ℕ} (hij : i < j) (hji : j < i + N) : i % N ≠ j % N := by
  intro h
  have hdvd : N ∣ j - i := (Nat.modEq_iff_dvd' hij.le).1 h
  have := Nat.le_of_dvd (by omega) hdvd
  omega

/-- Exactly one lap apart, two counts share a slot on consecutive laps. -/
theorem add_self_div {N : ℕ} (hN : 0 < N) (i : ℕ) : (i + N) / N = i / N + 1 :=
  Nat.add_div_right i hN

end Unvme.Lib
