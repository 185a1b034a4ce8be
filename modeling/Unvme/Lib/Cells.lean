import Mathlib.Logic.Function.Basic
import Mathlib.Data.List.Range

set_option autoImplicit false

/-! # Copying cells

Memory as a function from addresses to values. `storeAll` stores a list of values at a list of addresses,
one after the other; `copyCells` is the function that results where the addresses are consecutive. -/

namespace Unvme.Lib

variable {α : Type}

/-- Store values at addresses, in order. -/
def storeAll (m : ℕ → α) : List ℕ → List α → ℕ → α
  | a :: as, v :: vs => storeAll (Function.update m a v) as vs
  | _, _ => m

/-- `dst` with its `len` cells from `pos` on replaced by those of `src` from `start` on. -/
def copyCells (src : ℕ → α) (start : ℕ) (dst : ℕ → α) (pos len : ℕ) : ℕ → α :=
  fun x => if pos ≤ x ∧ x < pos + len then src (start + (x - pos)) else dst x

theorem copyCells_of_mem {src dst : ℕ → α} {start pos len i : ℕ} (h : i < len) :
    copyCells src start dst pos len (pos + i) = src (start + i) := by
  unfold copyCells
  rw [if_pos ⟨Nat.le_add_right _ _, by omega⟩, Nat.add_sub_cancel_left]

theorem copyCells_of_not_mem {src dst : ℕ → α} {start pos len x : ℕ} (h : ¬ (pos ≤ x ∧ x < pos + len)) :
    copyCells src start dst pos len x = dst x := if_neg h

/-- Other addresses keep their values. -/
theorem storeAll_of_not_mem {as : List ℕ} {vs : List α} {m : ℕ → α} {x : ℕ} (h : x ∉ as) :
    storeAll m as vs x = m x := by
  induction as generalizing vs m with
  | nil => rw [storeAll]
           intro a as v vs h
           cases h
  | cons a as ih =>
      rw [List.mem_cons, not_or] at h
      cases vs with
      | nil => rfl
      | cons v vs => rw [storeAll, ih h.2, Function.update_of_ne h.1]

/-- Storing the cells of one range at the addresses of another copies them. -/
theorem storeAll_range' (src : ℕ → α) (start : ℕ) (dst : ℕ → α) (pos len : ℕ) :
    storeAll dst (List.range' pos len) ((List.range' start len).map src)
      = copyCells src start dst pos len := by
  induction len generalizing start dst pos with
  | zero =>
      funext x
      exact (copyCells_of_not_mem (by omega)).symm
  | succ len ih =>
      rw [List.range'_succ, List.range'_succ, List.map_cons, storeAll, ih]
      funext x
      unfold copyCells
      by_cases hx : x = pos
      · subst hx
        rw [if_neg (by omega), Function.update_self, if_pos (by omega), Nat.sub_self, Nat.add_zero]
      · rw [Function.update_of_ne hx]
        by_cases hin : pos + 1 ≤ x ∧ x < pos + 1 + len
        · rw [if_pos hin, if_pos (by omega)]
          congr 1
          omega
        · rw [if_neg hin, if_neg (by omega)]

end Unvme.Lib
