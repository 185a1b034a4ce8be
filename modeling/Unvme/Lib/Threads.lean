import Mathlib.Algebra.BigOperators.Group.Finset.Piecewise
import Mathlib.Data.Fintype.Card
import Mathlib.Algebra.BigOperators.Ring.Finset

set_option autoImplicit false

/-! # Interleaved threads

Threads that each run the same program over one shared value. What a thread does next depends on its
program point, the shared value and a choice of its caller's, and one such step is atomic; a schedule
says which thread moves next. `Threads.run_induction` is the invariant rule, and `census` counts the
threads at certain points. -/

namespace Unvme.Lib

/-- A shared value and the program point of every thread. -/
structure Threads (T S L : Type) where
  shared : S
  pc : T → L

namespace Threads

variable {T S L C : Type} [DecidableEq T]

/-- Thread `t` takes one step. -/
def move (step : C → S → L → L × S) (m : Threads T S L) (t : T) (c : C) : Threads T S L where
  shared := (step c m.shared (m.pc t)).2
  pc := Function.update m.pc t (step c m.shared (m.pc t)).1

theorem move_pc_self (step : C → S → L → L × S) (m : Threads T S L) (t : T) (c : C) :
    (m.move step t c).pc t = (step c m.shared (m.pc t)).1 := Function.update_self ..

theorem move_pc_of_ne (step : C → S → L → L × S) (m : Threads T S L) {t u : T} (c : C) (h : u ≠ t) :
    (m.move step t c).pc u = m.pc u := Function.update_of_ne h ..

/-- The threads move as scheduled. -/
def run (step : C → S → L → L × S) (m : Threads T S L) (sched : List (T × C)) : Threads T S L :=
  sched.foldl (fun m tc => m.move step tc.1 tc.2) m

/-- What holds at the start and is kept by every step holds after every schedule. -/
theorem run_induction {step : C → S → L → L × S} {P : Threads T S L → Prop} {m : Threads T S L}
    (h0 : P m) (hstep : ∀ m t c, P m → P (m.move step t c)) (sched : List (T × C)) :
    P (m.run step sched) := by
  induction sched generalizing m with
  | nil => exact h0
  | cons tc sched ih => exact ih (hstep m tc.1 tc.2 h0)

/-- The number of threads at points that satisfy `p`. -/
def census [Fintype T] (p : L → Bool) (m : Threads T S L) : ℕ :=
  (Finset.univ.filter (fun t => p (m.pc t) = true)).card

variable [Fintype T] {p : L → Bool} {m : Threads T S L}

omit [DecidableEq T] in
theorem census_le : m.census p ≤ Fintype.card T := Finset.card_le_univ _

omit [DecidableEq T] in
theorem census_lt {t : T} (h : p (m.pc t) = false) : m.census p < Fintype.card T :=
  Finset.card_lt_univ_of_notMem (x := t) (by simp [h])

omit [DecidableEq T] in
theorem census_eq_zero : m.census p = 0 ↔ ∀ t, p (m.pc t) = false := by
  simp [census, Finset.card_eq_zero, Finset.filter_eq_empty_iff]

omit [DecidableEq T] in
theorem census_pos {t : T} (h : p (m.pc t) = true) : 0 < m.census p := by
  rw [Nat.pos_iff_ne_zero]
  intro h0
  rw [census_eq_zero.1 h0 t] at h
  cases h

omit [DecidableEq T] in
/-- Where at most one thread satisfies `p`, two that do are one. -/
theorem eq_of_census_le_one (h : m.census p ≤ 1) {t u : T} (ht : p (m.pc t) = true)
    (hu : p (m.pc u) = true) : t = u :=
  Finset.card_le_one.1 h t (by simpa using ht) u (by simpa using hu)

/-- The census of a disjunction of two kinds of points. -/
theorem census_or {q : L → Bool} (h : ∀ l, p l = true → q l = false) :
    m.census (fun l => p l || q l) = m.census p + m.census q := by
  unfold census
  rw [← Finset.card_union_of_disjoint, ← Finset.filter_or]
  · simp only [Bool.or_eq_true]
  · rw [Finset.disjoint_filter]
    intro t _ hp hq
    rw [h _ hp] at hq
    cases hq

/-- A step changes the census by the thread that moves. -/
theorem census_move (step : C → S → L → L × S) (t : T) (c : C) :
    (m.move step t c).census p + (p (m.pc t)).toNat
      = m.census p + (p (step c m.shared (m.pc t)).1).toNat := by
  have hsum : ∀ f : T → L, (Finset.univ.filter (fun u => p (f u) = true)).card
      = (p (f t)).toNat + ∑ u ∈ Finset.univ.erase t, (p (f u)).toNat := by
    intro f
    rw [Finset.add_sum_erase _ (fun u => (p (f u)).toNat) (Finset.mem_univ t), Finset.card_filter]
    refine Finset.sum_congr rfl ?_
    intro u _
    cases p (f u) <;> rfl
  have hrest : ∑ u ∈ Finset.univ.erase t, (p ((m.move step t c).pc u)).toNat
      = ∑ u ∈ Finset.univ.erase t, (p (m.pc u)).toNat := by
    refine Finset.sum_congr rfl ?_
    intro u hu
    rw [move_pc_of_ne step m c (Finset.ne_of_mem_erase hu)]
  unfold census
  rw [hsum, hsum, hrest, move_pc_self]
  omega

end Threads

end Unvme.Lib
