import Mathlib.Logic.Function.Basic
import Mathlib.Data.List.Basic

set_option autoImplicit false

/-! # Null-terminated lists in memory

The first word of a node holds the address of the next one, and 0 ends the list. `Chain mem p l` says
that following the words of `mem` from the pointer `p` visits exactly the nodes `l`, in this order. A
chain is finite and has no cycle because `l` is a list; writes outside of its nodes do not change it
(`Chain.frame`), and a write to one of them replaces what follows (`Chain.splice`). -/

namespace Unvme.Lib

/-- The nodes `l` are linked from the pointer `p` on. -/
def Chain (mem : ℕ → ℕ) : ℕ → List ℕ → Prop
  | p, [] => p = 0
  | p, a :: l => p = a ∧ a ≠ 0 ∧ Chain mem (mem a) l

namespace Chain

variable {mem mem' : ℕ → ℕ} {p a v : ℕ} {l l' as bs : List ℕ}

theorem nil (mem : ℕ → ℕ) : Chain mem 0 [] := rfl

theorem zero_iff : Chain mem 0 l ↔ l = [] := by
  cases l with
  | nil => exact ⟨fun _ => rfl, fun _ => rfl⟩
  | cons a l => exact ⟨fun h => absurd h.1.symm h.2.1, nofun⟩

theorem exists_cons (h : Chain mem p l) (hp : p ≠ 0) :
    ∃ l', l = p :: l' ∧ Chain mem (mem p) l' := by
  cases l with
  | nil => exact absurd h hp
  | cons a l =>
      obtain ⟨rfl, -, hl⟩ := h
      exact ⟨l, rfl, hl⟩

/-- There is only one list of nodes. -/
theorem unique (h : Chain mem p l) (h' : Chain mem p l') : l = l' := by
  induction l generalizing p l' with
  | nil =>
      obtain rfl : p = 0 := h
      exact (zero_iff.1 h').symm
  | cons a l ih =>
      obtain ⟨rfl, hp, hl⟩ := h
      obtain ⟨l'', rfl, hl'⟩ := h'.exists_cons hp
      rw [ih hl hl']

/-- Words outside of the nodes do not matter. -/
theorem frame (h : Chain mem p l) (heq : ∀ a ∈ l, mem' a = mem a) : Chain mem' p l := by
  induction l generalizing p with
  | nil => exact h
  | cons a l ih =>
      obtain ⟨rfl, hp, hl⟩ := h
      refine ⟨rfl, hp, ?_⟩
      rw [heq p List.mem_cons_self]
      exact ih hl (fun b hb => heq b (List.mem_cons_of_mem _ hb))

theorem update (h : Chain mem p l) (ha : a ∉ l) : Chain (Function.update mem a v) p l := by
  refine h.frame ?_
  intro b hb
  have hne : b ≠ a := by
    rintro rfl
    exact ha hb
  rw [Function.update_of_ne hne]

/-- What follows a node. -/
theorem after (h : Chain mem p (as ++ a :: bs)) : Chain mem (mem a) bs := by
  induction as generalizing p with
  | nil => exact h.2.2
  | cons b as ih => exact ih h.2.2

/-- A write to a node replaces what follows it. -/
theorem splice (h : Chain mem p (as ++ a :: bs)) (ha : a ∉ as)
    (hv : Chain (Function.update mem a v) v l) :
    Chain (Function.update mem a v) p (as ++ a :: l) := by
  induction as generalizing p with
  | nil =>
      refine ⟨h.1, h.2.1, ?_⟩
      rw [Function.update_self]
      exact hv
  | cons b as ih =>
      obtain ⟨hb, has⟩ := List.ne_and_not_mem_of_not_mem_cons ha
      refine ⟨h.1, h.2.1, ?_⟩
      rw [Function.update_of_ne (Ne.symm hb)]
      exact ih h.2.2 has

end Chain

end Unvme.Lib
