import Unvme.Lib.DList

set_option autoImplicit false

/-! # Giving back the nodes of a list

`while ((node = head) != NULL) { LIST_DEL(head, node); free(node); }` over a heap that checks its users: a
node is live until it has been given back, and a node that is not live must be neither read, written nor
given back. On a circular list of live nodes the loop ends, gives back every node once, in the order of the
list, and touches nothing else (`reclaim_ring`). -/

namespace Unvme.Lib

variable {α : Type} [DecidableEq α]

/-- What a heap does not allow, and a loop that does not end. -/
inductive Misuse where
  | deadNode
  | endless
  deriving DecidableEq, Repr

/-- `LIST_DEL`: the node is read, and its neighbours are written unless it is alone. -/
def listDelLive (live : α → Bool) (head : Option α) (node : α) (l : Links α) :
    Except Misuse (Option α × Links α) :=
  if live node && (l.next node = node || live (l.next node) && live (l.prev node)) then
    .ok (listDel head node l)
  else .error .deadNode

/-- `free`. -/
def release (live : α → Bool) (node : α) : Except Misuse (α → Bool) :=
  if live node then .ok (Function.update live node false) else .error .deadNode

/-- The loop; the nodes in the order in which they are given back. -/
def reclaim : ℕ → Option α → Links α → (α → Bool) → Except Misuse (List α × Links α × (α → Bool))
  | _, none, l, live => .ok ([], l, live)
  | 0, some _, _, _ => .error .endless
  | fuel + 1, some node, l, live => do
      let (head, l) ← listDelLive live (some node) node l
      let live ← release live node
      let (nodes, l, live) ← reclaim fuel head l live
      pure (node :: nodes, l, live)

/-- The neighbours of a node are on its ring. -/
theorem listDelLive_ring {live : α → Bool} {l : Links α} {x : α} {xs : List α} (hr : l.Ring (x :: xs))
    (hlive : ∀ a ∈ x :: xs, live a = true) :
    listDelLive live (some x) x l = .ok (xs.head?, (listDel (some x) x l).2) ∧
      (listDel (some x) x l).2.Ring xs := by
  have hr' : l.Ring ([] ++ x :: xs) := hr
  obtain ⟨hhead, hring⟩ : (listDel (some x) x l).1 = xs.head? ∧ (listDel (some x) x l).2.Ring xs :=
    listDel_ring hr' rfl
  obtain ⟨b, hb, z, hz, hnext, hprev⟩ := hr.neighbours (List.mem_cons_self (a := x))
  refine ⟨?_, hring⟩
  unfold listDelLive
  rw [hnext.1, hprev.2, hlive x List.mem_cons_self, hlive b hb, hlive z hz]
  simp only [Bool.and_self, Bool.or_true, if_true]
  rw [← hhead]

/-- **The loop gives back the nodes of the list, each once**, and leaves other lists and nodes alone. -/
theorem reclaim_ring {fuel : ℕ} {l : Links α} {live : α → Bool} {xs : List α} (hfuel : xs.length ≤ fuel)
    (hr : l.Ring xs) (hlive : ∀ a ∈ xs, live a = true) :
    ∃ l', reclaim fuel xs.head? l live = .ok (xs, l', fun a => live a && decide (a ∉ xs)) ∧
      ∀ ys, l.Ring ys → (∀ a ∈ xs, a ∉ ys) → l'.Ring ys := by
  induction xs generalizing fuel l live with
  | nil =>
      refine ⟨l, ?_, fun _ hy _ => hy⟩
      cases fuel <;> simp [reclaim]
  | cons x xs ih =>
      cases fuel with
      | zero => exact absurd hfuel (Nat.not_succ_le_zero _)
      | succ fuel =>
          obtain ⟨hdel, hring⟩ := listDelLive_ring hr hlive
          have hnot := (List.nodup_cons.1 hr.1).1
          have hlive' : ∀ a ∈ xs, Function.update live x false a = true := by
            intro a ha
            have hax : a ≠ x := by
              rintro rfl
              exact hnot ha
            rw [Function.update_of_ne hax]
            exact hlive a (List.mem_cons_of_mem _ ha)
          obtain ⟨l', hrest, hother⟩ := ih (Nat.le_of_succ_le_succ hfuel) hring hlive'
          refine ⟨l', ?_, ?_⟩
          · rw [List.head?_cons, reclaim, hdel]
            simp only [release, hlive x List.mem_cons_self, if_true, bind, Except.bind, hrest, pure,
              Except.pure]
            congr 3
            funext a
            by_cases hax : a = x
            · subst hax
              simp
            · simp [hax]
          · intro ys hy hdisj
            have hr' : l.Ring ([] ++ x :: xs) := hr
            refine hother ys (listDel_frame hr' hy hdisj) ?_
            exact fun a ha => hdisj a (List.mem_cons_of_mem _ ha)

end Unvme.Lib
