import Mathlib.Data.List.Chain
import Mathlib.Data.List.Nodup
import Mathlib.Data.List.Perm.Subperm
import Mathlib.Logic.Function.Basic

set_option autoImplicit false

/-! # Circular doubly linked lists over an explicit heap

Nodes carry a `next` and a `prev` pointer; a list is known by its head pointer only, and an empty
list is the null head. `Links` is the heap restricted to those two fields, `listAdd` and `listDel`
are the classical tail insertion and removal written as the pointer assignments they are, and
`Links.Ring l xs` says that the nodes `xs`, in this order, form one circular list.

The three results used by clients: `listAdd_ring` (insertion appends), `listDel_ring` (removal
erases exactly its node), and `ringFind_eq_find` (a walk that stops when it is back at its start
searches the list in order). Rings over disjoint node sets do not interfere
(`Links.Ring.frame`). -/

namespace Unvme.Lib

variable {α : Type} [DecidableEq α]

/-- The two pointer fields of every node. -/
structure Links (α : Type) where
  next : α → α
  prev : α → α

/-- `a.next = b` -/
def Links.setNext (l : Links α) (a b : α) : Links α := { l with next := Function.update l.next a b }

/-- `a.prev = b` -/
def Links.setPrev (l : Links α) (a b : α) : Links α := { l with prev := Function.update l.prev a b }

/-- Append `node` at the tail of the list at `head`. -/
def listAdd (head : Option α) (node : α) (l : Links α) : Option α × Links α :=
  match head with
  | some h =>
      let l := l.setNext node h
      let l := l.setPrev node (l.prev h)
      let l := l.setNext (l.prev h) node
      (some h, l.setPrev h node)
  | none => (some node, (l.setPrev node node).setNext node node)

/-- Remove `node` from the list at `head`. -/
def listDel (head : Option α) (node : α) (l : Links α) : Option α × Links α :=
  if l.next node ≠ node then
    let l := l.setPrev (l.next node) (l.prev node)
    let l := l.setNext (l.prev node) (l.next node)
    (if head = some node then some (l.next node) else head, l)
  else (none, l)

/-- `b` follows `a`, in both directions. -/
def Links.Adj (l : Links α) (a b : α) : Prop := l.next a = b ∧ l.prev b = a

/-- The nodes `xs` form a circular list, in this order. -/
def Links.Ring (l : Links α) (xs : List α) : Prop :=
  xs.Nodup ∧ ∀ a ∈ xs.head?, List.IsChain l.Adj (xs ++ [a])

omit [DecidableEq α] in
@[simp] theorem Links.ring_nil (l : Links α) : l.Ring [] := by simp [Links.Ring]

omit [DecidableEq α] in
theorem Links.ring_cons {l : Links α} {x : α} {xs : List α} :
    l.Ring (x :: xs) ↔ (x :: xs).Nodup ∧ List.IsChain l.Adj (x :: xs ++ [x]) := by
  simp [Links.Ring]

/-! ## Rotation and framing -/

omit [DecidableEq α] in
theorem Links.Ring.rotate_one {l : Links α} {x : α} {xs : List α} (h : l.Ring (x :: xs)) :
    l.Ring (xs ++ [x]) := by
  obtain ⟨hnd, hch⟩ := Links.ring_cons.1 h
  cases xs with
  | nil => exact h
  | cons y ys =>
      rw [List.cons_append, List.cons_append, List.isChain_cons_cons] at hch
      refine ⟨(List.perm_append_singleton x (y :: ys)).nodup_iff.2 hnd, ?_⟩
      simp only [List.cons_append, List.head?_cons, Option.mem_def, Option.some.injEq]
      rintro a rfl
      rw [List.append_assoc, List.singleton_append, ← List.cons_append,
        List.isChain_append_cons_cons]
      exact ⟨hch.2, hch.1, List.isChain_singleton _⟩

omit [DecidableEq α] in
/-- A ring may be read from any of its nodes. -/
theorem Links.Ring.rotate {l : Links α} {xs ys : List α} (h : l.Ring (xs ++ ys)) :
    l.Ring (ys ++ xs) := by
  induction xs generalizing ys with
  | nil => simpa using h
  | cons x xs ih =>
      have h1 : l.Ring (xs ++ (ys ++ [x])) := by
        have hone : l.Ring ((xs ++ ys) ++ [x]) := Links.Ring.rotate_one h
        rwa [List.append_assoc] at hone
      simpa using ih h1

omit [DecidableEq α] in
/-- A ring only depends on the pointers of its own nodes. -/
theorem Links.Ring.frame {l l' : Links α} {xs : List α} (h : l.Ring xs)
    (hn : ∀ a ∈ xs, l'.next a = l.next a) (hp : ∀ a ∈ xs, l'.prev a = l.prev a) : l'.Ring xs := by
  refine ⟨h.1, fun a ha => ?_⟩
  have hmem : ∀ c ∈ xs ++ [a], c ∈ xs := by
    intro c hc
    rcases List.mem_append.1 hc with hc | hc
    · exact hc
    · rw [List.mem_singleton.1 hc]
      exact List.mem_of_mem_head? ha
  refine (h.2 a ha).imp_of_mem_imp (fun b c hb hc hbc => ?_)
  exact ⟨(hn b (hmem b hb)).trans hbc.1, (hp c (hmem c hc)).trans hbc.2⟩

omit [DecidableEq α] in
/-- The predecessor of the first node is the last one, and conversely. -/
theorem Links.Ring.last_adj {l : Links α} {h z : α} {xs : List α} (hr : l.Ring xs) (ys : List α)
    (hh : xs.head? = some h) (hz : xs = ys ++ [z]) : l.Adj z h := by
  have hch := hr.2 h hh
  subst hz
  rw [List.append_assoc, List.singleton_append, List.isChain_append_cons_cons] at hch
  exact hch.2.1

/-! ## Insertion -/

theorem listAdd_ring {l : Links α} {head : Option α} {node : α} {xs : List α}
    (hr : l.Ring xs) (hh : head = xs.head?) (hx : node ∉ xs) :
    (listAdd head node l).1 = (xs ++ [node]).head? ∧
      (listAdd head node l).2.Ring (xs ++ [node]) := by
  cases xs with
  | nil =>
      subst hh
      refine ⟨rfl, List.nodup_singleton _, ?_⟩
      simp [listAdd, Links.setNext, Links.setPrev, Links.Adj]
  | cons h t =>
      subst hh
      obtain ⟨ys, z, hyz⟩ : ∃ ys z, h :: t = ys ++ [z] :=
        ⟨_, _, (List.dropLast_concat_getLast (List.cons_ne_nil h t)).symm⟩
      have hzh : l.Adj z h := hr.last_adj _ rfl hyz
      have hzx : z ∈ h :: t := by rw [hyz]; simp
      have hne_z : z ≠ node := fun he => hx (he ▸ hzx)
      have hne_h : h ≠ node := fun he => hx (he ▸ List.mem_cons_self ..)
      -- only four fields change: those of `node`, the last node's `next` and the head's `prev`
      have hnext : ∀ a, (listAdd (some h) node l).2.next a
          = if a = z then node else if a = node then h else l.next a := by
        intro a
        simp only [listAdd, Links.setNext, Links.setPrev, Function.update_apply, hzh.2, if_neg hne_h]
      have hprev : ∀ a, (listAdd (some h) node l).2.prev a
          = if a = h then node else if a = node then z else l.prev a := by
        intro a
        simp only [listAdd, Links.setNext, Links.setPrev, Function.update_apply, hzh.2]
      refine ⟨rfl, (List.perm_append_singleton node (h :: t)).nodup_iff.2
        (List.nodup_cons.2 ⟨hx, hr.1⟩), ?_⟩
      simp only [List.cons_append, List.head?_cons, Option.mem_def, Option.some.injEq]
      rintro a rfl
      have hshape : h :: (t ++ [node] ++ [h]) = ys ++ z :: node :: [h] := by
        rw [← List.cons_append, ← List.cons_append, hyz]
        simp
      rw [hshape, List.isChain_append_cons_cons, List.isChain_cons_cons]
      refine ⟨?_, ⟨by rw [hnext, if_pos rfl], ?_⟩, ⟨?_, ?_⟩, List.isChain_singleton _⟩
      · -- the old chain: its last node is not a source, its first not a target
        have hold : List.IsChain l.Adj (ys ++ [z]) := hyz ▸ (hr.2 h rfl).left_of_append
        have hnd : (ys ++ [z]).Nodup := hyz ▸ hr.1
        refine hold.imp_of_mem_tail_imp (fun b c hb hc hbc => ?_)
        have hcmem : c ∈ t := by rw [← hyz] at hc; exact hc
        have hch : c ≠ h := fun he => (List.nodup_cons.1 hr.1).1 (he ▸ hcmem)
        have hbz : b ≠ z := by
          rintro rfl
          exact hch (hbc.1.symm.trans hzh.1)
        have hbn : b ≠ node := fun he => hx (he ▸ hyz ▸ hb)
        have hcn : c ≠ node := fun he => hx (he ▸ List.mem_cons_of_mem _ hcmem)
        refine ⟨?_, ?_⟩
        · rw [hnext, if_neg hbz, if_neg hbn]
          exact hbc.1
        · rw [hprev, if_neg hch, if_neg hcn]
          exact hbc.2
      · rw [hprev, if_neg (Ne.symm hne_h), if_pos rfl]
      · rw [hnext, if_neg (Ne.symm hne_z), if_pos rfl]
      · rw [hprev, if_pos rfl]

/-- Insertion leaves every ring that shares no node alone. -/
theorem listAdd_frame {l : Links α} {head : Option α} {node : α} {xs ys : List α}
    (hr : l.Ring xs) (hh : head = xs.head?) (hy : l.Ring ys) (hny : node ∉ ys)
    (hdisj : ∀ a ∈ xs, a ∉ ys) : (listAdd head node l).2.Ring ys := by
  cases xs with
  | nil =>
      subst hh
      refine hy.frame (fun a ha => ?_) (fun a ha => ?_) <;>
        have hne : a ≠ node := fun he => hny (he ▸ ha)
      · simp [listAdd, Links.setNext, Links.setPrev, hne]
      · simp [listAdd, Links.setNext, Links.setPrev, hne]
  | cons h t =>
      subst hh
      obtain ⟨zs, z, hyz⟩ : ∃ zs z, h :: t = zs ++ [z] :=
        ⟨_, _, (List.dropLast_concat_getLast (List.cons_ne_nil h t)).symm⟩
      have hzh : l.Adj z h := hr.last_adj _ rfl hyz
      have hzx : z ∈ h :: t := by rw [hyz]; simp
      refine hy.frame (fun a ha => ?_) (fun a ha => ?_)
      · have hne : a ≠ node := fun he => hny (he ▸ ha)
        have hnz : a ≠ z := fun he => hdisj z hzx (he ▸ ha)
        simp [listAdd, Links.setNext, Links.setPrev, Function.update_apply, hne, hnz, hzh.2]
      · have hne : a ≠ node := fun he => hny (he ▸ ha)
        have hnh : a ≠ h := fun he => hdisj h (List.mem_cons_self ..) (he ▸ ha)
        simp [listAdd, Links.setNext, Links.setPrev, Function.update_apply, hne, hnh]

/-! ## Removal -/

/-- Removal from a ring read from the removed node. -/
theorem listDel_ring_head {l : Links α} {head : Option α} {node : α} {xs : List α}
    (hr : l.Ring (node :: xs)) : (listDel head node l).2.Ring xs := by
  obtain ⟨hnd, hch⟩ := Links.ring_cons.1 hr
  cases xs with
  | nil => simp
  | cons y ys =>
      have hny : l.Adj node y := by
        rw [List.cons_append, List.cons_append, List.isChain_cons_cons] at hch
        exact hch.1
      obtain ⟨zs, z, hyz⟩ : ∃ zs z, y :: ys = zs ++ [z] :=
        ⟨_, _, (List.dropLast_concat_getLast (List.cons_ne_nil y ys)).symm⟩
      have hzn : l.Adj z node :=
        hr.last_adj (node :: zs) rfl (by rw [hyz, List.cons_append])
      have hnx : node ∉ y :: ys := (List.nodup_cons.1 hnd).1
      have hyn : y ≠ node := fun he => hnx (he ▸ List.mem_cons_self ..)
      have hnyt : y ∉ ys := (List.nodup_cons.1 (List.nodup_cons.1 hnd).2).1
      have hnext : ∀ a, (listDel head node l).2.next a = if a = z then y else l.next a := by
        intro a
        simp [listDel, Links.setNext, Links.setPrev, Function.update_apply, hny.1, hzn.2, hyn,
          Ne.symm hyn]
      have hprev : ∀ a, (listDel head node l).2.prev a = if a = y then z else l.prev a := by
        intro a
        simp [listDel, Links.setNext, Links.setPrev, Function.update_apply, hny.1, hzn.2, hyn]
      refine Links.ring_cons.2 ⟨(List.nodup_cons.1 hnd).2, ?_⟩
      rw [hyz, List.append_assoc, List.singleton_append, List.isChain_append_cons_cons]
      refine ⟨?_, ⟨by rw [hnext, if_pos rfl], by rw [hprev, if_pos rfl]⟩,
        List.isChain_singleton _⟩
      have hold : List.IsChain l.Adj (zs ++ [z]) := by
        rw [← hyz]
        exact (hch.left_of_append).tail
      refine hold.imp_of_mem_tail_imp (fun b c hb hc hbc => ?_)
      have hcmem : c ∈ ys := by rw [← hyz] at hc; exact hc
      have hcy : c ≠ y := fun he => hnyt (he ▸ hcmem)
      have hcn : c ≠ node := fun he => hnx (he ▸ List.mem_cons_of_mem _ hcmem)
      have hbz : b ≠ z := by
        rintro rfl
        exact hcn (hbc.1.symm.trans hzn.1)
      exact ⟨by rw [hnext, if_neg hbz]; exact hbc.1, by rw [hprev, if_neg hcy]; exact hbc.2⟩

omit [DecidableEq α] in
/-- A node followed by itself is alone on its ring. -/
theorem Links.Ring.next_self_iff {l : Links α} {x : α} {xs : List α} (hr : l.Ring (x :: xs)) :
    l.next x = x ↔ xs = [] := by
  obtain ⟨hnd, hch⟩ := Links.ring_cons.1 hr
  cases xs with
  | nil => simpa using (List.isChain_pair.1 hch).1
  | cons y ys =>
      rw [List.cons_append, List.cons_append, List.isChain_cons_cons] at hch
      have hxy : x ≠ y := fun he => (List.nodup_cons.1 hnd).1 (he ▸ List.mem_cons_self ..)
      simp only [List.cons_ne_nil, iff_false]
      exact fun he => hxy (he.symm.trans hch.1.1)

theorem listDel_ring {l : Links α} {head : Option α} {node : α} {xs ys : List α}
    (hr : l.Ring (xs ++ node :: ys)) (hh : head = (xs ++ node :: ys).head?) :
    (listDel head node l).1 = (xs ++ ys).head? ∧ (listDel head node l).2.Ring (xs ++ ys) := by
  have hrot : l.Ring (node :: (ys ++ xs)) := by simpa using hr.rotate
  have hring : (listDel head node l).2.Ring (ys ++ xs) := listDel_ring_head hrot
  refine ⟨?_, hring.rotate⟩
  by_cases hself : l.next node = node
  · have hnil : ys ++ xs = [] := (hrot.next_self_iff).1 hself
    obtain ⟨rfl, rfl⟩ := List.append_eq_nil_iff.1 hnil
    simp [listDel, hself]
  · cases xs with
    | nil =>
        -- the head itself is removed: the list continues at its successor
        cases ys with
        | nil => exact absurd ((hrot.next_self_iff).2 rfl) hself
        | cons y ys =>
            subst hh
            obtain ⟨hnd, hch⟩ := Links.ring_cons.1 hrot
            have hny : l.Adj node y := by
              rw [List.cons_append, List.cons_append, List.cons_append,
                List.isChain_cons_cons] at hch
              exact hch.1
            have hyn : y ≠ node := fun he => hself (hny.1.trans he)
            simp [listDel, Links.setNext, Links.setPrev, Function.update_apply, hny.1, hyn,
              Ne.symm hyn]
    | cons x xs =>
        have hxn : x ≠ node := by
          have := (List.nodup_cons.1 hr.1).1
          exact fun he => this (he ▸ by simp)
        subst hh
        simp [listDel, hself, hxn]

/-- Removal leaves every ring that shares no node alone. -/
theorem listDel_frame {l : Links α} {head : Option α} {node : α} {xs ys zs : List α}
    (hr : l.Ring (xs ++ node :: ys)) (hz : l.Ring zs) (hdisj : ∀ a ∈ xs ++ node :: ys, a ∉ zs) :
    (listDel head node l).2.Ring zs := by
  by_cases hself : l.next node = node
  · simpa [listDel, hself] using hz
  · have hrot : l.Ring (node :: (ys ++ xs)) := by simpa using hr.rotate
    obtain ⟨hnd, hch⟩ := Links.ring_cons.1 hrot
    -- both neighbours of `node` are on its own ring
    have hmem : ∀ a, a ∈ ys ++ xs → a ∉ zs := fun a ha => hdisj a (by
      simp only [List.mem_append, List.mem_cons] at ha ⊢; tauto)
    rcases hsplit : ys ++ xs with _ | ⟨y, ws⟩
    · exact absurd ((hrot.next_self_iff).2 hsplit) hself
    · rw [hsplit] at hrot hch hmem
      have hny : l.Adj node y := by
        rw [List.cons_append, List.cons_append, List.isChain_cons_cons] at hch
        exact hch.1
      obtain ⟨vs, z, hvz⟩ : ∃ vs z, y :: ws = vs ++ [z] :=
        ⟨_, _, (List.dropLast_concat_getLast (List.cons_ne_nil y ws)).symm⟩
      have hzn : l.Adj z node :=
        hrot.last_adj (node :: vs) rfl (by rw [hvz, List.cons_append])
      have hzmem : z ∉ zs := hmem z (by rw [hvz]; simp)
      have hymem : y ∉ zs := hmem y (List.mem_cons_self ..)
      have hyn : y ≠ node := fun he => hself (hny.1.trans he)
      refine hz.frame (fun a ha => ?_) (fun a ha => ?_)
      · have haz : a ≠ z := fun he => hzmem (he ▸ ha)
        simp [listDel, Links.setNext, Links.setPrev, Function.update_apply, hny.1, hzn.2, hyn,
          Ne.symm hyn, haz]
      · have hay : a ≠ y := fun he => hymem (he ▸ ha)
        simp [listDel, Links.setNext, Links.setPrev, Function.update_apply, hny.1, hyn, hay]

/-! ## Searching a ring

A walk from `start` along `next` that gives up when it is back at `start`. The outer `Option` is
the loop's own termination: `none` is a walk that neither finds a node nor comes back. -/

/-- Walk from `x` to the first node with `p`; `some none` when the walk is back at `start`. -/
def ringFind (next : α → α) (p : α → Bool) (start : α) : ℕ → α → Option (Option α)
  | 0, _ => none
  | fuel + 1, x =>
      if p x then some (some x)
      else if next x = start then some none
      else ringFind next p start fuel (next x)

theorem ringFind_chain {l : Links α} {p : α → Bool} {start : α} (xs : List α) :
    ∀ (fuel : ℕ) (x : α), xs.length < fuel → start ∉ xs →
      List.IsChain l.Adj (x :: xs ++ [start]) →
      ringFind l.next p start fuel x = some ((x :: xs).find? p) := by
  induction xs with
  | nil =>
      intro fuel x hf _ hch
      obtain ⟨fuel, rfl⟩ := Nat.exists_eq_succ_of_ne_zero (by omega : fuel ≠ 0)
      have hnx : l.next x = start := (List.isChain_pair.1 hch).1
      cases hp : p x <;> simp [ringFind, hp, hnx]
  | cons y ys ih =>
      intro fuel x hf hs hch
      obtain ⟨fuel, rfl⟩ := Nat.exists_eq_succ_of_ne_zero (by omega : fuel ≠ 0)
      rw [List.cons_append, List.cons_append, List.isChain_cons_cons] at hch
      simp only [List.mem_cons, not_or] at hs
      simp only [List.length_cons] at hf
      have hne : y ≠ start := fun he => hs.1 he.symm
      cases hp : p x with
      | true => simp [ringFind, hp]
      | false =>
          rw [ringFind, if_neg (by simp [hp]), hch.1.1, if_neg hne,
            ih fuel y (by omega) hs.2 (by simpa using hch.2)]
          simp [List.find?_cons, hp]

/-- The walk searches the ring in list order, starting at `start`. -/
theorem ringFind_eq_find {l : Links α} {p : α → Bool} {start : α} {xs : List α} {fuel : ℕ}
    (hr : l.Ring (start :: xs)) (hf : xs.length < fuel) :
    ringFind l.next p start fuel start = some ((start :: xs).find? p) :=
  ringFind_chain xs fuel start hf (List.nodup_cons.1 hr.1).1 (Links.ring_cons.1 hr).2

/-- Walk from `x` to the first node with `p`; there is no other way to stop. -/
def ringSeek (next : α → α) (p : α → Bool) : ℕ → α → Option α
  | 0, _ => none
  | fuel + 1, x => if p x then some x else ringSeek next p fuel (next x)

omit [DecidableEq α] in
theorem ringSeek_chain {l : Links α} {p : α → Bool} {start : α} (xs : List α) :
    ∀ (fuel : ℕ) (x : α), xs.length < fuel → (∃ y ∈ x :: xs, p y = true) →
      List.IsChain l.Adj (x :: xs ++ [start]) →
      ringSeek l.next p fuel x = (x :: xs).find? p := by
  induction xs with
  | nil =>
      intro fuel x hf hex hch
      obtain ⟨fuel, rfl⟩ := Nat.exists_eq_succ_of_ne_zero (by omega : fuel ≠ 0)
      obtain ⟨y, hy, hpy⟩ := hex
      rw [List.mem_singleton] at hy
      subst hy
      simp [ringSeek, hpy]
  | cons y ys ih =>
      intro fuel x hf hex hch
      obtain ⟨fuel, rfl⟩ := Nat.exists_eq_succ_of_ne_zero (by omega : fuel ≠ 0)
      rw [List.cons_append, List.cons_append, List.isChain_cons_cons] at hch
      simp only [List.length_cons] at hf
      cases hp : p x with
      | true => simp [ringSeek, hp]
      | false =>
          have hex' : ∃ z ∈ y :: ys, p z = true := by
            obtain ⟨z, hz, hpz⟩ := hex
            rcases List.mem_cons.1 hz with rfl | hz
            · rw [hp] at hpz; exact absurd hpz (by simp)
            · exact ⟨z, hz, hpz⟩
          rw [ringSeek, if_neg (by simp [hp]), hch.1.1,
            ih fuel y (by omega) hex' (by simpa using hch.2)]
          simp [List.find?_cons, hp]

omit [DecidableEq α] in
/-- On a ring with such a node the walk ends at the first one from `start`. -/
theorem ringSeek_eq_find {l : Links α} {p : α → Bool} {start : α} {xs : List α} {fuel : ℕ}
    (hr : l.Ring (start :: xs)) (hf : xs.length < fuel) (hex : ∃ y ∈ start :: xs, p y = true) :
    ringSeek l.next p fuel start = (start :: xs).find? p :=
  ringSeek_chain xs fuel start hf hex (Links.ring_cons.1 hr).2

/-! ## The nodes of a ring -/

/-- The nodes from `x` up to, and without, `start`. -/
def ringWalk (next : α → α) (start : α) : ℕ → α → List α
  | 0, _ => []
  | fuel + 1, x => if x = start then [] else x :: ringWalk next start fuel (next x)

/-- The nodes of the list at `head`, at most `fuel` of them. -/
def ringNodes (next : α → α) (head : Option α) (fuel : ℕ) : List α :=
  match head with
  | none => []
  | some h => h :: ringWalk next h (fuel - 1) (next h)

theorem ringWalk_chain {l : Links α} {start : α} (xs : List α) :
    ∀ (fuel : ℕ) (x : α), xs.length ≤ fuel → start ∉ xs → List.IsChain l.Adj (x :: xs ++ [start]) →
      ringWalk l.next start fuel (l.next x) = xs := by
  induction xs with
  | nil =>
      intro fuel x _ _ hch
      have hnx : l.next x = start := (List.isChain_pair.1 hch).1
      cases fuel <;> simp [ringWalk, hnx]
  | cons y ys ih =>
      intro fuel x hf hs hch
      simp only [List.length_cons] at hf
      obtain ⟨fuel, rfl⟩ := Nat.exists_eq_succ_of_ne_zero (by omega : fuel ≠ 0)
      rw [List.cons_append, List.cons_append, List.isChain_cons_cons] at hch
      simp only [List.mem_cons, not_or] at hs
      rw [ringWalk, hch.1.1, if_neg (fun he => hs.1 he.symm),
        ih fuel y (by omega) hs.2 (by simpa using hch.2)]

/-- A ring of numbers below `n` has at most `n` nodes. -/
theorem Links.Ring.length_le {l : Links ℕ} {xs : List ℕ} {n : ℕ} (h : l.Ring xs)
    (hlt : ∀ x ∈ xs, x < n) : xs.length ≤ n := by
  have hsub : xs ⊆ List.range n := fun x hx => List.mem_range.2 (hlt x hx)
  simpa using (List.Nodup.subperm h.1 hsub).length_le

/-- A ring is recovered from its head pointer. -/
theorem ringNodes_eq {l : Links α} {head : Option α} {xs : List α} {fuel : ℕ} (hr : l.Ring xs)
    (hh : head = xs.head?) (hf : xs.length ≤ fuel) : ringNodes l.next head fuel = xs := by
  subst hh
  cases xs with
  | nil => rfl
  | cons x xs =>
      simp only [List.length_cons] at hf
      simp only [ringNodes, List.head?_cons]
      rw [ringWalk_chain xs _ x (by omega) (List.nodup_cons.1 hr.1).1 (Links.ring_cons.1 hr).2]

/-! ## Rings by their pointers -/

/-- The list at `head` is circular with nodes `xs`: `next` and `prev` stay in the list and are inverse
    to each other, and every node is reached from the head. -/
structure Links.Circular (l : Links α) (head : Option α) (xs : List α) : Prop where
  head_eq : head = xs.head?
  nodup : xs.Nodup
  next_mem : ∀ a ∈ xs, l.next a ∈ xs
  prev_mem : ∀ a ∈ xs, l.prev a ∈ xs
  prev_next : ∀ a ∈ xs, l.prev (l.next a) = a
  next_prev : ∀ a ∈ xs, l.next (l.prev a) = a
  reach : ∀ h, head = some h → ∀ a ∈ xs, ∃ i, l.next^[i] h = a

omit [DecidableEq α] in
theorem Links.reach_of_chain {l : Links α} {x : α} {xs : List α} (h : List.IsChain l.Adj (x :: xs)) :
    ∀ a ∈ x :: xs, ∃ i, l.next^[i] x = a := by
  induction xs generalizing x with
  | nil =>
      intro a ha
      rw [List.mem_singleton] at ha
      exact ⟨0, ha.symm⟩
  | cons y ys ih =>
      rw [List.isChain_cons_cons] at h
      intro a ha
      rcases List.mem_cons.1 ha with rfl | ha
      · exact ⟨0, rfl⟩
      · obtain ⟨i, hi⟩ := ih h.2 a ha
        refine ⟨i + 1, ?_⟩
        rw [Function.iterate_succ_apply, h.1.1]
        exact hi

omit [DecidableEq α] in
/-- The neighbours of a node of a ring. -/
theorem Links.Ring.neighbours {l : Links α} {xs : List α} (hr : l.Ring xs) {a : α} (ha : a ∈ xs) :
    ∃ b ∈ xs, ∃ z ∈ xs, l.Adj a b ∧ l.Adj z a := by
  obtain ⟨ys, zs, rfl⟩ := List.append_of_mem ha
  have hrot : l.Ring (a :: (zs ++ ys)) := by simpa using hr.rotate
  have hmem : ∀ x, x ∈ a :: (zs ++ ys) → x ∈ ys ++ a :: zs := by
    intro x hx
    simp only [List.mem_cons, List.mem_append] at hx ⊢
    tauto
  obtain ⟨ws, z, hz⟩ := List.eq_nil_or_concat (a :: (zs ++ ys)) |>.resolve_left (by simp)
  rw [List.concat_eq_append] at hz
  have hlast : l.Adj z a := hrot.last_adj ws rfl hz
  have hzmem : z ∈ a :: (zs ++ ys) := by rw [hz]; simp
  obtain ⟨-, hch⟩ := Links.ring_cons.1 hrot
  cases hrest : zs ++ ys with
  | nil =>
      rw [hrest] at hch
      exact ⟨a, ha, z, hmem z hzmem, (List.isChain_pair.1 hch), hlast⟩
  | cons b bs =>
      rw [hrest, List.cons_append, List.cons_append, List.isChain_cons_cons] at hch
      exact ⟨b, hmem b (by rw [hrest]; simp), z, hmem z hzmem, hch.1, hlast⟩

omit [DecidableEq α] in
/-- A ring, seen from its head pointer. -/
theorem Links.Ring.circular {l : Links α} {head : Option α} {xs : List α} (hr : l.Ring xs)
    (hh : head = xs.head?) : l.Circular head xs := by
  refine ⟨hh, hr.1, ?_, ?_, ?_, ?_, ?_⟩
  · intro a ha
    obtain ⟨b, hb, z, hz, hab, hza⟩ := hr.neighbours ha
    rw [hab.1]; exact hb
  · intro a ha
    obtain ⟨b, hb, z, hz, hab, hza⟩ := hr.neighbours ha
    rw [hza.2]; exact hz
  · intro a ha
    obtain ⟨b, hb, z, hz, hab, hza⟩ := hr.neighbours ha
    rw [hab.1, hab.2]
  · intro a ha
    obtain ⟨b, hb, z, hz, hab, hza⟩ := hr.neighbours ha
    rw [hza.2, hza.1]
  · intro h hhead a ha
    cases xs with
    | nil => cases ha
    | cons x xs =>
        rw [hh] at hhead
        cases hhead
        have hch := (Links.ring_cons.1 hr).2
        exact Links.reach_of_chain hch a (List.mem_append_left _ ha)

end Unvme.Lib
