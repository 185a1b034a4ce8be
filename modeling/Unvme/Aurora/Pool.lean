import Unvme.Lib.Chain
import Unvme.Lib.Tiling
import Unvme.Aurora.Buddy
import Mathlib.Algebra.BigOperators.Group.Finset.Piecewise
import Mathlib.Tactic.Abel
import Mathlib.Tactic.Ring

set_option autoImplicit false

/-! # The pool behind the allocator

What the allocator keeps in its lists, as lists: `Pool.free (x, i)` are the free blocks of list `i` of
thread list `x` in order, `Pool.global` those of the global list, `Pool.live` the blocks that are handed
out. `Heap.Holds` connects a pool with the words in memory, `Heap.Good` adds that the pool is a tiling of
the region by aligned blocks and that its lists are sorted and hold no two buddies. -/

namespace Unvme.Aurora

open Unvme.Lib

/-! ## Block sizes -/

/-- The size of the blocks on list `i`. -/
def blockSize (i : ℕ) : ℕ := 512 * 2 ^ i

theorem blockSize_succ (i : ℕ) : blockSize (i + 1) = blockSize i * 2 := by
  rw [blockSize, blockSize, pow_succ, mul_assoc]

theorem blockSize_pos (i : ℕ) : 512 ≤ blockSize i := by
  rw [blockSize]
  have : 0 < 2 ^ i := Nat.pow_pos (by omega)
  omega

theorem blockSize_twelve : blockSize 12 = maxbytes := rfl

theorem blockSize_le_iff {i j : ℕ} : blockSize i ≤ blockSize j ↔ i ≤ j := by
  rw [blockSize, blockSize, Nat.mul_le_mul_left_iff (by omega), Nat.pow_le_pow_iff_right (by omega)]

theorem blockSize_inj {i j : ℕ} (h : blockSize i = blockSize j) : i = j :=
  le_antisymm (blockSize_le_iff.1 h.le) (blockSize_le_iff.1 h.ge)

theorem indexLoop_eq_some {size : ℕ} {fuel r i : ℕ} (h : indexLoop size fuel (blockSize r) r = some i) :
    i < entryMax ∧ size = blockSize i := by
  induction fuel generalizing r with
  | zero => cases h
  | succ fuel ih =>
      rw [indexLoop] at h
      split at h
      · next hle =>
          split at h
          · next heq =>
              cases h
              rw [← blockSize_twelve, blockSize_le_iff] at hle
              exact ⟨Nat.lt_succ_of_le hle, heq.symm⟩
          · rw [← blockSize_succ] at h
            exact ih h
      · cases h

theorem indexLoop_blockSize {fuel r i : ℕ} (hr : r ≤ i) (hf : i < r + fuel) (hi : i < entryMax) :
    indexLoop (blockSize i) fuel (blockSize r) r = some i := by
  induction fuel generalizing r with
  | zero => omega
  | succ fuel ih =>
      have hle : blockSize r ≤ maxbytes := by
        rw [← blockSize_twelve, blockSize_le_iff]
        unfold entryMax at hi
        omega
      rw [indexLoop, if_pos hle]
      split
      · next heq => rw [blockSize_inj heq]
      · next hne =>
          have hri : r ≠ i := by
            rintro rfl
            exact hne rfl
          rw [← blockSize_succ]
          exact ih (by omega) (by omega)

/-- **`get_index_from_size` finds the list of a block size**, and nothing for other sizes. -/
theorem getIndexFromSize_eq_some {size i : ℕ} :
    getIndexFromSize size = some i ↔ i < entryMax ∧ size = blockSize i := by
  have h512 : blockSize 0 = 512 := rfl
  constructor
  · intro h
    rw [getIndexFromSize, ← h512] at h
    exact indexLoop_eq_some h
  · rintro ⟨hi, rfl⟩
    rw [getIndexFromSize, ← h512]
    exact indexLoop_blockSize (Nat.zero_le i) (by omega) hi

/-! ## Pools -/

/-- The free blocks on the lists of the threads and on the global list, in order, and the blocks that
    are handed out. -/
structure Pool where
  free : ℕ × ℕ → List ℕ
  global : List ℕ
  live : Multiset Span

/-- Blocks of list `i` at these addresses. -/
def blocks (i : ℕ) (l : List ℕ) : Multiset Span := (l : Multiset ℕ).map (fun a => ⟨a, blockSize i⟩)

@[simp] theorem blocks_nil (i : ℕ) : blocks i [] = 0 := rfl

@[simp] theorem blocks_cons (i a : ℕ) (l : List ℕ) :
    blocks i (a :: l) = ⟨a, blockSize i⟩ ::ₘ blocks i l := rfl

@[simp] theorem blocks_append (i : ℕ) (l l' : List ℕ) :
    blocks i (l ++ l') = blocks i l + blocks i l' := by
  rw [blocks, ← Multiset.coe_add, Multiset.map_add, blocks, blocks]

theorem mem_blocks {i : ℕ} {l : List ℕ} {b : Span} :
    b ∈ blocks i l ↔ ∃ a ∈ l, b = ⟨a, blockSize i⟩ := by
  simp only [blocks, Multiset.mem_map, Multiset.mem_coe, eq_comm]

/-- The lists there are. -/
@[irreducible] def shelves : Finset (ℕ × ℕ) := Finset.range kFreeListIndexMax ×ˢ Finset.range entryMax

theorem mem_shelves {p : ℕ × ℕ} : p ∈ shelves ↔ p.1 < kFreeListIndexMax ∧ p.2 < entryMax := by
  simp [shelves]

namespace Pool

/-- Replace one list. -/
def set (A : Pool) (p : ℕ × ℕ) (l : List ℕ) : Pool := { A with free := Function.update A.free p l }

@[simp] theorem set_global (A : Pool) (p : ℕ × ℕ) (l : List ℕ) : (A.set p l).global = A.global := rfl

@[simp] theorem set_live (A : Pool) (p : ℕ × ℕ) (l : List ℕ) : (A.set p l).live = A.live := rfl

@[simp] theorem set_self (A : Pool) (p : ℕ × ℕ) (l : List ℕ) : (A.set p l).free p = l :=
  Function.update_self ..

theorem set_of_ne (A : Pool) {p q : ℕ × ℕ} (h : q ≠ p) (l : List ℕ) :
    (A.set p l).free q = A.free q := Function.update_of_ne h _ _

/-- The free blocks on the lists other than `p`. -/
def others (A : Pool) (p : ℕ × ℕ) : Multiset Span := ∑ q ∈ shelves \ {p}, blocks q.2 (A.free q)

/-- The free blocks on the lists of the threads. -/
def held (A : Pool) : Multiset Span := ∑ q ∈ shelves, blocks q.2 (A.free q)

/-- All blocks. -/
def spans (A : Pool) : Multiset Span := A.live + blocks 12 A.global + A.held

/-- All blocks, with those of one list singled out. -/
theorem spans_set (A : Pool) {p : ℕ × ℕ} (hp : p ∈ shelves) (l : List ℕ) :
    (A.set p l).spans = A.live + blocks 12 A.global + (blocks p.2 l + A.others p) := by
  have hsum : (A.set p l).held = blocks p.2 l + A.others p := by
    rw [held, others, ← Finset.sum_update_of_mem hp (fun q => blocks q.2 (A.free q)) (blocks p.2 l)]
    refine Finset.sum_congr rfl ?_
    intro q _
    exact Function.apply_update (fun q l => blocks q.2 l) A.free p l q
  rw [spans, hsum, set_live, set_global]

theorem spans_eq (A : Pool) {p : ℕ × ℕ} (hp : p ∈ shelves) :
    A.spans = A.live + blocks 12 A.global + (blocks p.2 (A.free p) + A.others p) := by
  have hset : A.set p (A.free p) = A := by
    rw [set, Function.update_eq_self]
  conv_lhs => rw [← hset]
  exact A.spans_set hp (A.free p)

/-- Replace one list and the live blocks. -/
def move (A : Pool) (p : ℕ × ℕ) (l : List ℕ) (L : Multiset Span) : Pool := { A.set p l with live := L }

@[simp] theorem move_live (A : Pool) (p : ℕ × ℕ) (l : List ℕ) (L : Multiset Span) :
    (A.move p l L).live = L := rfl

@[simp] theorem move_global (A : Pool) (p : ℕ × ℕ) (l : List ℕ) (L : Multiset Span) :
    (A.move p l L).global = A.global := rfl

@[simp] theorem move_self (A : Pool) (p : ℕ × ℕ) (l : List ℕ) (L : Multiset Span) :
    (A.move p l L).free p = l := A.set_self p l

theorem move_of_ne (A : Pool) {p q : ℕ × ℕ} (h : q ≠ p) (l : List ℕ) (L : Multiset Span) :
    (A.move p l L).free q = A.free q := A.set_of_ne h l

theorem spans_move (A : Pool) {p : ℕ × ℕ} (hp : p ∈ shelves) (l : List ℕ) (L : Multiset Span) :
    (A.move p l L).spans = L + blocks p.2 l + (blocks 12 A.global + A.others p) := by
  have hL : (A.move p l L).spans = (({ A with live := L } : Pool).set p l).spans := rfl
  rw [hL, spans_set _ hp]
  have hothers : ({ A with live := L } : Pool).others p = A.others p := rfl
  rw [hothers]
  abel

/-- A refill of thread list `x` from the global list `a :: rest`: `a` is handed out, and up to 65 more
    blocks become the thread's list of the largest blocks. -/
def refilled (A : Pool) (x a : ℕ) (rest : List ℕ) : Pool :=
  ({ A with global := rest.drop 65 } : Pool).move (x, 12) (rest.take 65)
    (⟨a, blockSize 12⟩ ::ₘ A.live)

@[simp] theorem refilled_live (A : Pool) (x a : ℕ) (rest : List ℕ) :
    (A.refilled x a rest).live = ⟨a, blockSize 12⟩ ::ₘ A.live := rfl

@[simp] theorem refilled_global (A : Pool) (x a : ℕ) (rest : List ℕ) :
    (A.refilled x a rest).global = rest.drop 65 := rfl

@[simp] theorem refilled_self (A : Pool) (x a : ℕ) (rest : List ℕ) :
    (A.refilled x a rest).free (x, 12) = rest.take 65 := move_self _ _ _ _

theorem refilled_of_ne (A : Pool) {x a : ℕ} {rest : List ℕ} {q : ℕ × ℕ} (h : q ≠ (x, 12)) :
    (A.refilled x a rest).free q = A.free q := move_of_ne _ h _ _

/-- No block is on two lists, or twice on one. -/
structure Apart (A : Pool) : Prop where
  nodup : ∀ p, (A.free p).Nodup
  free : ∀ p q a, p ≠ q → a ∈ A.free p → a ∉ A.free q
  global : ∀ p a, a ∈ A.global → a ∉ A.free p
  globalNodup : A.global.Nodup

/-- Address `a` is not on any list. -/
def Off (A : Pool) (a : ℕ) : Prop := (∀ p, a ∉ A.free p) ∧ a ∉ A.global

end Pool

/-! ## Pools in memory -/

theorem Heap.write_head_self (h : Heap) (x i v : ℕ) : (h.write (.head x i) v).freelist x i = v := by
  show Function.update h.freelist x (Function.update (h.freelist x) i v) x i = v
  rw [Function.update_self, Function.update_self]

theorem Heap.write_head_of_ne (h : Heap) {x i y j : ℕ} (hne : (y, j) ≠ (x, i)) (v : ℕ) :
    (h.write (.head x i) v).freelist y j = h.freelist y j := by
  show Function.update h.freelist x (Function.update (h.freelist x) i v) y j = _
  by_cases hy : y = x
  · subst hy
    rw [Function.update_self, Function.update_of_ne (fun hj => hne (by rw [hj]))]
  · rw [Function.update_of_ne hy]

/-- The lists of the pool are the ones in memory. -/
structure Heap.Holds (h : Heap) (A : Pool) : Prop where
  list : ∀ x i, Chain h.mem (h.freelist x i) (A.free (x, i))
  global : Chain h.mem h.globalFreelist A.global

/-- The cell that points behind the first blocks `as` of a list. -/
def cellAt (x i : ℕ) (as : List ℕ) : Cell :=
  match as.getLast? with
  | none => .head x i
  | some a => .node a

@[simp] theorem cellAt_nil (x i : ℕ) : cellAt x i [] = .head x i := rfl

@[simp] theorem cellAt_append (x i : ℕ) (as : List ℕ) (a : ℕ) : cellAt x i (as ++ [a]) = .node a := by
  simp [cellAt]

namespace Heap.Holds

variable {h : Heap} {A : Pool}

/-- A cell of a list points to the rest of it. -/
theorem read_cellAt (hh : h.Holds A) {x i : ℕ} {as bs : List ℕ} (hl : A.free (x, i) = as ++ bs) :
    Chain h.mem (h.read (cellAt x i as)) bs := by
  have hlist := hh.list x i
  rw [hl] at hlist
  rcases List.eq_nil_or_concat' as with rfl | ⟨as', a, rfl⟩
  · exact hlist
  · rw [cellAt_append]
    rw [List.append_assoc] at hlist
    exact hlist.after

/-- The first word of a block that is on no list can be written. -/
theorem writeNode (hh : h.Holds A) {a : ℕ} (ha : A.Off a) (v : ℕ) : (h.write (.node a) v).Holds A where
  list x i := (hh.list x i).update (ha.1 (x, i))
  global := hh.global.update ha.2

/-- A cell of a list can be redirected to other blocks. -/
theorem edit (hh : h.Holds A) (hs : A.Apart) {x i : ℕ} {as bs l : List ℕ}
    (hl : A.free (x, i) = as ++ bs) {v : ℕ}
    (hv : Chain (h.write (cellAt x i as) v).mem v l) :
    (h.write (cellAt x i as) v).Holds (A.set (x, i) (as ++ l)) := by
  have hlist := hh.list x i
  have hnodup := hs.nodup (x, i)
  rw [hl] at hlist hnodup
  rcases List.eq_nil_or_concat' as with rfl | ⟨as', a, rfl⟩
  · rw [cellAt_nil] at hv ⊢
    refine ⟨?_, hh.global⟩
    intro y j
    by_cases hyj : (y, j) = (x, i)
    · obtain ⟨rfl, rfl⟩ := Prod.mk.inj hyj
      rw [Pool.set_self, h.write_head_self]
      exact hv
    · rw [Pool.set_of_ne _ hyj, h.write_head_of_ne hyj]
      exact hh.list y j
  · rw [cellAt_append] at hv ⊢
    have ha : a ∈ A.free (x, i) := by rw [hl]; simp
    refine ⟨?_, hh.global.update (fun hag => hs.global _ a hag ha)⟩
    intro y j
    by_cases hyj : (y, j) = (x, i)
    · obtain ⟨rfl, rfl⟩ := Prod.mk.inj hyj
      rw [Pool.set_self, List.append_assoc]
      rw [List.append_assoc] at hlist hnodup
      refine Chain.splice hlist ?_ hv
      intro haas
      exact (List.nodup_append.1 hnodup).2.2 a haas a (by simp) rfl
    · rw [Pool.set_of_ne _ hyj]
      exact (hh.list y j).update (hs.free _ _ a (Ne.symm hyj) ha)

/-- A list can be cut short at its first block. -/
theorem remove (hh : h.Holds A) (hs : A.Apart) {x i : ℕ} {as bs : List ℕ} {a : ℕ}
    (hl : A.free (x, i) = as ++ a :: bs) :
    (h.write (cellAt x i as) (h.mem a)).Holds (A.set (x, i) (as ++ bs)) := by
  refine hh.edit hs hl ?_
  have hafter : Chain h.mem (h.mem a) bs := by
    have hlist := hh.list x i
    rw [hl] at hlist
    exact hlist.after
  have hnodup := hs.nodup (x, i)
  rw [hl] at hnodup
  rcases List.eq_nil_or_concat' as with rfl | ⟨as', c, rfl⟩
  · exact hafter
  · rw [cellAt_append]
    refine hafter.update ?_
    intro hc
    exact (List.nodup_append.1 hnodup).2.2 c (by simp) c (by simp [hc]) rfl

/-- A block that is on no list can be inserted. -/
theorem insert (hh : h.Holds A) (hs : A.Apart) {x i : ℕ} {as bs : List ℕ} {a : ℕ} (ha : A.Off a)
    (ha0 : a ≠ 0) (hl : A.free (x, i) = as ++ bs) :
    ((h.write (.node a) (h.read (cellAt x i as))).write (cellAt x i as) a).Holds
      (A.set (x, i) (as ++ a :: bs)) := by
  refine (hh.writeNode ha _).edit hs hl ?_
  have hbs : a ∉ bs := fun hab => ha.1 (x, i) (by rw [hl]; simp [hab])
  have hchain : Chain (h.write (.node a) (h.read (cellAt x i as))).mem a (a :: bs) := by
    refine ⟨rfl, ha0, ?_⟩
    show Chain _ (Function.update h.mem a _ a) bs
    rw [Function.update_self]
    exact (hh.read_cellAt hl).update hbs
  have hnodup := hs.nodup (x, i)
  rw [hl] at hnodup
  rcases List.eq_nil_or_concat' as with rfl | ⟨as', c, rfl⟩
  · exact hchain
  · rw [cellAt_append] at hchain ⊢
    refine hchain.update ?_
    intro hc
    rcases List.mem_cons.1 hc with rfl | hc
    · exact ha.1 (x, i) (by rw [hl]; simp)
    · exact (List.nodup_append.1 hnodup).2.2 c (by simp) c hc rfl

/-- A refill that takes the whole global list. -/
theorem refillAll (hh : h.Holds A) (x : ℕ) {a : ℕ} {rest : List ℕ} (hg : A.global = a :: rest)
    (hlast : rest.drop 64 = []) :
    Heap.Holds { h.write (.head x 12) (h.mem a) with globalFreelist := 0, lock := 0 }
      (A.refilled x a rest) := by
  have hglobal := hh.global
  rw [hg] at hglobal
  have hlen : rest.length ≤ 64 := List.drop_eq_nil_iff.1 hlast
  constructor
  · intro y j
    show Chain h.mem ((h.write (.head x 12) (h.mem a)).freelist y j) _
    by_cases hyj : (y, j) = (x, 12)
    · obtain ⟨rfl, rfl⟩ := Prod.mk.inj hyj
      rw [A.refilled_self, h.write_head_self, List.take_of_length_le (by omega)]
      exact hglobal.2.2
    · rw [A.refilled_of_ne hyj, h.write_head_of_ne hyj]
      exact hh.list y j
  · rw [A.refilled_global, List.drop_eq_nil_of_le (by omega)]
    rfl

/-- A refill that leaves blocks on the global list. -/
theorem refillSome (hh : h.Holds A) (hs : A.Apart) (x : ℕ) {a last : ℕ} {rest rest' : List ℕ}
    (hg : A.global = a :: rest) (hlast : rest.drop 64 = last :: rest') :
    Heap.Holds { (h.write (.head x 12) (h.mem a)).write (.node last) 0 with
        globalFreelist := h.mem last, lock := 0 } (A.refilled x a rest) := by
  have hglobal := hh.global
  have hnodup := hs.globalNodup
  have hrest : rest = rest.take 64 ++ last :: rest' := by rw [← hlast, List.take_append_drop]
  have htake : rest.take 65 = rest.take 64 ++ [last] := by
    have hlen : 64 < rest.length := by
      by_contra hle
      rw [List.drop_eq_nil_of_le (not_lt.1 hle)] at hlast
      cases hlast
    rw [List.take_add_one, List.getElem?_eq_some_iff.2 ⟨hlen, ?_⟩]
    · rfl
    · rw [List.getElem_eq_iff, ← List.head?_drop, hlast]
      rfl
  have hdrop : rest.drop 65 = rest' := by rw [List.drop_add_one_eq_tail_drop, hlast, List.tail_cons]
  rw [hg, hrest] at hglobal hnodup
  have hmem : last ∈ A.global := by
    rw [hg, hrest]
    simp
  obtain ⟨-, hnodup'⟩ := List.nodup_cons.1 hnodup
  obtain ⟨-, h2, h3⟩ := List.nodup_append.1 hnodup'
  constructor
  · intro y j
    show Chain (Function.update h.mem last 0) ((h.write (.head x 12) (h.mem a)).freelist y j) _
    by_cases hyj : (y, j) = (x, 12)
    · obtain ⟨rfl, rfl⟩ := Prod.mk.inj hyj
      rw [A.refilled_self, h.write_head_self, htake]
      exact hglobal.2.2.splice (fun hl => h3 last hl last (by simp) rfl) (Chain.nil _)
    · rw [A.refilled_of_ne hyj, h.write_head_of_ne hyj]
      exact (hh.list y j).update (hs.global _ last hmem)
  · rw [A.refilled_global, hdrop]
    show Chain (Function.update h.mem last 0) (h.mem last) rest'
    exact hglobal.2.2.after.update (List.nodup_cons.1 h2).1

end Heap.Holds

/-! ## The invariant -/

/-- A block of the allocator: of one of the block sizes, at a multiple of its size. -/
def IsBlock (r b : Span) : Prop :=
  ∃ i < entryMax, b.size = blockSize i ∧ ∃ k, b.start = r.start + k * b.size

/-- The block of list `i` at `a` is the left one of a pair of buddies. -/
def IsLeft (r : Span) (i a : ℕ) : Prop := (a - r.start) % (blockSize i * 2) = 0

/-- **The pool is in order**: its blocks tile the region and are aligned to their size, the lists are
    ascending, and no two buddies below the largest size are on one list. -/
structure Pool.Ok (A : Pool) (r : Span) : Prop where
  shelves : ∀ p, p ∉ shelves → A.free p = []
  tiles : Tiles A.spans r
  block : ∀ b ∈ A.spans, IsBlock r b
  sorted : ∀ p, (A.free p).Pairwise (· < ·)
  globalSorted : A.global.Pairwise (· < ·)
  noBuddies : ∀ x i, i + 1 < entryMax → ∀ a ∈ A.free (x, i), IsLeft r i a →
    a + blockSize i ∉ A.free (x, i)

namespace Pool.Ok

variable {A : Pool} {r : Span}

theorem pos (h : A.Ok r) {b : Span} (hb : b ∈ A.spans) : b.start ∈ b.bytes := by
  obtain ⟨i, -, hsize, -⟩ := h.block b hb
  have := blockSize_pos i
  rw [Span.mem_bytes]
  omega

theorem mem_shelves (h : A.Ok r) {p : ℕ × ℕ} {a : ℕ} (ha : a ∈ A.free p) : p ∈ Aurora.shelves := by
  by_contra hp
  rw [h.shelves p hp] at ha
  cases ha

theorem mem_others {p q : ℕ × ℕ} {a : ℕ} (hq : q ∈ Aurora.shelves) (hpq : p ≠ q)
    (ha : a ∈ A.free q) : ⟨a, blockSize q.2⟩ ∈ A.others p := by
  rw [Pool.others, Multiset.mem_sum]
  refine ⟨q, ?_, mem_blocks.2 ⟨a, ha, rfl⟩⟩
  simp [hq, Ne.symm hpq]

theorem mem_spans_free (h : A.Ok r) {p : ℕ × ℕ} {a : ℕ} (ha : a ∈ A.free p) :
    ⟨a, blockSize p.2⟩ ∈ A.spans := by
  rw [A.spans_eq (h.mem_shelves ha)]
  exact Multiset.mem_add.2 (Or.inr (Multiset.mem_add.2 (Or.inl (mem_blocks.2 ⟨a, ha, rfl⟩))))

theorem mem_spans_global {a : ℕ} (ha : a ∈ A.global) : ⟨a, blockSize 12⟩ ∈ A.spans := by
  rw [Pool.spans]
  refine Multiset.mem_add.2 (Or.inl (Multiset.mem_add.2 (Or.inr ?_)))
  exact mem_blocks.2 ⟨a, ha, rfl⟩

theorem mem_spans_live {b : Span} (hb : b ∈ A.live) : b ∈ A.spans := by
  rw [Pool.spans]
  exact Multiset.mem_add.2 (Or.inl (Multiset.mem_add.2 (Or.inl hb)))

/-- Blocks from two parts of the pool have no address in common. -/
theorem sep (h : A.Ok r) {M N : Multiset Span} (hMN : A.spans = M + N) {b c : Span} (hb : b ∈ M)
    (hc : c ∈ N) {x : ℕ} (hx : x ∈ b.bytes) : x ∉ c.bytes := by
  have htiles := h.tiles
  rw [hMN] at htiles
  exact htiles.disjoint_add hb hc hx

theorem apart (h : A.Ok r) : A.Apart where
  nodup p := (h.sorted p).imp (fun hlt => hlt.ne)
  globalNodup := h.globalSorted.imp (fun hlt => hlt.ne)
  free p q a hpq hp hq := by
    have hps := h.mem_shelves hp
    have hsplit : A.spans = blocks p.2 (A.free p) +
        (A.others p + (A.live + blocks 12 A.global)) := by
      rw [A.spans_eq hps]
      abel
    have hq' : ⟨a, blockSize q.2⟩ ∈ A.others p + (A.live + blocks 12 A.global) :=
      Multiset.mem_add.2 (Or.inl (mem_others (h.mem_shelves hq) hpq hq))
    exact h.sep hsplit (mem_blocks.2 ⟨a, hp, rfl⟩) hq' (h.pos (h.mem_spans_free hp))
      (h.pos (h.mem_spans_free hq))
  global p a hg hp := by
    have hps := h.mem_shelves hp
    have hsplit : A.spans = blocks 12 A.global +
        (blocks p.2 (A.free p) + (A.others p + A.live)) := by
      rw [A.spans_eq hps]
      abel
    have hp' : ⟨a, blockSize p.2⟩ ∈ blocks p.2 (A.free p) + (A.others p + A.live) :=
      Multiset.mem_add.2 (Or.inl (mem_blocks.2 ⟨a, hp, rfl⟩))
    exact h.sep hsplit (mem_blocks.2 ⟨a, hg, rfl⟩) hp' (h.pos (mem_spans_global hg))
      (h.pos (h.mem_spans_free hp))

/-- An address of a live block is on no list. -/
theorem off (h : A.Ok r) {b : Span} (hb : b ∈ A.live) {x : ℕ} (hx : x ∈ b.bytes) : A.Off x := by
  constructor
  · intro p hp
    have hps := h.mem_shelves hp
    have hsplit : A.spans = A.live +
        (blocks p.2 (A.free p) + (A.others p + blocks 12 A.global)) := by
      rw [A.spans_eq hps]
      abel
    have hp' : ⟨x, blockSize p.2⟩ ∈ blocks p.2 (A.free p) + (A.others p + blocks 12 A.global) :=
      Multiset.mem_add.2 (Or.inl (mem_blocks.2 ⟨x, hp, rfl⟩))
    exact h.sep hsplit hb hp' hx (h.pos (h.mem_spans_free hp))
  · intro hg
    have hsplit : A.spans = A.live + (blocks 12 A.global + A.held) := by
      rw [Pool.spans, add_assoc]
    have hg' : ⟨x, blockSize 12⟩ ∈ blocks 12 A.global + A.held :=
      Multiset.mem_add.2 (Or.inl (mem_blocks.2 ⟨x, hg, rfl⟩))
    exact h.sep hsplit hb hg' hx (h.pos (mem_spans_global hg))

/-- A list and the live blocks can be replaced by others that tile the same addresses. -/
theorem move (h : A.Ok r) {p : ℕ × ℕ} (hp : p ∈ Aurora.shelves) {l : List ℕ} {L : Multiset Span}
    (htiles : ∀ N, Tiles (A.live + blocks p.2 (A.free p) + N) r → Tiles (L + blocks p.2 l + N) r)
    (hblock : ∀ b ∈ L + blocks p.2 l, IsBlock r b) (hsorted : l.Pairwise (· < ·))
    (hbuddies : p.2 + 1 < entryMax → ∀ a ∈ l, IsLeft r p.2 a → a + blockSize p.2 ∉ l) :
    (A.move p l L).Ok r := by
  have hspans : A.spans = A.live + blocks p.2 (A.free p) + (blocks 12 A.global + A.others p) := by
    rw [A.spans_eq hp]
    abel
  refine ⟨?_, ?_, ?_, ?_, h.globalSorted, ?_⟩
  · intro q hq
    have hne : q ≠ p := by
      rintro rfl
      exact hq hp
    rw [Pool.move_of_ne _ hne]
    exact h.shelves q hq
  · rw [A.spans_move hp]
    refine htiles _ ?_
    rw [← hspans]
    exact h.tiles
  · intro b hb
    rw [A.spans_move hp] at hb
    rcases Multiset.mem_add.1 hb with hb | hb
    · exact hblock b hb
    · refine h.block b ?_
      rw [hspans]
      exact Multiset.mem_add.2 (Or.inr hb)
  · intro q
    by_cases hq : q = p
    · rw [hq, Pool.move_self]
      exact hsorted
    · rw [Pool.move_of_ne _ hq]
      exact h.sorted q
  · intro x i hi a ha hleft
    by_cases hq : (x, i) = p
    · subst hq
      rw [Pool.move_self] at ha ⊢
      exact hbuddies hi a ha hleft
    · rw [Pool.move_of_ne _ hq] at ha ⊢
      exact h.noBuddies x i hi a ha hleft

theorem block_of_live (h : A.Ok r) {b : Span} (hb : b ∈ A.live) : IsBlock r b :=
  h.block b (mem_spans_live hb)

theorem block_of_free (h : A.Ok r) {p : ℕ × ℕ} {b : Span} (hb : b ∈ blocks p.2 (A.free p)) :
    IsBlock r b := by
  obtain ⟨a, ha, rfl⟩ := mem_blocks.1 hb
  exact h.block _ (h.mem_spans_free ha)

/-- The first block of a list is handed out. -/
theorem pop (h : A.Ok r) {p : ℕ × ℕ} {a : ℕ} {l : List ℕ} (hl : A.free p = a :: l) :
    (A.move p l (⟨a, blockSize p.2⟩ ::ₘ A.live)).Ok r := by
  have hp : p ∈ Aurora.shelves := h.mem_shelves (a := a) (by rw [hl]; simp)
  have hsum : ⟨a, blockSize p.2⟩ ::ₘ A.live + blocks p.2 l = A.live + blocks p.2 (A.free p) := by
    rw [hl, blocks_cons, Multiset.cons_add, Multiset.add_cons]
  refine h.move hp ?_ ?_ ?_ ?_
  · intro N hN
    rw [hsum]
    exact hN
  · intro b hb
    rw [hsum] at hb
    rcases Multiset.mem_add.1 hb with hb | hb
    · exact h.block_of_live hb
    · exact h.block_of_free hb
  · have hs := h.sorted p
    rw [hl] at hs
    exact hs.tail
  · intro hi c hc hleft hbad
    have hno := h.noBuddies p.1 p.2 hi c
    rw [hl] at hno
    exact hno (List.mem_cons_of_mem _ hc) hleft (List.mem_cons_of_mem _ hbad)

/-- A live block is cut in two, and its right half put on its empty list. -/
theorem cut (h : A.Ok r) {x i a : ℕ} {L : Multiset Span} (hp : (x, i) ∈ Aurora.shelves)
    (hL : A.live = ⟨a, blockSize (i + 1)⟩ ::ₘ L) (hl : A.free (x, i) = []) :
    (A.move (x, i) [a + blockSize i] (⟨a, blockSize i⟩ ::ₘ L)).Ok r := by
  have hi : i < entryMax := (Aurora.mem_shelves.1 hp).2
  obtain ⟨j, hj, hsize, k, hk⟩ := h.block_of_live (b := ⟨a, blockSize (i + 1)⟩) (by rw [hL]; simp)
  dsimp only at hsize hk
  have h0 := blockSize_pos i
  rw [blockSize_succ] at hk
  refine h.move hp ?_ ?_ ?_ ?_
  · intro N hN
    rw [hL, hl, blocks_nil, add_zero, blockSize_succ, mul_two, Multiset.cons_add, Tiles.split] at hN
    rw [blocks_cons, blocks_nil]
    simpa only [Multiset.cons_add, Multiset.add_cons, add_zero, zero_add,
      Multiset.cons_swap] using hN
  · intro b hb
    rcases Multiset.mem_add.1 hb with hb | hb
    · rcases Multiset.mem_cons.1 hb with rfl | hb
      · exact ⟨i, hi, rfl, k * 2, by rw [hk]; ring⟩
      · exact h.block_of_live (by rw [hL]; exact Multiset.mem_cons_of_mem hb)
    · obtain ⟨c, hc, rfl⟩ := mem_blocks.1 hb
      rw [List.mem_singleton.1 hc]
      exact ⟨i, hi, rfl, k * 2 + 1, by rw [hk]; ring⟩
  · exact List.pairwise_singleton _ _
  · intro _ c hc _ hbad
    rw [List.mem_singleton] at hc hbad
    dsimp only at hbad
    omega

/-- A live block is merged with its buddy, which leaves its list. -/
theorem merge (h : A.Ok r) {x i a b c : ℕ} {as bs : List ℕ} {L : Multiset Span}
    (hi : i + 1 < entryMax) (hL : A.live = ⟨a, blockSize i⟩ ::ₘ L)
    (hl : A.free (x, i) = as ++ b :: bs) (hleft : IsLeft r i c)
    (hab : (a = c ∧ b = c + blockSize i) ∨ (b = c ∧ a = c + blockSize i)) :
    (A.move (x, i) (as ++ bs) (⟨c, blockSize (i + 1)⟩ ::ₘ L)).Ok r := by
  have hb : b ∈ A.free (x, i) := by
    rw [hl]
    simp
  have hp := h.mem_shelves hb
  have hsub : ∀ y ∈ as ++ bs, y ∈ A.free (x, i) := by
    intro y hy
    rw [hl]
    rcases List.mem_append.1 hy with hy | hy
    · simp [hy]
    · simp [hy]
  have hsum : ∀ N, A.live + blocks i (A.free (x, i)) + N =
      ⟨c, blockSize i⟩ ::ₘ ⟨c + blockSize i, blockSize i⟩ ::ₘ (L + blocks i (as ++ bs) + N) := by
    intro N
    have hpair : A.live + blocks i (A.free (x, i)) + N =
        ⟨a, blockSize i⟩ ::ₘ ⟨b, blockSize i⟩ ::ₘ (L + blocks i (as ++ bs) + N) := by
      rw [hL, hl, blocks_append, blocks_cons, blocks_append]
      simp only [Multiset.cons_add, Multiset.add_cons, add_assoc]
      exact Multiset.cons_swap _ _ _
    rw [hpair]
    rcases hab with ⟨rfl, rfl⟩ | ⟨rfl, rfl⟩
    · rfl
    · exact Multiset.cons_swap _ _ _
  have hcblock : IsBlock r ⟨c, blockSize i⟩ := by
    rcases hab with ⟨rfl, rfl⟩ | ⟨rfl, rfl⟩
    · exact h.block_of_live (by rw [hL]; simp)
    · exact h.block _ (h.mem_spans_free hb)
  refine h.move hp ?_ ?_ ?_ ?_
  · intro N hN
    rw [hsum N] at hN
    rw [blockSize_succ, mul_two, Multiset.cons_add, Multiset.cons_add, Tiles.split]
    exact hN
  · intro d hd
    rcases Multiset.mem_add.1 hd with hd | hd
    · rcases Multiset.mem_cons.1 hd with rfl | hd
      · obtain ⟨j, -, hsize, k, hk⟩ := hcblock
        refine ⟨i + 1, hi, rfl, ?_⟩
        unfold IsLeft at hleft
        obtain ⟨m, hm⟩ := Nat.dvd_of_mod_eq_zero hleft
        refine ⟨m, ?_⟩
        dsimp only at hk ⊢
        rw [blockSize_succ, mul_comm, ← hm]
        have : r.start ≤ c := by omega
        omega
      · exact h.block_of_live (by rw [hL]; exact Multiset.mem_cons_of_mem hd)
    · obtain ⟨y, hy, rfl⟩ := mem_blocks.1 hd
      exact h.block _ (h.mem_spans_free (hsub y hy))
  · have hs := h.sorted (x, i)
    rw [hl] at hs
    exact hs.sublist (List.Sublist.append_left (List.sublist_cons_self b bs) as)
  · intro _ y hy hyl hbad
    exact h.noBuddies x i hi y (hsub y hy) hyl (hsub _ hbad)

/-- A live block is put on its list, at its place, where neither neighbour is its buddy. -/
theorem insert (h : A.Ok r) {x i a : ℕ} {as bs : List ℕ} {L : Multiset Span}
    (hp : (x, i) ∈ Aurora.shelves) (hL : A.live = ⟨a, blockSize i⟩ ::ₘ L)
    (hl : A.free (x, i) = as ++ bs) (has : ∀ y ∈ as, y ≤ a) (hbs : ∀ y ∈ bs.head?, a < y)
    (hright : i + 1 < entryMax → ∀ y ∈ bs.head?, ¬ (a + blockSize i = y ∧ IsLeft r i a))
    (hleft : i + 1 < entryMax → ∀ y ∈ as, ¬ (y + blockSize i = a ∧ IsLeft r i y)) :
    (A.move (x, i) (as ++ a :: bs) L).Ok r := by
  have hoff : A.Off a := h.off (b := ⟨a, blockSize i⟩) (by rw [hL]; simp)
    (h.pos (mem_spans_live (by rw [hL]; simp)))
  have hfree : ∀ y ∈ as ++ bs, y ≠ a := by
    rintro y hy rfl
    exact hoff.1 (x, i) (by rw [hl]; exact hy)
  have hsorted := h.sorted (x, i)
  rw [hl] at hsorted
  have hasl : ∀ y ∈ as, y < a := by
    intro y hy
    exact lt_of_le_of_ne (has y hy) (hfree y (List.mem_append_left _ hy))
  -- the first block after `a` is the smallest one
  have hbsl : ∀ y ∈ bs, a < y ∧ ∃ z ∈ bs.head?, z ≤ y := by
    intro y hy
    cases bs with
    | nil => cases hy
    | cons z bs =>
        have hz := hbs z rfl
        rcases List.mem_cons.1 hy with rfl | hy
        · exact ⟨hz, _, rfl, le_rfl⟩
        · have hzy : z < y :=
            (List.pairwise_cons.1 (List.pairwise_append.1 hsorted).2.1).1 y hy
          exact ⟨hz.trans hzy, z, rfl, hzy.le⟩
  have hsum : L + blocks i (as ++ a :: bs) = A.live + blocks i (A.free (x, i)) := by
    rw [hL, hl, blocks_append, blocks_cons, blocks_append]
    simp only [Multiset.cons_add, Multiset.add_cons]
  refine h.move hp ?_ ?_ ?_ ?_
  · intro N hN
    rw [hsum]
    exact hN
  · intro b hb
    rw [hsum] at hb
    rcases Multiset.mem_add.1 hb with hb | hb
    · exact h.block_of_live hb
    · exact h.block_of_free hb
  · rw [List.pairwise_append, List.pairwise_cons]
    obtain ⟨h1, h2, h3⟩ := List.pairwise_append.1 hsorted
    refine ⟨h1, ⟨fun y hy => (hbsl y hy).1, h2⟩, ?_⟩
    intro y hy z hz
    rcases List.mem_cons.1 hz with rfl | hz
    · exact hasl y hy
    · exact h3 y hy z hz
  · intro hi y hy hyl hbad
    have hs := blockSize_pos i
    have halign : ∀ z ∈ as ++ bs, ∃ k, z = r.start + k * blockSize i := by
      intro z hz
      obtain ⟨-, -, -, k, hk⟩ := h.block _ (h.mem_spans_free (p := (x, i)) (by rw [hl]; exact hz))
      exact ⟨k, hk⟩
    obtain ⟨-, -, -, k, hk⟩ := h.block_of_live (b := ⟨a, blockSize i⟩) (by rw [hL]; simp)
    have hsplit : ∀ z, z ∈ as ++ a :: bs → z = a ∨ z ∈ as ∨ z ∈ bs := by
      intro z hz
      rcases List.mem_append.1 hz with hz | hz
      · exact Or.inr (Or.inl hz)
      · rcases List.mem_cons.1 hz with hz | hz
        · exact Or.inl hz
        · exact Or.inr (Or.inr hz)
    dsimp only at hy hyl hbad hi hk
    by_cases hya : y = a
    · subst hya
      rcases hsplit _ hbad with hz | hz | hz
      · omega
      · have := hasl _ hz
        omega
      · -- the buddy would be the first block after `a`
        obtain ⟨-, z, hz, hle⟩ := hbsl _ hz
        have hza := hbs z hz
        have hzmem : z ∈ as ++ bs := List.mem_append_right _ (List.mem_of_mem_head? hz)
        obtain ⟨m, hm⟩ := halign z hzmem
        have hkm : k < m := by
          by_contra hmk
          have := Nat.mul_le_mul_right (blockSize i) (not_lt.1 hmk)
          omega
        have := Nat.mul_le_mul_right (blockSize i) (Nat.succ_le_of_lt hkm)
        rw [Nat.succ_mul] at this
        exact hright hi z hz ⟨by omega, hyl⟩
    · have hy' : y ∈ as ∨ y ∈ bs := (hsplit y hy).resolve_left hya
      rcases hsplit _ hbad with hz | hz
      · rcases hy' with hy' | hy'
        · exact hleft hi y hy' ⟨hz, hyl⟩
        · have := (hbsl y hy').1
          omega
      · refine h.noBuddies x i hi y ?_ hyl ?_
        · rw [hl]
          exact List.mem_append.2 hy'
        · rw [hl]
          exact List.mem_append.2 hz

/-- A thread whose list of the largest blocks is empty is refilled. -/
theorem refill (h : A.Ok r) {x a : ℕ} {rest : List ℕ} (hp : (x, 12) ∈ Aurora.shelves)
    (hg : A.global = a :: rest) (hl : A.free (x, 12) = []) : (A.refilled x a rest).Ok r := by
  have hsorted := h.globalSorted
  rw [hg] at hsorted
  have hspans : (A.refilled x a rest).spans = A.spans := by
    have hrest : blocks 12 rest = blocks 12 (rest.take 65) + blocks 12 (rest.drop 65) := by
      rw [← blocks_append, List.take_append_drop]
    have hothers : ({ A with global := rest.drop 65 } : Pool).others (x, 12) = A.others (x, 12) := rfl
    rw [Pool.refilled, Pool.spans_move _ hp, A.spans_eq hp, hl, hg, blocks_cons, hrest, blocks_nil,
      zero_add, hothers]
    simp only [Multiset.cons_add, Multiset.add_cons]
    congr 1
    abel
  refine ⟨?_, ?_, ?_, ?_, ?_, ?_⟩
  · intro q hq
    have hne : q ≠ (x, 12) := by
      rintro rfl
      exact hq hp
    rw [A.refilled_of_ne hne]
    exact h.shelves q hq
  · rw [hspans]
    exact h.tiles
  · rw [hspans]
    exact h.block
  · intro q
    by_cases hq : q = (x, 12)
    · rw [hq, A.refilled_self]
      exact hsorted.tail.sublist (List.take_sublist _ _)
    · rw [A.refilled_of_ne hq]
      exact h.sorted q
  · exact hsorted.tail.sublist (List.drop_sublist _ _)
  · intro y i hi b hb hleft
    have hne : (y, i) ≠ (x, 12) := by
      intro heq
      rw [(Prod.mk.inj heq).2] at hi
      exact absurd hi (by decide)
    rw [A.refilled_of_ne hne] at hb ⊢
    exact h.noBuddies y i hi b hb hleft

end Pool.Ok

end Unvme.Aurora
