import Unvme.Aurora.Pool

set_option autoImplicit false

/-! # What the allocator does to its pool

One specification per function of `Buddy.lean`. From a heap that holds a pool in order (`Heap.Good`),
`buddy_malloc` moves one block to the live ones or finds none, and `buddy_free` moves a live block back;
the heap then holds the new pool. -/

namespace Unvme.Aurora

open Unvme.Lib

/-- The heap holds the pool `A`, which is in order, for the region `r`. Every thread has lists of its
    own, and lists that belong to no thread yet are empty. -/
structure Heap.Good (h : Heap) (r : Span) (A : Pool) : Prop where
  ok : A.Ok r
  holds : h.Holds A
  start : h.startAddr = r.start
  limit : h.limit = r.size / 512 + 1
  pos : 0 < r.start
  current : h.freelistCurrentIndex ≤ kFreeListIndexMax
  owner : ∀ t x, h.freelistIndex t = some x → x < h.freelistCurrentIndex
  own : ∀ t t' x, h.freelistIndex t = some x → h.freelistIndex t' = some x → t = t'
  unused : ∀ x i, h.freelistCurrentIndex ≤ x → A.free (x, i) = []

/-- The threads and their lists are the same. -/
structure Heap.SameThreads (h h' : Heap) : Prop where
  index : h'.freelistIndex = h.freelistIndex
  current : h'.freelistCurrentIndex = h.freelistCurrentIndex
  start : h'.startAddr = h.startAddr
  limit : h'.limit = h.limit

namespace Heap.SameThreads

variable {h h' h'' : Heap}

theorem refl (h : Heap) : h.SameThreads h := ⟨rfl, rfl, rfl, rfl⟩

theorem trans (s : h.SameThreads h') (s' : h'.SameThreads h'') : h.SameThreads h'' :=
  ⟨s'.index.trans s.index, s'.current.trans s.current, s'.start.trans s.start,
    s'.limit.trans s.limit⟩

theorem write (h : Heap) (c : Cell) (v : ℕ) : h.SameThreads (h.write c v) := by
  cases c <;> exact ⟨rfl, rfl, rfl, rfl⟩

end Heap.SameThreads

@[simp] theorem Heap.write_lock (h : Heap) (c : Cell) (v : ℕ) : (h.write c v).lock = h.lock := by
  cases c <;> rfl

namespace Heap.Good

variable {h h' : Heap} {r : Span} {A A' : Pool}

/-- A new pool on a new heap with the same threads. -/
theorem change (g : h.Good r A) (s : h.SameThreads h') (hok : A'.Ok r) (hh : h'.Holds A')
    (hunused : ∀ x i, h.freelistCurrentIndex ≤ x → A'.free (x, i) = []) : h'.Good r A' where
  ok := hok
  holds := hh
  start := s.start.trans g.start
  limit := s.limit.trans g.limit
  pos := g.pos
  current := s.current ▸ g.current
  owner := by
    rw [s.index, s.current]
    exact g.owner
  own := by
    rw [s.index]
    exact g.own
  unused := by
    rw [s.current]
    exact hunused

theorem mem_shelves (g : h.Good r A) {t x i : ℕ} (hx : h.freelistIndex t = some x)
    (hi : i < entryMax) : (x, i) ∈ shelves :=
  Aurora.mem_shelves.2 ⟨(g.owner t x hx).trans_le g.current, hi⟩

/-- One list of a thread, and the live blocks, have changed. -/
theorem changeList (g : h.Good r A) (s : h.SameThreads h') {t x i : ℕ}
    (hx : h.freelistIndex t = some x) {l : List ℕ} {L : Multiset Span}
    (hok : (A.move (x, i) l L).Ok r) (hh : h'.Holds (A.set (x, i) l)) :
    h'.Good r (A.move (x, i) l L) := by
  refine g.change s hok ⟨hh.list, hh.global⟩ ?_
  intro y j hy
  have hne : (y, j) ≠ (x, i) := by
    intro heq
    have := g.owner t x hx
    rw [(Prod.mk.inj heq).1] at hy
    omega
  rw [Pool.move_of_ne _ hne]
  exact g.unused y j hy

end Heap.Good

/-! ## Refill -/

theorem walk_chain {mem : ℕ → ℕ} {p : ℕ} {l : List ℕ} (hc : Chain mem p l) (n : ℕ) :
    Chain mem (walk mem n p) (l.drop n) := by
  induction n generalizing p l with
  | zero => exact hc
  | succ n ih =>
      rw [walk]
      split
      · next hp =>
          subst hp
          rw [Chain.zero_iff.1 hc]
          rfl
      · next hp =>
          obtain ⟨l', rfl, hl'⟩ := hc.exists_cons hp
          exact ih hl'

section

variable {h : Heap} {r : Span} {A : Pool} {t x : ℕ}

/-- What a call for a block of list `i` leaves: no block, with all lists it looked at empty and the lock
    taken; or a block, with the lists of other threads and of smaller blocks as before and at most 66
    blocks gone from the global list. -/
def MallocPost (h : Heap) (r : Span) (A : Pool) (x i a : ℕ) (h' : Heap) : Prop :=
  (a = 0 ∧ h' = { h with lock := 1 } ∧ h.lock = 0 ∧ A.global = [] ∧
    ∀ j, i ≤ j → A.free (x, j) = []) ∨
  (a ≠ 0 ∧ h'.lock = h.lock ∧ h.SameThreads h' ∧ ∃ A', h'.Good r A' ∧
    A'.live = ⟨a, blockSize i⟩ ::ₘ A.live ∧ A.global.length ≤ A'.global.length + 66 ∧
    ∀ y j, y ≠ x ∨ j < i → A'.free (y, j) = A.free (y, j))

/-- How it does not return: the lock is taken. -/
def MallocStop (h : Heap) (A : Pool) (x i : ℕ) (e : Stop) (h' : Heap) : Prop :=
  e = .hang ∧ h' = h ∧ h.lock ≠ 0 ∧ ∀ j, i ≤ j → A.free (x, j) = []

theorem refill_spec (g : h.Good r A) (hx : h.freelistIndex t = some x)
    (hl : A.free (x, 12) = []) :
    wp (refill x 12) h (MallocPost h r A x 12) (MallocStop h A x 12) := by
  have hp : (x, 12) ∈ shelves := g.mem_shelves hx (by decide)
  have hempty : ∀ j, 12 ≤ j → A.free (x, j) = [] := by
    intro j hj
    rcases Nat.lt_or_ge 12 j with hj | hj
    · refine g.ok.shelves _ ?_
      rw [Aurora.mem_shelves]
      intro hs
      have := hs.2
      unfold entryMax at this
      omega
    · obtain rfl : j = 12 := by omega
      exact hl
  unfold refill
  simp only [wp_bind, wp_get, wp_ite, wp_set, wp_pure, wp_throw]
  split
  · next hlock => exact ⟨rfl, rfl, hlock, hempty⟩
  · next hlock =>
      have hlock0 : h.lock = 0 := not_not.1 hlock
      split
      · next hzero =>
          have hglobal := g.holds.global
          rw [hzero] at hglobal
          exact Or.inl ⟨rfl, rfl, hlock0, Chain.zero_iff.1 hglobal, hempty⟩
      · next hne =>
          obtain ⟨rest, hg, hrest⟩ := g.holds.global.exists_cons hne
          have hok := g.ok.refill hp hg hl
          have hother : ∀ y j, y ≠ x ∨ j < 12 →
              (A.refilled x h.globalFreelist rest).free (y, j) = A.free (y, j) := by
            intro y j hyj
            refine A.refilled_of_ne ?_
            intro heq
            obtain ⟨rfl, rfl⟩ := Prod.mk.inj heq
            omega
          have hunused : ∀ y j, h.freelistCurrentIndex ≤ y →
              (A.refilled x h.globalFreelist rest).free (y, j) = [] := by
            intro y j hy
            have hyx : y ≠ x := by
              have := g.owner t x hx
              omega
            rw [hother y j (Or.inl hyx)]
            exact g.unused y j hy
          have hlen : A.global.length ≤
              (A.refilled x h.globalFreelist rest).global.length + 66 := by
            rw [A.refilled_global, hg, List.length_cons, List.length_drop]
            omega
          have hwalk := walk_chain hrest 64
          split
          · next hlast =>
              rw [hlast] at hwalk
              have hholds := g.holds.refillAll x hg (Chain.zero_iff.1 hwalk)
              exact Or.inr ⟨hne, hlock0.symm, ⟨rfl, rfl, rfl, rfl⟩, _,
                g.change ⟨rfl, rfl, rfl, rfl⟩ hok hholds hunused, rfl, hlen, hother⟩
          · next hlast =>
              obtain ⟨rest', hdrop, -⟩ := hwalk.exists_cons hlast
              have hholds := g.holds.refillSome g.ok.apart x hg hdrop
              exact Or.inr ⟨hne, hlock0.symm, ⟨rfl, rfl, rfl, rfl⟩, _,
                g.change ⟨rfl, rfl, rfl, rfl⟩ hok hholds hunused, rfl, hlen, hother⟩

/-! ## `buddy_malloc` -/

theorem wp_getFreelist (hx : h.freelistIndex t = some x) {Q : ℕ → Heap → Prop}
    {E : Stop → Heap → Prop} : wp (getFreelist t) h Q E ↔ Q x h := by
  unfold getFreelist
  simp only [wp_bind, wp_get, hx, wp_pure]

/-- The first block of a list is returned. -/
theorem Heap.Good.pop (g : h.Good r A) (hx : h.freelistIndex t = some x) {i : ℕ}
    (hne : h.freelist x i ≠ 0) :
    MallocPost h r A x i (h.freelist x i)
      (h.write (.head x i) (h.mem (h.freelist x i))) := by
  obtain ⟨l, hl, -⟩ := (g.holds.list x i).exists_cons hne
  have hholds := g.holds.remove g.ok.apart (show A.free (x, i) = [] ++ _ :: l from hl)
  refine Or.inr ⟨hne, Heap.write_lock .., Heap.SameThreads.write .., _,
    g.changeList (Heap.SameThreads.write ..) hx (g.ok.pop hl) hholds, rfl, Nat.le_add_right _ _, ?_⟩
  intro y j hyj
  refine A.move_of_ne ?_ _ _
  intro heq
  obtain ⟨rfl, rfl⟩ := Prod.mk.inj heq
  omega

/-- The block of twice the size that the recursive call returned is cut in two. -/
theorem Heap.Good.cut (g : h.Good r A) (hx : h.freelistIndex t = some x) {i a : ℕ} {L : Multiset Span}
    (hi : i < entryMax) (hL : A.live = ⟨a, blockSize (i + 1)⟩ ::ₘ L) (hl : A.free (x, i) = []) :
    ((h.write (.head x i) (a + blockSize i)).write (.node (a + blockSize i)) 0).Good r
      (A.move (x, i) [a + blockSize i] (⟨a, blockSize i⟩ ::ₘ L)) := by
  have hs := blockSize_pos i
  have hin : a + blockSize i ∈ Span.bytes ⟨a, blockSize (i + 1)⟩ := by
    rw [Span.mem_bytes, blockSize_succ]
    dsimp only
    omega
  have hoff : A.Off (a + blockSize i) := g.ok.off (by rw [hL]; simp) hin
  have hread : h.read (cellAt x i []) = 0 := g.holds.read_cellAt (show A.free (x, i) = [] ++ [] from hl)
  have hholds := g.holds.insert g.ok.apart hoff (by omega)
    (show A.free (x, i) = [] ++ [] from hl)
  rw [hread] at hholds
  exact g.changeList ((Heap.SameThreads.write ..).trans (Heap.SameThreads.write ..)) hx
    (g.ok.cut (g.mem_shelves hx hi) hL hl) hholds

/-- **`buddy_malloc` moves one block to the live ones**, or finds none on any list it looks at. -/
theorem buddyMalloc_spec (g : h.Good r A) (hx : h.freelistIndex t = some x) {fuel i : ℕ}
    (hi : i < entryMax) (hf : entryMax ≤ fuel + i) :
    wp (buddyMalloc t fuel (blockSize i)) h (MallocPost h r A x i) (MallocStop h A x i) := by
  induction fuel generalizing i with
  | zero => omega
  | succ fuel ih =>
      rw [buddyMalloc, getIndexFromSize_eq_some.2 ⟨hi, rfl⟩]
      simp only [wp_bind, wp_getFreelist hx, wp_get, wp_ite, wp_set, wp_pure, wp_modify]
      split
      · next hne => exact g.pop hx hne
      · next hzero =>
          have hl : A.free (x, i) = [] := by
            have hlist := g.holds.list x i
            rw [not_not.1 hzero] at hlist
            exact Chain.zero_iff.1 hlist
          split
          · next hmax =>
              obtain rfl : i = 12 := blockSize_inj hmax
              exact refill_spec g hx hl
          · next hmax =>
              have hi' : i + 1 < entryMax := by
                have : i ≠ 12 := by
                  rintro rfl
                  exact hmax rfl
                unfold entryMax at hi ⊢
                omega
              rw [← blockSize_succ]
              have hempty : ∀ {P : ℕ → Prop}, P i → (∀ j, i + 1 ≤ j → P j) → ∀ j, i ≤ j → P j := by
                intro P h0 h1 j hj
                rcases Nat.eq_or_lt_of_le hj with rfl | hj
                · exact h0
                · exact h1 j hj
              refine wp_mono (ih hi' (by omega)) ?_ ?_
              · intro a h' hpost
                rcases hpost with ⟨rfl, hh', hlock, hglobal, hlists⟩ |
                  ⟨ha, hlock, hsame, A', g', hlive, hlen, hother⟩
                · simp only [ne_eq, not_true_eq_false, if_false]
                  exact Or.inl ⟨rfl, hh', hlock, hglobal, hempty hl hlists⟩
                · rw [if_pos ha]
                  have hx' : h'.freelistIndex t = some x := by rw [hsame.index, hx]
                  have hl' : A'.free (x, i) = [] := by
                    rw [hother x i (Or.inr (by omega)), hl]
                  refine Or.inr ⟨ha, ?_, ?_, _, g'.cut hx' hi hlive hl', rfl, hlen, ?_⟩
                  · rw [Heap.write_lock, Heap.write_lock, hlock]
                  · exact hsame.trans ((Heap.SameThreads.write ..).trans (Heap.SameThreads.write ..))
                  · intro y j hyj
                    rw [A'.move_of_ne ?_, hother y j (by omega)]
                    intro heq
                    obtain ⟨rfl, rfl⟩ := Prod.mk.inj heq
                    omega
              · rintro e h' ⟨he, hh', hlock, hlists⟩
                exact ⟨he, hh', hlock, hempty hl hlists⟩

/-! ## `buddy_free` -/

/-- The loop of `buddy_free` stopped at its place in the list: all blocks before it are smaller, and
    the block to merge with, if there is one on the list, was found. -/
def Spot.Fits (A : Pool) (r : Span) (x i buf : ℕ) (doCompaction : Bool) : Spot → Prop
  | .insert c => ∃ as bs, A.free (x, i) = as ++ bs ∧ c = cellAt x i as ∧ (∀ y ∈ as, y ≤ buf) ∧
      (∀ y ∈ bs.head?, buf < y) ∧
      (doCompaction → ∀ y ∈ bs.head?, ¬ (buf + blockSize i = y ∧ IsLeft r i buf)) ∧
      (doCompaction → ∀ y ∈ as, ¬ (y + blockSize i = buf ∧ IsLeft r i y))
  | .right c => ∃ as bs, A.free (x, i) = as ++ (buf + blockSize i) :: bs ∧ c = cellAt x i as ∧
      doCompaction ∧ IsLeft r i buf
  | .left c => ∃ as b bs, A.free (x, i) = as ++ b :: bs ∧ c = cellAt x i as ∧
      doCompaction ∧ b + blockSize i = buf ∧ IsLeft r i b

theorem Heap.Good.isLeft_iff (g : h.Good r A) {i a : ℕ} :
    h.isLeft a (blockSize i) = true ↔ IsLeft r i a := by
  rw [Heap.isLeft, beq_iff_eq, g.start, IsLeft]

theorem findSpot_spec (g : h.Good r A) {i buf : ℕ} {c : Bool} {fuel : ℕ} {as bs : List ℕ}
    (hl : A.free (x, i) = as ++ bs) (hfuel : bs.length < fuel) (hle : ∀ y ∈ as, y ≤ buf)
    (hleft : c → ∀ y ∈ as, ¬ (y + blockSize i = buf ∧ IsLeft r i y)) :
    ∃ s, findSpot h buf (blockSize i) c fuel (cellAt x i as) = some s ∧ s.Fits A r x i buf c := by
  induction fuel generalizing as bs with
  | zero => omega
  | succ fuel ih =>
      rw [findSpot]
      have hchain := g.holds.read_cellAt hl
      split
      · next hstop =>
          -- the block belongs before the first one of `bs`
          have hhead : ∀ y ∈ bs.head?, y = h.read (cellAt x i as) ∧ buf < y := by
            intro y hy
            cases bs with
            | nil => cases hy
            | cons b bs =>
                cases hy
                have hb := hchain.1
                have hb0 := hchain.2.1
                exact ⟨hb.symm, by omega⟩
          split
          · next hright =>
              obtain ⟨hc, heq, hbuf⟩ := hright
              have hs := blockSize_pos i
              obtain ⟨bs', rfl, -⟩ := hchain.exists_cons (by omega)
              refine ⟨_, rfl, as, bs', ?_, rfl, hc, g.isLeft_iff.1 hbuf⟩
              rw [hl, heq]
          · next hright =>
              refine ⟨_, rfl, as, bs, hl, rfl, hle, fun y hy => (hhead y hy).2, ?_, hleft⟩
              rintro hc y hy ⟨heq, hbuf⟩
              exact hright ⟨hc, heq.trans (hhead y hy).1, g.isLeft_iff.2 hbuf⟩
      · next hgo =>
          have hne : h.read (cellAt x i as) ≠ 0 := fun h0 => hgo (Or.inl h0)
          obtain ⟨bs', rfl, -⟩ := hchain.exists_cons hne
          split
          · next hmerge =>
              obtain ⟨hc, heq, hb⟩ := hmerge
              exact ⟨_, rfl, as, _, bs', hl, rfl, hc, heq, g.isLeft_iff.1 hb⟩
          · next hmerge =>
              have hl' : A.free (x, i) = (as ++ [h.read (cellAt x i as)]) ++ bs' := by
                rw [hl, List.append_assoc, List.singleton_append]
              rw [← cellAt_append x i as]
              refine ih hl' ?_ ?_ ?_
              · rw [List.length_cons] at hfuel
                omega
              · intro y hy
                rcases List.mem_append.1 hy with hy | hy
                · exact hle y hy
                · rw [List.mem_singleton.1 hy]
                  omega
              · intro hc y hy
                rcases List.mem_append.1 hy with hy | hy
                · exact hleft hc y hy
                · rw [List.mem_singleton.1 hy]
                  rintro ⟨heq, hb⟩
                  exact hmerge ⟨hc, heq, g.isLeft_iff.2 hb⟩

/-- The loop has steps enough for every list. -/
theorem Heap.Good.length_lt (g : h.Good r A) (p : ℕ × ℕ) : (A.free p).length < h.limit := by
  by_cases hp : p ∈ shelves
  · have hcard := g.ok.tiles.card_le (s := 512) (by
      intro b hb
      obtain ⟨i, -, hsize, -⟩ := g.ok.block b hb
      rw [hsize]
      exact blockSize_pos i)
    have hlen : (A.free p).length ≤ Multiset.card A.spans := by
      rw [A.spans_eq hp]
      simp only [Multiset.card_add, blocks, Multiset.card_map, Multiset.coe_card]
      omega
    rw [g.limit]
    omega
  · rw [g.ok.shelves p hp, g.limit]
    exact Nat.succ_pos _

/-- What giving back a block of list `i` leaves. -/
def FreePost (h : Heap) (r : Span) (A : Pool) (x i : ℕ) (L : Multiset Span) (h' : Heap) : Prop :=
  h'.lock = h.lock ∧ h.SameThreads h' ∧ ∃ A', h'.Good r A' ∧ A'.live = L ∧ A'.global = A.global ∧
    ∀ y j, y ≠ x ∨ j < i → A'.free (y, j) = A.free (y, j)

end

/-- A merged pair of buddies goes on to the list of twice the size. -/
theorem FreePost.of_merge {h h₁ h' : Heap} {r : Span} {A : Pool} {x i : ℕ} {l : List ℕ}
    {L M : Multiset Span} (hlock : h₁.lock = h.lock) (hs : h.SameThreads h₁)
    (hpost : FreePost h₁ r (A.move (x, i) l M) x (i + 1) L h') : FreePost h r A x i L h' := by
  obtain ⟨hlock', hs', A', g', hlive, hglobal, hother⟩ := hpost
  refine ⟨hlock'.trans hlock, hs.trans hs', A', g', hlive, hglobal, ?_⟩
  intro y j hyj
  have hyj' : y ≠ x ∨ j < i + 1 := by omega
  rw [hother y j hyj', A.move_of_ne]
  intro heq
  obtain ⟨rfl, rfl⟩ := Prod.mk.inj heq
  omega

/-- **`buddy_free` takes a live block back**: merged with its buddy as long as that is on the list of
    the thread, and inserted at its place. -/
theorem buddyFree_spec {h : Heap} {r : Span} {A : Pool} {t x fuel i buf : ℕ} {L : Multiset Span}
    (g : h.Good r A) (hx : h.freelistIndex t = some x) (hi : i < entryMax)
    (hf : entryMax ≤ fuel + i) (hL : A.live = ⟨buf, blockSize i⟩ ::ₘ L) :
    wp (buddyFree t fuel buf (blockSize i)) h (fun _ h' => FreePost h r A x i L h')
      (fun _ _ => False) := by
  induction fuel generalizing h A i buf with
  | zero => omega
  | succ fuel ih =>
      rw [buddyFree, getIndexFromSize_eq_some.2 ⟨hi, rfl⟩]
      simp only [wp_bind, wp_getFreelist hx, wp_get]
      have hpos : 0 < buf := by
        obtain ⟨-, -, -, k, hk⟩ := g.ok.block_of_live (b := ⟨buf, blockSize i⟩) (by rw [hL]; simp)
        have := g.pos
        dsimp only at hk
        omega
      have hnext : decide (blockSize i ≠ maxbytes) = true ↔ i + 1 < entryMax := by
        have h12 : blockSize i = maxbytes ↔ i = 12 := by
          rw [← blockSize_twelve]
          exact ⟨blockSize_inj, fun h => by rw [h]⟩
        rw [decide_eq_true_iff, ne_eq, h12]
        unfold entryMax at hi ⊢
        omega
      obtain ⟨s, hs, hfits⟩ : ∃ s, findSpot h buf (blockSize i) (decide (blockSize i ≠ maxbytes)) _
          (cellAt x i []) = some s ∧ s.Fits A r x i buf (decide (blockSize i ≠ maxbytes)) :=
        findSpot_spec g (List.nil_append _).symm (g.length_lt (x, i)) (by simp) (by simp)
      rw [cellAt_nil] at hs
      rw [hs]
      cases s with
      | insert c =>
          obtain ⟨as, bs, hl, rfl, hle, hlt, hright, hleft⟩ := hfits
          have hok := g.ok.insert (g.mem_shelves hx hi) hL hl hle hlt
            (fun h => hright (hnext.2 h)) (fun h => hleft (hnext.2 h))
          have hoff : A.Off buf := g.ok.off (b := ⟨buf, blockSize i⟩) (by rw [hL]; simp)
            (g.ok.pos (Pool.Ok.mem_spans_live (by rw [hL]; simp)))
          have hholds := g.holds.insert g.ok.apart hoff hpos.ne' hl
          have hsame := (Heap.SameThreads.write h (.node buf) (h.read (cellAt x i as))).trans
            (Heap.SameThreads.write _ (cellAt x i as) buf)
          refine ⟨?_, hsame, _, g.changeList hsame hx hok hholds, rfl, rfl, ?_⟩
          · rw [Heap.write_lock, Heap.write_lock]
          · intro y j hyj
            refine A.move_of_ne ?_ _ _
            intro heq
            obtain ⟨rfl, rfl⟩ := Prod.mk.inj heq
            omega
      | right c =>
          obtain ⟨as, bs, hl, rfl, hc, hbuf⟩ := hfits
          have hi' := hnext.1 hc
          have hok := g.ok.merge hi' hL hl hbuf (Or.inl ⟨rfl, rfl⟩)
          have hread : h.read (cellAt x i as) = buf + blockSize i := (g.holds.read_cellAt hl).1
          have hholds := g.holds.remove g.ok.apart hl
          have hsame := Heap.SameThreads.write h (cellAt x i as) (h.mem (buf + blockSize i))
          have g' := g.changeList hsame hx hok hholds
          have hx' := hx
          rw [← hsame.index] at hx'
          simp only [wp_bind, wp_set, hread]
          rw [← blockSize_succ]
          exact wp_mono (ih g' hx' hi' (by omega) rfl)
            (fun _ _ hpost => hpost.of_merge (Heap.write_lock ..) hsame) (fun _ _ he => he)
      | left c =>
          obtain ⟨as, b, bs, hl, rfl, hc, rfl, hb⟩ := hfits
          have hi' := hnext.1 hc
          have hok := g.ok.merge hi' hL hl hb (Or.inr ⟨rfl, rfl⟩)
          have hread : h.read (cellAt x i as) = b := (g.holds.read_cellAt hl).1
          have hholds := g.holds.remove g.ok.apart hl
          have hsame := Heap.SameThreads.write h (cellAt x i as) (h.mem b)
          have g' := g.changeList hsame hx hok hholds
          have hx' := hx
          rw [← hsame.index] at hx'
          simp only [wp_bind, wp_set, hread]
          rw [← blockSize_succ]
          exact wp_mono (ih g' hx' hi' (by omega) rfl)
            (fun _ _ hpost => hpost.of_merge (Heap.write_lock ..) hsame) (fun _ _ he => he)

/-! ## The lists of a thread -/

/-- The heap after the first call of `get_freelist` by thread `t`. -/
def Heap.register (h : Heap) (t : ℕ) : Heap :=
  match h.freelistIndex t with
  | some _ => h
  | none =>
      { h with
        freelistCurrentIndex := h.freelistCurrentIndex + 1
        freelistIndex := Function.update h.freelistIndex t (some h.freelistCurrentIndex)
        freelist := Function.update h.freelist h.freelistCurrentIndex (fun _ => 0) }

/-- Thread `t` has lists, or there are lists left for it. -/
def Heap.Room (h : Heap) (t : ℕ) : Prop :=
  h.freelistIndex t ≠ none ∨ h.freelistCurrentIndex < kFreeListIndexMax

section

variable {h : Heap} {r : Span} {A : Pool} {t : ℕ}

theorem Heap.register_of_some {x : ℕ} (hx : h.freelistIndex t = some x) : h.register t = h := by
  rw [Heap.register, hx]

theorem Heap.exists_registered (h : Heap) (t : ℕ) : ∃ x, (h.register t).freelistIndex t = some x := by
  cases hx : h.freelistIndex t with
  | none =>
      refine ⟨h.freelistCurrentIndex, ?_⟩
      rw [Heap.register, hx]
      exact Function.update_self ..
  | some x => exact ⟨x, by rw [h.register_of_some hx, hx]⟩

@[simp] theorem Heap.register_lock : (h.register t).lock = h.lock := by
  cases hx : h.freelistIndex t with
  | none => rw [Heap.register, hx]
  | some x => rw [h.register_of_some hx]

@[simp] theorem Heap.register_globalFreelist :
    (h.register t).globalFreelist = h.globalFreelist := by
  cases hx : h.freelistIndex t with
  | none => rw [Heap.register, hx]
  | some x => rw [h.register_of_some hx]

/-- A thread gets lists that were empty and belonged to no thread. -/
theorem Heap.Good.register (g : h.Good r A) (hroom : h.Room t) : (h.register t).Good r A := by
  cases hx : h.freelistIndex t with
  | some x =>
      rw [h.register_of_some hx]
      exact g
  | none =>
      have hcur : h.freelistCurrentIndex < kFreeListIndexMax := hroom.resolve_left (by simp [hx])
      have hindex : ∀ t' y, Function.update h.freelistIndex t (some h.freelistCurrentIndex) t' =
          some y → (t' = t ∧ y = h.freelistCurrentIndex) ∨ (t' ≠ t ∧ h.freelistIndex t' = some y) := by
        intro t' y hy
        by_cases ht : t' = t
        · rw [ht, Function.update_self] at hy
          cases hy
          exact Or.inl ⟨ht, rfl⟩
        · rw [Function.update_of_ne ht] at hy
          exact Or.inr ⟨ht, hy⟩
      rw [Heap.register, hx]
      refine ⟨g.ok, ⟨?_, g.holds.global⟩, g.start, g.limit, g.pos, hcur, ?_, ?_, ?_⟩
      · intro y i
        show Chain h.mem (Function.update h.freelist h.freelistCurrentIndex (fun _ => 0) y i) _
        by_cases hy : y = h.freelistCurrentIndex
        · rw [hy, Function.update_self, g.unused _ i le_rfl]
          rfl
        · rw [Function.update_of_ne hy]
          exact g.holds.list y i
      · intro t' y hy
        rcases hindex t' y hy with ⟨-, rfl⟩ | ⟨-, hy⟩
        · exact Nat.lt_succ_self _
        · exact (g.owner t' y hy).trans (Nat.lt_succ_self _)
      · intro t₁ t₂ y h₁ h₂
        rcases hindex t₁ y h₁ with ⟨rfl, rfl⟩ | ⟨-, h₁⟩
        · rcases hindex t₂ _ h₂ with ⟨rfl, -⟩ | ⟨-, h₂⟩
          · rfl
          · exact absurd (g.owner t₂ _ h₂) (lt_irrefl _)
        · rcases hindex t₂ y h₂ with ⟨-, rfl⟩ | ⟨-, h₂⟩
          · exact absurd (g.owner t₁ _ h₁) (lt_irrefl _)
          · exact g.own t₁ t₂ y h₁ h₂
      · intro y i hy
        exact g.unused y i (Nat.le_of_succ_le hy)

theorem wp_getFreelist_register (hroom : h.Room t) {Q : ℕ → Heap → Prop} {E : Stop → Heap → Prop} :
    wp (getFreelist t) h Q E ↔ wp (getFreelist t) (h.register t) Q E := by
  cases hx : h.freelistIndex t with
  | some x => rw [h.register_of_some hx]
  | none =>
      have hcur : ¬ kFreeListIndexMax ≤ h.freelistCurrentIndex :=
        not_le.2 (hroom.resolve_left (by simp [hx]))
      have hreg : (h.register t).freelistIndex t = some h.freelistCurrentIndex := by
        rw [Heap.register, hx]
        exact Function.update_self ..
      rw [wp_getFreelist hreg, getFreelist]
      simp only [wp_bind, wp_get, hx, hcur, if_false, wp_set, wp_pure]
      rw [Heap.register, hx]

/-- `buddy_malloc` registers its thread first. -/
theorem wp_buddyMalloc_register (hroom : h.Room t) {i fuel : ℕ} (hi : i < entryMax)
    {Q : ℕ → Heap → Prop} {E : Stop → Heap → Prop} :
    wp (buddyMalloc t (fuel + 1) (blockSize i)) h Q E ↔
      wp (buddyMalloc t (fuel + 1) (blockSize i)) (h.register t) Q E := by
  rw [buddyMalloc, getIndexFromSize_eq_some.2 ⟨hi, rfl⟩]
  simp only [wp_bind]
  rw [wp_getFreelist_register hroom]

theorem wp_buddyFree_register (hroom : h.Room t) {i fuel buf : ℕ} (hi : i < entryMax)
    {Q : Unit → Heap → Prop} {E : Stop → Heap → Prop} :
    wp (buddyFree t (fuel + 1) buf (blockSize i)) h Q E ↔
      wp (buddyFree t (fuel + 1) buf (blockSize i)) (h.register t) Q E := by
  rw [buddyFree, getIndexFromSize_eq_some.2 ⟨hi, rfl⟩]
  simp only [wp_bind]
  rw [wp_getFreelist_register hroom]

/-- `buddy_malloc` by any thread. -/
theorem Heap.Good.malloc (g : h.Good r A) (hroom : h.Room t) {i : ℕ} (hi : i < entryMax) :
    ∃ x, (h.register t).freelistIndex t = some x ∧
      wp (buddyMalloc t entryMax (blockSize i)) h (MallocPost (h.register t) r A x i)
        (MallocStop (h.register t) A x i) := by
  obtain ⟨x, hx⟩ := h.exists_registered t
  refine ⟨x, hx, ?_⟩
  rw [entryMax, wp_buddyMalloc_register hroom hi]
  exact buddyMalloc_spec (g.register hroom) hx hi (Nat.le_add_right _ _)

/-- `buddy_free` by any thread. -/
theorem Heap.Good.free (g : h.Good r A) (hroom : h.Room t) {i buf : ℕ} {L : Multiset Span}
    (hi : i < entryMax) (hL : A.live = ⟨buf, blockSize i⟩ ::ₘ L) :
    ∃ x, (h.register t).freelistIndex t = some x ∧
      wp (buddyFree t entryMax buf (blockSize i)) h
        (fun _ h' => FreePost (h.register t) r A x i L h') (fun _ _ => False) := by
  obtain ⟨x, hx⟩ := h.exists_registered t
  refine ⟨x, hx, ?_⟩
  rw [entryMax, wp_buddyFree_register hroom hi]
  exact buddyFree_spec (g.register hroom) hx hi (Nat.le_add_right _ _) hL

/-- Clients can write to their blocks. -/
theorem Heap.Good.store (g : h.Good r A) {b : Span} {a : ℕ} (hb : b ∈ A.live) (ha : a ∈ b.bytes)
    (v : ℕ) : (h.write (.node a) v).Good r A :=
  g.change (Heap.SameThreads.write ..) g.ok (g.holds.writeNode (g.ok.off hb ha) v) g.unused

end

/-! ## `buddy_init` -/

/-- The addresses of the first `n` blocks of the largest size. -/
def largest (addr n : ℕ) : List ℕ := (List.range n).map (fun k => addr + k * maxbytes)

theorem largest_succ (addr n : ℕ) : largest addr (n + 1) = largest addr n ++ [addr + n * maxbytes] := by
  rw [largest, List.range_succ, List.map_append, largest]
  rfl

theorem mem_largest {addr n a : ℕ} : a ∈ largest addr n ↔ ∃ k < n, a = addr + k * maxbytes := by
  simp only [largest, List.mem_map, List.mem_range, eq_comm]

theorem lt_of_mem_largest {addr n a : ℕ} (h : a ∈ largest addr n) : a < addr + n * maxbytes := by
  obtain ⟨k, hk, rfl⟩ := mem_largest.1 h
  have := Nat.mul_lt_mul_of_pos_right hk (show 0 < maxbytes by decide)
  omega

theorem largest_sorted (addr n : ℕ) : (largest addr n).Pairwise (· < ·) := by
  induction n with
  | zero => exact List.Pairwise.nil
  | succ n ih =>
      rw [largest_succ, List.pairwise_append]
      refine ⟨ih, List.pairwise_singleton _ _, ?_⟩
      intro a ha b hb
      rw [List.mem_singleton.1 hb]
      exact lt_of_mem_largest ha

theorem largest_tiles (addr n : ℕ) : Tiles (blocks 12 (largest addr n)) ⟨addr, n * maxbytes⟩ := by
  induction n with
  | zero =>
      rw [Nat.zero_mul, Tiles, Span.bytes]
      rfl
  | succ n ih =>
      have hsplit := Span.bytes_add addr (n * maxbytes) maxbytes
      rw [Tiles] at ih ⊢
      rw [Nat.succ_mul, hsplit, largest_succ, blocks_append, Multiset.add_bind, ih, blocks_cons,
        blocks_nil, Multiset.cons_bind, Multiset.zero_bind, add_zero, blockSize_twelve]

/-- The loop of `buddy_init` over these blocks. -/
def linkLoop (l : List ℕ) (h : Heap) : Heap × Cell :=
  l.foldl (fun (hc : Heap × Cell) a => (hc.1.write hc.2 a, Cell.node a)) (h, Cell.global)

theorem linkLoop_concat (l : List ℕ) (a : ℕ) (h : Heap) :
    linkLoop (l ++ [a]) h = ((linkLoop l h).1.write (linkLoop l h).2 a, Cell.node a) := by
  rw [linkLoop, List.foldl_append]
  rfl

theorem linkBlocks_eq (addr size : ℕ) (h : Heap) :
    linkBlocks addr size h = (linkLoop (largest addr (size / maxbytes)) h).1.write
      (linkLoop (largest addr (size / maxbytes)) h).2 0 := by
  rw [linkLoop, largest, List.foldl_map]
  rfl

/-- The loop is at the end of the list: ended here, the global list is the blocks so far. -/
theorem linkLoop_chain {l : List ℕ} (hnodup : l.Nodup) (hpos : ∀ a ∈ l, a ≠ 0) (h : Heap) :
    h.SameThreads (linkLoop l h).1 ∧ (linkLoop l h).1.freelist = h.freelist ∧
    (linkLoop l h).1.lock = h.lock ∧
    ((l = [] ∧ (linkLoop l h).2 = .global) ∨
      ∃ as b, l = as ++ [b] ∧ (linkLoop l h).2 = .node b ∧
        Chain (Function.update (linkLoop l h).1.mem b 0) (linkLoop l h).1.globalFreelist l) := by
  induction l using List.reverseRecOn with
  | nil => exact ⟨Heap.SameThreads.refl h, rfl, rfl, Or.inl ⟨rfl, rfl⟩⟩
  | append_singleton l a ih =>
      obtain ⟨hl, -, ha⟩ := List.nodup_append.1 hnodup
      obtain ⟨hsame, hfree, hlock, hcell⟩ := ih hl (fun b hb => hpos b (List.mem_append_left _ hb))
      have ha0 : a ≠ 0 := hpos a (by simp)
      rw [linkLoop_concat]
      generalize linkLoop l h = s at *
      refine ⟨hsame.trans (Heap.SameThreads.write ..), ?_, ?_, Or.inr ⟨l, a, rfl, rfl, ?_⟩⟩
      · rcases hcell with ⟨-, hc⟩ | ⟨as, b, -, hc, -⟩
        · rw [hc]
          exact hfree
        · rw [hc]
          exact hfree
      · rw [Heap.write_lock, hlock]
      · rcases hcell with ⟨rfl, hc⟩ | ⟨as, b, rfl, hc, hchain⟩
        · rw [hc]
          refine ⟨rfl, ha0, ?_⟩
          rw [Function.update_self]
          rfl
        · rw [hc]
          have hnew : a ∉ as ++ [b] := fun hmem => ha a hmem a (by simp) rfl
          have hba : a ≠ b := fun heq => hnew (by simp [heq])
          have hold : b ∉ as := fun hmem => (List.nodup_append.1 hl).2.2 b hmem b (by simp) rfl
          -- the last block is redirected to the new one, which ends the list
          have hlast : Chain (Function.update (Function.update (Function.update s.1.mem b 0) a 0) b a)
              a [a] := by
            refine ⟨rfl, ha0, ?_⟩
            rw [Function.update_of_ne hba, Function.update_self]
            rfl
          have hsplice := (hchain.update (v := 0) hnew).splice hold hlast
          rw [Function.update_comm hba, Function.update_idem, List.append_cons] at hsplice
          exact hsplice

/-- Every thread has lists of its own. -/
structure Heap.Tabled (h : Heap) : Prop where
  current : h.freelistCurrentIndex ≤ kFreeListIndexMax
  owner : ∀ t x, h.freelistIndex t = some x → x < h.freelistCurrentIndex
  own : ∀ t t' x, h.freelistIndex t = some x → h.freelistIndex t' = some x → t = t'

theorem Heap.Good.tabled {h : Heap} {r : Span} {A : Pool} (g : h.Good r A) : h.Tabled :=
  ⟨g.current, g.owner, g.own⟩

/-- The allocator has not been used: no thread has lists, and the lock is free. -/
structure Heap.Fresh (h : Heap) : Prop where
  index : ∀ t, h.freelistIndex t = none
  current : h.freelistCurrentIndex = 0
  lock : h.lock = 0

theorem Heap.Fresh.tabled {h : Heap} (hfresh : h.Fresh) : h.Tabled where
  current := by
    rw [hfresh.current]
    exact Nat.zero_le _
  owner t x hx := by
    rw [hfresh.index t] at hx
    cases hx
  own t t' x hx := by
    rw [hfresh.index t] at hx
    cases hx

/-- The pool that `buddy_init` creates. -/
def Pool.initial (r : Span) : Pool where
  free _ := []
  global := largest r.start (r.size / maxbytes)
  live := 0

theorem Pool.initial_length (r : Span) : (Pool.initial r).global.length = r.size / maxbytes := by
  rw [Pool.initial, largest, List.length_map, List.length_range]

theorem Pool.initial_ok {r : Span} (hsize : r.size % maxbytes = 0) : (Pool.initial r).Ok r := by
  have hheld : (Pool.initial r).held = 0 := by
    rw [Pool.held]
    exact Finset.sum_eq_zero (fun q _ => rfl)
  have hspans : (Pool.initial r).spans = blocks 12 (largest r.start (r.size / maxbytes)) := by
    rw [Pool.spans, hheld, add_zero]
    exact zero_add _
  refine ⟨fun _ _ => rfl, ?_, ?_, fun _ => List.Pairwise.nil, largest_sorted _ _, ?_⟩
  · rw [hspans]
    have htiles := largest_tiles r.start (r.size / maxbytes)
    rw [Nat.div_mul_cancel (Nat.dvd_of_mod_eq_zero hsize)] at htiles
    exact htiles
  · intro b hb
    rw [hspans] at hb
    obtain ⟨a, ha, rfl⟩ := mem_blocks.1 hb
    obtain ⟨k, -, rfl⟩ := mem_largest.1 ha
    exact ⟨12, by decide, rfl, k, by rw [blockSize_twelve]⟩
  · intro x i _ a ha
    cases ha

/-- **`buddy_init` starts with all blocks on the global list.** The threads keep their lists, which are
    empty now. -/
theorem buddyInit_spec {r : Span} {h : Heap} (htab : h.Tabled) (hpos : 0 < r.start)
    (hsize : r.size % maxbytes = 0) :
    (buddyInit r.start r.size h).Good r (Pool.initial r) ∧
      (buddyInit r.start r.size h).lock = h.lock ∧
      (buddyInit r.start r.size h).freelistIndex = h.freelistIndex ∧
      (buddyInit r.start r.size h).freelistCurrentIndex = h.freelistCurrentIndex := by
  rw [buddyInit, linkBlocks_eq]
  have hnodup : (largest r.start (r.size / maxbytes)).Nodup :=
    (largest_sorted _ _).imp (fun hlt => hlt.ne)
  have hne : ∀ a ∈ largest r.start (r.size / maxbytes), a ≠ 0 := by
    intro a ha
    obtain ⟨k, -, rfl⟩ := mem_largest.1 ha
    omega
  obtain ⟨hsame, hfree, hlock, hcell⟩ := linkLoop_chain hnodup hne
    { h with startAddr := r.start, limit := r.size / 512 + 1, freelist := fun _ _ => 0 }
  generalize linkLoop (largest r.start (r.size / maxbytes))
    { h with startAddr := r.start, limit := r.size / 512 + 1, freelist := fun _ _ => 0 } = s at *
  have hsame' := hsame.trans (Heap.SameThreads.write s.1 s.2 0)
  have hheads : (s.1.write s.2 0).freelist = fun _ _ => 0 := by
    rcases hcell with ⟨-, hc⟩ | ⟨as, b, -, hc, -⟩
    · rw [hc]
      exact hfree
    · rw [hc]
      exact hfree
  refine ⟨⟨Pool.initial_ok hsize, ⟨?_, ?_⟩, hsame'.start, hsame'.limit, hpos, ?_, ?_, ?_, ?_⟩,
    ?_, hsame'.index, hsame'.current⟩
  · intro x i
    rw [hheads]
    rfl
  · rcases hcell with ⟨hn, hc⟩ | ⟨as, b, -, hc, hchain⟩
    · rw [hc, Pool.initial, hn]
      rfl
    · rw [hc]
      exact hchain
  · rw [hsame'.current]
    exact htab.current
  · rw [hsame'.index, hsame'.current]
    exact htab.owner
  · rw [hsame'.index]
    exact htab.own
  · intro x i _
    rfl
  · rw [Heap.write_lock, hlock]

theorem buddyInit_good {r : Span} {h : Heap} (hfresh : h.Fresh) (hpos : 0 < r.start)
    (hsize : r.size % maxbytes = 0) :
    (buddyInit r.start r.size h).Good r (Pool.initial r) ∧ (buddyInit r.start r.size h).lock = 0 ∧
      (∀ t, (buddyInit r.start r.size h).freelistIndex t = none) ∧
      (buddyInit r.start r.size h).freelistCurrentIndex = 0 := by
  obtain ⟨g, hlock, hindex, hcur⟩ := buddyInit_spec hfresh.tabled hpos hsize
  rw [hlock, hindex, hcur]
  exact ⟨g, hfresh.lock, hfresh.index, hfresh.current⟩

/-- The allocator of a program that has just started. -/
def Heap.blank : Heap where
  mem _ := 0
  startAddr := 0
  limit := 0
  freelist _ _ := 0
  freelistCurrentIndex := 0
  freelistIndex _ := none
  globalFreelist := 0
  lock := 0

theorem Heap.blank_fresh : Heap.blank.Fresh := ⟨fun _ => rfl, rfl, rfl⟩

/-- A region of one block. -/
def oneBlock : Span := ⟨maxbytes, maxbytes⟩

end Unvme.Aurora
