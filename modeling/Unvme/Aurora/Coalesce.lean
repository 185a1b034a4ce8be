import Unvme.Aurora.BuddyInv

set_option autoImplicit false

/-! # One thread: coalescing and completeness

A thread that is alone merges a freed block with its buddy whenever that is free, so that no two buddies
are ever free (`Pool.Ok.noBuddies` over all lists there are). Then a free chunk is always inside of one
free block of its size or larger (`Alone.covered`): in a chunk made of smaller blocks, the buddy of a
smallest one would be free too. So a search for a block of a size finds one whenever there is room for
it, and with everything given back only blocks of the largest size are left. -/

namespace Unvme.Aurora

open Unvme.Lib

/-! ## Aligned blocks -/

section

variable {r : Span} {i j q z y : ℕ}

/-- The number of the aligned block of list `i` that `z` is in. -/
def blockIndex (r : Span) (i z : ℕ) : ℕ := (z - r.start) / blockSize i

theorem mem_block_iff :
    z ∈ Span.bytes ⟨r.start + q * blockSize i, blockSize i⟩ ↔
      r.start ≤ z ∧ blockIndex r i z = q := by
  have hs := blockSize_pos i
  rw [Span.mem_bytes, blockIndex]
  dsimp only
  constructor
  · rintro ⟨hle, hlt⟩
    refine ⟨by omega, ?_⟩
    rw [Nat.div_eq_iff (by omega)]
    omega
  · rintro ⟨hle, hq⟩
    rw [Nat.div_eq_iff (by omega)] at hq
    omega

/-- A larger block is a run of smaller ones. -/
theorem blockIndex_of_le (hij : i ≤ j) : blockIndex r j z = blockIndex r i z / 2 ^ (j - i) := by
  have hsize : blockSize j = blockSize i * 2 ^ (j - i) := by
    rw [blockSize, blockSize, mul_assoc, ← pow_add]
    congr 2
    omega
  rw [blockIndex, blockIndex, hsize, Nat.div_div_eq_div_mul]

/-- Addresses that share a small block share every larger one. -/
theorem blockIndex_congr (hij : i ≤ j) (h : blockIndex r i z = blockIndex r i y) :
    blockIndex r j z = blockIndex r j y := by
  rw [blockIndex_of_le hij, blockIndex_of_le hij, h]

/-- So do addresses in two buddies, from twice the size on. -/
theorem blockIndex_congr_buddy (hij : i < j) (h : blockIndex r i z / 2 = blockIndex r i y / 2) :
    blockIndex r j z = blockIndex r j y := by
  have hhalf : ∀ w, blockIndex r (i + 1) w = blockIndex r i w / 2 := by
    intro w
    rw [blockIndex_of_le (Nat.le_add_right i 1), Nat.add_sub_cancel_left, pow_one]
  refine blockIndex_congr hij ?_
  rw [hhalf, hhalf, h]

end

/-! ## Free chunks -/

/-- A free block of list `j`, on the list of the thread or on the global one. -/
def Pool.FreeAt (A : Pool) (x j a : ℕ) : Prop := a ∈ A.free (x, j) ∨ (j = 12 ∧ a ∈ A.global)

/-- Only thread list `x` is in use. -/
def Pool.Alone (A : Pool) (x : ℕ) : Prop := ∀ y j, y ≠ x → A.free (y, j) = []

section

variable {A : Pool} {r : Span} {x : ℕ}

theorem Pool.FreeAt.mem_spans (hok : A.Ok r) {j a : ℕ} (h : A.FreeAt x j a) :
    ⟨a, blockSize j⟩ ∈ A.spans := by
  rcases h with h | ⟨rfl, h⟩
  · exact hok.mem_spans_free h
  · exact Pool.Ok.mem_spans_global h

theorem Pool.FreeAt.aligned (hok : A.Ok r) {j a : ℕ} (h : A.FreeAt x j a) :
    ∃ q, a = r.start + q * blockSize j := by
  obtain ⟨-, -, -, q, hq⟩ := hok.block _ (h.mem_spans hok)
  exact ⟨q, hq⟩

/-- There is no list of larger blocks. -/
theorem Pool.FreeAt.eq_twelve (hok : A.Ok r) {j a : ℕ} (h : A.FreeAt x j a) (hj : 12 ≤ j) : j = 12 := by
  obtain ⟨l, hl, hsize, -⟩ := hok.block _ (h.mem_spans hok)
  rw [← blockSize_inj hsize] at hl
  unfold entryMax at hl
  omega

/-- An address of the region is in a live block or in a free one. -/
theorem Pool.Alone.live_or_free (hx : A.Alone x) (hok : A.Ok r) {z : ℕ} (hz : z ∈ r.bytes) :
    (∃ b ∈ A.live, z ∈ b.bytes) ∨ ∃ j a, A.FreeAt x j a ∧ z ∈ Span.bytes ⟨a, blockSize j⟩ := by
  obtain ⟨b, hb, hzb⟩ := hok.tiles.mem_iff.1 hz
  rw [Pool.spans, Multiset.mem_add, Multiset.mem_add, Pool.held, Multiset.mem_sum] at hb
  rcases hb with (hb | hb) | ⟨⟨y, j⟩, -, hb⟩
  · exact Or.inl ⟨b, hb, hzb⟩
  · obtain ⟨a, ha, rfl⟩ := mem_blocks.1 hb
    exact Or.inr ⟨12, a, Or.inr ⟨rfl, ha⟩, hzb⟩
  · obtain ⟨a, ha, rfl⟩ := mem_blocks.1 hb
    have hyx : y = x := by
      by_contra hne
      rw [hx y j hne] at ha
      cases ha
    subst hyx
    exact Or.inr ⟨j, a, Or.inl ha, hzb⟩

/-- Two buddies are not both free. -/
theorem Pool.Ok.not_both_free (hok : A.Ok r) {m q q' : ℕ} (hm : m + 1 < entryMax)
    (hq : A.FreeAt x m (r.start + q * blockSize m)) (hq' : A.FreeAt x m (r.start + q' * blockSize m))
    (hhalf : q / 2 = q' / 2) : q = q' := by
  have hlist : ∀ {a}, A.FreeAt x m a → a ∈ A.free (x, m) := by
    intro a ha
    rcases ha with ha | ⟨rfl, -⟩
    · exact ha
    · exact absurd hm (by decide)
  have hleft : ∀ p, p % 2 = 0 → IsLeft r m (r.start + p * blockSize m) := by
    intro p hp
    rw [IsLeft, Nat.add_sub_cancel_left]
    have hp2 : p = p / 2 * 2 := by omega
    rw [hp2, mul_assoc, mul_comm 2]
    exact Nat.mul_mod_left _ _
  have hnext : ∀ p, p % 2 = 0 → A.FreeAt x m (r.start + p * blockSize m) →
      ¬ A.FreeAt x m (r.start + (p + 1) * blockSize m) := by
    intro p hp h1 h2
    refine hok.noBuddies x m hm _ (hlist h1) (hleft p hp) ?_
    rw [add_assoc, ← Nat.succ_mul]
    exact hlist h2
  by_contra hne
  rcases Nat.lt_or_gt_of_ne hne with hlt | hlt
  · obtain rfl : q' = q + 1 := by omega
    exact hnext q (by omega) hq hq'
  · obtain rfl : q = q' + 1 := by omega
    exact hnext q' (by omega) hq' hq

/-- **A free chunk is inside of a free block** of its size or larger. -/
theorem Pool.Alone.covered (hx : A.Alone x) (hok : A.Ok r) {i k : ℕ} (hi : i < entryMax)
    (hin : (k + 1) * blockSize i ≤ r.size)
    (hfree : ∀ b ∈ A.live, ∀ z ∈ Span.bytes ⟨r.start + k * blockSize i, blockSize i⟩, z ∉ b.bytes) :
    ∃ j a, i ≤ j ∧ A.FreeAt x j a ∧
      r.start + k * blockSize i ∈ Span.bytes ⟨a, blockSize j⟩ := by
  have hs := blockSize_pos i
  have hcover : ∀ z, r.start ≤ z → blockIndex r i z = k →
      ∃ j a, A.FreeAt x j a ∧ z ∈ Span.bytes ⟨a, blockSize j⟩ := by
    intro z hz hk
    have hzc : z ∈ Span.bytes ⟨r.start + k * blockSize i, blockSize i⟩ := mem_block_iff.2 ⟨hz, hk⟩
    have hzr : z ∈ r.bytes := by
      rw [Span.mem_bytes] at hzc ⊢
      rw [Nat.succ_mul] at hin
      dsimp only at hzc
      omega
    refine (hx.live_or_free hok hzr).resolve_left ?_
    rintro ⟨b, hb, hzb⟩
    exact hfree b hb z hzc hzb
  have hstart : blockIndex r i (r.start + k * blockSize i) = k := by
    rw [blockIndex, Nat.add_sub_cancel_left, Nat.mul_div_cancel _ (by omega)]
  by_contra hno
  -- the blocks that meet the chunk are all smaller than it
  have hsmall : ∀ j a z, A.FreeAt x j a → r.start ≤ z → blockIndex r i z = k →
      z ∈ Span.bytes ⟨a, blockSize j⟩ → j < i := by
    intro j a z ha hz hk hza
    by_contra hij
    obtain ⟨q, rfl⟩ := ha.aligned hok
    refine hno ⟨j, _, not_lt.1 hij, ha, mem_block_iff.2 ⟨Nat.le_add_right _ _, ?_⟩⟩
    rw [← (mem_block_iff.1 hza).2]
    exact blockIndex_congr (not_lt.1 hij) (hstart.trans hk.symm)
  -- a smallest one of them
  let P : ℕ → Prop := fun m => ∃ a z, A.FreeAt x m a ∧ r.start ≤ z ∧ blockIndex r i z = k ∧
    z ∈ Span.bytes ⟨a, blockSize m⟩
  have hex : ∃ m, P m := by
    obtain ⟨j, a, ha, hza⟩ := hcover _ (Nat.le_add_right _ _) hstart
    exact ⟨j, a, _, ha, Nat.le_add_right _ _, hstart, hza⟩
  classical
  obtain ⟨a, z, ha, hz, hzk, hza⟩ : P (Nat.find hex) := Nat.find_spec hex
  have hmin : ∀ j, P j → Nat.find hex ≤ j := fun j hj => Nat.find_min' hex hj
  generalize Nat.find hex = m at ha hza hmin
  have hmi : m < i := hsmall m a z ha hz hzk hza
  obtain ⟨q, rfl⟩ := ha.aligned hok
  have hzq : blockIndex r m z = q := (mem_block_iff.1 hza).2
  -- its buddy is in the chunk, so it is free as well
  obtain ⟨q', hhalf, hne⟩ : ∃ q', q' / 2 = q / 2 ∧ q' ≠ q := by
    rcases Nat.mod_two_eq_zero_or_one q with h | h
    · exact ⟨q + 1, by omega, by omega⟩
    · exact ⟨q - 1, by omega, by omega⟩
  have hs' := blockSize_pos m
  have hq' : blockIndex r m (r.start + q' * blockSize m) = q' := by
    rw [blockIndex, Nat.add_sub_cancel_left, Nat.mul_div_cancel _ (by omega)]
  have hbuddy : ∀ j, m < j → blockIndex r j (r.start + q' * blockSize m) = blockIndex r j z := by
    intro j hj
    refine blockIndex_congr_buddy hj ?_
    rw [hq', hzq, hhalf]
  have hk' : blockIndex r i (r.start + q' * blockSize m) = k := (hbuddy i hmi).trans hzk
  obtain ⟨j, c, hc, hzc⟩ := hcover _ (Nat.le_add_right _ _) hk'
  have hmj : m ≤ j := hmin j ⟨c, _, hc, Nat.le_add_right _ _, hk', hzc⟩
  obtain ⟨p, rfl⟩ := hc.aligned hok
  have hzp := (mem_block_iff.1 hzc).2
  rcases Nat.eq_or_lt_of_le hmj with rfl | hlt
  · obtain rfl : q' = p := hq'.symm.trans hzp
    refine hne (hok.not_both_free ?_ hc ha hhalf)
    omega
  · -- a larger block would contain the smallest one
    have hzin : z ∈ Span.bytes ⟨r.start + p * blockSize j, blockSize j⟩ :=
      mem_block_iff.2 ⟨hz, (hbuddy j hlt).symm.trans hzp⟩
    have heq := hok.tiles.eq_of_mem (ha.mem_spans hok) (hc.mem_spans hok) hza hzin
    exact hlt.ne (blockSize_inj (congrArg Span.size heq))

/-- With no live blocks, only blocks of the largest size are free. -/
theorem Pool.Alone.coalesced (hx : A.Alone x) (hok : A.Ok r) (hsize : r.size % maxbytes = 0)
    (hlive : A.live = 0) {i : ℕ} (hi : i + 1 < entryMax) : A.free (x, i) = [] := by
  rw [List.eq_nil_iff_forall_not_mem]
  intro a ha
  have hfa : A.FreeAt x i a := Or.inl ha
  have hmem := hok.pos (hfa.mem_spans hok)
  have hreg := hok.tiles.sub (hfa.mem_spans hok) hmem
  dsimp only at hmem hreg
  have hpos : 512 ≤ blockSize 12 := blockSize_pos 12
  have hle : r.start ≤ a := (Span.mem_bytes.1 hreg).1
  have hlt : a < r.start + r.size := (Span.mem_bytes.1 hreg).2
  -- the chunk of the largest size around the block is free
  have hin : (blockIndex r 12 a + 1) * blockSize 12 ≤ r.size := by
    obtain ⟨n, hn⟩ := Nat.dvd_of_mod_eq_zero hsize
    rw [← blockSize_twelve, mul_comm] at hn
    rw [hn]
    refine Nat.mul_le_mul_right _ (Nat.succ_le_of_lt ?_)
    rw [blockIndex, Nat.div_lt_iff_lt_mul (by omega), ← hn]
    omega
  obtain ⟨j, c, hj, hc, hstart⟩ := hx.covered hok (by decide) hin (by simp [hlive])
  obtain rfl := hc.eq_twelve hok hj
  obtain ⟨q, rfl⟩ := hc.aligned hok
  have hac : a ∈ Span.bytes ⟨r.start + q * blockSize 12, blockSize 12⟩ := by
    refine mem_block_iff.2 ⟨hle, ?_⟩
    rw [← (mem_block_iff.1 hstart).2, blockIndex, blockIndex, Nat.add_sub_cancel_left,
      Nat.mul_div_cancel _ (by omega)]
  have heq := hok.tiles.eq_of_mem (hfa.mem_spans hok) (hc.mem_spans hok) hmem hac
  have := blockSize_inj (congrArg Span.size heq)
  subst this
  exact absurd hi (by decide)

/-- Those are the blocks that `buddy_init` created. -/
theorem Pool.Alone.largest_free (hx : A.Alone x) (hok : A.Ok r) (hsize : r.size % maxbytes = 0)
    (hlive : A.live = 0) :
    (A.global ++ A.free (x, 12)).Perm (largest r.start (r.size / maxbytes)) := by
  have hpos : 0 < blockSize 12 := by
    have := blockSize_pos 12
    omega
  have hn : r.size = r.size / maxbytes * blockSize 12 := by
    rw [blockSize_twelve, Nat.div_mul_cancel (Nat.dvd_of_mod_eq_zero hsize)]
  have hfree : ∀ a, a ∈ A.global ++ A.free (x, 12) ↔ A.FreeAt x 12 a := by
    intro a
    rw [List.mem_append, Pool.FreeAt]
    constructor
    · rintro (h | h)
      · exact Or.inr ⟨rfl, h⟩
      · exact Or.inl h
    · rintro (h | ⟨-, h⟩)
      · exact Or.inr h
      · exact Or.inl h
  have hnodup : (A.global ++ A.free (x, 12)).Nodup := by
    rw [List.nodup_append]
    refine ⟨hok.apart.globalNodup, hok.apart.nodup _, ?_⟩
    rintro a ha b hb rfl
    exact hok.apart.global _ a ha hb
  have hnodup' : (largest r.start (r.size / maxbytes)).Nodup :=
    (largest_sorted _ _).imp (fun hlt => hlt.ne)
  rw [List.perm_ext_iff_of_nodup hnodup hnodup']
  intro a
  rw [hfree, mem_largest]
  constructor
  · intro ha
    obtain ⟨q, rfl⟩ := ha.aligned hok
    refine ⟨q, ?_, rfl⟩
    have hmem := hok.tiles.sub (ha.mem_spans hok) (hok.pos (ha.mem_spans hok))
    rw [Span.mem_bytes] at hmem
    dsimp only at hmem
    refine Nat.lt_of_mul_lt_mul_right (a := blockSize 12) ?_
    rw [← hn]
    omega
  · rintro ⟨k, hk, rfl⟩
    have hin : (k + 1) * blockSize 12 ≤ r.size := by
      rw [hn]
      exact Nat.mul_le_mul_right _ hk
    obtain ⟨j, c, hj, hc, hstart⟩ := hx.covered hok (by decide) hin (by simp [hlive])
    obtain rfl := hc.eq_twelve hok hj
    obtain ⟨q, rfl⟩ := hc.aligned hok
    have hq := (mem_block_iff.1 hstart).2
    rw [blockIndex, Nat.add_sub_cancel_left, Nat.mul_div_cancel _ hpos] at hq
    rw [hq]
    exact hc

/-- There is room for a block of `size` bytes: an aligned chunk of the region that meets no live block. -/
def HasChunk (r : Span) (L : Multiset Span) (size : ℕ) : Prop :=
  ∃ k, (k + 1) * size ≤ r.size ∧
    ∀ b ∈ L, ∀ z ∈ Span.bytes ⟨r.start + k * size, size⟩, z ∉ b.bytes

/-- A block that can be handed out is such a chunk. -/
theorem Pool.Ok.hasChunk {a i : ℕ} {L : Multiset Span} (hok : A.Ok r)
    (hL : A.live = ⟨a, blockSize i⟩ ::ₘ L) : HasChunk r L (blockSize i) := by
  have hs := blockSize_pos i
  have hb : ⟨a, blockSize i⟩ ∈ A.live := by
    rw [hL]
    exact Multiset.mem_cons_self _ _
  obtain ⟨-, -, -, k, hk⟩ := hok.block_of_live hb
  dsimp only at hk
  subst hk
  have hlast : r.start + k * blockSize i + (blockSize i - 1) ∈ r.bytes := by
    refine hok.tiles.sub (Pool.Ok.mem_spans_live hb) ?_
    rw [Span.mem_bytes]
    dsimp only
    omega
  refine ⟨k, ?_, ?_⟩
  · rw [Span.mem_bytes] at hlast
    rw [Nat.succ_mul]
    omega
  · intro b hbL z hz
    have htiles := hok.tiles
    rw [Pool.spans, hL, Multiset.cons_add, Multiset.cons_add] at htiles
    refine htiles.disjoint ?_ hz
    exact Multiset.mem_add.2 (Or.inl (Multiset.mem_add.2 (Or.inl hbL)))

end

/-! ## Runs of one thread -/

/-- Calls of thread `t` from the heap `h₀` on, none of which returned NULL, and the live blocks after
    them. -/
inductive Solo (t : ℕ) (h₀ : Heap) : Heap → Multiset Span → Prop
  | start : Solo t h₀ h₀ 0
  | malloc {h h' : Heap} {L : Multiset Span} {i a : ℕ} (hrun : Solo t h₀ h L) (hi : i < entryMax)
      (hm : buddyMalloc t entryMax (blockSize i) h = .ok a h') (ha : a ≠ 0) :
      Solo t h₀ h' (⟨a, blockSize i⟩ ::ₘ L)
  | free {h h' : Heap} {L : Multiset Span} {b : Span} (hrun : Solo t h₀ h L) (hb : b ∈ L)
      (hf : buddyFree t entryMax b.start b.size h = .ok () h') : Solo t h₀ h' (L.erase b)
  | store {h : Heap} {L : Multiset Span} {b : Span} {a : ℕ} (v : ℕ) (hrun : Solo t h₀ h L)
      (hb : b ∈ L) (ha : a ∈ b.bytes) : Solo t h₀ (h.write (.node a) v) L

/-- The heap holds a pool in order, all of it with one thread, and the lock is free. -/
structure Heap.OneUser (h : Heap) (r : Span) (t : ℕ) (L : Multiset Span) (A : Pool) (x : ℕ) : Prop where
  good : h.Good r A
  live : A.live = L
  room : h.Room t
  index : (h.register t).freelistIndex t = some x
  alone : A.Alone x
  lock : h.lock = 0

namespace Heap.OneUser

variable {h h' : Heap} {r : Span} {t x : ℕ} {L : Multiset Span} {A : Pool}

/-- The thread is registered by its first call. -/
theorem next (u : h.OneUser r t L A x) (hsame : (h.register t).SameThreads h') {L' : Multiset Span}
    {A' : Pool} (g' : h'.Good r A') (hlive : A'.live = L') (hother : ∀ y j, y ≠ x →
      A'.free (y, j) = A.free (y, j)) (hlock : h'.lock = (h.register t).lock) :
    h'.OneUser r t L' A' x := by
  have hx : h'.freelistIndex t = some x := by rw [hsame.index, u.index]
  refine ⟨g', hlive, Or.inl ?_, ?_, ?_, ?_⟩
  · rw [hx]
    exact Option.some_ne_none x
  · rw [Heap.register_of_some hx, hx]
  · intro y j hy
    rw [hother y j hy]
    exact u.alone y j hy
  · rw [hlock, Heap.register_lock, u.lock]

/-- **`buddy_malloc` returns NULL if and only if there is no room**, and then changes no list. -/
theorem malloc (u : h.OneUser r t L A x) {i : ℕ} (hi : i < entryMax) :
    ∃ a h', buddyMalloc t entryMax (blockSize i) h = .ok a h' ∧
      ((a = 0 ∧ ¬ HasChunk r L (blockSize i) ∧ h'.Holds A) ∨
        (a ≠ 0 ∧ HasChunk r L (blockSize i) ∧
          ∃ A', h'.OneUser r t (⟨a, blockSize i⟩ ::ₘ L) A' x)) := by
  obtain ⟨y, hy, hspec⟩ := u.good.malloc u.room hi
  obtain rfl : x = y := Option.some.inj (u.index.symm.trans hy)
  obtain ⟨a, h', hm, hpost⟩ := (wp_mono hspec (fun _ _ hQ => hQ)
    (fun e h' hE => hE.2.2.1 (Heap.register_lock.trans u.lock))).exists_ok
  refine ⟨a, h', hm, ?_⟩
  rcases hpost with ⟨ha, rfl, -, hglobal, hlists⟩ | ⟨ha, hlock, hsame, A', g', hlive, -, hother⟩
  · have g := u.good.register u.room
    refine Or.inl ⟨ha, ?_, ⟨g.holds.list, g.holds.global⟩⟩
    rintro ⟨k, hin, hfree⟩
    obtain ⟨j, c, hij, hc, -⟩ := u.alone.covered u.good.ok hi hin (by rw [u.live]; exact hfree)
    rcases hc with hc | ⟨-, hc⟩
    · rw [hlists j hij] at hc
      cases hc
    · rw [hglobal] at hc
      cases hc
  · rw [u.live] at hlive
    refine Or.inr ⟨ha, g'.ok.hasChunk hlive, A', ?_⟩
    exact u.next hsame g' hlive (fun y j hyx => hother y j (Or.inl hyx)) hlock

/-- `buddy_free` returns. -/
theorem free (u : h.OneUser r t L A x) {b : Span} (hb : b ∈ L) :
    ∃ h', buddyFree t entryMax b.start b.size h = .ok () h' ∧
      ∃ A', h'.OneUser r t (L.erase b) A' x := by
  obtain ⟨i, hi, hsize, -⟩ := u.good.ok.block_of_live (u.live ▸ hb)
  have hL : A.live = ⟨b.start, blockSize i⟩ ::ₘ L.erase b := by
    rw [← hsize, u.live]
    exact (Multiset.cons_erase hb).symm
  obtain ⟨y, hy, hspec⟩ := u.good.free u.room hi hL
  obtain rfl : x = y := Option.some.inj (u.index.symm.trans hy)
  rw [← hsize] at hspec
  obtain ⟨⟨⟩, h', hf, hlock, hsame, A', g', hlive, -, hother⟩ := hspec.exists_ok
  exact ⟨h', hf, A', u.next hsame g' hlive (fun y j hyx => hother y j (Or.inl hyx)) hlock⟩

theorem store (u : h.OneUser r t L A x) {b : Span} {a : ℕ} (hb : b ∈ L) (ha : a ∈ b.bytes) (v : ℕ) :
    (h.write (.node a) v).OneUser r t L A x := by
  refine ⟨u.good.store (u.live ▸ hb) ha v, u.live, u.room, ?_, u.alone, u.lock⟩
  have hindex := u.index
  cases hx : h.freelistIndex t with
  | some y =>
      have hx' : (h.write (.node a) v).freelistIndex t = some y := hx
      rw [Heap.register_of_some hx']
      rw [Heap.register_of_some hx] at hindex
      exact hindex
  | none =>
      have hx' : (h.write (.node a) v).freelistIndex t = none := hx
      rw [Heap.register, hx']
      rw [Heap.register, hx] at hindex
      exact hindex

end Heap.OneUser

theorem Heap.OneUser.start {r : Span} {h : Heap} (hfresh : h.Fresh) (hpos : 0 < r.start)
    (hsize : r.size % maxbytes = 0) (t : ℕ) :
    (buddyInit r.start r.size h).OneUser r t 0 (Pool.initial r) 0 := by
  obtain ⟨g, hlock, hindex, hcur⟩ := buddyInit_good hfresh hpos hsize
  refine ⟨g, rfl, Or.inr ?_, ?_, fun _ _ _ => rfl, hlock⟩
  · rw [hcur]
    decide
  · rw [Heap.register, hindex t, hcur]
    exact Function.update_self ..

/-- Every run of one thread leaves it the one user of a pool in order. -/
theorem Solo.oneUser {r : Span} {h₀ h : Heap} {t : ℕ} {L : Multiset Span} (hfresh : h₀.Fresh)
    (hpos : 0 < r.start) (hsize : r.size % maxbytes = 0)
    (hrun : Solo t (buddyInit r.start r.size h₀) h L) : ∃ A x, h.OneUser r t L A x := by
  induction hrun with
  | start => exact ⟨_, 0, Heap.OneUser.start hfresh hpos hsize t⟩
  | malloc _ hi hm ha ih =>
      obtain ⟨A, x, u⟩ := ih
      obtain ⟨a', h'', hm', hpost⟩ := u.malloc hi
      cases hm.symm.trans hm'
      rcases hpost with ⟨h0, -⟩ | ⟨-, -, A', u'⟩
      · exact absurd h0 ha
      · exact ⟨A', x, u'⟩
  | free _ hb hf ih =>
      obtain ⟨A, x, u⟩ := ih
      obtain ⟨h'', hf', A', u'⟩ := u.free hb
      cases hf.symm.trans hf'
      exact ⟨A', x, u'⟩
  | store v _ hb ha ih =>
      obtain ⟨A, x, u⟩ := ih
      exact ⟨A, x, u.store hb ha v⟩

/-- **One thread's allocator is complete and coalesces fully.** After any calls of one thread its lists
    are ascending and hold no two buddies below the largest size; a call returns NULL exactly if no
    aligned chunk of its size is free of live blocks, and then leaves the lists as they are; and with
    all blocks given back the free blocks are the ones that `buddy_init` created. -/
theorem solo_complete {r : Span} {h₀ h : Heap} {t : ℕ} {L : Multiset Span} (hfresh : h₀.Fresh)
    (hpos : 0 < r.start) (hsize : r.size % maxbytes = 0)
    (hrun : Solo t (buddyInit r.start r.size h₀) h L) :
    ∃ A x, h.Holds A ∧ A.live = L ∧ A.Alone x ∧
      (∀ p, (A.free p).Pairwise (· < ·)) ∧ A.global.Pairwise (· < ·) ∧
      (∀ i, i + 1 < entryMax → ∀ a ∈ A.free (x, i), IsLeft r i a → a + blockSize i ∉ A.free (x, i)) ∧
      (∀ i < entryMax, ∃ a h', buddyMalloc t entryMax (blockSize i) h = .ok a h' ∧
        (a = 0 ↔ ¬ HasChunk r L (blockSize i)) ∧ (a = 0 → h'.Holds A)) ∧
      (∀ b ∈ L, ∃ h', buddyFree t entryMax b.start b.size h = .ok () h') ∧
      (L = 0 → (∀ i, i + 1 < entryMax → A.free (x, i) = []) ∧
        (A.global ++ A.free (x, 12)).Perm (largest r.start (r.size / maxbytes))) := by
  obtain ⟨A, x, u⟩ := hrun.oneUser hfresh hpos hsize
  refine ⟨A, x, u.good.holds, u.live, u.alone, u.good.ok.sorted, u.good.ok.globalSorted,
    u.good.ok.noBuddies x, ?_, ?_, ?_⟩
  · intro i hi
    obtain ⟨a, h', hm, hpost⟩ := u.malloc hi
    refine ⟨a, h', hm, ?_⟩
    rcases hpost with ⟨ha, hno, hholds⟩ | ⟨ha, hchunk, -⟩
    · exact ⟨iff_of_true ha hno, fun _ => hholds⟩
    · exact ⟨iff_of_false ha (not_not.2 hchunk), fun h0 => absurd h0 ha⟩
  · intro b hb
    obtain ⟨h', hf, -⟩ := u.free hb
    exact ⟨h', hf⟩
  · intro hL
    have hlive : A.live = 0 := u.live.trans hL
    exact ⟨fun i hi => u.alone.coalesced u.good.ok hsize hlive hi,
      u.alone.largest_free u.good.ok hsize hlive⟩

/-- A region of one block: 512 bytes are cut off it and given back, and it is one block again. -/
theorem solo_complete_one : ∃ h, Solo 0 (buddyInit maxbytes maxbytes Heap.blank) h 0 ∧
    ∃ A x, h.Holds A ∧ (∀ i, i + 1 < entryMax → A.free (x, i) = []) ∧
      (A.global ++ A.free (x, 12)).Perm [maxbytes] := by
  have hm : buddyMalloc 0 entryMax (blockSize 0) (buddyInit maxbytes maxbytes Heap.blank) =
      .ok maxbytes _ := eq_ok_of_returns (by decide +kernel)
  have hmalloc := Solo.start.malloc (i := 0) (by decide) hm (by decide)
  have hf : buddyFree 0 entryMax maxbytes (blockSize 0) (final (buddyMalloc 0 entryMax (blockSize 0))
      (buddyInit maxbytes maxbytes Heap.blank)) = .ok () _ := eq_ok_of_returns (by decide +kernel)
  have hfree := hmalloc.free (b := ⟨maxbytes, blockSize 0⟩) (Multiset.mem_cons_self _ _) hf
  rw [Multiset.erase_cons_head] at hfree
  obtain ⟨A, x, hholds, -, -, -, -, -, -, -, hend⟩ :=
    solo_complete (r := oneBlock) Heap.blank_fresh (by decide) (by decide) hfree
  exact ⟨_, hfree, A, x, hholds, hend rfl⟩

end Unvme.Aurora
