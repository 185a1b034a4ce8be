import Unvme.Aurora.BuddyInv
import Mathlib.Data.Fintype.EquivFin
import Mathlib.Logic.Relation

set_option autoImplicit false

/-! # Threads that share the allocator

Up to 16 threads call `buddy_malloc` and `buddy_free`. A thread works on lists and blocks that no other
thread touches until it finds its own lists empty; then it waits for the lock and refills from the global
list with the lock held. So a call is one step where the lists of the thread serve it, and otherwise the
steps are: reach the lock, take it, and do the rest of the call with the lock in hand. Steps of different
threads interleave in any order, and clients write to live blocks at any time.

`region_partitioned` is the invariant of all runs, `lock_released` what holds of the lock as long as no
thread finds the global list empty. -/

namespace Unvme.Aurora

open Unvme.Lib

abbrev Thread := Fin kFreeListIndexMax

instance : NeZero kFreeListIndexMax := ⟨by decide⟩

/-- Where a thread is: outside of the allocator, or in a call of `buddy_malloc` for this many bytes, at
    the loop that waits for the lock or in the section behind it. -/
inductive Point where
  | outside
  | waiting (size : ℕ)
  | locked (size : ℕ)
  deriving DecidableEq, Repr

/-- The allocator, its threads, and the blocks that clients have. -/
structure System where
  heap : Heap
  point : Thread → Point
  live : Multiset Span

/-- What a step shows to its caller: the result of a `buddy_malloc`, or nothing. -/
inductive Event where
  | malloc (t : Thread) (size a : ℕ)
  | quiet
  deriving DecidableEq, Repr

/-- The lists of thread `t` have a block of at least `size` bytes. -/
def Heap.serves (h : Heap) (t size : ℕ) : Bool :=
  match getIndexFromSize size, h.freelistIndex t with
  | some i, some x =>
      (List.range entryMax).any (fun j => decide (i ≤ j) && decide (h.freelist x j ≠ 0))
  | _, _ => false

/-- The live blocks after a `buddy_malloc` that returned `a`. -/
def grant (size a : ℕ) (L : Multiset Span) : Multiset Span :=
  if a = 0 then L else ⟨a, size⟩ ::ₘ L

/-- One step of a thread or of a client. -/
inductive System.Step : System → Event → System → Prop
  /-- A call that the lists of the thread serve, or with a size that is none. -/
  | serve {s : System} {t : Thread} {size a : ℕ} {h' : Heap} (hp : s.point t = .outside)
      (hs : getIndexFromSize size = none ∨ s.heap.serves t size)
      (hm : buddyMalloc t entryMax size s.heap = .ok a h') :
      Step s (.malloc t size a) { s with heap := h', live := grant size a s.live }
  /-- A call that gets to the lock. -/
  | reach {s : System} {t : Thread} {size x : ℕ} {h' : Heap} (hp : s.point t = .outside)
      (hs : getIndexFromSize size ≠ none) (hn : s.heap.serves t size = false)
      (hg : getFreelist t s.heap = .ok x h') :
      Step s .quiet { s with heap := h', point := Function.update s.point t (.waiting size) }
  /-- `atomic_fetch_or` finds the lock taken. -/
  | spin {s : System} {t : Thread} {size : ℕ} (hp : s.point t = .waiting size)
      (hl : s.heap.lock ≠ 0) : Step s .quiet s
  /-- `atomic_fetch_or` finds the lock free and takes it. -/
  | acquire {s : System} {t : Thread} {size : ℕ} (hp : s.point t = .waiting size)
      (hl : s.heap.lock = 0) :
      Step s .quiet { s with
        heap := { s.heap with lock := 1 }
        point := Function.update s.point t (.locked size) }
  /-- The rest of a call that took the lock. -/
  | leave {s : System} {t : Thread} {size a : ℕ} {h' : Heap} (hp : s.point t = .locked size)
      (hm : buddyMalloc t entryMax size { s.heap with lock := 0 } = .ok a h') :
      Step s (.malloc t size a)
        { heap := h', point := Function.update s.point t .outside, live := grant size a s.live }
  /-- A live block is given back, by any thread. -/
  | free {s : System} {t : Thread} {b : Span} {h' : Heap} (hp : s.point t = .outside)
      (hb : b ∈ s.live) (hf : buddyFree t entryMax b.start b.size s.heap = .ok () h') :
      Step s .quiet { s with heap := h', live := s.live.erase b }
  /-- A client writes to a word of a live block. -/
  | store {s : System} {b : Span} {a v : ℕ} (hb : b ∈ s.live) (ha : a ∈ b.bytes) :
      Step s .quiet { s with heap := s.heap.write (.node a) v }

/-- Any number of steps, each allowed by `P`. -/
def System.Runs (P : System → Event → Prop) : System → System → Prop :=
  Relation.ReflTransGen (fun s s' => ∃ e, P s e ∧ System.Step s e s')

/-- No thread has called the allocator. -/
def System.start (h : Heap) : System where
  heap := h
  point _ := .outside
  live := 0

/-! ## One step -/

section

variable {h h' : Heap} {r : Span} {A : Pool}

/-- Every thread has lists of its own or finds some: there are as many as threads. -/
theorem Heap.room_of_table
    (htable : ∀ x < h.freelistCurrentIndex, ∃ t : Thread, h.freelistIndex t = some x) (t : Thread) :
    h.Room t := by
  by_contra hno
  rw [Heap.Room, not_or, not_not, not_lt] at hno
  obtain ⟨hnone, hfull⟩ := hno
  choose f hf using fun x : Thread => htable x (x.isLt.trans_le hfull)
  have hinj : Function.Injective f := by
    intro x y hxy
    have hx := hf x
    rw [hxy, hf y] at hx
    exact Fin.ext (Option.some.inj hx).symm
  obtain ⟨x, rfl⟩ := Finite.surjective_of_injective hinj t
  rw [hf x] at hnone
  cases hnone

/-- A call of `buddy_malloc` that returns. -/
theorem Heap.Good.of_malloc (g : h.Good r A) {t size a : ℕ} (hroom : h.Room t)
    (hm : buddyMalloc t entryMax size h = .ok a h') :
    (getIndexFromSize size = none ∧ a = 0 ∧ h' = h) ∨
    ∃ i x, i < entryMax ∧ size = blockSize i ∧ (h.register t).freelistIndex t = some x ∧
      MallocPost (h.register t) r A x i a h' := by
  cases hsize : getIndexFromSize size with
  | none =>
      rw [entryMax, buddyMalloc, hsize] at hm
      cases hm
      exact Or.inl ⟨rfl, rfl, rfl⟩
  | some i =>
      obtain ⟨hi, rfl⟩ := getIndexFromSize_eq_some.1 hsize
      obtain ⟨x, hx, hspec⟩ := g.malloc hroom hi
      exact Or.inr ⟨i, x, hi, rfl, hx, hspec.of_ok hm⟩

/-- In both cases the heap holds a pool with the granted block. -/
theorem MallocPost.good {x i a : ℕ} (g : h.Good r A) (hpost : MallocPost h r A x i a h') :
    h.SameThreads h' ∧ ∃ A', h'.Good r A' ∧ A'.live = grant (blockSize i) a A.live := by
  rcases hpost with ⟨rfl, rfl, -, -, -⟩ | ⟨ha, -, hsame, A', g', hlive, -, -⟩
  · have hsame : h.SameThreads { h with lock := 1 } := ⟨rfl, rfl, rfl, rfl⟩
    exact ⟨hsame, A, g.change hsame g.ok ⟨g.holds.list, g.holds.global⟩ g.unused, rfl⟩
  · refine ⟨hsame, A', g', ?_⟩
    rw [grant, if_neg ha]
    exact hlive

end

/-- The invariant of all runs: the heap holds a pool in order, with the blocks that clients have. -/
structure System.Inv (r : Span) (s : System) : Prop where
  good : ∃ A, s.heap.Good r A ∧ A.live = s.live
  table : ∀ x < s.heap.freelistCurrentIndex, ∃ t : Thread, s.heap.freelistIndex t = some x

/-- The lists in use belong to threads, also after one more thread got lists. -/
theorem Heap.register_table {h : Heap} {t : Thread}
    (htable : ∀ x < h.freelistCurrentIndex, ∃ t : Thread, h.freelistIndex t = some x) :
    ∀ x < (h.register t).freelistCurrentIndex,
      ∃ u : Thread, (h.register t).freelistIndex u = some x := by
  cases hx : h.freelistIndex t with
  | some x =>
      rw [h.register_of_some hx]
      exact htable
  | none =>
      rw [Heap.register, hx]
      intro x hlt
      rcases Nat.lt_succ_iff_lt_or_eq.1 hlt with hlt | rfl
      · obtain ⟨u, hu⟩ := htable x hlt
        refine ⟨u, ?_⟩
        have hne : (u : ℕ) ≠ t := by
          intro heq
          rw [heq, hx] at hu
          cases hu
        show Function.update h.freelistIndex t _ u = some x
        rw [Function.update_of_ne hne, hu]
      · exact ⟨t, Function.update_self ..⟩

theorem getFreelist_ok {h h' : Heap} {t x : ℕ} (hg : getFreelist t h = .ok x h') :
    h.Room t ∧ h' = h.register t := by
  have hroom : h.Room t := by
    by_contra hno
    rw [Heap.Room, not_or, not_not, not_lt] at hno
    have hwp : wp (getFreelist t) h (fun _ _ => False) (fun _ _ => True) := by
      unfold getFreelist
      simp only [wp_bind, wp_get, hno.1, hno.2, if_true, wp_throw]
    exact hwp.of_ok hg
  obtain ⟨y, hy⟩ := h.exists_registered t
  have hwp : wp (getFreelist t) h (fun _ h' => h' = h.register t) (fun _ _ => True) := by
    rw [wp_getFreelist_register hroom, wp_getFreelist hy]
  exact ⟨hroom, hwp.of_ok hg⟩

namespace System.Inv

variable {r : Span} {s s' : System}

theorem room (inv : s.Inv r) (t : Thread) : s.heap.Room t := Heap.room_of_table inv.table t

/-- The threads of a heap are the same, or one more has lists. -/
theorem table_of (inv : s.Inv r) {t : Thread} {h' : Heap}
    (hsame : (s.heap.register t).SameThreads h') :
    ∀ x < h'.freelistCurrentIndex, ∃ u : Thread, h'.freelistIndex u = some x := by
  rw [hsame.current, hsame.index]
  exact Heap.register_table inv.table

/-- The lock word can have any value. -/
theorem setLock (inv : s.Inv r) (v : ℕ) (point : Thread → Point) :
    System.Inv r { s with heap := { s.heap with lock := v }, point := point } := by
  obtain ⟨A, g, hlive⟩ := inv.good
  refine ⟨⟨A, ?_, hlive⟩, inv.table⟩
  exact g.change ⟨rfl, rfl, rfl, rfl⟩ g.ok ⟨g.holds.list, g.holds.global⟩ g.unused

/-- A `buddy_malloc` that returns keeps the invariant. -/
theorem malloc (inv : s.Inv r) {t : Thread} {size a : ℕ} {h' : Heap} (point : Thread → Point)
    (hm : buddyMalloc t entryMax size s.heap = .ok a h') :
    System.Inv r { heap := h', point := point, live := grant size a s.live } := by
  obtain ⟨A, g, hlive⟩ := inv.good
  rcases g.of_malloc (inv.room t) hm with ⟨-, rfl, rfl⟩ | ⟨i, x, -, rfl, -, hpost⟩
  · exact ⟨⟨A, g, hlive⟩, inv.table⟩
  · obtain ⟨hsame, A', g', hlive'⟩ := hpost.good (g.register (inv.room t))
    refine ⟨⟨A', g', ?_⟩, inv.table_of hsame⟩
    rw [hlive', hlive]

/-- **Every step keeps the invariant.** -/
theorem step {e : Event} (inv : s.Inv r) (hstep : System.Step s e s') : s'.Inv r := by
  cases hstep with
  | serve hp hs hm => exact inv.malloc s.point hm
  | reach hp hs hn hg =>
      obtain ⟨A, g, hlive⟩ := inv.good
      obtain ⟨hroom, rfl⟩ := getFreelist_ok hg
      exact ⟨⟨A, g.register hroom, hlive⟩, Heap.register_table inv.table⟩
  | spin hp hl => exact inv
  | acquire hp hl => exact inv.setLock 1 _
  | leave hp hm => exact (inv.setLock 0 s.point).malloc _ hm
  | @free t b h' hp hb hf =>
      obtain ⟨A, g, hlive⟩ := inv.good
      obtain ⟨i, hi, hsize, -⟩ := g.ok.block_of_live (hlive ▸ hb)
      have hL : A.live = ⟨b.start, blockSize i⟩ ::ₘ s.live.erase b := by
        rw [← hsize, hlive]
        exact (Multiset.cons_erase hb).symm
      obtain ⟨x, -, hspec⟩ := g.free (inv.room t) hi hL
      rw [hsize] at hf
      obtain ⟨-, hsame, A', g', hlive', -, -⟩ := hspec.of_ok hf
      exact ⟨⟨A', g', hlive'⟩, inv.table_of hsame⟩
  | @store b a v hb ha =>
      obtain ⟨A, g, hlive⟩ := inv.good
      exact ⟨⟨A, g.store (hlive ▸ hb) ha v, hlive⟩, inv.table⟩

theorem runs {P : System → Event → Prop} (inv : s.Inv r) (hrun : System.Runs P s s') : s'.Inv r := by
  induction hrun with
  | refl => exact inv
  | tail _ hstep ih =>
      obtain ⟨e, -, hstep⟩ := hstep
      exact ih.step hstep

end System.Inv

theorem System.Inv.start {r : Span} {h : Heap} (hfresh : h.Fresh) (hpos : 0 < r.start)
    (hsize : r.size % maxbytes = 0) : (System.start (buddyInit r.start r.size h)).Inv r := by
  obtain ⟨g, -, -, hcur⟩ := buddyInit_good hfresh hpos hsize
  refine ⟨⟨_, g, rfl⟩, ?_⟩
  intro x hx
  rw [System.start, hcur] at hx
  exact absurd hx (Nat.not_lt_zero x)

/-- **The region is always the live blocks, the blocks on the lists of the threads and the blocks on the
    global list**, disjoint, each at a multiple of its size and on the list of its size. The lists are
    finite and have no cycles, and clients that write to their blocks do not change them. -/
theorem region_partitioned {r : Span} {h : Heap} (hfresh : h.Fresh) (hpos : 0 < r.start)
    (hsize : r.size % maxbytes = 0) {s : System}
    (hrun : System.Runs (fun _ _ => True) (System.start (buddyInit r.start r.size h)) s) :
    ∃ A : Pool, A.live = s.live ∧ s.heap.Holds A ∧ Tiles A.spans r ∧
      (∀ b ∈ A.spans, IsBlock r b) ∧
      ∀ b ∈ s.live, ∀ a ∈ b.bytes, ∀ v, (s.heap.write (.node a) v).Holds A := by
  obtain ⟨A, g, hlive⟩ := ((System.Inv.start hfresh hpos hsize).runs hrun).good
  refine ⟨A, hlive, g.holds, g.ok.tiles, g.ok.block, ?_⟩
  intro b hb a ha v
  exact g.holds.writeNode (g.ok.off (hlive ▸ hb) ha) v

/-- A call that needs the lock, from a state where no thread has it. -/
theorem System.Step.call {P : System → Event → Prop} (hP : ∀ s, P s .quiet) {s : System} {t : Thread}
    {size a x : ℕ} {h₁ h' : Heap} (hp : s.point t = .outside) (hs : getIndexFromSize size ≠ none)
    (hn : s.heap.serves t size = false) (hg : getFreelist t s.heap = .ok x h₁) (hl : h₁.lock = 0)
    (hm : buddyMalloc t entryMax size h₁ = .ok a h') :
    ∃ s₁, System.Runs P s s₁ ∧ s₁.point t = .locked size ∧ s₁.heap = { h₁ with lock := 1 } ∧
      System.Step s₁ (.malloc t size a)
        { heap := h', point := s.point, live := grant size a s.live } := by
  let s₀ : System := { s with heap := h₁, point := Function.update s.point t (.waiting size) }
  let s₁ : System :=
    { s₀ with heap := { h₁ with lock := 1 }, point := Function.update s₀.point t (.locked size) }
  have hreach : System.Step s .quiet s₀ := .reach hp hs hn hg
  have hacquire : System.Step s₀ .quiet s₁ := .acquire (Function.update_self ..) hl
  have hlocked : s₁.point t = .locked size := Function.update_self ..
  have hheap : ({ s₁.heap with lock := 0 } : Heap) = h₁ := by
    cases h₁
    cases hl
    rfl
  have hpoint : Function.update s₁.point t .outside = s.point := by
    show Function.update (Function.update (Function.update s.point t _) t _) t _ = _
    rw [Function.update_idem, Function.update_idem, ← hp, Function.update_eq_self]
  have hleave := System.Step.leave (s := s₁) hlocked (by rw [hheap]; exact hm)
  rw [hpoint] at hleave
  refine ⟨s₁, ?_, hlocked, rfl, hleave⟩
  exact (Relation.ReflTransGen.single ⟨_, hP s, hreach⟩).tail ⟨_, hP s₀, hacquire⟩

/-- The first call for 512 bytes on a region of one block: the block is cut 12 times. -/
theorem region_partitioned_first : ∃ s : System,
    System.Runs (fun _ _ => True) (System.start (buddyInit maxbytes maxbytes Heap.blank)) s ∧
    s.live = {⟨maxbytes, 512⟩} ∧
    ∃ A : Pool, A.live = s.live ∧ s.heap.Holds A ∧ Tiles A.spans oneBlock ∧
      (∀ b ∈ A.spans, IsBlock oneBlock b) ∧
      ∀ b ∈ s.live, ∀ a ∈ b.bytes, ∀ v, (s.heap.write (.node a) v).Holds A := by
  have hg : getFreelist (0 : Thread) (buddyInit maxbytes maxbytes Heap.blank) = .ok 0 _ :=
    eq_ok_of_returns (by decide +kernel)
  have hm : buddyMalloc (0 : Thread) entryMax 512
      (final (getFreelist (0 : Thread)) (buddyInit maxbytes maxbytes Heap.blank)) = .ok maxbytes _ :=
    eq_ok_of_returns (by decide +kernel)
  obtain ⟨s₁, hrun, -, -, hstep⟩ := System.Step.call (P := fun _ _ => True) (fun _ => trivial)
    (s := System.start (buddyInit maxbytes maxbytes Heap.blank)) (t := 0) rfl (by decide +kernel)
    (by decide +kernel) hg (by decide +kernel) hm
  have hall := hrun.tail ⟨_, trivial, hstep⟩
  refine ⟨_, hall, rfl, ?_⟩
  exact region_partitioned (r := oneBlock) Heap.blank_fresh (by decide) (by decide) hall

/-! ## The lock -/

/-- A thread that holds the lock finds a block on the global list. -/
def Stocked (s : System) (e : Event) : Prop :=
  ∀ t size a n, e = .malloc t size a → s.point t = .locked n → s.heap.globalFreelist ≠ 0

theorem stocked_quiet (s : System) : Stocked s .quiet := by
  rintro t size a n he
  cases he

/-- No call fails because the global list is empty. -/
def Supplied (s : System) (e : Event) : Prop :=
  ∀ t size n, e = .malloc t size 0 → s.point t = .locked n → s.heap.globalFreelist ≠ 0

theorem Stocked.supplied {s : System} {e : Event} (h : Stocked s e) : Supplied s e :=
  fun t size n he hp => h t size 0 n he hp

/-- Thread `t` is in the section behind the lock. -/
def System.Inside (s : System) (t : Thread) : Prop := ∃ n, s.point t = .locked n

/-- The lock is taken by the one thread that is in the section behind it. -/
structure System.Locking (s : System) : Prop where
  taken : ∀ t, s.Inside t → s.heap.lock ≠ 0
  one : ∀ t u, s.Inside t → s.Inside u → t = u
  owner : s.heap.lock ≠ 0 → ∃ t, s.Inside t

/-- The search of the lists: they serve the call if one of them has a block. -/
theorem Heap.serves_iff {h : Heap} {t size i x : ℕ} (hs : getIndexFromSize size = some i)
    (hx : h.freelistIndex t = some x) :
    h.serves t size = true ↔ ∃ j, i ≤ j ∧ j < entryMax ∧ h.freelist x j ≠ 0 := by
  simp only [Heap.serves, hs, hx, List.any_eq_true, List.mem_range, Bool.and_eq_true,
    decide_eq_true_eq]
  constructor
  · rintro ⟨j, hj, hij, hne⟩
    exact ⟨j, hij, hj, hne⟩
  · rintro ⟨j, hij, hj, hne⟩
    exact ⟨j, hj, hij, hne⟩

/-- A thread whose lists serve a call has lists, and not all of them are empty. -/
theorem Heap.Good.of_serves {h : Heap} {r : Span} {A : Pool} (g : h.Good r A) {t size : ℕ}
    (hs : h.serves t size = true) :
    ∃ i x, size = blockSize i ∧ i < entryMax ∧ h.freelistIndex t = some x ∧
      ¬ ∀ j, i ≤ j → A.free (x, j) = [] := by
  cases hi : getIndexFromSize size with
  | none => simp [Heap.serves, hi] at hs
  | some i =>
      cases hx : h.freelistIndex t with
      | none => simp [Heap.serves, hi, hx] at hs
      | some x =>
          obtain ⟨j, hij, -, hne⟩ := (Heap.serves_iff hi hx).1 hs
          obtain ⟨hlt, hsize⟩ := getIndexFromSize_eq_some.1 hi
          refine ⟨i, x, hsize, hlt, rfl, ?_⟩
          intro hempty
          have hlist := g.holds.list x j
          rw [hempty j hij] at hlist
          exact hne hlist

namespace System.Inv

variable {r : Span} {s s' : System}

/-- A call that the lists of the thread serve does not touch the lock. -/
theorem serve_lock (inv : s.Inv r) {t : Thread} {size a : ℕ} {h' : Heap}
    (hs : getIndexFromSize size = none ∨ s.heap.serves t size)
    (hm : buddyMalloc t entryMax size s.heap = .ok a h') :
    h'.lock = s.heap.lock ∧ (a = 0 → h' = s.heap) := by
  obtain ⟨A, g, -⟩ := inv.good
  rcases g.of_malloc (inv.room t) hm with ⟨-, -, rfl⟩ | ⟨i, x, hi, hsize, hx, hpost⟩
  · exact ⟨rfl, fun _ => rfl⟩
  · have hserves : s.heap.serves t size = true := by
      refine hs.resolve_left ?_
      rw [getIndexFromSize_eq_some.2 ⟨hi, hsize⟩]
      exact Option.some_ne_none i
    obtain ⟨j, y, hsize', -, hy, hne⟩ := g.of_serves hserves
    obtain rfl : i = j := blockSize_inj (hsize.symm.trans hsize')
    rw [Heap.register_of_some hy] at hx hpost
    obtain rfl : x = y := Option.some.inj (hx.symm.trans hy)
    rcases hpost with ⟨-, -, -, -, hempty⟩ | ⟨ha, hlock, -⟩
    · exact absurd hempty hne
    · exact ⟨hlock, fun h0 => absurd h0 ha⟩

/-- The section behind the lock ends with the lock free, or the global list was empty. -/
theorem leave_lock (inv : s.Inv r) {t : Thread} {size a : ℕ} {h' : Heap}
    (hm : buddyMalloc t entryMax size { s.heap with lock := 0 } = .ok a h') :
    (h'.lock = 0 ∧ (a = 0 → h' = { s.heap with lock := 0 })) ∨
      (a = 0 ∧ s.heap.globalFreelist = 0) := by
  have inv' := inv.setLock 0 s.point
  obtain ⟨A, g, -⟩ := inv'.good
  rcases g.of_malloc (inv'.room t) hm with ⟨-, -, rfl⟩ | ⟨i, x, -, -, -, hpost⟩
  · exact Or.inl ⟨rfl, fun _ => rfl⟩
  · rcases hpost with ⟨ha, -, -, hempty, -⟩ | ⟨ha, hlock, -⟩
    · have hlist := g.holds.global
      rw [hempty] at hlist
      exact Or.inr ⟨ha, hlist⟩
    · rw [Heap.register_lock] at hlock
      exact Or.inl ⟨hlock, fun h0 => absurd h0 ha⟩

theorem free_lock (inv : s.Inv r) {t : Thread} {b : Span} {h' : Heap} (hb : b ∈ s.live)
    (hf : buddyFree t entryMax b.start b.size s.heap = .ok () h') : h'.lock = s.heap.lock := by
  obtain ⟨A, g, hlive⟩ := inv.good
  obtain ⟨i, hi, hsize, -⟩ := g.ok.block_of_live (hlive ▸ hb)
  have hL : A.live = ⟨b.start, blockSize i⟩ ::ₘ s.live.erase b := by
    rw [← hsize, hlive]
    exact (Multiset.cons_erase hb).symm
  obtain ⟨x, -, hspec⟩ := g.free (inv.room t) hi hL
  rw [hsize] at hf
  exact (hspec.of_ok hf).1.trans Heap.register_lock

/-- From a state with the lock free, a call of any thread can run to its end. -/
theorem completes (inv : s.Inv r) (hlock : s.heap.lock = 0) {t : Thread} (hp : s.point t = .outside)
    (size : ℕ) : ∃ s₁ a s₂, System.Runs (fun _ _ => True) s s₁ ∧
      System.Step s₁ (.malloc t size a) s₂ := by
  obtain ⟨A, g, -⟩ := inv.good
  by_cases hs : getIndexFromSize size = none
  · have hm : buddyMalloc t entryMax size s.heap = .ok 0 s.heap := by
      rw [entryMax, buddyMalloc, hs]
      rfl
    exact ⟨s, 0, _, .refl, .serve hp (Or.inl hs) hm⟩
  · obtain ⟨i, hi⟩ := Option.ne_none_iff_exists'.1 hs
    obtain ⟨hlt, rfl⟩ := getIndexFromSize_eq_some.1 hi
    -- the call returns: it could only stop at a lock that is taken
    have hok : ∃ a h', buddyMalloc t entryMax (blockSize i) s.heap = .ok a h' := by
      obtain ⟨x, -, hspec⟩ := g.malloc (inv.room t) hlt
      obtain ⟨a, h', hm, -⟩ := (wp_mono hspec (fun _ _ hQ => hQ)
        (fun e h' hE => hE.2.2.1 (Heap.register_lock.trans hlock))).exists_ok
      exact ⟨a, h', hm⟩
    cases hserves : s.heap.serves t (blockSize i) with
    | true =>
        obtain ⟨a, h', hm⟩ := hok
        exact ⟨s, a, _, .refl, .serve hp (Or.inr hserves) hm⟩
    | false =>
        obtain ⟨x, hx⟩ := s.heap.exists_registered t
        have hg : getFreelist t s.heap = .ok x (s.heap.register t) := by
          have hwp : wp (getFreelist t) s.heap (fun y h' => y = x ∧ h' = s.heap.register t)
              (fun _ _ => False) := by
            rw [wp_getFreelist_register (inv.room t), wp_getFreelist hx]
            exact ⟨rfl, rfl⟩
          obtain ⟨y, h', hg, rfl, rfl⟩ := hwp.exists_ok
          exact hg
        have hok' : ∃ a h', buddyMalloc t entryMax (blockSize i) (s.heap.register t) = .ok a h' := by
          obtain ⟨a, h', hm⟩ := hok
          have hwp : wp (buddyMalloc t entryMax (blockSize i)) s.heap (fun _ _ => True)
              (fun _ _ => False) := by
            rw [wp, hm]
            trivial
          rw [entryMax, wp_buddyMalloc_register (inv.room t) hlt] at hwp
          obtain ⟨a, h', hm, -⟩ := hwp.exists_ok
          exact ⟨a, h', hm⟩
        obtain ⟨a, h', hm⟩ := hok'
        obtain ⟨s₁, hrun, -, -, hstep⟩ := System.Step.call (P := fun _ _ => True) (fun _ => trivial) hp hs
          hserves hg (Heap.register_lock.trans hlock) hm
        exact ⟨s₁, a, _, hrun, hstep⟩

end System.Inv

namespace System.Locking

variable {r : Span} {s s' : System}

/-- Nobody entered or left the section, and the lock is as it was. -/
theorem same (hl : s.Locking) (hlock : s'.heap.lock = s.heap.lock)
    (hin : ∀ t, s'.Inside t ↔ s.Inside t) : s'.Locking where
  taken t ht := hlock ▸ hl.taken t ((hin t).1 ht)
  one t u ht hu := hl.one t u ((hin t).1 ht) ((hin u).1 hu)
  owner h := by
    obtain ⟨t, ht⟩ := hl.owner (hlock ▸ h)
    exact ⟨t, (hin t).2 ht⟩

/-- **Every step keeps the lock with the thread that is in the section**, as long as the global list is
    not found empty. -/
theorem step {e : Event} (inv : s.Inv r) (hl : s.Locking) (hst : Supplied s e)
    (hstep : System.Step s e s') : s'.Locking := by
  cases hstep with
  | serve hp hs hm => exact hl.same (inv.serve_lock hs hm).1 (fun _ => Iff.rfl)
  | @reach t size x h' hp hs hn hg =>
      obtain ⟨-, rfl⟩ := getFreelist_ok hg
      refine hl.same Heap.register_lock ?_
      intro u
      by_cases hu : u = t
      · subst hu
        simp [System.Inside, hp]
      · simp [System.Inside, hu]
  | spin hp hlock => exact hl
  | @acquire t size hp hlock =>
      have hnone : ∀ u, ¬ s.Inside u := fun u hu => hl.taken u hu hlock
      have hother : ∀ u n, u ≠ t → Function.update s.point t (.locked size) u ≠ .locked n := by
        intro u n hu heq
        rw [Function.update_of_ne hu] at heq
        exact hnone u ⟨n, heq⟩
      refine ⟨fun _ _ => one_ne_zero, ?_, fun _ => ⟨t, size, Function.update_self ..⟩⟩
      rintro u v ⟨n, hu⟩ ⟨m, hv⟩
      have hut : u = t := by
        by_contra hne
        exact hother u n hne hu
      have hvt : v = t := by
        by_contra hne
        exact hother v m hne hv
      rw [hut, hvt]
  | @leave t size a h' hp hm =>
      have hfree : h'.lock = 0 := by
        rcases inv.leave_lock hm with ⟨hlock, -⟩ | ⟨rfl, hglobal⟩
        · exact hlock
        · exact absurd hglobal (hst t size size rfl hp)
      have hnone : ∀ u n, Function.update s.point t .outside u ≠ .locked n := by
        intro u n heq
        by_cases hu : u = t
        · rw [hu, Function.update_self] at heq
          cases heq
        · rw [Function.update_of_ne hu] at heq
          exact hu (hl.one u t ⟨n, heq⟩ ⟨size, hp⟩)
      refine ⟨?_, ?_, fun hne => absurd hfree hne⟩
      · rintro u ⟨n, hu⟩
        exact absurd hu (hnone u n)
      · rintro u v ⟨n, hu⟩
        exact absurd hu (hnone u n)
  | free hp hb hf => exact hl.same (inv.free_lock hb hf) (fun _ => Iff.rfl)
  | store hb ha => exact hl.same (Heap.write_lock ..) (fun _ => Iff.rfl)

theorem runs {P : System → Event → Prop} (hP : ∀ s e, P s e → Supplied s e) (inv : s.Inv r)
    (hl : s.Locking) (hrun : System.Runs P s s') : s'.Locking := by
  induction hrun with
  | refl => exact hl
  | tail hrun hstep ih =>
      obtain ⟨e, hst, hstep⟩ := hstep
      exact ih.step (inv.runs hrun) (hP _ _ hst) hstep

/-- At the start nobody has the lock. -/
theorem start {h : Heap} (hlock : h.lock = 0) : (System.start h).Locking where
  taken := by
    rintro t ⟨n, ht⟩
    cases ht
  one := by
    rintro t u ⟨n, ht⟩
    cases ht
  owner hne := absurd hlock hne

/-- With no thread in the section the lock is free. -/
theorem lock_eq_zero (hl : s.Locking) (hnone : ∀ t, ¬ s.Inside t) : s.heap.lock = 0 := by
  by_contra hne
  obtain ⟨t, ht⟩ := hl.owner hne
  exact hnone t ht

end System.Locking

/-- A `buddy_malloc` that returns: its thread is outside, and a failed one changed no list. -/
theorem System.Inv.returned {r : Span} {s s' : System} (inv : s.Inv r) {t : Thread} {size a : ℕ}
    (hst : Stocked s (.malloc t size a)) (hstep : System.Step s (.malloc t size a) s') :
    s'.point t = .outside ∧ (a = 0 → s'.heap.freelist = s.heap.freelist ∧
      s'.heap.globalFreelist = s.heap.globalFreelist ∧ s'.heap.mem = s.heap.mem) := by
  cases hstep with
  | serve hp hs hm =>
      refine ⟨hp, ?_⟩
      intro ha
      rw [(inv.serve_lock hs hm).2 ha]
      exact ⟨rfl, rfl, rfl⟩
  | leave hp hm =>
      refine ⟨Function.update_self .., ?_⟩
      intro ha
      rcases inv.leave_lock hm with ⟨-, hsame⟩ | ⟨-, hglobal⟩
      · rw [hsame ha]
        exact ⟨rfl, rfl, rfl⟩
      · exact absurd hglobal (hst t size a size rfl hp)

/-- **A thread that returns from `buddy_malloc` does not hold the lock**, a failed call leaves the lists as
    they were, and with no thread in the section the lock is free and every thread's next call can
    complete; in every run in which the global list is never found empty. -/
theorem lock_released {r : Span} {h : Heap} (hfresh : h.Fresh) (hpos : 0 < r.start)
    (hsize : r.size % maxbytes = 0) {s : System}
    (hrun : System.Runs Stocked (System.start (buddyInit r.start r.size h)) s) :
    (∀ t size a s', Stocked s (.malloc t size a) → System.Step s (.malloc t size a) s' →
      (s'.heap.lock ≠ 0 → ∃ u, u ≠ t ∧ s'.Inside u) ∧
      (a = 0 → s'.heap.freelist = s.heap.freelist ∧
        s'.heap.globalFreelist = s.heap.globalFreelist ∧ s'.heap.mem = s.heap.mem)) ∧
    ((∀ t, ¬ s.Inside t) → s.heap.lock = 0 ∧
      ∀ t size, s.point t = .outside → ∃ s₁ a s₂, System.Runs (fun _ _ => True) s s₁ ∧
        System.Step s₁ (.malloc t size a) s₂) := by
  have inv₀ := System.Inv.start hfresh hpos hsize
  have hstart := System.Locking.start (buddyInit_good hfresh hpos hsize).2.1
  have inv := inv₀.runs hrun
  have hl := hstart.runs (fun _ _ hst => hst.supplied) inv₀ hrun
  constructor
  · intro t size a s' hst hstep
    obtain ⟨hout, hlists⟩ := inv.returned hst hstep
    refine ⟨?_, hlists⟩
    intro hne
    obtain ⟨u, hu⟩ := (hl.step inv hst.supplied hstep).owner hne
    refine ⟨u, ?_, hu⟩
    rintro rfl
    obtain ⟨n, hn⟩ := hu
    rw [hout] at hn
    cases hn
  · intro hnone
    have hlock := hl.lock_eq_zero hnone
    exact ⟨hlock, fun t size hp => inv.completes hlock hp size⟩

/-- The first call on a region of one block finds it on the global list; after it the lock is free. -/
theorem lock_released_first : ∃ s : System,
    System.Runs Stocked (System.start (buddyInit maxbytes maxbytes Heap.blank)) s ∧
    s.live = {⟨maxbytes, maxbytes⟩} ∧ s.heap.lock = 0 ∧
    ∀ t size, s.point t = .outside → ∃ s₁ a s₂, System.Runs (fun _ _ => True) s s₁ ∧
      System.Step s₁ (.malloc t size a) s₂ := by
  have hg : getFreelist (0 : Thread) (buddyInit maxbytes maxbytes Heap.blank) = .ok 0 _ :=
    eq_ok_of_returns (by decide +kernel)
  have hm : buddyMalloc (0 : Thread) entryMax maxbytes
      (final (getFreelist (0 : Thread)) (buddyInit maxbytes maxbytes Heap.blank)) = .ok maxbytes _ :=
    eq_ok_of_returns (by decide +kernel)
  obtain ⟨s₁, hrun, hlocked, hheap, hstep⟩ := System.Step.call (P := Stocked) stocked_quiet
    (s := System.start (buddyInit maxbytes maxbytes Heap.blank)) (t := 0) rfl (by decide +kernel)
    (by decide +kernel) hg (by decide +kernel) hm
  have hst : Stocked s₁ (.malloc 0 maxbytes maxbytes) := by
    intro t size a n he hp
    rw [hheap]
    decide +kernel
  have hall := hrun.tail ⟨_, hst, hstep⟩
  have hend := (lock_released (r := oneBlock) Heap.blank_fresh (by decide) (by decide) hall).2 (by
    rintro t ⟨n, ht⟩
    cases ht)
  exact ⟨_, hall, rfl, hend⟩

/-- The second call on a region of one block returns NULL, and nobody releases the lock. -/
theorem exhausted_keeps_lock : ∃ s s' : System,
    System.Runs (fun _ _ => True) (System.start (buddyInit maxbytes maxbytes Heap.blank)) s ∧
    System.Step s (.malloc 0 maxbytes 0) s' ∧ (∀ t, ¬ s'.Inside t) ∧ s'.heap.lock = 1 := by
  have hg : getFreelist (0 : Thread) (buddyInit maxbytes maxbytes Heap.blank) = .ok 0 _ :=
    eq_ok_of_returns (by decide +kernel)
  have hm : buddyMalloc (0 : Thread) entryMax maxbytes
      (final (getFreelist (0 : Thread)) (buddyInit maxbytes maxbytes Heap.blank)) = .ok maxbytes _ :=
    eq_ok_of_returns (by decide +kernel)
  generalize hh₁ : final (getFreelist (0 : Thread)) (buddyInit maxbytes maxbytes Heap.blank) = h₁ at *
  generalize hh₂ : final (buddyMalloc (0 : Thread) entryMax maxbytes) h₁ = h₂ at *
  obtain ⟨s₁, hrun, -, -, hstep⟩ := System.Step.call (P := fun _ _ => True) (fun _ => trivial)
    (s := System.start (buddyInit maxbytes maxbytes Heap.blank)) (t := 0) rfl (by decide +kernel)
    (by decide +kernel) hg (by rw [← hh₁]; decide +kernel) hm
  have hg' : getFreelist (0 : Thread) h₂ = .ok 0 _ :=
    eq_ok_of_returns (by rw [← hh₂, ← hh₁]; decide +kernel)
  have hm' : buddyMalloc (0 : Thread) entryMax maxbytes (final (getFreelist (0 : Thread)) h₂) =
      .ok 0 _ := eq_ok_of_returns (by rw [← hh₂, ← hh₁]; decide +kernel)
  obtain ⟨s₂, hrun', -, -, hstep'⟩ := System.Step.call (P := fun _ _ => True) (fun _ => trivial)
    (s := ⟨h₂, (System.start (buddyInit maxbytes maxbytes Heap.blank)).point,
      grant maxbytes maxbytes (System.start (buddyInit maxbytes maxbytes Heap.blank)).live⟩) (t := 0)
    rfl (by decide +kernel) (by rw [← hh₂, ← hh₁]; decide +kernel) hg'
    (by rw [← hh₂, ← hh₁]; decide +kernel) hm'
  refine ⟨s₂, _, (hrun.tail ⟨_, trivial, hstep⟩).trans hrun', hstep', ?_, ?_⟩
  · rintro t ⟨n, ht⟩
    cases ht
  · rw [← hh₂, ← hh₁]
    decide +kernel

end Unvme.Aurora
