import Unvme.Aurora.Interleave
import Unvme.Core.Driver
import Mathlib.Tactic.NormNum

set_option autoImplicit false

/-! # DMA memory (`aurora_mem_alloc`, `aurora_mem_free`)

A request is rounded up to 4096 times a power of two by doubling in 64-bit arithmetic, served by the
buddy allocator, and described by its address in the process and on the bus. A process in which a request
cannot be served is aborted, so the states in which a request is made are those of runs in which no call
of `buddy_malloc` has returned NULL. -/

namespace Unvme.Aurora

open Unvme.Lib Unvme.Core

/-- `aurora_mem_alloc` with the descriptor it fills. -/
def auroraMemAllocDma (E : Env) (t size : ℕ) : HeapM Dma := do
  let p ← auroraMemAlloc t size
  pure ⟨p.1, E.pciVhsaa + (p.1 - E.vemva), p.2⟩

/-- The DMA region of the process. -/
def dmaRegion (E : Env) : Span := ⟨E.vemva, maxSize⟩

theorem dmaRegion_size (E : Env) : (dmaRegion E).size % maxbytes = 0 := by
  show maxSize % maxbytes = 0
  decide +kernel

theorem dmaRegion_blocks (E : Env) : (dmaRegion E).size / maxbytes = 16384 := by
  show maxSize / maxbytes = 16384
  decide +kernel

/-- A new region of the process. -/
theorem buddyInit_dmaRegion {E : Env} {h : Heap} (htab : h.Tabled) (hpos : 0 < E.vemva) :
    (buddyInit E.vemva maxSize h).Good (dmaRegion E) (Pool.initial (dmaRegion E)) ∧
      (buddyInit E.vemva maxSize h).lock = h.lock ∧
      (buddyInit E.vemva maxSize h).freelistIndex = h.freelistIndex ∧
      (buddyInit E.vemva maxSize h).freelistCurrentIndex = h.freelistCurrentIndex :=
  buddyInit_spec (r := dmaRegion E) htab hpos (dmaRegion_size E)

/-! ## The doubling loop -/

/-- The sizes that the loop goes through. -/
def dmaStep (k : ℕ) : ℕ := 4096 * 2 ^ k

theorem dmaStep_succ (k : ℕ) : dmaStep (k + 1) = dmaStep k * 2 := by
  rw [dmaStep, dmaStep, pow_succ, mul_assoc]

theorem dmaStep_eq (k : ℕ) : dmaStep k = blockSize (k + 3) := by
  rw [dmaStep, blockSize, pow_add, mul_comm (2 ^ k), ← mul_assoc]
  norm_num

theorem dmaStep_le_iff {j k : ℕ} : dmaStep j ≤ dmaStep k ↔ j ≤ k := by
  rw [dmaStep_eq, dmaStep_eq, blockSize_le_iff]
  omega

/-- The 52nd value is 2^63, the last one below 2^64. -/
theorem dmaStep_lt {k : ℕ} (hk : k ≤ 50) : dmaStep k * 2 % 2 ^ 64 = dmaStep (k + 1) := by
  have hle : dmaStep (k + 1) ≤ dmaStep 51 := dmaStep_le_iff.2 (by omega)
  have h51 : dmaStep 51 = 2 ^ 63 := by norm_num [dmaStep]
  rw [← dmaStep_succ]
  exact Nat.mod_eq_of_lt (by omega)

/-- `k` is the least exponent with room for `size` bytes. -/
def LeastStep (size k : ℕ) : Prop := size ≤ dmaStep k ∧ ∀ j, size ≤ dmaStep j → k ≤ j

theorem tsizeLoop_le_two_pow {size fuel k : ℕ} (hsize : size ≤ 2 ^ 63) (hk : k ≤ 51)
    (hfuel : 51 < fuel + k) (hmin : ∀ j, size ≤ dmaStep j → k ≤ j) :
    ∃ n, tsizeLoop size fuel (dmaStep k) = some (dmaStep n) ∧ LeastStep size n := by
  induction fuel generalizing k with
  | zero => omega
  | succ fuel ih =>
      rw [tsizeLoop]
      split
      · next hlt =>
          have hk' : k ≤ 50 := by
            by_contra hgt
            have h51 : dmaStep 51 = 2 ^ 63 := by norm_num [dmaStep]
            obtain rfl : k = 51 := by omega
            omega
          rw [dmaStep_lt hk']
          refine ih (by omega) (by omega) ?_
          intro j hj
          have := hmin j hj
          have hne : j ≠ k := by
            rintro rfl
            omega
          omega
      · next hge => exact ⟨k, rfl, not_lt.1 hge, hmin⟩

/-- Beyond 2^63 the doubling reaches 0 and stays there. -/
theorem tsizeLoop_of_gt {size : ℕ} (hsize : 2 ^ 63 < size) (fuel : ℕ) {tsize : ℕ}
    (ht : tsize = 0 ∨ ∃ k ≤ 51, tsize = dmaStep k) : tsizeLoop size fuel tsize = none := by
  induction fuel generalizing tsize with
  | zero => rfl
  | succ fuel ih =>
      have h51 : dmaStep 51 = 2 ^ 63 := by norm_num [dmaStep]
      have hlt : tsize < size := by
        rcases ht with rfl | ⟨k, hk, rfl⟩
        · omega
        · have := dmaStep_le_iff.2 hk
          omega
      rw [tsizeLoop, if_pos hlt]
      refine ih ?_
      rcases ht with rfl | ⟨k, hk, rfl⟩
      · exact Or.inl rfl
      · rcases Nat.eq_or_lt_of_le hk with rfl | hk
        · refine Or.inl ?_
          rw [h51]
          norm_num
        · exact Or.inr ⟨k + 1, hk, dmaStep_lt (by omega)⟩

theorem dmaSize_eq {size : ℕ} (hsize : size ≤ 2 ^ 63) :
    ∃ n, dmaSize size = some (dmaStep n) ∧ LeastStep size n := by
  have h0 : dmaStep 0 = 4096 := rfl
  rw [dmaSize, ← h0]
  exact tsizeLoop_le_two_pow hsize (by omega) (by omega) (fun j _ => Nat.zero_le j)

/-- **No number of rounds ends the loop** for a size beyond 2^63. -/
theorem tsizeLoop_hangs {size : ℕ} (hsize : 2 ^ 63 < size) (fuel : ℕ) :
    tsizeLoop size fuel 4096 = none :=
  tsizeLoop_of_gt hsize fuel (Or.inr ⟨0, by omega, rfl⟩)

/-! ## Blocks handed out -/

/-- The addresses on the lists of a pool. -/
def Pool.freeBytes (A : Pool) : Multiset ℕ := (blocks 12 A.global + A.held).bind Span.bytes

theorem Pool.Ok.live_add_free {A : Pool} {r : Span} (hok : A.Ok r) :
    A.live.bind Span.bytes + A.freeBytes = r.bytes := by
  have htiles := hok.tiles
  rw [Tiles, Pool.spans, add_assoc, Multiset.add_bind] at htiles
  exact htiles

/-- What a request that was answered with the descriptor `d` promises. -/
structure DmaBlock (E : Env) (size : ℕ) (d : Dma) (h' : Heap) : Prop where
  size : ∃ k, d.size = dmaStep k ∧ LeastStep size k
  aligned : ∃ q, d.buf = E.vemva + q * d.size
  addr : d.addr = E.pciVhsaa + (d.buf - E.vemva)
  resolve : auroraResolveAddr E d.buf = .ok d.addr
  /-- Freed by any thread, the bytes of the block are free again, and no others. -/
  free : ∀ u : Thread, ∃ h'' A' A'', auroraMemFree u d.buf d.size h' = .ok () h'' ∧
    h'.Good (dmaRegion E) A' ∧ h''.Good (dmaRegion E) A'' ∧
    A''.freeBytes = A'.freeBytes + Span.bytes ⟨d.buf, d.size⟩

/-- A request of `size` bytes is answered: the process is aborted for lack of memory, or a block of the
    right size is handed out. -/
def Answers (E : Env) (h : Heap) (t size : ℕ) : Prop :=
  (∃ h', auroraMemAllocDma E t size h = .error .exhausted h') ∨
    ∃ d h', auroraMemAllocDma E t size h = .ok d h' ∧ DmaBlock E size d h'

/-- No call of `buddy_malloc` has returned NULL. -/
def Served (_ : System) (e : Event) : Prop := ∀ t size a, e = .malloc t size a → a ≠ 0

theorem Served.supplied {s : System} {e : Event} (h : Served s e) : Supplied s e :=
  fun t size _ he _ => absurd rfl (h t size 0 he)

section

variable {E : Env} {s : System}

theorem auroraMemAllocDma_of_ok {h h' : Heap} {t size n p : ℕ} (hn : dmaSize size = some n)
    (hm : buddyMalloc t entryMax n h = .ok p h') :
    auroraMemAllocDma E t size h =
      if p = 0 then .error .exhausted h' else .ok ⟨p, E.pciVhsaa + (p - E.vemva), n⟩ h' := by
  have hbind : auroraMemAllocDma E t size h = (buddyMalloc t entryMax n >>= fun p =>
      (if p = 0 then throw .exhausted else pure (p, n) : HeapM (ℕ × ℕ)) >>= fun b =>
        pure ⟨b.1, E.pciVhsaa + (b.1 - E.vemva), b.2⟩) h := by
    rw [auroraMemAllocDma, auroraMemAlloc, hn]
    exact congrFun (bind_assoc ..) h
  rw [hbind]
  show EStateM.bind _ _ h = _
  rw [EStateM.bind, hm]
  show EStateM.bind _ _ h' = _
  split <;> rfl

/-- A request that returned a descriptor. -/
theorem auroraMemAllocDma_ok {h h' : Heap} {t size : ℕ} {d : Dma}
    (hr : auroraMemAllocDma E t size h = .ok d h') :
    ∃ n a, dmaSize size = some n ∧ buddyMalloc t entryMax n h = .ok a h' ∧ a ≠ 0 ∧
      d = ⟨a, E.pciVhsaa + (a - E.vemva), n⟩ := by
  obtain ⟨p, h₁, halloc, hr⟩ := bind_eq_ok hr
  cases hr
  cases hn : dmaSize size with
  | none =>
      rw [auroraMemAlloc, hn] at halloc
      cases halloc
  | some n =>
      rw [auroraMemAlloc, hn] at halloc
      obtain ⟨a, h₂, hm, halloc⟩ := bind_eq_ok halloc
      split at halloc
      · cases halloc
      · next ha =>
          cases halloc
          exact ⟨n, a, rfl, hm, ha, rfl⟩

theorem auroraMemAllocDma_hangs (E : Env) (h : Heap) (t : ℕ) {size : ℕ} (hsize : 2 ^ 63 < size) :
    auroraMemAllocDma E t size h = .error .hang h := by
  have hn : dmaSize size = none := tsizeLoop_hangs hsize 64
  rw [auroraMemAllocDma, auroraMemAlloc, hn]
  rfl

/-- A block in hand keeps the promises. -/
theorem DmaBlock.of_good {h' : Heap} {A' : Pool} {L : Multiset Span} {a n size : ℕ}
    (g' : h'.Good (dmaRegion E) A') (hroom : ∀ u : Thread, h'.Room u)
    (hlive : A'.live = ⟨a, dmaStep n⟩ ::ₘ L) (hleast : LeastStep size n) :
    DmaBlock E size ⟨a, E.pciVhsaa + (a - E.vemva), dmaStep n⟩ h' := by
  have hmem : ⟨a, dmaStep n⟩ ∈ A'.live := by
    rw [hlive]
    exact Multiset.mem_cons_self _ _
  obtain ⟨i, hi, hsize, q, hq⟩ := g'.ok.block_of_live hmem
  have hin := g'.ok.tiles.sub (Pool.Ok.mem_spans_live hmem) (g'.ok.pos (Pool.Ok.mem_spans_live hmem))
  rw [Span.mem_bytes] at hin
  refine ⟨⟨n, rfl, hleast⟩, ⟨q, hq⟩, rfl, ?_, ?_⟩
  · unfold auroraResolveAddr
    rw [if_neg]
    dsimp only [dmaRegion] at hin ⊢
    omega
  · intro u
    have hL : A'.live = ⟨a, blockSize i⟩ ::ₘ L := by
      rw [← hsize]
      exact hlive
    obtain ⟨x, -, hspec⟩ := g'.free (hroom u) hi hL
    rw [← hsize] at hspec
    obtain ⟨⟨⟩, h'', hf, -, -, A'', g'', hlive'', -, -⟩ := hspec.exists_ok
    refine ⟨h'', A', A'', hf, g', g'', ?_⟩
    have h1 := g'.ok.live_add_free
    have h2 := g''.ok.live_add_free
    rw [hlive, Multiset.cons_bind] at h1
    rw [hlive'', ← h1, add_comm (Span.bytes _), add_assoc] at h2
    rw [add_left_cancel h2, add_comm]

/-- **Requests up to 2^63 bytes are answered.** -/
theorem System.Inv.answers (inv : s.Inv (dmaRegion E)) (hlock : s.heap.lock = 0) (t : Thread)
    {size : ℕ} (hsize : size ≤ 2 ^ 63) : Answers E s.heap t size := by
  obtain ⟨A, g, -⟩ := inv.good
  obtain ⟨n, hn, hleast⟩ := dmaSize_eq hsize
  by_cases hi : n + 3 < entryMax
  · obtain ⟨x, -, hspec⟩ := g.malloc (inv.room t) hi
    obtain ⟨a, h', hm, hpost⟩ := (wp_mono hspec (fun _ _ hQ => hQ)
      (fun e h' hE => hE.2.2.1 (Heap.register_lock.trans hlock))).exists_ok
    rw [← dmaStep_eq] at hm
    have halloc := auroraMemAllocDma_of_ok (E := E) hn hm
    rcases hpost with ⟨rfl, -⟩ | ⟨ha, -, -, A', g', hlive, -⟩
    · exact Or.inl ⟨h', halloc⟩
    · rw [if_neg ha] at halloc
      rw [← dmaStep_eq] at hlive
      exact Or.inr ⟨_, h', halloc, DmaBlock.of_good g' (inv.malloc s.point hm).room hlive hleast⟩
  · -- larger than the largest block
    have hnone : getIndexFromSize (dmaStep n) = none := by
      rw [Option.eq_none_iff_forall_ne_some]
      intro i hsome
      obtain ⟨hlt, heq⟩ := getIndexFromSize_eq_some.1 hsome
      rw [dmaStep_eq] at heq
      rw [blockSize_inj heq] at hi
      exact hi hlt
    have hm : buddyMalloc t entryMax (dmaStep n) s.heap = .ok 0 s.heap := by
      rw [entryMax, buddyMalloc, hnone]
      rfl
    exact Or.inl ⟨s.heap, auroraMemAllocDma_of_ok hn hm⟩

end

/-- **Every request of at most 2^63 bytes is answered, and no larger one.** -/
theorem alloc_answered_iff {E : Env} {h₀ : Heap} (hfresh : h₀.Fresh) (hpos : 0 < E.vemva) {s : System}
    (hrun : System.Runs Served (System.start (buddyInit E.vemva maxSize h₀)) s)
    (hout : ∀ t, ¬ s.Inside t) (t : Thread) (size : ℕ) :
    Answers E s.heap t size ↔ size ≤ 2 ^ 63 := by
  have inv₀ := System.Inv.start (r := dmaRegion E) hfresh hpos (dmaRegion_size E)
  have hstart := System.Locking.start
    ((buddyInit_dmaRegion hfresh.tabled hpos).2.1.trans hfresh.lock)
  have hlock := (hstart.runs (fun _ _ hst => hst.supplied) inv₀ hrun).lock_eq_zero hout
  constructor
  · intro hans
    by_contra hgt
    have hhang := auroraMemAllocDma_hangs (E := E) (h := s.heap) (t := t) (not_le.1 hgt)
    rcases hans with ⟨h', herr⟩ | ⟨d, h', hok, -⟩
    · rw [hhang] at herr
      cases herr
    · rw [hhang] at hok
      cases hok
  · exact (inv₀.runs hrun).answers hlock t

/-- A process with its region at 64 MiB. -/
def mappedEnv : Env where
  ns := ⟨1, 4096, 12, 9, 8⟩
  vemva := 2 ^ 26
  pciVhsaa := 2 ^ 26
  media := ⟨fun _ _ => [], fun _ _ mem disk => (mem, disk)⟩
  inSpace := by decide

/-- The first request of a process. -/
theorem alloc_answered_first :
    Answers mappedEnv (System.start (buddyInit mappedEnv.vemva maxSize Heap.blank)).heap (0 : Thread)
      5000 := by
  have hout : ∀ t, ¬ (System.start (buddyInit mappedEnv.vemva maxSize Heap.blank)).Inside t := by
    rintro t ⟨n, ht⟩
    cases ht
  exact (alloc_answered_iff Heap.blank_fresh (by decide) .refl hout 0 5000).2 (by norm_num)

/-- A request for one byte more than 2^63 is never answered: no number of rounds of the doubling loop
    finds its size. -/
theorem alloc_never_answered :
    ¬ Answers mappedEnv (System.start (buddyInit mappedEnv.vemva maxSize Heap.blank)).heap (0 : Thread)
      (2 ^ 63 + 1) ∧ ∀ fuel, tsizeLoop (2 ^ 63 + 1) fuel 4096 = none := by
  refine ⟨?_, tsizeLoop_hangs (by norm_num)⟩
  have hhang := auroraMemAllocDma_hangs mappedEnv
    (System.start (buddyInit mappedEnv.vemva maxSize Heap.blank)).heap (0 : Thread)
    (show 2 ^ 63 < 2 ^ 63 + 1 by norm_num)
  rintro (⟨h', herr⟩ | ⟨d, h', hok, -⟩)
  · rw [hhang] at herr
    cases herr
  · rw [hhang] at hok
    cases hok

end Unvme.Aurora
