import Unvme.Nvme.Prp
import Unvme.Core.PrpLists

set_option autoImplicit false

/-! # What PRPs cover (`unvme_map_prps`)

`unvme_map_prps` counts the pages of a buffer from its length alone, and takes the start address plus
multiples of the page size as the further entries. Read by the controller's rules, that describes the
buffer if it starts on a page or lies within one, and otherwise it does not: `prps_cover_iff`. -/

namespace Unvme.Core

open Unvme.Lib Unvme.Nvme

/-- The DMA address of a virtual address of the region. -/
def Env.dma (E : Env) (a : ℕ) : ℕ := E.pciVhsaa + (a - E.vemva)

/-- DMA memory as `aurora_mem_alloc` returns it. -/
structure Env.Block (E : Env) (b : Dma) : Prop where
  start : E.vemva ≤ b.buf
  addr : b.addr = E.dma b.buf
  inside : b.buf + b.size ≤ E.vemva + maxSize

/-- The word at DMA address `a`, if it is one of these stores. -/
def storedAt (E : Env) (stores : List (ℕ × ℕ)) (a : ℕ) : Option ℕ :=
  (stores.find? (fun st => E.dma st.1 == a)).map Prod.snd

/-- The PRP list entries written by the last call of `unvme_map_prps`, by DMA address. -/
def Sys.prpList (E : Env) (s : Sys) (a : ℕ) : Option ℕ :=
  s.dev.hist.prpCalls.getLast?.bind (fun call => storedAt E call.stores a)

/-! ## The three encodings -/

section

variable {ns : Ns} {prplist : Dma} {cid addr bufsz : ℕ} {n : ℤ}

theorem composePrps_one (h : ns.numpages bufsz = n) (hn : n ≤ 1) :
    composePrps ns prplist cid addr bufsz = (addr, 0, []) := by
  unfold composePrps
  simp only [h]
  rw [if_neg (by omega), if_neg (by omega)]

theorem composePrps_two (h : ns.numpages bufsz = 2) :
    composePrps ns prplist cid addr bufsz = (addr, (addr + ns.pagesize) % 2 ^ 64, []) := by
  unfold composePrps
  simp only [h]
  rw [if_pos trivial]

theorem composePrps_list (h : ns.numpages bufsz = n) (hn : 2 < n) :
    composePrps ns prplist cid addr bufsz
      = (addr, ((prplist.addr + ns.prpoff cid) % 2 ^ 64).toNat, listWords ns prplist cid addr n) := by
  unfold composePrps listWords listStart
  simp only [h]
  rw [if_neg (by omega), if_pos hn, if_pos hn]

/-- The address of a list that lies in the 64-bit address space. -/
theorem listAddr_eq (hps : ns.pageshift ≤ 15) (hcid : cid < 2 ^ 16)
    (hlist : prplist.addr + cid <<< ns.pageshift < 2 ^ 64) :
    ((prplist.addr + ns.prpoff cid) % 2 ^ 64).toNat = prplist.addr + cid <<< ns.pageshift := by
  rw [Ns.prpoff_eq hps hcid]
  generalize cid <<< ns.pageshift = prpoff at hlist ⊢
  omega

end

/-! ## The list in DMA memory -/

section

variable {E : Env} {prplist : Dma} {cid addr : ℕ} {n : ℤ}

/-- Entry `i` of a PRP list, read at the list's DMA address. -/
theorem storedAt_listWords (hp : E.Block prplist) (hps : E.ns.pageshift ≤ 15) (hcid : cid < 2 ^ 16)
    (hn : 2 < n) {i : ℕ} (hi : (i : ℤ) + 1 < n) :
    storedAt E (listWords E.ns prplist cid addr n)
        (prplist.addr + cid <<< E.ns.pageshift + 8 * i)
      = some ((addr + (i + 1) * E.ns.pagesize) % 2 ^ 64) := by
  have hstart := hp.start
  have hdma : ∀ j, E.dma (prplist.buf + cid <<< E.ns.pageshift + 8 * j)
      = prplist.addr + cid <<< E.ns.pageshift + 8 * j := by
    intro j
    rw [hp.addr, Env.dma, Env.dma]
    generalize cid <<< E.ns.pageshift = prpoff
    omega
  have hmem : (prplist.buf + cid <<< E.ns.pageshift + 8 * i, (addr + (i + 1) * E.ns.pagesize) % 2 ^ 64)
      ∈ listWords E.ns prplist cid addr n := by
    unfold listWords
    rw [if_pos hn, listStart_eq hps hcid]
    exact List.mem_map.2 ⟨i, List.mem_range.2 (by omega), rfl⟩
  unfold storedAt
  cases hfind : (listWords E.ns prplist cid addr n).find?
      (fun st => E.dma st.1 == prplist.addr + cid <<< E.ns.pageshift + 8 * i) with
  | none =>
      have hnone := List.find?_eq_none.1 hfind _ hmem
      rw [hdma] at hnone
      exact absurd (beq_self_eq_true _) hnone
  | some st =>
      -- the addresses of the entries differ, so this is entry `i`
      obtain ⟨j, -, -, rfl⟩ := mem_listWords (List.mem_of_find?_eq_some hfind)
      have heq := List.find?_some hfind
      simp only [listStart_eq hps hcid, hdma, beq_iff_eq] at heq
      have hij : j = i := by omega
      rw [hij]
      rfl

theorem storedAt_nil (E : Env) (a : ℕ) : storedAt E [] a = none := rfl

end

/-! ## Counting pages -/

section

variable {ps off len : ℕ}

/-- The driver's count is what is touched if the transfer starts on a page. -/
theorem pagesTouched_of_aligned {prp1 : ℕ} (hps : 0 < ps) (h : prp1 % ps = 0) :
    pagesTouched ps prp1 len = (len + ps - 1) / ps := by
  rw [pagesTouched, h, Nat.zero_add, Nat.add_sub_assoc hps]

/-- Else it is at most one page less. -/
theorem pagesTouched_le {prp1 : ℕ} (hps : 0 < ps) :
    pagesTouched ps prp1 len ≤ (len + ps - 1) / ps + 1 := by
  rw [pagesTouched, ← Nat.add_div_right _ hps]
  apply Nat.div_le_div_right
  have := Nat.mod_lt prp1 hps
  omega

theorem le_pagesTouched {prp1 : ℕ} (hps : 0 < ps) :
    (len + ps - 1) / ps ≤ pagesTouched ps prp1 len := by
  apply Nat.div_le_div_right
  omega

theorem two_le_pagesTouched {prp1 : ℕ} (hps : 0 < ps) (h : ps < prp1 % ps + len) :
    2 ≤ pagesTouched ps prp1 len := by
  rw [pagesTouched, Nat.le_div_iff_mul_le hps]
  omega

end

/-! ## Reading the entries back -/

section

variable {E : Env} {prplist : Dma} {cid addr bufsz prp1 prp2 : ℕ} {words : List (ℕ × ℕ)}

/-- The entries of a buffer that starts on a page are its pages. -/
theorem composePrps_cover (hprps : composePrps E.ns prplist cid addr bufsz = (prp1, prp2, words))
    (hps : 0 < E.ns.pagesize) (h15 : E.ns.pageshift ≤ 15) (hcid : cid < 2 ^ 16) (hp : E.Block prplist)
    (hlist : 2 < E.ns.numpages bufsz → prplist.addr + cid <<< E.ns.pageshift < 2 ^ 64)
    (hnum : E.ns.numpages bufsz = ((bufsz + E.ns.pagesize - 1) / E.ns.pagesize : ℕ))
    (hend : addr + bufsz ≤ 2 ^ 64) (halign : addr % E.ns.pagesize = 0) :
    prpBytes E.ns.pagesize prp1 prp2 (storedAt E words) bufsz = some (List.range' addr bufsz) := by
  -- page `i` of the buffer starts inside it
  have hpage : ∀ i, i < (bufsz + E.ns.pagesize - 1) / E.ns.pagesize →
      (addr + i * E.ns.pagesize) % 2 ^ 64 = addr + i * E.ns.pagesize := by
    intro i hi
    have hle := (Nat.le_div_iff_mul_le hps).1 hi
    rw [Nat.succ_mul] at hle
    apply Nat.mod_eq_of_lt
    omega
  have htouch : pagesTouched E.ns.pagesize addr bufsz = _ := pagesTouched_of_aligned hps halign
  generalize (bufsz + E.ns.pagesize - 1) / E.ns.pagesize = n at hnum hpage htouch
  rw [hnum] at hlist
  rcases Nat.lt_trichotomy n 2 with hlt | heq | hgt
  · rw [composePrps_one hnum (by omega)] at hprps
    simp only [Prod.mk.injEq] at hprps
    obtain ⟨rfl, rfl, rfl⟩ := hprps
    apply prpBytes_aligned hps halign
    have hzero : n - 1 = 0 := by omega
    rw [htouch, furtherPages, if_pos hzero, hzero, List.range'_zero]
  · subst heq
    have hnext := hpage 1 (by decide)
    rw [Nat.one_mul] at hnext
    rw [composePrps_two hnum, hnext] at hprps
    simp only [Prod.mk.injEq] at hprps
    obtain ⟨rfl, rfl, rfl⟩ := hprps
    apply prpBytes_aligned hps halign
    rw [htouch, furtherPages, if_neg (by decide), if_pos (by decide)]
    rfl
  · rw [composePrps_list hnum (by omega), listAddr_eq h15 hcid (hlist (by omega))] at hprps
    simp only [Prod.mk.injEq] at hprps
    obtain ⟨rfl, rfl, rfl⟩ := hprps
    apply prpBytes_aligned hps halign
    rw [htouch, furtherPages, if_neg (by omega), if_neg (by omega)]
    apply readList_range'
    intro i hi
    rw [storedAt_listWords hp h15 hcid (by omega) (by omega), hpage (i + 1) (by omega), Nat.succ_mul,
      Nat.add_comm (i * _), Nat.add_assoc]

/-- A buffer within a page needs PRP entry 1 only. -/
theorem composePrps_cover_one {n : ℕ}
    (hprps : composePrps E.ns prplist cid addr bufsz = (prp1, prp2, words))
    (hps : 0 < E.ns.pagesize) (hnum : E.ns.numpages bufsz = n) (hn : n ≤ 1)
    (hone : addr % E.ns.pagesize + bufsz ≤ E.ns.pagesize) :
    prpBytes E.ns.pagesize prp1 prp2 (storedAt E words) bufsz = some (List.range' addr bufsz) := by
  rw [composePrps_one hnum (by omega)] at hprps
  simp only [Prod.mk.injEq] at hprps
  obtain ⟨rfl, rfl, rfl⟩ := hprps
  exact prpBytes_one hps hone

/-- A buffer that starts inside a page and crosses its end is not described. -/
theorem composePrps_not_cover
    (hprps : composePrps E.ns prplist cid addr bufsz = (prp1, prp2, words))
    (hps : 0 < E.ns.pagesize) (h15 : E.ns.pageshift ≤ 15) (hcid : cid < 2 ^ 16) (hp : E.Block prplist)
    (hlist : prplist.addr + cid <<< E.ns.pageshift < 2 ^ 64)
    (hnum : E.ns.numpages bufsz = ((bufsz + E.ns.pagesize - 1) / E.ns.pagesize : ℕ))
    (hend : addr + bufsz ≤ 2 ^ 64) (hoff : addr % E.ns.pagesize ≠ 0)
    (hcross : E.ns.pagesize < addr % E.ns.pagesize + bufsz) :
    prpBytes E.ns.pagesize prp1 prp2 (storedAt E words) bufsz ≠ some (List.range' addr bufsz) := by
  have htwo : 2 ≤ pagesTouched E.ns.pagesize addr bufsz := two_le_pagesTouched hps hcross
  have hle : pagesTouched E.ns.pagesize addr bufsz ≤ _ := pagesTouched_le hps
  have hge : _ ≤ pagesTouched E.ns.pagesize addr bufsz := le_pagesTouched hps
  -- the entry after the first, wherever it stands, has the offset of the buffer
  have hnext : 1 < (bufsz + E.ns.pagesize - 1) / E.ns.pagesize →
      (addr + E.ns.pagesize) % 2 ^ 64 % E.ns.pagesize ≠ 0 := by
    intro h1
    have hmul := (Nat.le_div_iff_mul_le hps).1 h1
    have hlt : addr + E.ns.pagesize < 2 ^ 64 := by omega
    rw [Nat.mod_eq_of_lt hlt, Nat.add_mod_right]
    exact hoff
  generalize (bufsz + E.ns.pagesize - 1) / E.ns.pagesize = n at hnum hle hge hnext
  rcases Nat.lt_trichotomy n 2 with hlt | heq | hgt
  · -- PRP entry 2 is 0, which is read as the second page
    rw [composePrps_one hnum (by omega)] at hprps
    simp only [Prod.mk.injEq] at hprps
    obtain ⟨rfl, rfl, rfl⟩ := hprps
    exact prpBytes_two_ne (by omega) hps hcross
  · subst heq
    rw [composePrps_two hnum] at hprps
    simp only [Prod.mk.injEq] at hprps
    obtain ⟨rfl, rfl, rfl⟩ := hprps
    by_cases ht : pagesTouched E.ns.pagesize addr bufsz - 1 = 1
    · rw [prpBytes_two_none ht (hnext (by decide))]
      nofun
    · rw [prpBytes_list_none (by omega) (Or.inl (storedAt_nil E _))]
      nofun
  · have hfirst := @storedAt_listWords E prplist cid addr n hp h15 hcid (by omega) 0 (by omega)
    rw [Nat.mul_zero, Nat.add_zero, Nat.zero_add, Nat.one_mul] at hfirst
    rw [composePrps_list hnum (by omega), listAddr_eq h15 hcid hlist] at hprps
    simp only [Prod.mk.injEq] at hprps
    obtain ⟨rfl, rfl, rfl⟩ := hprps
    rw [prpBytes_list_none (by omega) (Or.inr ⟨_, hfirst, hnext (by omega)⟩)]
    nofun

end

/-! ## Calls of `unvme_map_prps` -/

/-- A buffer inside an allocated block that one list page can describe, for a command id whose list page
    lies in the region. Page size and command id are of 16 bits. -/
structure Env.Mappable (E : Env) (s : Sys) (cid buf bufsz : ℕ) : Prop where
  pagesize : E.ns.pagesize = 2 ^ E.ns.pageshift
  pagesize16 : E.ns.pagesize < 2 ^ 16
  cid16 : cid < 2 ^ 16
  block : ∃ b, E.Block b ∧ b.buf ≤ buf ∧ buf + bufsz ≤ b.buf + b.size
  pos : 0 < bufsz
  pages : pagesTouched E.ns.pagesize (E.dma buf) bufsz ≤ E.ns.pagesize / 8 + 1
  list : E.Block s.q.prplist
  listPage : s.q.prplist.buf + (cid + 1) <<< E.ns.pageshift ≤ E.vemva + maxSize

section

variable {E : Env} {s : Sys} {cid buf bufsz : ℕ}

/-- Pages of less than 64 KB. -/
theorem Env.Mappable.pageshift_le (h : E.Mappable s cid buf bufsz) : E.ns.pageshift ≤ 15 := by
  have hlt := h.pagesize16
  rw [h.pagesize, Nat.pow_lt_pow_iff_right (by decide)] at hlt
  exact Nat.le_of_lt_succ hlt

theorem unvmeMapDma_of_inside (hlo : E.vemva ≤ buf) (hhi : buf ≤ E.vemva + maxSize) :
    unvmeMapDma E buf bufsz = .ok (E.dma buf) := by
  unfold unvmeMapDma auroraResolveAddr
  rw [if_neg (by omega)]
  rfl

/-- The entries go to the caller, the list to memory. -/
theorem unvmeMapPrps_run {addr prp1 prp2 : ℕ} {words : List (ℕ × ℕ)}
    (ha : unvmeMapDma E buf bufsz = .ok addr)
    (hprps : composePrps E.ns s.q.prplist cid addr bufsz = (prp1, prp2, words)) :
    ∃ s', unvmeMapPrps E cid buf bufsz s = .ok (some (prp1, prp2)) s' ∧
      s'.dev.hist.prpCalls.getLast? = some ⟨cid, buf, bufsz, words⟩ := by
  have hne : addr ≠ 2 ^ 64 - 1 := by
    rcases unvmeMapDma_cases E buf bufsz with h | ⟨a, h, hne⟩
    · rw [ha] at h; cases h
    · rw [ha] at h; cases h; exact hne
  have hwp : wp (unvmeMapPrps E cid buf bufsz) s
      (fun r s' => r = some (prp1, prp2) ∧
        s'.dev.hist.prpCalls.getLast? = some ⟨cid, buf, bufsz, words⟩) (fun _ _ => False) := by
    unfold unvmeMapPrps unvmeMapPrpsBy interfere
    rw [ha]
    simp only [if_neg hne, wp_bind, wp_modify, wp_get, wp_set, wp_pure, hprps]
    exact ⟨trivial, by simp [Device.storePrps]⟩
  obtain ⟨r, s', hr, rfl, hlast⟩ := hwp.exists_ok
  exact ⟨s', hr, hlast⟩

/-- **PRPs describe the buffer exactly if it starts on a page or lies within one.** For every page size,
    buffer and command id the call returns, and the entries with the list it wrote, read by the
    controller's rules, are the buffer's DMA bytes in order exactly then. -/
theorem prps_cover_iff (h : E.Mappable s cid buf bufsz) :
    ∃ prp1 prp2 s', unvmeMapPrps E cid buf bufsz s = .ok (some (prp1, prp2)) s' ∧
      (prpBytes E.ns.pagesize prp1 prp2 (s'.prpList E) bufsz
          = some (List.range' (E.dma buf) bufsz) ↔
        E.dma buf % E.ns.pagesize = 0 ∨ E.dma buf % E.ns.pagesize + bufsz ≤ E.ns.pagesize) := by
  obtain ⟨b, hb, hlo, hhi⟩ := h.block
  have hstart := hb.start
  have hinside := hb.inside
  have hspace := E.inSpace
  have hpos : 0 < E.ns.pagesize := by rw [h.pagesize]; exact Nat.two_pow_pos _
  have hpagele := h.pagesize16
  have h15 : E.ns.pageshift ≤ 15 := h.pageshift_le
  have hmax : maxSize = 2 ^ 35 := by decide
  have hdma : unvmeMapDma E buf bufsz = .ok (E.dma buf) :=
    unvmeMapDma_of_inside (by omega) (by omega)
  have hend : E.dma buf + bufsz ≤ 2 ^ 64 := by unfold Env.dma; omega
  -- the count fits into an `int`: it is at most the number of pages touched
  have hcount : _ ≤ pagesTouched E.ns.pagesize (E.dma buf) bufsz := le_pagesTouched hpos
  have hpages := h.pages
  have hnum : E.ns.numpages bufsz = ((bufsz + E.ns.pagesize - 1) / E.ns.pagesize : ℕ) := by
    have := Ns.numpages_eq h.pagesize bufsz
    rw [← h.pagesize] at this
    exact this (by omega) (by omega)
  have hlist : s.q.prplist.addr + cid <<< E.ns.pageshift < 2 ^ 64 := by
    have h1 := h.list.start
    have h2 := h.listPage
    have h3 : (cid + 1) <<< E.ns.pageshift = cid <<< E.ns.pageshift + 2 ^ E.ns.pageshift := by
      rw [Nat.shiftLeft_eq, Nat.shiftLeft_eq, Nat.succ_mul]
    rw [h3] at h2
    have h4 := Nat.two_pow_pos E.ns.pageshift
    rw [h.list.addr, Env.dma]
    generalize cid <<< E.ns.pageshift = prpoff at h2
    omega
  rcases hprps : composePrps E.ns s.q.prplist cid (E.dma buf) bufsz with ⟨prp1, prp2, words⟩
  obtain ⟨s', hrun, hlast⟩ := unvmeMapPrps_run hdma hprps
  refine ⟨prp1, prp2, s', hrun, ?_⟩
  have hread : s'.prpList E = storedAt E words := by
    funext a
    rw [Sys.prpList, hlast]
    rfl
  rw [hread]
  constructor
  · intro hcover
    by_contra hnot
    rw [not_or] at hnot
    exact composePrps_not_cover hprps hpos h15 h.cid16 h.list hlist hnum hend hnot.1 (by omega) hcover
  · intro hcond
    rcases hcond with halign | hone
    · exact composePrps_cover hprps hpos h15 h.cid16 h.list (fun _ => hlist) hnum hend halign
    · have hle : (bufsz + E.ns.pagesize - 1) / E.ns.pagesize ≤ 1 :=
        hcount.trans (pagesTouched_le_one hpos hone)
      exact composePrps_cover_one hprps hpos hnum hle hone

end

/-- Pages of 4096 bytes, blocks of 512 bytes, and a region at different addresses on the two sides. -/
def regionEnv : Env where
  ns := ⟨1, 4096, 12, 9, 4096⟩
  vemva := 2 ^ 30
  pciVhsaa := 2 ^ 40
  media := ⟨fun _ _ => [], fun _ _ mem disk => (mem, disk)⟩
  inSpace := by decide

/-- A queue of 256 entries with its PRP list pages at the start of the region. -/
def regionSys : Sys := Sys.boot 256 ⟨2 ^ 30, 2 ^ 40, 2 ^ 20⟩ (fun _ => 0) (fun _ => 0)

/-- A block of four pages after the list pages. -/
def regionBlock : Dma := ⟨2 ^ 30 + 2 ^ 20, 2 ^ 40 + 2 ^ 20, 16384⟩

theorem regionEnv_mappable {cid buf bufsz : ℕ} (hcid : cid < 256) (hpos : 0 < bufsz)
    (hlo : regionBlock.buf ≤ buf) (hhi : buf + bufsz ≤ regionBlock.buf + regionBlock.size) :
    regionEnv.Mappable regionSys cid buf bufsz := by
  have hblock : regionEnv.Block regionBlock := ⟨by decide, by decide, by decide⟩
  refine ⟨rfl, by decide, by omega, ⟨regionBlock, hblock, hlo, hhi⟩, hpos, ?_,
    ⟨by decide, by decide, by decide⟩, ?_⟩
  · have hsize : bufsz ≤ 16384 := by
      have : regionBlock.size = 16384 := rfl
      omega
    show (_ % 4096 + bufsz + 4095) / 4096 ≤ 513
    omega
  · show 2 ^ 30 + (cid + 1) <<< 12 ≤ 2 ^ 30 + maxSize
    have : maxSize = 2 ^ 35 := by decide
    rw [Nat.shiftLeft_eq]
    omega

/-- Three pages from the start of a block are described by a list. -/
theorem prps_cover_three_pages :
    regionEnv.Mappable regionSys 7 regionBlock.buf 12288 ∧
      ∃ prp1 prp2 s', unvmeMapPrps regionEnv 7 regionBlock.buf 12288 regionSys
          = .ok (some (prp1, prp2)) s' ∧
        prpBytes regionEnv.ns.pagesize prp1 prp2 (s'.prpList regionEnv) 12288
          = some (List.range' (regionEnv.dma regionBlock.buf) 12288) := by
  have hm : regionEnv.Mappable regionSys 7 regionBlock.buf 12288 :=
    regionEnv_mappable (by decide) (by decide) (Nat.le_refl _) (by decide)
  obtain ⟨prp1, prp2, s', hrun, hiff⟩ := prps_cover_iff hm
  exact ⟨hm, prp1, prp2, s', hrun, hiff.2 (Or.inl (by decide))⟩

/-- Two pages' worth of bytes from offset 512 of a block touch three pages, and there is no list. -/
theorem prps_miss_third_page :
    ¬ ∀ (E : Env) (s : Sys) (cid buf bufsz prp1 prp2 : ℕ) (s' : Sys), E.Mappable s cid buf bufsz →
      buf % 4 = 0 → unvmeMapPrps E cid buf bufsz s = .ok (some (prp1, prp2)) s' →
      prpBytes E.ns.pagesize prp1 prp2 (s'.prpList E) bufsz
        = some (List.range' (E.dma buf) bufsz) := by
  intro h
  have hm : regionEnv.Mappable regionSys 7 (regionBlock.buf + 512) 8192 :=
    regionEnv_mappable (by decide) (by decide) (by decide) (by decide)
  have hnone : returns (unvmeMapPrps regionEnv 7 (regionBlock.buf + 512) 8192) regionSys
      (fun r s' => r.any (fun p =>
        (prpBytes regionEnv.ns.pagesize p.1 p.2 (s'.prpList regionEnv) 8192).isNone)) = true := by
    decide +kernel
  obtain ⟨r, s', hrun, hr⟩ := returns_iff.1 hnone
  cases r with
  | none => cases hr
  | some p =>
      have hsome := h regionEnv regionSys 7 _ 8192 p.1 p.2 s' hm (by decide) hrun
      rw [Option.any_some, hsome] at hr
      cases hr

end Unvme.Core
