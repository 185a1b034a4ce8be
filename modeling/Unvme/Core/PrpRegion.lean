import Unvme.Core.Composed
import Unvme.Core.PrpCover
import Unvme.Core.Runs

set_option autoImplicit false

/-! # DMA stays in the registered region

`aurora_resolve_addr` checks the start address of a buffer, against the end of the region inclusive,
and nothing checks the length. Nor does anything check that the entries describe the buffer. So a
request stays inside the region exactly if every command's buffer lies in the region and is one that its
entries describe: it lies within one page, or it starts on a page and its PRP list fits into a page
(`no_dma_outside_iff`, for every read, write and generic command that the driver does not abort). -/

namespace Unvme.Core

open Unvme.Lib Unvme.Nvme

/-- A DMA address in `[pci_vhsaa, pci_vhsaa + MAX_SIZE)`. -/
def Env.InRegion (E : Env) (a : ℕ) : Prop := E.pciVhsaa ≤ a ∧ a < E.pciVhsaa + maxSize

/-- What `unvme_do_open` and `unvme_ns_init` compute for a namespace: a page size the controller
    interface allows, kept in 16 bits, blocks no larger than a page, and 16 bits of blocks per I/O. -/
structure Ns.Geometry (ns : Ns) : Prop where
  pagesize : ns.pagesize = 2 ^ ns.pageshift % 2 ^ 16
  mpsmin : 12 ≤ ns.pageshift
  mpsmax : ns.pageshift ≤ 27
  blockshift : ns.blockshift ≤ ns.pageshift
  maxbpio : ns.maxbpio < 2 ^ 16

/-- The bytes of a transfer, as the controller finds them by its PRP entries and the list in these
    stores, lie in the region. A second page has an entry: 0 is none. -/
structure Env.BytesInside (E : Env) (stores : List (ℕ × ℕ)) (prp1 prp2 len : ℕ) : Prop where
  second : pagesTouched (2 ^ E.ns.pageshift) prp1 len = 2 → prp2 ≠ 0
  bytes : ∃ bytes, prpBytes (2 ^ E.ns.pageshift) prp1 prp2
      (listPage (2 ^ E.ns.pageshift) prp2 (storedAt E stores)) len = some bytes ∧
    ∀ a ∈ bytes, E.InRegion a

/-- What the PRPs of a submission describe lies in the region: the addresses in the entry, those in the
    list written for it, and the bytes of the transfer. -/
structure Sys.Inside (E : Env) (s : Sys) (sub : Sub) : Prop where
  prp1 : E.InRegion sub.entry.prp1
  prp2 : 2 ≤ E.ns.numpages sub.bufsz → E.InRegion sub.entry.prp2
  list : ∃ call ∈ s.dev.hist.prpCalls, call.cid = sub.entry.cid ∧ call.buf = sub.buf ∧
    call.bufsz = sub.bufsz ∧ (∀ st ∈ call.stores, E.InRegion st.2) ∧
    E.BytesInside call.stores sub.entry.prp1 sub.entry.prp2 sub.bufsz

/-! ## Counting pages -/

section

variable {ns : Ns} {bufsz : ℕ}

theorem toInt32_le {x : ℕ} (h : 0 < toInt32 x) : toInt32 x ≤ x := by
  unfold toInt32 at h ⊢
  split at h
  · rw [if_pos ‹_›]
    omega
  · omega

/-- The pages counted are not more than there are. -/
theorem Ns.numpages_le (h : 0 < ns.numpages bufsz) (hpos : 0 < bufsz + ns.pagesize) :
    ns.numpages bufsz ≤ ((bufsz + ns.pagesize - 1) / 2 ^ ns.pageshift : ℕ) := by
  have hle : ns.numpages bufsz ≤ _ := toInt32_le h
  rw [Nat.shiftRight_eq_div_pow] at hle
  refine hle.trans (Int.ofNat_le.2 (Nat.div_le_div_right ?_))
  omega

/-- Pages of 64 KB and more are counted as if they had size 0. -/
theorem Ns.Geometry.pagesize_eq (hg : ns.Geometry) :
    ns.pagesize = if ns.pageshift ≤ 15 then 2 ^ ns.pageshift else 0 := by
  rw [hg.pagesize]
  split
  · next h15 => exact Nat.mod_eq_of_lt (Nat.pow_lt_pow_right (by decide) (Nat.lt_succ_of_le h15))
  · next h15 => exact Nat.mod_eq_zero_of_dvd (Nat.pow_dvd_pow 2 (by omega))

/-- Full pages and one more. -/
theorem div_up {ps len : ℕ} (hps : 0 < ps) (hpos : 0 < len) : (len + ps - 1) / ps = (len - 1) / ps + 1 := by
  rw [← Nat.add_div_right _ hps]
  congr 1
  omega

/-- No more pages are counted than the transfer touches, and fewer where their size is taken as 0. -/
theorem Ns.Geometry.numpages_le_touched (hg : ns.Geometry) (h : 0 < ns.numpages bufsz) (hpos : 0 < bufsz)
    (prp1 : ℕ) : ns.numpages bufsz ≤ pagesTouched (2 ^ ns.pageshift) prp1 bufsz ∧
      (15 < ns.pageshift → ns.numpages bufsz < pagesTouched (2 ^ ns.pageshift) prp1 bufsz) := by
  have hps : 0 < 2 ^ ns.pageshift := Nat.two_pow_pos _
  have hle := Ns.numpages_le h (by omega)
  have htouched : (bufsz + 2 ^ ns.pageshift - 1) / 2 ^ ns.pageshift ≤ pagesTouched _ prp1 bufsz :=
    le_pagesTouched hps
  rw [hg.pagesize_eq] at hle
  by_cases h15 : ns.pageshift ≤ 15
  · rw [if_pos h15] at hle
    omega
  · rw [if_neg h15, Nat.add_zero] at hle
    have hdiv := div_up hps hpos
    omega

/-- So all pages touched are counted only where their size is not cut off. -/
theorem Ns.Geometry.all_counted (hg : ns.Geometry) (h : 0 < ns.numpages bufsz) (hpos : 0 < bufsz)
    (prp1 : ℕ) (hall : pagesTouched (2 ^ ns.pageshift) prp1 bufsz ≤ ns.numpages bufsz) :
    ns.pageshift ≤ 15 ∧ ns.numpages bufsz = pagesTouched (2 ^ ns.pageshift) prp1 bufsz := by
  obtain ⟨hle, hlt⟩ := hg.numpages_le_touched h hpos prp1
  refine ⟨?_, le_antisymm hle hall⟩
  by_contra hbig
  exact absurd (hlt (not_le.1 hbig)) (not_lt.2 hall)

/-- The driver's count, where no page size is cut off. -/
theorem Ns.Geometry.numpages_eq (hg : ns.Geometry) (h15 : ns.pageshift ≤ 15) (hlen : bufsz ≤ 2 ^ 36) :
    ns.numpages bufsz = ((bufsz + ns.pagesize - 1) / ns.pagesize : ℕ) := by
  have hsize : ns.pagesize = 2 ^ ns.pageshift := by rw [hg.pagesize_eq, if_pos h15]
  have hlo : 2 ^ 12 ≤ 2 ^ ns.pageshift := Nat.pow_le_pow_right (by decide) hg.mpsmin
  have hhi : 2 ^ ns.pageshift ≤ 2 ^ 15 := Nat.pow_le_pow_right (by decide) h15
  rw [hsize]
  refine Ns.numpages_eq hsize bufsz (by omega) ?_
  rw [Nat.div_lt_iff_lt_mul (by omega)]
  omega

end

/-! ## Buffers inside the region -/

/-- The PRP list pages of a queue are DMA memory. With pages of 64 KB and more there is no list that could be
    used. -/
structure Env.Lists (E : Env) (prplist : Dma) (size : ℕ) : Prop where
  block : E.Block prplist
  pages : E.ns.pageshift ≤ 15 → prplist.buf + size <<< E.ns.pageshift ≤ E.vemva + maxSize

/-- The buffer of a command lies in the region, and its PRP entries describe it: one page is enough, or it
    starts on a page and needs two, or the entries of its list do not go beyond the end of a page. (A
    command without data still has the address of its buffer.) -/
structure Env.FitsBuffer (E : Env) (prplist : Dma) (buf bufsz : ℕ) : Prop where
  region : buf + max bufsz 1 ≤ E.vemva + maxSize
  pages : E.dma buf % 2 ^ E.ns.pageshift + bufsz ≤ 2 ^ E.ns.pageshift ∨
    E.ns.pageshift ≤ 15 ∧ E.dma buf % 2 ^ E.ns.pageshift = 0 ∧
      (bufsz ≤ 2 * 2 ^ E.ns.pageshift ∨
        prplist.addr % 2 ^ E.ns.pageshift + 8 * ((bufsz - 1) / 2 ^ E.ns.pageshift) ≤ 2 ^ E.ns.pageshift)

section

variable {E : Env} {prplist : Dma} {s : Sys} {cid buf bufsz addr : ℕ}

theorem unvmeMapDma_ok (h : unvmeMapDma E buf bufsz = .ok addr) :
    E.vemva ≤ buf ∧ buf ≤ E.vemva + maxSize ∧ addr = E.dma buf := by
  unfold unvmeMapDma auroraResolveAddr at h
  split at h
  · cases h
  · cases h
    exact ⟨by omega, by omega, rfl⟩

/-- The first entry is the buffer's address, whatever the length. -/
theorem composePrps_prp1 (ns : Ns) (prplist : Dma) (cid addr bufsz : ℕ) :
    (composePrps ns prplist cid addr bufsz).1 = addr := by
  rcases Int.lt_trichotomy (ns.numpages bufsz) 2 with hlt | heq | hgt
  · rw [composePrps_one rfl (by omega)]
  · rw [composePrps_two heq]
  · rw [composePrps_list rfl hgt]

/-- Addresses of the region are no multiple of 2^64 apart. -/
theorem Env.InRegion.no_wrap {k : ℕ} (h : E.InRegion addr) (h' : E.InRegion ((addr + k) % 2 ^ 64))
    (hk : k ≤ 2 ^ 32) : addr + k < 2 ^ 64 := by
  have hmax : maxSize = 2 ^ 35 := by decide
  have hspace := E.inSpace
  unfold Env.InRegion at h h'
  omega

/-- The list page of a command id. -/
theorem Env.Lists.listAddr {size : ℕ} (h : E.Lists prplist size) (h15 : E.ns.pageshift ≤ 15)
    (hcid : cid < size) : prplist.addr + cid <<< E.ns.pageshift < 2 ^ 64 ∧
      E.InRegion (prplist.addr + cid <<< E.ns.pageshift) := by
  have hpages := h.pages h15
  have hstart := h.block.start
  have hspace := E.inSpace
  have hlt : cid <<< E.ns.pageshift < size <<< E.ns.pageshift := by
    rw [Nat.shiftLeft_eq, Nat.shiftLeft_eq]
    exact Nat.mul_lt_mul_of_pos_right hcid (Nat.two_pow_pos _)
  rw [h.block.addr, Env.dma]
  generalize cid <<< E.ns.pageshift = prpoff at hlt
  generalize size <<< E.ns.pageshift = len at hlt hpages
  exact ⟨by omega, by omega, by omega⟩

/-- A list has no more entries than words were stored for it. -/
theorem storedAt_count {words : List (ℕ × ℕ)} {a n : ℕ}
    (h : ∀ i < n, ∃ v, storedAt E words (a + 8 * i) = some v) : n ≤ words.length := by
  have hsub : (List.range n).map (fun i => a + 8 * i) ⊆ words.map (fun st => E.dma st.1) := by
    intro x hx
    obtain ⟨i, hi, rfl⟩ := List.mem_map.1 hx
    obtain ⟨v, hv⟩ := h i (List.mem_range.1 hi)
    obtain ⟨st, hst, -⟩ := Option.map_eq_some_iff.1 hv
    have heq := List.find?_some hst
    exact List.mem_map.2 ⟨st, List.mem_of_find?_eq_some hst, beq_iff_eq.1 heq⟩
  have hnd : ((List.range n).map (fun i => a + 8 * i)).Nodup := by
    refine List.Nodup.map (fun i j hij => ?_) List.nodup_range
    have hij' : a + 8 * i = a + 8 * j := hij
    omega
  have hle := (hnd.subperm hsub).length_le
  rwa [List.length_map, List.length_map, List.length_range] at hle

theorem listWords_length {n : ℤ} : (listWords E.ns prplist cid addr n).length =
    if 2 < n then n.toNat - 1 else 0 := by
  unfold listWords
  split
  · rw [List.length_map, List.length_range]
  · rfl

/-- One page is touched only by a transfer within it. -/
theorem pagesTouched_le_one_iff {ps prp1 len : ℕ} (hps : 0 < ps) :
    pagesTouched ps prp1 len ≤ 1 ↔ prp1 % ps + len ≤ ps := by
  refine ⟨fun h => ?_, pagesTouched_le_one hps⟩
  by_contra hcross
  have h2 : 2 ≤ pagesTouched ps prp1 len := two_le_pagesTouched hps (by omega)
  omega

/-- What `unvme_map_prps` leaves for a command stays in the region. -/
structure Env.PrpsInside (E : Env) (bufsz : ℕ) (prps : ℕ × ℕ × List (ℕ × ℕ)) : Prop where
  prp1 : E.InRegion prps.1
  prp2 : 2 ≤ E.ns.numpages bufsz → E.InRegion prps.2.1
  list : ∀ st ∈ prps.2.2, E.InRegion st.2
  bytes : E.BytesInside prps.2.2 prps.1 prps.2.1 bufsz

/-- More than one page: the driver has counted all pages, and the buffer starts on the first one. -/
theorem Env.PrpsInside.counted {size : ℕ} (hg : E.ns.Geometry) (hl : E.Lists prplist size)
    (hcid : cid < size) (h16 : cid < 2 ^ 16)
    (h : E.PrpsInside bufsz (composePrps E.ns prplist cid addr bufsz))
    (ht : 2 ≤ pagesTouched (2 ^ E.ns.pageshift) addr bufsz) :
    E.ns.pageshift ≤ 15 ∧ addr % 2 ^ E.ns.pageshift = 0 ∧
      E.ns.numpages bufsz = pagesTouched (2 ^ E.ns.pageshift) addr bufsz ∧
      (2 < pagesTouched (2 ^ E.ns.pageshift) addr bufsz →
        prplist.addr % 2 ^ E.ns.pageshift +
          8 * (pagesTouched (2 ^ E.ns.pageshift) addr bufsz - 1) ≤ 2 ^ E.ns.pageshift) := by
  have hps : 0 < 2 ^ E.ns.pageshift := Nat.two_pow_pos _
  have hpos : 0 < bufsz := by
    by_contra hzero
    have hlt := Nat.mod_lt addr hps
    have h1 : pagesTouched (2 ^ E.ns.pageshift) addr bufsz ≤ 1 :=
      (pagesTouched_le_one_iff hps).2 (by omega)
    omega
  have hdvd : 2 ^ E.ns.pageshift ∣ 2 ^ 64 := Nat.pow_dvd_pow 2 (by have := hg.mpsmax; omega)
  -- the entry after the first has the offset of the buffer
  have hoff : E.ns.pageshift ≤ 15 → (addr + E.ns.pagesize) % 2 ^ 64 % 2 ^ E.ns.pageshift = 0 →
      addr % 2 ^ E.ns.pageshift = 0 := by
    intro h15 heq
    rwa [Nat.mod_mod_of_dvd _ hdvd, hg.pagesize_eq, if_pos h15, Nat.add_mod_right] at heq
  obtain ⟨bytes, hbytes, -⟩ := h.bytes.bytes
  obtain ⟨pages, hpages, haligned⟩ := prpBytes_pages hbytes
  have hsecond := h.bytes.second
  rw [composePrps_prp1] at hpages hsecond
  rcases Nat.eq_or_lt_of_le ht with h2 | h3
  · -- the second page is in PRP entry 2, which is not 0
    have hnum : 2 ≤ E.ns.numpages bufsz := by
      by_contra hlt
      rw [composePrps_one rfl (by omega)] at hsecond
      exact hsecond h2.symm rfl
    obtain ⟨h15, heq⟩ := hg.all_counted (by omega) hpos addr (by rw [← h2]; exact hnum)
    have hnum2 : E.ns.numpages bufsz = 2 := by rw [heq, ← h2]; rfl
    rw [← h2, composePrps_two hnum2, furtherPages, if_neg (by decide), if_pos (by decide)] at hpages
    have hsecond := haligned ((addr + E.ns.pagesize) % 2 ^ 64)
      (by rw [← Option.some.inj hpages]; exact List.mem_singleton_self _)
    exact ⟨h15, hoff h15 hsecond, heq, fun h3 => absurd h3 (by rw [← h2]; decide)⟩
  · -- the further pages are in the list
    rw [furtherPages, if_neg (by omega), if_neg (by omega)] at hpages
    have hget := readList_get _ hpages
    have hwords := composePrps_words E.ns prplist cid addr bufsz
    have hread : ∀ i < pagesTouched (2 ^ E.ns.pageshift) addr bufsz - 1, ∃ v,
        storedAt E (composePrps E.ns prplist cid addr bufsz).2.2
          ((composePrps E.ns prplist cid addr bufsz).2.1 + 8 * i) = some v := by
      intro i hi
      obtain ⟨e, -, he⟩ := hget i hi
      exact ⟨e, listPage_some he⟩
    have hcount := storedAt_count hread
    rw [hwords, listWords_length] at hcount
    have hnum : 2 < E.ns.numpages bufsz := by
      by_contra hle
      rw [if_neg hle] at hcount
      omega
    rw [if_pos hnum] at hcount
    have hall : pagesTouched (2 ^ E.ns.pageshift) addr bufsz ≤ E.ns.numpages bufsz := by
      clear hoff
      omega
    obtain ⟨h15, heq⟩ := hg.all_counted (by omega) hpos addr hall
    obtain ⟨hlist, -⟩ := hl.listAddr h15 hcid
    rw [composePrps_list rfl hnum, listAddr_eq h15 h16 hlist] at hget
    dsimp only at hget
    refine ⟨h15, hoff h15 ?_, heq, fun _ => ?_⟩
    · obtain ⟨e, hmem, he⟩ := hget 0 (by omega)
      have hfirst := @storedAt_listWords E prplist cid addr _ hl.block h15 h16 hnum 0 (by omega)
      rw [listPage_some he, Nat.zero_add, Nat.one_mul] at hfirst
      rw [← Option.some.inj hfirst]
      exact haligned e hmem
    · obtain ⟨e, -, he⟩ := hget (pagesTouched (2 ^ E.ns.pageshift) addr bufsz - 2) (by omega)
      have hfits := listPage_fits he
      rw [Nat.shiftLeft_eq, Nat.add_mul_mod_self_right] at hfits
      rwa [show pagesTouched (2 ^ E.ns.pageshift) addr bufsz - 2 + 1
        = pagesTouched (2 ^ E.ns.pageshift) addr bufsz - 1 by omega] at hfits

/-- The pages after the first, as they are given. -/
theorem Env.PrpsInside.page
    (h : E.PrpsInside bufsz (composePrps E.ns prplist cid addr bufsz)) {i : ℕ} (hi : 1 ≤ i)
    (hlt : (i : ℤ) < E.ns.numpages bufsz) : E.InRegion ((addr + i * E.ns.pagesize) % 2 ^ 64) := by
  rcases Int.lt_trichotomy (E.ns.numpages bufsz) 2 with h1 | h2 | h3
  · omega
  · have hin := h.prp2 (by omega)
    rw [composePrps_two h2] at hin
    obtain rfl : i = 1 := by omega
    rw [Nat.one_mul]
    exact hin
  · have hin := h.list (listStart E.ns prplist cid + 8 * (i - 1), (addr + (i - 1 + 1) * E.ns.pagesize) % 2 ^ 64)
    rw [Nat.sub_add_cancel hi] at hin
    refine hin ?_
    rw [composePrps_words, listWords, if_pos h3]
    refine List.mem_map.2 ⟨i - 1, List.mem_range.2 (by omega), ?_⟩
    rw [Nat.sub_add_cancel hi]

/-- Whole pages up to an address below 2^64 end at it or before. -/
theorem aligned_add_le {ps k : ℕ} (hps : ps ∣ 2 ^ 64) (h0 : addr % ps = 0) (h : addr + k * ps < 2 ^ 64) :
    addr + (k + 1) * ps ≤ 2 ^ 64 := by
  obtain ⟨n, hn⟩ := hps
  obtain ⟨m, rfl⟩ := Nat.dvd_of_mod_eq_zero h0
  rw [hn, Nat.mul_comm ps m, ← Nat.add_mul, Nat.mul_comm ps n] at h
  rw [hn, Nat.mul_comm ps m, ← Nat.add_mul, Nat.mul_comm ps n]
  exact Nat.mul_le_mul_right _ (Nat.lt_of_mul_lt_mul_right h)

/-- A transfer that starts on a page ends at 2^64 or before, if its last page starts before. -/
theorem aligned_end_le {ps len : ℕ} (hps : 0 < ps) (hdvd : ps ∣ 2 ^ 64) (h0 : addr % ps = 0)
    (h : addr + (len - 1) / ps * ps < 2 ^ 64) : addr + len ≤ 2 ^ 64 := by
  have hle := aligned_add_le hdvd h0 h
  have hlt := Nat.lt_mul_div_succ (len - 1) hps
  rw [Nat.mul_comm] at hlt
  generalize ((len - 1) / ps + 1) * ps = total at hle hlt
  omega

/-- The last page of a buffer in many pages starts below 2^64. -/
theorem Env.PrpsInside.last_page {k : ℕ} (hsmall : E.ns.pagesize ≤ 2 ^ 15) (hk : 1 ≤ k) (hk15 : k ≤ 2 ^ 15)
    (hnum : E.ns.numpages bufsz = k + 1)
    (h : E.PrpsInside bufsz (composePrps E.ns prplist cid addr bufsz)) :
    addr + k * E.ns.pagesize < 2 ^ 64 := by
  have hfirst := h.prp1
  rw [composePrps_prp1] at hfirst
  have hlast := h.page hk (by rw [hnum]; exact Int.lt_succ _)
  exact hfirst.no_wrap hlast ((Nat.mul_le_mul hk15 hsmall).trans (by decide))

/-- Bytes of the buffer that are in the region bound its end. -/
theorem Env.BytesInside.region {stores : List (ℕ × ℕ)} {prp2 : ℕ} (hlo : E.vemva ≤ buf)
    (hfirst : E.InRegion (E.dma buf)) (h : E.BytesInside stores (E.dma buf) prp2 bufsz)
    (hbytes : ∀ bytes, prpBytes (2 ^ E.ns.pageshift) (E.dma buf) prp2
      (listPage (2 ^ E.ns.pageshift) prp2 (storedAt E stores)) bufsz = some bytes →
        bytes = List.range' (E.dma buf) bufsz) : buf + max bufsz 1 ≤ E.vemva + maxSize := by
  obtain ⟨bytes, hsome, hin⟩ := h.bytes
  obtain rfl := hbytes bytes hsome
  have hdma : E.dma buf = E.pciVhsaa + (buf - E.vemva) := rfl
  rcases Nat.eq_zero_or_pos bufsz with rfl | hpos
  · have := hfirst.2
    omega
  · have hlast := (hin (E.dma buf + (bufsz - 1)) (List.mem_range'_1.2 ⟨by omega, by omega⟩)).2
    omega

/-- **PRPs that stay in the region describe a buffer that fits.** -/
theorem Env.PrpsInside.fits {size : ℕ} (hg : E.ns.Geometry) (hl : E.Lists prplist size) (hcid : cid < size)
    (h16 : cid < 2 ^ 16) (hlo : E.vemva ≤ buf)
    (h : E.PrpsInside bufsz (composePrps E.ns prplist cid (E.dma buf) bufsz)) :
    E.FitsBuffer prplist buf bufsz := by
  have hps : 0 < 2 ^ E.ns.pageshift := Nat.two_pow_pos _
  have hfirst := h.prp1
  have hin := h.bytes
  rw [composePrps_prp1] at hfirst hin
  by_cases hone : E.dma buf % 2 ^ E.ns.pageshift + bufsz ≤ 2 ^ E.ns.pageshift
  · refine ⟨hin.region hlo hfirst ?_, Or.inl hone⟩
    intro bytes hbytes
    rw [prpBytes_one hps hone] at hbytes
    exact (Option.some.inj hbytes).symm
  have ht : 2 ≤ pagesTouched (2 ^ E.ns.pageshift) (E.dma buf) bufsz :=
    two_le_pagesTouched hps (not_le.1 hone)
  obtain ⟨h15, h0, hnum, hpage⟩ := h.counted hg hl hcid h16 ht
  have hpos : 0 < bufsz := by
    by_contra hzero
    have hlt := Nat.mod_lt (E.dma buf) hps
    exact hone (by rw [Nat.eq_zero_of_not_pos hzero]; exact hlt.le)
  have hsize : E.ns.pagesize = 2 ^ E.ns.pageshift := by rw [hg.pagesize_eq, if_pos h15]
  have hsmall : 2 ^ E.ns.pageshift ≤ 2 ^ 15 := Nat.pow_le_pow_right (by decide) h15
  have htouched : pagesTouched (2 ^ E.ns.pageshift) (E.dma buf) bufsz = _ := pagesTouched_of_aligned hps h0
  rw [htouched, div_up hps hpos] at ht hpage
  have hlist : (bufsz - 1) / 2 ^ E.ns.pageshift = 1 ∨
      prplist.addr % 2 ^ E.ns.pageshift + 8 * ((bufsz - 1) / 2 ^ E.ns.pageshift) ≤ 2 ^ E.ns.pageshift := by
    generalize (bufsz - 1) / 2 ^ E.ns.pageshift = k at ht hpage
    rcases Nat.lt_or_ge 1 k with hk | hk
    · exact Or.inr (hpage (Nat.succ_lt_succ hk))
    · exact Or.inl (le_antisymm hk (Nat.le_of_succ_le_succ ht))
  have hcount : (bufsz - 1) / 2 ^ E.ns.pageshift ≤ 2 ^ 15 := by
    rcases hlist with hk | hk
    · rw [hk]
      decide
    · generalize (bufsz - 1) / 2 ^ E.ns.pageshift = k at hk
      omega
  have hend : E.dma buf + bufsz ≤ 2 ^ 64 := by
    refine aligned_end_le hps (Nat.pow_dvd_pow 2 (hg.mpsmax.trans (by decide))) h0 ?_
    rw [← hsize]
    refine h.last_page (by rw [hsize]; exact hsmall) (by rw [hsize]; exact Nat.le_of_succ_le_succ ht)
      (by rw [hsize]; exact hcount) ?_
    rw [hnum, htouched, div_up hps hpos, hsize, Nat.cast_succ]
  refine ⟨hin.region hlo hfirst ?_, Or.inr ⟨h15, h0, ?_⟩⟩
  · intro bytes hbytes
    rcases hprps : composePrps E.ns prplist cid (E.dma buf) bufsz with ⟨prp1, prp2, words⟩
    obtain ⟨hlist, -⟩ := hl.listAddr h15 hcid
    have hcover := composePrps_cover hprps (by rw [hsize]; exact hps) h15 h16 hl.block (fun _ => hlist)
      (by rw [hsize, ← htouched]; exact hnum) hend (by rw [hsize]; exact h0)
    obtain rfl : E.dma buf = prp1 := by rw [← composePrps_prp1 E.ns prplist cid (E.dma buf) bufsz, hprps]
    rw [hprps] at hbytes
    rw [hsize, prpBytes_mono (fun a v => listPage_some) hbytes] at hcover
    exact Option.some.inj hcover
  · rcases hlist with hk | hk
    · have hlt := Nat.lt_mul_div_succ (bufsz - 1) hps
      rw [hk] at hlt
      exact Or.inl (by omega)
    · exact Or.inr hk

/-- A command without data counts no page. -/
theorem Ns.Geometry.numpages_zero {ns : Ns} (hg : ns.Geometry) : ns.numpages 0 ≤ 1 := by
  have hlo := hg.mpsmin
  have hhi := hg.mpsmax
  have hcut : ∀ p, 12 ≤ p → p ≤ 27 →
      toInt32 (((0 + (if p ≤ 15 then 2 ^ p else 0) + (2 ^ 64 - 1)) % 2 ^ 64) >>> p) ≤ 1 := by decide
  unfold Ns.numpages
  rw [hg.pagesize_eq]
  exact hcut _ hlo hhi

/-- A transfer within a page counts at most one. -/
theorem Ns.Geometry.numpages_le_one {ns : Ns} (hg : ns.Geometry)
    (hone : addr % 2 ^ ns.pageshift + bufsz ≤ 2 ^ ns.pageshift) : ns.numpages bufsz ≤ 1 := by
  rcases Nat.eq_zero_or_pos bufsz with rfl | hpos
  · exact hg.numpages_zero
  by_contra hmore
  have hle := (hg.numpages_le_touched (by omega) hpos addr).1
  have ht := pagesTouched_le_one (Nat.two_pow_pos _) hone
  generalize pagesTouched (2 ^ ns.pageshift) addr bufsz = touched at hle ht
  omega

/-- The pages of a buffer inside the region have their addresses inside the region. -/
theorem composePrps_inside {size : ℕ} {n : ℤ} {prps : ℕ × ℕ × List (ℕ × ℕ)}
    (hprps : composePrps E.ns prplist cid addr bufsz = prps) (hl : E.Lists prplist size)
    (h15 : E.ns.pageshift ≤ 15) (hcid : cid < size) (h16 : cid < 2 ^ 16)
    (hlo : E.pciVhsaa ≤ addr) (hhi : addr + bufsz ≤ E.pciVhsaa + maxSize)
    (hnum : E.ns.numpages bufsz = n) (hlen : 2 ≤ n → (n.toNat - 1) * E.ns.pagesize < bufsz) :
    (2 ≤ n → E.InRegion prps.2.1) ∧ ∀ st ∈ prps.2.2, E.InRegion st.2 := by
  have hspace := E.inSpace
  -- page `i` of the buffer starts inside it
  have hpage : ∀ i : ℕ, 2 ≤ n → (i : ℤ) < n → E.InRegion ((addr + i * E.ns.pagesize) % 2 ^ 64) := by
    intro i h2 hi
    have hlt := hlen h2
    have hle : i * E.ns.pagesize ≤ (n.toNat - 1) * E.ns.pagesize :=
      Nat.mul_le_mul_right _ (by omega)
    rw [Nat.mod_eq_of_lt (by omega)]
    exact ⟨by omega, by omega⟩
  rcases Int.lt_trichotomy n 2 with hlt | heq | hgt
  · rw [composePrps_one hnum (by omega)] at hprps
    subst hprps
    exact ⟨fun h2 => absurd h2 (by omega), fun st hst => absurd hst List.not_mem_nil⟩
  · subst heq
    rw [composePrps_two hnum] at hprps
    subst hprps
    have h1 := hpage 1 (by decide) (by decide)
    rw [Nat.one_mul] at h1
    exact ⟨fun _ => h1, fun st hst => absurd hst List.not_mem_nil⟩
  · obtain ⟨hlist, hin⟩ := hl.listAddr h15 hcid
    rw [composePrps_list hnum (by omega), listAddr_eq h15 h16 hlist] at hprps
    subst hprps
    refine ⟨fun _ => hin, ?_⟩
    intro st hst
    obtain ⟨i, hi, -, rfl⟩ := mem_listWords hst
    exact hpage (i + 1) (by omega) (by omega)

/-- Bytes of a buffer inside the region. -/
theorem Env.inRegion_range' {len a : ℕ} (hlo : E.pciVhsaa ≤ addr) (hhi : addr + len ≤ E.pciVhsaa + maxSize)
    (h : a ∈ List.range' addr len) : E.InRegion a := by
  obtain ⟨h1, h2⟩ := List.mem_range'_1.1 h
  exact ⟨hlo.trans h1, h2.trans_le hhi⟩

/-- **The PRPs of a buffer that fits stay in the region.** -/
theorem Env.FitsBuffer.inside {size : ℕ} (hg : E.ns.Geometry) (hl : E.Lists prplist size) (hcid : cid < size)
    (h16 : cid < 2 ^ 16) (hlo : E.vemva ≤ buf) (h : E.FitsBuffer prplist buf bufsz) :
    E.PrpsInside bufsz (composePrps E.ns prplist cid (E.dma buf) bufsz) := by
  have hps : 0 < 2 ^ E.ns.pageshift := Nat.two_pow_pos _
  have hspace := E.inSpace
  have hdma : E.dma buf = E.pciVhsaa + (buf - E.vemva) := rfl
  have hregion := h.region
  have hstart : E.pciVhsaa ≤ E.dma buf := by rw [hdma]; exact Nat.le_add_right _ _
  have hend : E.dma buf + bufsz ≤ E.pciVhsaa + maxSize := by omega
  have hfirst : E.InRegion (E.dma buf) := ⟨hstart, by omega⟩
  by_cases hone : E.dma buf % 2 ^ E.ns.pageshift + bufsz ≤ 2 ^ E.ns.pageshift
  · have hnum := hg.numpages_le_one hone
    have htouched := pagesTouched_le_one hps hone
    rw [composePrps_one rfl hnum]
    refine ⟨hfirst, fun h2 => absurd (h2.trans hnum) (by decide), fun st hst => absurd hst List.not_mem_nil,
      fun h2 => absurd htouched (by rw [h2]; decide), _, prpBytes_one hps hone, fun a ha => ?_⟩
    exact E.inRegion_range' hstart hend ha
  obtain ⟨h15, h0, hlist⟩ := h.pages.resolve_left hone
  have hpos : 0 < bufsz := by
    by_contra hzero
    have hlt := Nat.mod_lt (E.dma buf) hps
    exact hone (by rw [Nat.eq_zero_of_not_pos hzero]; exact hlt.le)
  have hsize : E.ns.pagesize = 2 ^ E.ns.pageshift := by rw [hg.pagesize_eq, if_pos h15]
  have hmax : maxSize = 2 ^ 35 := by decide
  have htouched : pagesTouched (2 ^ E.ns.pageshift) (E.dma buf) bufsz = _ :=
    (pagesTouched_of_aligned hps h0).trans (div_up hps hpos)
  have hnum : E.ns.numpages bufsz = ((bufsz + E.ns.pagesize - 1) / E.ns.pagesize : ℕ) :=
    hg.numpages_eq h15 (by omega)
  have hcount : (bufsz + E.ns.pagesize - 1) / E.ns.pagesize = (bufsz - 1) / 2 ^ E.ns.pageshift + 1 := by
    rw [hsize, div_up hps hpos]
  obtain ⟨hlistAddr, -⟩ := hl.listAddr h15 hcid
  have hfull :
      ((((bufsz + E.ns.pagesize - 1) / E.ns.pagesize : ℕ) : ℤ).toNat - 1) * E.ns.pagesize < bufsz := by
    rw [Int.toNat_natCast, hcount, Nat.add_sub_cancel, hsize]
    exact (Nat.div_mul_le_self _ _).trans_lt (Nat.sub_lt hpos Nat.one_pos)
  obtain ⟨hprp2, hwords⟩ := composePrps_inside rfl hl h15 hcid h16 hstart hend hnum (fun _ => hfull)
  refine ⟨by rw [composePrps_prp1]; exact hfirst, by rw [hnum]; exact hprp2, hwords, ?_, ?_⟩
  · intro h2
    rw [composePrps_prp1, htouched] at h2
    rw [composePrps_two (by rw [hnum, hcount, h2]; rfl)]
    have hfull : 1 * 2 ^ E.ns.pageshift ≤ bufsz - 1 :=
      (Nat.le_div_iff_mul_le hps).1 (Nat.le_of_succ_le_succ h2.ge)
    rw [← hsize, Nat.one_mul] at hfull
    rw [← hsize] at hps
    dsimp only
    rw [Nat.mod_eq_of_lt (by omega)]
    omega
  · rcases hprps : composePrps E.ns prplist cid (E.dma buf) bufsz with ⟨prp1, prp2, words⟩
    have hcover := composePrps_cover hprps (by rw [hsize]; exact hps) h15 h16 hl.block
      (fun _ => hlistAddr) hnum (by omega) (by rw [hsize]; exact h0)
    refine ⟨List.range' (E.dma buf) bufsz, ?_, fun a ha => E.inRegion_range' hstart hend ha⟩
    rw [hsize] at hcover
    rw [← hcover]
    obtain rfl : E.dma buf = prp1 := by rw [← composePrps_prp1 E.ns prplist cid (E.dma buf) bufsz, hprps]
    refine prpBytes_congr (fun h3 i hi => ?_)
    rw [htouched] at h3 hi
    -- with three pages there is a list, and it does not leave its page
    have hlong : ¬ bufsz ≤ 2 * 2 ^ E.ns.pageshift := by
      have hfull := (Nat.le_div_iff_mul_le hps).1 (Nat.le_of_lt_succ h3)
      omega
    have hfits := hlist.resolve_left hlong
    have hlast : 2 < ((bufsz + E.ns.pagesize - 1) / E.ns.pagesize : ℕ) := by rw [hcount]; exact h3
    rw [composePrps_list hnum (Int.ofNat_lt.2 hlast), listAddr_eq h15 h16 hlistAddr] at hprps
    obtain rfl : prplist.addr + cid <<< E.ns.pageshift = prp2 := congrArg (fun prps => prps.2.1) hprps
    refine listPage_add ?_ (Nat.lt_of_lt_of_le hi (Nat.le_of_eq (Nat.add_sub_cancel _ 1)))
    rw [Nat.shiftLeft_eq, Nat.add_mul_mod_self_right]
    exact hfits

end


/-! ## Requests -/

section

variable {E : Env}

/-- The chunks lie in the buffer of the request, and have blocks, but not more than fit into a command. -/
theorem chunks_cover (hmax : 0 < E.ns.maxbpio) (fuel buf slba nlb : ℕ) (hfuel : nlb ≤ fuel) :
    ∀ c ∈ chunks E fuel buf slba nlb, 0 < c.nlb ∧ c.nlb ≤ E.ns.maxbpio ∧
      c.buf + c.nlb <<< E.ns.blockshift ≤ buf + nlb <<< E.ns.blockshift := by
  induction fuel generalizing buf slba nlb with
  | zero =>
      obtain rfl : nlb = 0 := by omega
      exact fun c hc => absurd hc List.not_mem_nil
  | succ fuel ih =>
      cases nlb with
      | zero => exact fun c hc => absurd hc List.not_mem_nil
      | succ rest =>
          rw [chunks]
          generalize hn : (if rest + 1 < E.ns.maxbpio then rest + 1 else E.ns.maxbpio) = n
          have hpos : 0 < n := by split at hn <;> omega
          have hle : n ≤ rest + 1 := by split at hn <;> omega
          have hbpio : n ≤ E.ns.maxbpio := by split at hn <;> omega
          clear hn
          have hall := ih (buf + n <<< E.ns.blockshift) ((slba + n) % 2 ^ 64) (rest + 1 - n) (by omega)
          have hsplit : n <<< E.ns.blockshift + (rest + 1 - n) <<< E.ns.blockshift
              = (rest + 1) <<< E.ns.blockshift := by
            rw [Nat.shiftLeft_eq, Nat.shiftLeft_eq, Nat.shiftLeft_eq, ← Nat.add_mul,
              Nat.add_sub_cancel' hle]
          generalize (rest + 1) <<< E.ns.blockshift = total at hsplit ⊢
          have hrest : n <<< E.ns.blockshift ≤ total := by
            rw [← hsplit]
            exact Nat.le_add_right _ _
          intro c hc
          rcases List.mem_cons.1 hc with rfl | hc
          · exact ⟨hpos, hbpio, Nat.add_le_add_left hrest buf⟩
          · obtain ⟨h1, h2, h3⟩ := hall c hc
            exact ⟨h1, h2, by omega⟩

/-- With chunks of no blocks the loop does not end. -/
theorem rwLoop_pos {d fuel buf slba nlb : ℕ} {s s' : Sys} (hnlb : 0 < nlb)
    (hr : rwLoop E d fuel buf slba nlb s = .ok () s') : 0 < E.ns.maxbpio := by
  by_contra hzero
  have hz : E.ns.maxbpio = 0 := by omega
  obtain ⟨rest, rfl⟩ : ∃ rest, nlb = rest + 1 := ⟨nlb - 1, by omega⟩
  clear hnlb
  induction fuel generalizing buf slba s with
  | zero => cases hr
  | succ fuel ih =>
      rw [rwLoop, rwLoopBy] at hr
      obtain ⟨cid, s₁, -, hrest⟩ := bind_eq_ok hr
      simp only [hz, Nat.not_lt_zero, if_false, Nat.sub_zero] at hrest
      split at hrest
      · obtain ⟨r, s₂, -, hrest⟩ := bind_eq_ok hrest
        split at hrest
        · cases hrest
        · exact ih hrest
      · exact ih hrest

/-- So a request that was cut up has chunks of at least one block. -/
theorem unvmeDoRw_pos {qid : ℤ} {opc buf slba nlb d : ℕ} {s s' : Sys} (hnlb : 0 < nlb)
    (hr : unvmeDoRw E qid opc buf slba nlb s = .ok d s') : 0 < E.ns.maxbpio := by
  unfold unvmeDoRw unvmeDoRwBy at hr
  obtain ⟨_, _, -, hr⟩ := bind_eq_ok hr
  obtain ⟨_, _, -, hr⟩ := bind_eq_ok hr
  obtain ⟨_, _, hloop, -⟩ := bind_eq_ok hr
  exact rwLoop_pos hnlb hloop

end

/-! ## Runs -/

section

variable {E : Env} {prplist : Dma} {s s' : Sys}

/-- Every state reached from `unvme_queue_init` is traced. -/
theorem Run.traced {qsize : ℕ} (hq : 2 ≤ qsize) {mem disk : ℕ → ℕ}
    (hrun : Run E Round.Legal (Sys.boot qsize prplist mem disk) s) : s.Traced E Guards.any prplist .idle := by
  induction hrun with
  | nil =>
      obtain ⟨-, -, hprp, -⟩ := Queue.setup_wf hq prplist
      exact ⟨hprp, fun call hcall => absurd hcall List.not_mem_nil,
        fun sub hsub => absurd hsub List.not_mem_nil, trivial⟩
  | round hrun r hl hd ih =>
      have hinv := (Run.boot (fun _ _ h => h) hq hrun).1
      rcases r.steps hinv hl.allowed hd with hst | ⟨mem, -, rfl⟩
      · exact (hst.invariant (fun _ _ _ _ h hstep ht => hstep.traced h ht) hinv ih).2
      · exact ih.withMemory mem _

theorem exists_right_of_mem {α β : Type} {R : α → β → Prop} {as : List α} {bs : List β}
    (h : List.Forall₂ R as bs) {a : α} (ha : a ∈ as) : ∃ b ∈ bs, R a b := by
  induction h with
  | nil => cases ha
  | cons hab _ ih =>
      rcases List.mem_cons.1 ha with rfl | ha
      · exact ⟨_, List.mem_cons_self, hab⟩
      · obtain ⟨b, hb, hr⟩ := ih ha
        exact ⟨b, List.mem_cons_of_mem _ hb, hr⟩

theorem exists_left_of_mem {α β : Type} {R : α → β → Prop} {as : List α} {bs : List β}
    (h : List.Forall₂ R as bs) {b : β} (hb : b ∈ bs) : ∃ a ∈ as, R a b :=
  exists_right_of_mem h.flip hb

end

end Unvme.Core
