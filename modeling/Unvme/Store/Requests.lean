import Unvme.Core.Chunks
import Unvme.Store.Transfers

set_option autoImplicit false

/-! # The chunks of a request

A request for a block of the allocator is cut into chunks of `maxbpio` blocks. Each of them starts on a page
(or all of the request lies within one), fits one PRP list page, and moves a part of the request; together
they are all of it. -/

namespace Unvme.Store

open Unvme.Lib Unvme.Nvme Unvme.Core Unvme.Aurora

section

variable {E : Env} {Q : BlockQueue E} {buf slba nlb off : ℕ} {c : Chunk}

/-! ## The page of a chunk -/

theorem BlockQueue.page_pos (Q : BlockQueue E) : 0 < E.ns.pagesize := by
  rw [Q.pagesize]
  exact Nat.two_pow_pos _

/-- The lists lie in the region, so the list of a command id has a 64-bit address. -/
theorem BlockQueue.slot_lt (Q : BlockQueue E) {cid : ℕ} (hcid : cid < Q.qsize) :
    Q.prplist.addr + cid <<< E.ns.pageshift < 2 ^ 64 := by
  have hstart := Q.list.start
  have hinside := Q.list.inside
  have hspace := E.inSpace
  have hlist := Q.listSize
  have hmul := Nat.mul_le_mul_right (2 ^ E.ns.pageshift) (Nat.le_of_lt hcid)
  rw [Nat.shiftLeft_eq] at hlist ⊢
  rw [Q.list.addr, Env.dma]
  generalize cid * 2 ^ E.ns.pageshift = o at hmul ⊢
  generalize Q.qsize * 2 ^ E.ns.pageshift = n at hmul hlist
  omega

/-- Pages of less than 64 KB. -/
theorem BlockQueue.pageshift_le (Q : BlockQueue E) : E.ns.pageshift ≤ 15 := by
  have hlt := Q.pagesize16
  rw [Q.pagesize, Nat.pow_lt_pow_iff_right (by decide)] at hlt
  exact Nat.le_of_lt_succ hlt

/-- A full chunk is `maxppio` pages. -/
theorem BlockQueue.maxbpio_bytes (Q : BlockQueue E) :
    E.ns.maxbpio <<< E.ns.blockshift = Q.maxppio * E.ns.pagesize := by
  rw [Q.maxbpio, Q.pagesize, ← Nat.shiftLeft_add, Nat.sub_add_cancel Q.blockshift, Nat.shiftLeft_eq]

/-- A chunk of a request for a block starts on a page, or lies within one. -/
theorem BlockQueue.chunk_page (Q : BlockQueue E) {b : Span} (hb : ClientBlock E b)
    (hlen : nlb <<< E.ns.blockshift ≤ b.size) (hc : ChunkAt E b.start slba nlb off c) :
    E.dma c.buf % E.ns.pagesize = 0 ∨
      E.dma c.buf % E.ns.pagesize + c.nlb <<< E.ns.blockshift ≤ E.ns.pagesize := by
  rw [Q.pagesize]
  refine hc.page hb hlen ?_ ?_
  · refine (Nat.pow_dvd_pow 2 (Nat.min_le_left _ _)).trans ?_
    rw [← Q.pagesize]
    exact Nat.dvd_of_mod_eq_zero Q.pciVhsaa
  · rw [Q.maxbpio_bytes, Q.pagesize]
    exact Nat.dvd_mul_left _ _

/-! ## The bytes of a chunk -/

/-- **The PRP entries of a chunk describe its buffer.** -/
theorem BlockQueue.chunk_describes {b : Span} (hb : ClientBlock E b) (hlen : nlb <<< E.ns.blockshift ≤ b.size)
    (hc : ChunkAt E b.start slba nlb off c) : Q.Describes c.buf (E.ns.bufsz c.nlb) := by
  obtain ⟨hin, hbufsz⟩ := hc.bytes hb hlen
  have hpage := Q.chunk_page hb hlen hc
  have hpos := Q.page_pos
  have hmax : maxSize = 2 ^ 35 := by decide
  have hspace := E.inSpace
  -- a chunk is at most `maxppio` pages
  have hppio : c.nlb <<< E.ns.blockshift ≤ E.ns.pagesize / 8 * E.ns.pagesize := by
    have hle : c.nlb <<< E.ns.blockshift ≤ E.ns.maxbpio <<< E.ns.blockshift := by
      rw [Nat.shiftLeft_eq, Nat.shiftLeft_eq]
      exact Nat.mul_le_mul_right _ hc.le
    rw [Q.maxbpio_bytes] at hle
    exact hle.trans (Nat.mul_le_mul_right _ Q.onePage)
  -- it lies in the region
  obtain ⟨i, -, -, k, hstart⟩ := hb.block
  have hlo : E.vemva ≤ b.start := by
    have hstart' : b.start = E.vemva + k * b.size := hstart
    rw [hstart']
    exact Nat.le_add_right _ _
  have hinside := hb.inside
  have hsize := hb.size_le
  have hbuf := hc.buf
  rw [hbufsz]
  generalize c.nlb <<< E.ns.blockshift = len at hin hpage hppio ⊢
  generalize off <<< E.ns.blockshift = o at hin hbuf
  generalize nlb <<< E.ns.blockshift = n at hin hlen
  have hend : E.vemva ≤ c.buf ∧ c.buf + len ≤ E.vemva + maxSize ∧ len ≤ 2 ^ 21 := by omega
  clear hin hlen hbuf hlo hinside hsize hstart
  obtain ⟨hlo, hhi, hlen⟩ := hend
  have hnum : E.ns.numpages len = ((len + E.ns.pagesize - 1) / E.ns.pagesize : ℕ) := by
    have heq := Ns.numpages_eq Q.pagesize len
    rw [← Q.pagesize] at heq
    have hpagele := Q.pagesize16
    refine heq (by omega) ?_
    have hmul := Nat.le_mul_of_pos_right len hpos
    have hlt : (len + E.ns.pagesize - 1) / E.ns.pagesize < len + 1 := by
      rw [Nat.div_lt_iff_lt_mul hpos, Nat.succ_mul]
      omega
    omega
  refine ⟨hlo, by omega, ?_, ?_⟩
  · unfold Ns.FitsList
    have hcount : (len + E.ns.pagesize - 1) / E.ns.pagesize ≤ E.ns.pagesize / 8 := by
      rw [Nat.div_le_iff_le_mul_add_pred hpos, Nat.mul_comm]
      omega
    rw [hnum]
    have hcast : ((2 ^ E.ns.pageshift / 8 : ℕ) : ℤ) = 2 ^ E.ns.pageshift / 8 := by push_cast; rfl
    rw [← hcast, ← Q.pagesize]
    exact Or.inr ⟨Q.pageshift_le, by omega⟩
  · intro cid hcid hcid16 prp1 prp2 words hprps
    rcases hpage with halign | hone
    · refine composePrps_cover hprps hpos Q.pageshift_le hcid16 Q.list (fun _ => Q.slot_lt hcid) hnum
        ?_ halign
      unfold Env.dma
      omega
    · refine composePrps_cover_one hprps hpos hnum ?_ hone
      rw [← Nat.lt_succ_iff, Nat.div_lt_iff_lt_mul hpos]
      omega

theorem rwEntry_dataPos {opc cid nsid slba nlb prp1 prp2 blockshift : ℕ} (hslba : slba < 2 ^ 64) :
    (rwEntry opc cid nsid slba nlb prp1 prp2).dataPos blockshift = slba <<< blockshift := by
  have hjoin : slba % 2 ^ 32 + 2 ^ 32 * (slba / 2 ^ 32 % 2 ^ 32) = slba := by omega
  have hlow : (rwEntry opc cid nsid slba nlb prp1 prp2).cdw10_15.getD 0 0 = slba % 2 ^ 32 := by
    simp [rwEntry, Vector.getD]
  have hhigh : (rwEntry opc cid nsid slba nlb prp1 prp2).cdw10_15.getD 1 0 = slba / 2 ^ 32 % 2 ^ 32 := by
    simp [rwEntry, Vector.getD]
  rw [SqEntry.dataPos, hlow, hhigh, hjoin]

/-- The entry of a chunk moves its part of the request. -/
theorem BlockQueue.chunk_piece {b : Span} {opc : ℕ} (Q : BlockQueue E) (cid addr : ℕ) (prplist : Dma)
    (hb : ClientBlock E b) (hlen : nlb <<< E.ns.blockshift ≤ b.size)
    (hc : ChunkAt E b.start slba nlb off c) (hopc : opc = nvmeCmdRead ∨ opc = nvmeCmdWrite)
    (hrange : slba + nlb ≤ Q.blockcount) :
    Piece E.ns (request E.ns opc b.start slba nlb) (c.entry E prplist opc cid addr) c.buf
      (E.ns.bufsz c.nlb) := by
  obtain ⟨hin, hbufsz⟩ := hc.bytes hb hlen
  have hblocks := Q.blocks
  have hinside := hc.inside
  have hslba : c.slba = slba + off := by
    rw [hc.slba, Nat.mod_eq_of_lt (by omega)]
  -- the number of blocks fits into 16 bits
  have hnlb : c.nlb ≤ 2 ^ 16 := by
    have hpow : 2 ^ 9 ≤ 2 ^ E.ns.blockshift := Nat.pow_le_pow_right (by decide) Q.sector
    have hmul := Nat.mul_le_mul_left c.nlb hpow
    have hle := (Nat.le_add_left _ _).trans (hin.trans hlen)
    have hsize := hb.size_le
    rw [Nat.shiftLeft_eq] at hle
    omega
  refine ⟨?_, ?_, off <<< E.ns.blockshift, ?_, hc.buf, ?_⟩
  · rcases hopc with rfl | rfl
    · rfl
    · rfl
  · unfold Chunk.entry
    rw [rwEntry_dataLen hc.pos hnlb, hbufsz]
  · rw [hbufsz]
    exact hin
  · unfold Chunk.entry
    rw [rwEntry_dataPos (by omega), hslba, Nat.shiftLeft_eq, Nat.add_mul, ← Nat.shiftLeft_eq,
      ← Nat.shiftLeft_eq]
    rfl

end

end Unvme.Store
