import Unvme.Aurora.Dma
import Unvme.Core.PrpCover
import Unvme.Nvme.Medium

set_option autoImplicit false

/-! # Buffers and chunks

Clients have blocks of the allocator. A read or write for such a block is cut into chunks of `maxbpio`
blocks, and each of them starts on a page, or all of the request lies within one. -/

namespace Unvme.Core

open Unvme.Lib Unvme.Nvme Unvme.Aurora

/-! ## Cells -/

/-- The cell of a DMA address: the process sees the region at `vemva`, the controller at `pci_vhsaa`. -/
def host (E : Env) (a : ℕ) : ℕ := E.vemva + (a - E.pciVhsaa)

section

variable {E : Env}

theorem host_dma {a : ℕ} (h : E.vemva ≤ a) : host E (E.dma a) = a := by
  unfold host Env.dma
  omega

theorem map_host {buf : ℕ} (len : ℕ) (h : E.vemva ≤ buf) :
    (List.range' (E.dma buf) len).map (host E) = List.range' buf len := by
  induction len generalizing buf with
  | zero => rfl
  | succ len ih =>
      have hnext : E.dma buf + 1 = E.dma (buf + 1) := by
        unfold Env.dma
        omega
      rw [List.range'_succ, List.range'_succ, List.map_cons, host_dma h, hnext, ih (by omega)]

/-- A word of the list stands where the controller looks for it. -/
theorem storedAt_host {words : List (ℕ × ℕ)} {m : ℕ → ℕ} (h : ∀ st ∈ words, E.vemva ≤ st.1 ∧ m st.1 = st.2)
    {a v : ℕ} (ha : storedAt E words a = some v) : some (m (host E a)) = some v := by
  unfold storedAt at ha
  obtain ⟨st, hst, rfl⟩ := Option.map_eq_some_iff.1 ha
  have hdma := List.find?_some hst
  rw [beq_iff_eq] at hdma
  obtain ⟨hlo, hm⟩ := h st (List.mem_of_find?_eq_some hst)
  rw [← hdma, host_dma hlo, hm]

end

/-! ## Blocks of a client -/

/-- DMA memory of a client: a block of the allocator in the region of the process. -/
structure ClientBlock (E : Env) (b : Span) : Prop where
  block : IsBlock (dmaRegion E) b
  inside : b.start + b.size ≤ E.vemva + maxSize

/-- What the allocator hands out. -/
theorem ClientBlock.of_live {E : Env} {A : Pool} (h : A.Ok (dmaRegion E)) {b : Span} (hb : b ∈ A.live) :
    ClientBlock E b := by
  obtain ⟨i, -, hsize, -⟩ := h.block_of_live hb
  have hpos := blockSize_pos i
  have hlast : b.start + b.size - 1 ∈ b.bytes := by
    rw [Span.mem_bytes]
    omega
  have hin := Span.mem_bytes.1 (h.tiles.sub (Pool.Ok.mem_spans_live hb) hlast)
  refine ⟨h.block_of_live hb, ?_⟩
  have hend : b.start + b.size - 1 < E.vemva + maxSize := hin.2
  omega

/-! ## Cutting -/

/-- Chunk `c` starts `off` blocks into a request. -/
structure ChunkAt (E : Env) (buf slba nlb off : ℕ) (c : Chunk) : Prop where
  buf : c.buf = buf + off <<< E.ns.blockshift
  slba : c.slba = (slba + off) % 2 ^ 64
  inside : off + c.nlb ≤ nlb
  pos : 0 < c.nlb
  le : c.nlb ≤ E.ns.maxbpio
  start : E.ns.maxbpio ∣ off

section

variable {E : Env} {buf slba nlb off : ℕ} {c : Chunk}

/-- The chunks from block `off` on are parts of the request, and every block from there on is in one. -/
theorem chunks_parts (hmax : 0 < E.ns.maxbpio) (buf slba off fuel rest : ℕ) (hfuel : rest ≤ fuel)
    (hoff : rest = 0 ∨ E.ns.maxbpio ∣ off) (hnlb : off + rest = nlb) :
    (∀ c ∈ chunks E fuel (buf + off <<< E.ns.blockshift) ((slba + off) % 2 ^ 64) rest,
      ∃ o, ChunkAt E buf slba nlb o c) ∧
    ∀ i, off ≤ i → i < nlb →
      ∃ c ∈ chunks E fuel (buf + off <<< E.ns.blockshift) ((slba + off) % 2 ^ 64) rest,
        ∃ o, ChunkAt E buf slba nlb o c ∧ o ≤ i ∧ i < o + c.nlb := by
  induction fuel generalizing off rest with
  | zero =>
      obtain rfl : rest = 0 := by omega
      exact ⟨fun c hc => absurd hc List.not_mem_nil, fun i hlo hhi => by omega⟩
  | succ fuel ih =>
      cases rest with
      | zero => exact ⟨fun c hc => absurd hc List.not_mem_nil, fun i hlo hhi => by omega⟩
      | succ rest =>
          have hdvd : E.ns.maxbpio ∣ off := hoff.resolve_left (Nat.succ_ne_zero rest)
          rw [chunks]
          generalize hn : (if rest + 1 < E.ns.maxbpio then rest + 1 else E.ns.maxbpio) = n
          have hpos : 0 < n := by split at hn <;> omega
          have hle : n ≤ rest + 1 := by split at hn <;> omega
          have hbpio : n ≤ E.ns.maxbpio := by split at hn <;> omega
          -- only the last chunk is shorter
          have hnext : rest + 1 - n = 0 ∨ E.ns.maxbpio ∣ off + n := by
            split at hn
            · left
              omega
            · right
              subst hn
              exact Nat.dvd_add hdvd (Nat.dvd_refl _)
          have hbuf : buf + off <<< E.ns.blockshift + n <<< E.ns.blockshift
              = buf + (off + n) <<< E.ns.blockshift := by
            rw [Nat.shiftLeft_eq, Nat.shiftLeft_eq, Nat.shiftLeft_eq, Nat.add_mul, Nat.add_assoc]
          have hslba : ((slba + off) % 2 ^ 64 + n) % 2 ^ 64 = (slba + (off + n)) % 2 ^ 64 := by
            rw [Nat.mod_add_mod, Nat.add_assoc]
          obtain ⟨hall, hcover⟩ := ih (off + n) (rest + 1 - n) (by omega) hnext (by omega)
          rw [hbuf, hslba]
          have hfirst : ChunkAt E buf slba nlb off
              ⟨buf + off <<< E.ns.blockshift, (slba + off) % 2 ^ 64, n⟩ :=
            ⟨rfl, rfl, by dsimp only; omega, hpos, hbpio, hdvd⟩
          constructor
          · intro c hc
            rcases List.mem_cons.1 hc with rfl | hc
            · exact ⟨off, hfirst⟩
            · exact hall c hc
          · intro i hlo hhi
            by_cases hi : i < off + n
            · exact ⟨_, List.mem_cons_self, off, hfirst, hlo, hi⟩
            · obtain ⟨c, hc, hat⟩ := hcover i (by omega) hhi
              exact ⟨c, List.mem_cons_of_mem _ hc, hat⟩

/-- From the start of the request. -/
theorem chunks_parts_all (hmax : 0 < E.ns.maxbpio) (hslba : slba < 2 ^ 64) :
    (∀ c ∈ chunks E nlb buf slba nlb, ∃ o, ChunkAt E buf slba nlb o c) ∧
    ∀ i < nlb, ∃ c ∈ chunks E nlb buf slba nlb,
      ∃ o, ChunkAt E buf slba nlb o c ∧ o ≤ i ∧ i < o + c.nlb := by
  have h := chunks_parts hmax buf slba 0 nlb nlb (Nat.le_refl _) (Or.inr (Nat.dvd_zero _))
    (Nat.zero_add _)
  rw [Nat.zero_shiftLeft, Nat.add_zero, Nat.add_zero, Nat.mod_eq_of_lt hslba] at h
  exact ⟨h.1, fun i hi => h.2 i (Nat.zero_le i) hi⟩

/-! ## The page of a chunk -/

/-- A block that is smaller than a page lies within one. -/
theorem within_page {s p k : ℕ} (hs : s ∣ p) (hp : 0 < p) : k * s % p + s ≤ p := by
  obtain ⟨v, rfl⟩ := hs
  obtain ⟨u, hu⟩ : s ∣ k * s % (s * v) :=
    (Nat.dvd_mod_iff (Nat.dvd_mul_right s v)).2 (Nat.dvd_mul_left s k)
  have hlt := Nat.mod_lt (k * s) hp
  rw [hu] at hlt ⊢
  have hle : u + 1 ≤ v := Nat.lt_of_mul_lt_mul_left hlt
  rw [← Nat.mul_succ]
  exact Nat.mul_le_mul_left s hle

/-- A part of a block that starts a number of pages into it starts on a page, or lies within one. No block is
    larger than 2 ^ 21. -/
theorem ClientBlock.page {b : Span} {p o len : ℕ} (hb : ClientBlock E b) (hbase : 2 ^ min p 21 ∣ E.pciVhsaa)
    (hoff : 2 ^ p ∣ o) (hin : o + len ≤ b.size) :
    E.dma (b.start + o) % 2 ^ p = 0 ∨ E.dma (b.start + o) % 2 ^ p + len ≤ 2 ^ p := by
  obtain ⟨i, hi, hsize, k, hstart⟩ := hb.block
  have hi12 : 9 + i ≤ 21 := Nat.add_le_add_left (Nat.le_of_lt_succ hi) 9
  have hstart' : b.start = E.vemva + k * b.size := hstart
  have hpow : b.size = 2 ^ (9 + i) := by
    rw [hsize, blockSize, Nat.pow_add]
  have hdma : E.dma (b.start + o) = E.pciVhsaa + (k * b.size + o) := by
    rw [hstart', Env.dma, Nat.add_assoc, Nat.add_sub_cancel_left]
  have hps : 0 < 2 ^ p := Nat.two_pow_pos p
  rw [hdma]
  rcases Nat.le_total p (9 + i) with hle | hle
  · left
    have hdvd : 2 ^ p ∣ b.size := by
      rw [hpow]
      exact Nat.pow_dvd_pow 2 hle
    rw [Nat.min_eq_left (hle.trans hi12)] at hbase
    exact Nat.mod_eq_zero_of_dvd
      (Nat.dvd_add hbase (Nat.dvd_add (Nat.dvd_mul_left_of_dvd hdvd k) hoff))
  · -- the block lies within a page, so the part is at its start or empty
    have hdvd : b.size ∣ 2 ^ p := by
      rw [hpow]
      exact Nat.pow_dvd_pow 2 hle
    obtain ⟨v, hv⟩ : b.size ∣ E.pciVhsaa := by
      rw [hpow]
      exact (Nat.pow_dvd_pow 2 (Nat.le_min.2 ⟨hle, hi12⟩)).trans hbase
    have hfit := within_page (k := v + k) hdvd hps
    rw [Nat.add_mul, Nat.mul_comm v, ← hv] at hfit
    obtain ⟨m, rfl⟩ := hoff
    right
    rcases Nat.eq_zero_or_pos m with rfl | hm
    · rw [Nat.mul_zero, Nat.add_zero]
      omega
    · have hone := Nat.le_mul_of_pos_right (2 ^ p) hm
      have hsmall := Nat.le_of_dvd hps hdvd
      have hzero : len = 0 := by omega
      rw [hzero, Nat.add_zero]
      exact (Nat.mod_lt _ hps).le

/-- A chunk of a request for a block starts on a page of `2 ^ p` bytes, or lies within one, if full chunks
    are whole pages. -/
theorem ChunkAt.page {b : Span} {p : ℕ} (hb : ClientBlock E b) (hlen : nlb <<< E.ns.blockshift ≤ b.size)
    (hc : ChunkAt E b.start slba nlb off c) (hbase : 2 ^ min p 21 ∣ E.pciVhsaa)
    (hfull : 2 ^ p ∣ E.ns.maxbpio <<< E.ns.blockshift) :
    E.dma c.buf % 2 ^ p = 0 ∨ E.dma c.buf % 2 ^ p + c.nlb <<< E.ns.blockshift ≤ 2 ^ p := by
  rw [hc.buf]
  refine hb.page hbase ?_ ?_
  · obtain ⟨m, hm⟩ := hc.start
    rw [hm, Nat.shiftLeft_eq, Nat.mul_right_comm, ← Nat.shiftLeft_eq]
    exact Nat.dvd_mul_right_of_dvd hfull m
  · refine le_trans ?_ hlen
    rw [Nat.shiftLeft_eq, Nat.shiftLeft_eq, Nat.shiftLeft_eq, ← Nat.add_mul]
    exact Nat.mul_le_mul_right _ hc.inside

/-! ## The bytes of a chunk -/

theorem ClientBlock.size_le {b : Span} (hb : ClientBlock E b) : b.size ≤ 2 ^ 21 := by
  obtain ⟨i, hi, hsize, -⟩ := hb.block
  have hle : blockSize i ≤ blockSize 12 := blockSize_le_iff.2 (Nat.le_of_lt_succ hi)
  rw [hsize]
  exact hle

/-- The length of a chunk, and that it ends inside the request. -/
theorem ChunkAt.bytes {b : Span} (hb : ClientBlock E b) (hlen : nlb <<< E.ns.blockshift ≤ b.size)
    (hc : ChunkAt E b.start slba nlb off c) :
    off <<< E.ns.blockshift + c.nlb <<< E.ns.blockshift ≤ nlb <<< E.ns.blockshift ∧
      E.ns.bufsz c.nlb = c.nlb <<< E.ns.blockshift := by
  have hmul : (off + c.nlb) <<< E.ns.blockshift ≤ nlb <<< E.ns.blockshift := by
    rw [Nat.shiftLeft_eq, Nat.shiftLeft_eq]
    exact Nat.mul_le_mul_right _ hc.inside
  have hsum : (off + c.nlb) <<< E.ns.blockshift
      = off <<< E.ns.blockshift + c.nlb <<< E.ns.blockshift := by
    rw [Nat.shiftLeft_eq, Nat.shiftLeft_eq, Nat.shiftLeft_eq, Nat.add_mul]
  rw [hsum] at hmul
  have hsize := hb.size_le
  refine ⟨hmul, ?_⟩
  unfold Ns.bufsz
  apply Nat.mod_eq_of_lt
  have hle := (Nat.le_add_left _ _).trans (hmul.trans hlen)
  omega

theorem rwEntry_dataLen {opc cid nsid slba nlb prp1 prp2 blockshift : ℕ} (hpos : 0 < nlb)
    (hle : nlb ≤ 2 ^ 16) :
    (rwEntry opc cid nsid slba nlb prp1 prp2).dataLen blockshift = nlb <<< blockshift := by
  have hcount : (nlb + 65535) % 65536 % 2 ^ 16 + 1 = nlb := by omega
  rw [SqEntry.dataLen, rwEntry_cdw12, hcount]

end

end Unvme.Core
