import Unvme.Lib.Cells
import Unvme.Nvme.Device
import Unvme.Nvme.Prp

set_option autoImplicit false

/-! # The medium of a namespace

What a controller does for a read or write command, by the rules of the command set: the transfer is of
the blocks named in dwords 10 to 12, the bytes of memory are those the PRP entries describe, and the data
are moved byte by byte. Medium and memory have one cell for every byte; a PRP list entry is a 64-bit word
and stands in the cell of its first byte. `host` gives the cell of a DMA address. -/

namespace Unvme.Nvme

open Unvme.Lib

/-- The number of bytes of a read or write: dword 12 holds the number of blocks less one. -/
def SqEntry.dataLen (blockshift : ℕ) (e : SqEntry) : ℕ := (e.cdw10_15.getD 2 0 % 2 ^ 16 + 1) <<< blockshift

/-- Where the blocks start on the medium: dwords 10 and 11 hold the first block. -/
def SqEntry.dataPos (blockshift : ℕ) (e : SqEntry) : ℕ :=
  (e.cdw10_15.getD 0 0 + 2 ^ 32 * e.cdw10_15.getD 1 0) <<< blockshift

/-- The DMA addresses of a transfer, given the entries of the pages after the first; nothing if one of
    them is not a page base. -/
def pagesBytes (ps prp1 len : ℕ) (pages : List ℕ) : Option (List ℕ) :=
  if pages.all (fun p => p % ps == 0) then
    let first := ps - prp1 % ps
    some (List.range' prp1 (min len first) ++ pageBytes ps pages (len - first))
  else none

/-- The medium of a namespace with pages of `ps` bytes and blocks of `2 ^ blockshift`. A command whose
    PRP entries cannot be used moves nothing. -/
def blockMedia (ps blockshift : ℕ) (host : ℕ → ℕ) : Media where
  prps e mem := (furtherPages e.prp2 (fun a => some (mem (host a)))
    (pagesTouched ps e.prp1 (e.dataLen blockshift) - 1)).getD []
  exec e pages mem disk :=
    match pagesBytes ps e.prp1 (e.dataLen blockshift) pages with
    | none => (mem, disk)
    | some bytes =>
        let cells := bytes.map host
        let blocks := List.range' (e.dataPos blockshift) (e.dataLen blockshift)
        if e.opc = nvmeCmdWrite then (mem, storeAll disk blocks (cells.map mem))
        else if e.opc = nvmeCmdRead then (storeAll mem cells (blocks.map disk), disk)
        else (mem, disk)

/-- A controller that keeps to the transfers of its commands: it finds the pages after the first by PRP
    entry 2 and the list in memory, and writes only bytes of the pages it has found. For a command it moves
    `len` bytes. -/
structure Media.KeepsTo (M : Media) (ps : ℕ) (host : ℕ → ℕ) (len : SqEntry → ℕ) : Prop where
  prps : ∀ e mem, M.prps e mem = (furtherPages e.prp2 (fun a => some (mem (host a)))
    (pagesTouched ps e.prp1 (len e) - 1)).getD []
  exec : ∀ e pages mem disk a,
    (∀ bytes, pagesBytes ps e.prp1 (len e) pages = some bytes → a ∉ bytes.map host) →
      (M.exec e pages mem disk).1 a = mem a

/-! ## Reading the entries -/

section

variable {ps prp1 prp2 len : ℕ} {list : ℕ → Option ℕ}

/-- Reading a transfer is reading the entries and then taking their bytes. -/
theorem prpBytes_eq_bind : prpBytes ps prp1 prp2 list len
    = (furtherPages prp2 list (pagesTouched ps prp1 len - 1)).bind (pagesBytes ps prp1 len) := rfl

/-- A controller that keeps to the transfers reads for a command the pages that its entries give. -/
theorem Media.KeepsTo.reads {M : Media} {host : ℕ → ℕ} {len : SqEntry → ℕ} (h : M.KeepsTo ps host len)
    {e : SqEntry} {mem : ℕ → ℕ} {bytes : List ℕ}
    (hb : prpBytes ps e.prp1 e.prp2 (fun a => some (mem (host a))) (len e) = some bytes) :
    pagesBytes ps e.prp1 (len e) (M.prps e mem) = some bytes := by
  rw [prpBytes_eq_bind, Option.bind_eq_some_iff] at hb
  obtain ⟨pages, hpages, hbytes⟩ := hb
  rw [h.prps, hpages, Option.getD_some]
  exact hbytes

end

/-! ## Executing a command -/

section

variable {ps blockshift : ℕ} {host : ℕ → ℕ} {e : SqEntry} {pages : List ℕ} {mem disk : ℕ → ℕ}
  {buf addr : ℕ}

/-- A write whose entries describe the cells from `buf` on copies them to the medium. -/
theorem blockMedia_write (hopc : e.opc = nvmeCmdWrite)
    (hpages : pagesBytes ps e.prp1 (e.dataLen blockshift) pages
      = some (List.range' addr (e.dataLen blockshift)))
    (hhost : (List.range' addr (e.dataLen blockshift)).map host
      = List.range' buf (e.dataLen blockshift)) :
    (blockMedia ps blockshift host).exec e pages mem disk
      = (mem, copyCells mem buf disk (e.dataPos blockshift) (e.dataLen blockshift)) := by
  simp only [blockMedia, hpages, hhost, if_pos hopc, storeAll_range']

/-- A read copies the blocks to them. -/
theorem blockMedia_read (hopc : e.opc = nvmeCmdRead)
    (hpages : pagesBytes ps e.prp1 (e.dataLen blockshift) pages
      = some (List.range' addr (e.dataLen blockshift)))
    (hhost : (List.range' addr (e.dataLen blockshift)).map host
      = List.range' buf (e.dataLen blockshift)) :
    (blockMedia ps blockshift host).exec e pages mem disk
      = (copyCells disk (e.dataPos blockshift) mem buf (e.dataLen blockshift), disk) := by
  have hne : e.opc ≠ nvmeCmdWrite := by
    rw [hopc]
    decide
  simp only [blockMedia, hpages, hhost, if_neg hne, if_pos hopc, storeAll_range']

/-- The medium keeps to the transfers. -/
theorem blockMedia_keepsTo (ps blockshift : ℕ) (host : ℕ → ℕ) :
    (blockMedia ps blockshift host).KeepsTo ps host (SqEntry.dataLen blockshift) := by
  refine ⟨fun e mem => rfl, fun e pages mem disk a ha => ?_⟩
  simp only [blockMedia]
  split
  · rfl
  · next bytes hbytes =>
      have hout := ha bytes hbytes
      split
      · rfl
      · split
        · exact storeAll_of_not_mem hout
        · rfl

/-- Reading the entries of a command from memory. -/
theorem blockMedia_prps
    (hp : furtherPages e.prp2 (fun a => some (mem (host a)))
      (pagesTouched ps e.prp1 (e.dataLen blockshift) - 1) = some pages) :
    (blockMedia ps blockshift host).prps e mem = pages := by
  simp only [blockMedia, hp, Option.getD_some]

end

end Unvme.Nvme
