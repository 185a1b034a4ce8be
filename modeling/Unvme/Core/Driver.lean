import Unvme.Lib.Wp
import Unvme.Nvme.Device
import Unvme.Core.Queue

set_option autoImplicit false

/-! # The driver on one queue (`unvme_core.c`, `unvme.c`)

Submission, completion and polling, function by function. A driver function is a program over the
queue's bookkeeping and the device (`Sys`) that returns or stops the process (`Stop`). Wherever the
source touches memory that the controller also touches, the program first lets the controller run a
batch of actions of its choice (`interfere`), so a statement about every schedule is a statement
about every interleaving.

Time enters only through the deadline of the wait loop: a loop that has seen no completion gives up
when the schedule is used up. -/

namespace Unvme.Core

open Unvme.Lib Unvme.Nvme

/-- The namespace attributes the I/O path reads (`unvme_ns_t`). -/
structure Ns where
  id : ℕ
  pagesize : ℕ
  pageshift : ℕ
  blockshift : ℕ
  maxbpio : ℕ
  deriving DecidableEq, Repr

/-- MAX_SIZE, the size of the DMA region. -/
def maxSize : ℕ := 2 ^ 26 * 512

/-- What the I/O path is run against: the namespace, the base of the DMA region as the process
    (`vemva`) and as the controller (`pci_vhsaa`) see it, and the meaning of commands. The region the
    controller sees lies in its 64-bit address space, so no buffer has the address -1. -/
structure Env where
  ns : Ns
  vemva : ℕ
  pciVhsaa : ℕ
  media : Media
  inSpace : pciVhsaa + maxSize < 2 ^ 64 - 1

/-- The DMA address of a buffer; a buffer outside the region stops the process. -/
def auroraResolveAddr (E : Env) (buf : ℕ) : Except Stop ℕ :=
  if buf < E.vemva ∨ maxSize < buf - E.vemva then .error .nonIoRegion
  else .ok (E.pciVhsaa + (buf - E.vemva))

/-- A lookup of the DMA address of a buffer, from its address and size; -1 is an error. -/
abbrev Lookup := ℕ → ℕ → Except Stop ℕ

/-- Lookup DMA address associated with the user buffer. -/
def unvmeMapDma (E : Env) (buf _bufsz : ℕ) : Except Stop ℕ := auroraResolveAddr E buf

/-- A queue's bookkeeping and the device behind it. -/
structure Sys where
  q : Queue
  dev : Device

/-- A driver program. -/
abbrev Drv := EStateM Stop Sys

variable (E : Env)

/-- The controller runs. -/
def interfere : Drv Unit := modify fun s => { s with dev := s.dev.turn E.media }

/-! ## NVMe layer -/

/-- Check a completion queue and return the completed command id, status and DW0, or `none` if
    there is no completion. -/
def nvmeCheckCompletion : Drv (Option Completion) := do
  interfere E
  let s ← get
  if s.dev.cq.pending then
    let slot := s.dev.cq.cqHead
    interfere E
    let s ← get
    let stat := s.dev.cq.statAt slot
    modify fun s => { s with dev := { s.dev with cq := s.dev.cq.advance } }
    interfere E
    let s ← get
    let cs := s.dev.cq.csAt slot
    modify fun s => { s with dev := { s.dev with cq := s.dev.cq.ring } }
    interfere E
    let s ← get
    modify fun s => { s with dev := s.dev.reap }
    pure (some ⟨s.dev.cq.cidAt slot, stat, cs⟩)
  else pure none

/-- Submit an entry at submission queue tail. The command is recorded for descriptor `d`. -/
def nvmeSubmitCmd (e : SqEntry) (d buf bufsz : ℕ) : Drv ℤ := do
  modify fun s =>
    { q := s.q.setDesc d (fun x => { x with cmds := x.cmds ++ [s.dev.hist.submitted] })
      dev := s.dev.submit ⟨e, d, buf, bufsz, s.dev.hist.inFlight⟩ }
  pure 0

/-- Fill the entry at the tail and submit it. -/
def nvmeCmd (e : SqEntry) (d buf bufsz : ℕ) : Drv ℤ := do
  interfere E
  modify fun s => { s with dev := s.dev.fill e }
  interfere E
  nvmeSubmitCmd e d buf bufsz

/-- The entry of a read write command: an opcode of 8 bits, `slba` in dwords 10 and 11, `nlb - 1` in the
    low half of dword 12. -/
def rwEntry (opc cid nsid slba nlb prp1 prp2 : ℕ) : SqEntry :=
  ⟨opc % 2 ^ 8, cid, nsid, prp1, prp2,
    #v[slba % 2 ^ 32, slba / 2 ^ 32 % 2 ^ 32, (nlb + 65535) % 65536, 0, 0, 0]⟩

theorem rwEntry_cid (opc cid nsid slba nlb prp1 prp2 : ℕ) :
    (rwEntry opc cid nsid slba nlb prp1 prp2).cid = cid := rfl

theorem rwEntry_prp1 (opc cid nsid slba nlb prp1 prp2 : ℕ) :
    (rwEntry opc cid nsid slba nlb prp1 prp2).prp1 = prp1 := rfl

theorem rwEntry_prp2 (opc cid nsid slba nlb prp1 prp2 : ℕ) :
    (rwEntry opc cid nsid slba nlb prp1 prp2).prp2 = prp2 := rfl

theorem getD_two (a b c d e f x : ℕ) : #v[a, b, c, d, e, f].getD 2 x = c := rfl

/-- Dword 12 holds the number of blocks less one. -/
theorem rwEntry_cdw12 (opc cid nsid slba nlb prp1 prp2 : ℕ) :
    (rwEntry opc cid nsid slba nlb prp1 prp2).cdw10_15.getD 2 0 = (nlb + 65535) % 65536 :=
  getD_two _ _ _ _ _ _ _

/-- NVMe submit a read write command. -/
def nvmeCmdRw (opc cid nsid slba nlb prp1 prp2 d buf bufsz : ℕ) : Drv ℤ :=
  nvmeCmd E (rwEntry opc cid nsid slba nlb prp1 prp2) d buf bufsz

/-- The entry of a generic command; a null `cdw10_15` leaves zeros. -/
def vsEntry (opc cid nsid prp1 prp2 : ℕ) (cdw10_15 : Option (Vector ℕ 6)) : SqEntry :=
  ⟨opc % 2 ^ 8, cid, nsid, prp1, prp2, cdw10_15.getD (Vector.replicate 6 0)⟩

theorem vsEntry_cid (opc cid nsid prp1 prp2 : ℕ) (cdw10_15 : Option (Vector ℕ 6)) :
    (vsEntry opc cid nsid prp1 prp2 cdw10_15).cid = cid := rfl

theorem vsEntry_prp1 (opc cid nsid prp1 prp2 : ℕ) (cdw10_15 : Option (Vector ℕ 6)) :
    (vsEntry opc cid nsid prp1 prp2 cdw10_15).prp1 = prp1 := rfl

theorem vsEntry_prp2 (opc cid nsid prp1 prp2 : ℕ) (cdw10_15 : Option (Vector ℕ 6)) :
    (vsEntry opc cid nsid prp1 prp2 cdw10_15).prp2 = prp2 := rfl

/-- NVMe submit a vendor specific (i.e. generic) command. -/
def nvmeCmdVs (opc cid nsid prp1 prp2 : ℕ) (cdw10_15 : Option (Vector ℕ 6))
    (d buf bufsz : ℕ) : Drv ℤ :=
  nvmeCmd E (vsEntry opc cid nsid prp1 prp2 cdw10_15) d buf bufsz

/-! ## Completion -/

/-- The wait loop: check, and check up to `n` more times before the deadline. -/
def waitCompletion (timeout : ℤ) : ℕ → Drv (Option Completion)
  | 0 => nvmeCheckCompletion E
  | n + 1 => do
      match ← nvmeCheckCompletion E with
      | some c => pure (some c)
      | none => if timeout = 0 then pure none else waitCompletion timeout n

/-- Process an I/O completion. Returns the status (-1 means timeout) and the DW0 stored through
    `cqe_cs`, if any. -/
def unvmeCheckCompletion (timeout : ℤ) : Drv (ℤ × Option ℕ) := do
  let s ← get
  match ← waitCompletion E timeout s.dev.sched.length with
  | none => pure (-1, none)
  | some c =>
      let s ← get
      match s.q.retire c.cid c.stat with
      | .error e => throw e
      | .ok q => do
          set { s with q := q }
          pure ((c.stat : ℤ), some c.cs)

/-! ## Submission -/

/-- UNVME_TIMEOUT -/
def unvmeTimeout : ℤ := 60

def claimCid (d : ℕ) : Drv ℕ := do
  let s ← get
  match s.q.claim d with
  | .error e => throw e
  | .ok (cid, q) => do
      set { s with q := q }
      pure cid

/-- Get a free cid. If queue is full then process currently pending submissions. -/
def unvmeGetCid (d : ℕ) : Drv ℕ := do
  let s ← get
  if s.q.cidcount + 1 = s.q.size then
    let r ← unvmeCheckCompletion E unvmeTimeout
    if r.1 = -1 then throw .timeout else claimCid d
  else claimCid d

/-- A 64-bit value stored in an `int`. -/
def toInt32 (x : ℕ) : ℤ := if x % 2 ^ 32 < 2 ^ 31 then x % 2 ^ 32 else (x % 2 ^ 32 : ℕ) - 2 ^ 32

/-- `(bufsz + ns->pagesize - 1) >> ns->pageshift` in 64-bit arithmetic, stored in an `int`. -/
def Ns.numpages (ns : Ns) (bufsz : ℕ) : ℤ :=
  toInt32 (((bufsz + ns.pagesize + (2 ^ 64 - 1)) % 2 ^ 64) >>> ns.pageshift)

/-- `cid << ns->pageshift`, an `int`: the offset of the PRP list page of `cid`. -/
def Ns.prpoff (ns : Ns) (cid : ℕ) : ℤ := toInt32 (cid <<< ns.pageshift)

/-- PRP entries for a transfer at DMA address `addr`: PRP1, PRP2 and the words stored in the PRP
    list page of `cid`, all `u64`. -/
@[irreducible] def composePrps (ns : Ns) (prplist : Dma) (cid addr bufsz : ℕ) : ℕ × ℕ × List (ℕ × ℕ) :=
  let numpages := ns.numpages bufsz
  if numpages = 2 then (addr, (addr + ns.pagesize) % 2 ^ 64, [])
  else if 2 < numpages then
    let prpoff := ns.prpoff cid
    (addr, ((prplist.addr + prpoff) % 2 ^ 64).toNat,
      (List.range (numpages.toNat - 1)).map (fun i =>
        ((prplist.buf + prpoff).toNat + 8 * i, (addr + (i + 1) * ns.pagesize) % 2 ^ 64)))
  else (addr, 0, [])

/-- `(u64)nlb << ns->blockshift` -/
def Ns.bufsz (ns : Ns) (nlb : ℕ) : ℕ := (nlb <<< ns.blockshift) % 2 ^ 64

/-- Poll until descriptor `d` has no pending command ids; the last DW0 stored is passed on. -/
def pollLoop (d : ℕ) (timeout : ℤ) : ℕ → Option ℕ → Drv (ℤ × Option ℕ)
  | 0, _ => throw .hang
  | fuel + 1, cs => do
      let s ← get
      if (s.q.desc d).cidcount = 0 then pure (0, cs)
      else
        let r ← unvmeCheckCompletion E timeout
        if r.1 ≠ 0 then pure (r.1, r.2.or cs) else pollLoop d timeout fuel (r.2.or cs)

/-- Every iteration clears a bit of some descriptor. -/
def Queue.pollFuel (q : Queue) : ℕ := 8 * q.masksize * q.nalloc + 1

/-- Poll for completion status of a previous IO submission. If there's no error, the descriptor will
    be released. Returns 0 if ok else error status (-1 means timeout), and the DW0 stored. -/
def unvmeDoPoll (d : ℕ) (timeout : ℤ) : Drv (ℤ × Option ℕ) := do
  let s ← get
  if (s.q.desc d).sentinel ≠ some d then throw .badDescriptor
  else
    let r ← pollLoop E d timeout s.q.pollFuel none
    let s ← get
    if (s.q.desc d).cidcount = 0 then
      set { s with q := unvmeDescPut s.q d }
      pure r
    else pure r

/-! ## Requests

The functions that map buffers take the lookup as an argument: they are written for one that may fail,
which that of this driver (`unvmeMapDma`) does not. -/

section

variable (map : Lookup)

/-- Map the user buffer to PRP addresses (compose PRP list as necessary); `none` is -1. -/
def unvmeMapPrpsBy (cid buf bufsz : ℕ) : Drv (Option (ℕ × ℕ)) :=
  match map buf bufsz with
  | .error e => throw e
  | .ok addr =>
      if addr = 2 ^ 64 - 1 then pure none
      else do
        interfere E
        let s ← get
        let prps := composePrps E.ns s.q.prplist cid addr bufsz
        set { s with dev := s.dev.storePrps ⟨cid, buf, bufsz, prps.2.2⟩ }
        pure (some (prps.1, prps.2.1))

/-- Submit a read or write of one chunk. Returns the cid if ok else -1. -/
def unvmeSubmitIoBy (d buf slba nlb : ℕ) : Drv ℤ := do
  let cid ← unvmeGetCid E d
  match ← unvmeMapPrpsBy E map cid buf (E.ns.bufsz nlb) with
  | none => pure (-1)
  | some (prp1, prp2) => do
      let s ← get
      let rc ← nvmeCmdRw E (s.q.desc d).opc cid E.ns.id slba nlb prp1 prp2 d buf (E.ns.bufsz nlb)
      if rc ≠ 0 then pure (-1) else pure cid

/-- The chunk loop of `unvme_do_rw`; every chunk of at least one block shortens the request. -/
def rwLoopBy (d : ℕ) : ℕ → ℕ → ℕ → ℕ → Drv Unit
  | _, _, _, 0 => pure ()
  | 0, _, _, _ + 1 => throw .hang
  | fuel + 1, buf, slba, rest + 1 => do
      let nlb := rest + 1
      let n := if nlb < E.ns.maxbpio then nlb else E.ns.maxbpio
      let cid ← unvmeSubmitIoBy E map d buf slba n
      if cid < 0 then
        let r ← unvmeDoPoll E d unvmeTimeout
        if r.1 = -1 then throw .timeout
        else rwLoopBy d fuel (buf + n <<< E.ns.blockshift) ((slba + n) % 2 ^ 64) (nlb - n)
      else rwLoopBy d fuel (buf + n <<< E.ns.blockshift) ((slba + n) % 2 ^ 64) (nlb - n)

/-- Submit a read/write command that may require multiple I/O submissions and processing some
    completions. Returns the descriptor. -/
def unvmeDoRwBy (qid : ℤ) (opc buf slba nlb : ℕ) : Drv ℕ := do
  let s ← get
  let (d, q) := unvmeDescGet s.q
  set { s with q := q.setDesc d (fun x =>
    { x with opc := opc, buf := buf, qid := qid, slba := slba, nlb := nlb, sentinel := some d }) }
  rwLoopBy E map d nlb buf slba nlb
  pure d

/-- Submit a generic or vendor specific command. Returns the descriptor or `none` if error. -/
def unvmeDoCmdBy (qid : ℤ) (opc nsid buf bufsz : ℕ) (cdw10_15 : Option (Vector ℕ 6)) :
    Drv (Option ℕ) := do
  let s ← get
  let (d, q) := unvmeDescGet s.q
  set { s with q := q.setDesc d (fun x =>
    { x with opc := opc, buf := buf, qid := qid, sentinel := some d }) }
  let cid ← unvmeGetCid E d
  match ← unvmeMapPrpsBy E map cid buf bufsz with
  | none => do
      modify fun s => { s with q := unvmeDescPut s.q d }
      pure none
  | some (prp1, prp2) => do
      let rc ← nvmeCmdVs E opc cid nsid prp1 prp2 cdw10_15 d buf bufsz
      if rc ≠ 0 then
        modify fun s => { s with q := unvmeDescPut s.q d }
        pure none
      else pure (some d)

end

/-- The functions with the driver's lookup. -/
abbrev unvmeMapPrps : ℕ → ℕ → ℕ → Drv (Option (ℕ × ℕ)) := unvmeMapPrpsBy E (unvmeMapDma E)

abbrev unvmeSubmitIo : ℕ → ℕ → ℕ → ℕ → Drv ℤ := unvmeSubmitIoBy E (unvmeMapDma E)

abbrev rwLoop : ℕ → ℕ → ℕ → ℕ → ℕ → Drv Unit := rwLoopBy E (unvmeMapDma E)

abbrev unvmeDoRw : ℤ → ℕ → ℕ → ℕ → ℕ → Drv ℕ := unvmeDoRwBy E (unvmeMapDma E)

abbrev unvmeDoCmd : ℤ → ℕ → ℕ → ℕ → ℕ → Option (Vector ℕ 6) → Drv (Option ℕ) :=
  unvmeDoCmdBy E (unvmeMapDma E)

/-! ## Synchronous calls (`unvme.c`) -/

/-- Submit a generic or vendor specific command and then poll for completion. -/
def unvmeCmd (qid : ℤ) (opc nsid buf bufsz : ℕ) (cdw10_15 : Option (Vector ℕ 6)) : Drv ℤ := do
  match ← unvmeDoCmd E qid opc nsid buf bufsz cdw10_15 with
  | some d => do
      let r ← unvmeDoPoll E d unvmeTimeout
      pure r.1
  | none => pure (-1)

/-- Submit a read or write and then poll for completion. -/
def unvmeRw (qid : ℤ) (opc buf slba nlb : ℕ) : Drv ℤ := do
  let d ← unvmeDoRw E qid opc buf slba nlb
  let r ← unvmeDoPoll E d unvmeTimeout
  pure r.1

/-- Read data from specified logical blocks on device. -/
def unvmeRead (qid : ℤ) (buf slba nlb : ℕ) : Drv ℤ := unvmeRw E qid nvmeCmdRead buf slba nlb

/-- Write data to specified logical blocks on device. -/
def unvmeWrite (qid : ℤ) (buf slba nlb : ℕ) : Drv ℤ := unvmeRw E qid nvmeCmdWrite buf slba nlb

end Unvme.Core
