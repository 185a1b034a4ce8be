import Unvme.Lib.DList
import Unvme.Lib.Wp
import Unvme.Session.PciName

set_option autoImplicit false

/-! # Opening and closing sessions (`unvme_do_open`, `unvme_do_close`)

A session is one open namespace. All sessions of the process are on one circular list, the sessions
of one PCI device share a device context, and both functions run under the writer lock `unvme_lock`.
What the controllers answer is the parameter `Host`. The DMA region that the queues of a new device are
in, and its registers, are mapped for the process: `aurora_pci.c` remembers one of each. -/

namespace Unvme.Session

open Unvme.Lib

/-- The identify page of a namespace, as far as it is read. -/
structure IdNs where
  ncap : ℕ
  lbads : ℕ
  deriving DecidableEq, Repr

/-- A controller: its capabilities (`maxqsize`, `pageshift`), its identify page (`nn`, `mdts`), the
    numbers of queues it supports (zero based), whether the admin queue and `qcount` I/O queues can be
    set up on it, and its answer to an identify command for a namespace id (0 gives the controller's
    own page), `none` being an error status. -/
structure Ctlr where
  maxqsize : ℕ
  pageshift : ℕ
  nn : ℕ
  mdts : ℕ
  nsq : ℕ
  ncq : ℕ
  admin : Bool
  queues : ℕ → Bool
  identify : ℕ → Option IdNs

/-- The controllers by PCI id (as `u32`), and whether the log file can be created. -/
structure Host where
  ctlr : ℕ → Ctlr
  log : Bool

/-- Namespace attributes (`unvme_ns_t`). -/
structure UnvmeNs where
  pci : ℕ
  id : ℕ
  device : String
  blockcount : ℕ
  pagecount : ℕ
  blocksize : ℕ
  pagesize : ℕ
  blockshift : ℕ
  pageshift : ℕ
  bpshift : ℕ
  nbpp : ℕ
  maxbpio : ℕ
  maxppio : ℕ
  maxiopq : ℕ
  nscount : ℕ
  qcount : ℕ
  maxqcount : ℕ
  qsize : ℕ
  maxqsize : ℕ
  deriving DecidableEq, Repr

/-- Device context (`unvme_device_t`); `region` is where its queues are, `deleted` counts how often it
    was torn down. -/
structure Device where
  pci : ℤ
  refcount : ℤ
  ns : UnvmeNs
  region : ℕ
  deleted : ℕ

/-- Session context (`unvme_session_t`) without its list pointers. -/
structure UnvmeSession where
  dev : ℕ
  ns : UnvmeNs

/-- The state of the library: lock word, session list, sessions and devices allocated so far, DMA regions
    and log. The regions are numbered from 1 as they are mapped, each with the registers that are mapped
    after it; `vemva` (with `vehva`) is the last one, 0 at first. -/
structure World where
  lock : ℕ
  unvmeSes : Option ℕ
  links : Links ℕ
  session : ℕ → UnvmeSession
  nses : ℕ
  device : ℕ → Device
  ndev : ℕ
  vemva : ℕ
  mapped : ℕ → Bool
  logOpen : Bool
  logCount : ℕ

/-- Why a call does not return: no log file (`exit`), a fatal error (`FATAL`, `errx`), a wait that does
    not end, or a store to memory that is not mapped. -/
inductive Halt where
  | noLog
  | fatal
  | hang
  | segv
  deriving DecidableEq, Repr

/-- A library function. -/
abbrev SesM := EStateM Halt World

/-! ## Lock and log -/

/-- UNVME_LOCKWBIT -/
def unvmeLockwbit : ℕ := 0x80000000

/-- Acquire the write lock. Calls are made one after the other, so a lock that is held is never
    released. -/
def unvmeLockw : SesM Unit := do
  let w ← get
  if w.lock = 0 then set { w with lock := unvmeLockwbit } else throw .hang

def unvmeUnlockw : SesM Unit := modify fun w => { w with lock := w.lock % unvmeLockwbit }

/-- Open log file; only the first call creates it. -/
def logOpen (H : Host) : SesM Unit := do
  let w ← get
  if w.logOpen || H.log then set { w with logOpen := true, logCount := w.logCount + 1 }
  else throw .noLog

/-- The first session opens the log. -/
def openLog (H : Host) : SesM Unit := do
  let w ← get
  if w.unvmeSes = none then logOpen H else pure ()

/-- Close the log file; only the last close will effectively close it. -/
def logClose : SesM Unit := modify fun w =>
  if 0 < w.logCount then
    { w with logCount := w.logCount - 1, logOpen := w.logOpen && w.logCount != 1 }
  else w

/-! ## Namespaces -/

/-- `%0nx` -/
def hexPad (n x : ℕ) : String :=
  let ds := Nat.toDigits 16 x
  String.ofList (List.replicate (n - ds.length) '0' ++ ds)

/-- Controller namespace (id 0) of a new device. From an `mdts` of 33 on the shift count of
    `2 << (mdts - 1)` is one C does not define (x86 masks it); here the bits are shifted out. -/
def ctlrNs (c : Ctlr) (pci qcount : ℤ) : UnvmeNs :=
  let pagesize : ℕ := 2 ^ c.pageshift % 2 ^ 16
  -- limit to 1 PRP list page per IO submission
  let maxppio : ℕ := pagesize / 8
  let mp : ℤ := wrap32 (2 * 2 ^ (c.mdts - 1))
  let maxqcount := min c.nsq c.ncq + 1
  { pci := toU32 pci
    id := 0
    device := hexPad 2 (toU32 (pci / 2 ^ 16)) ++ ":" ++ hexPad 2 (pci / 2 ^ 8 % 256).toNat ++ "." ++
      hexPad 1 (pci % 256).toNat
    blockcount := 0
    pagecount := 0
    blocksize := 0
    pagesize := pagesize
    blockshift := 0
    pageshift := c.pageshift
    bpshift := 0
    nbpp := 0
    maxbpio := 0
    maxppio := if c.mdts ≠ 0 ∧ mp < maxppio then toU16 mp else maxppio
    maxiopq := 0
    nscount := c.nn % 2 ^ 16
    qcount := if qcount ≤ 0 then maxqcount else qcount.toNat
    maxqcount := maxqcount
    qsize := 256
    maxqsize := c.maxqsize }

/-- Initialize a namespace instance; a failed identify command is fatal. -/
def unvmeNsInit (c : Ctlr) (ns : UnvmeNs) (nsid : ℤ) : SesM UnvmeNs :=
  match c.identify (toU32 nsid) with
  | none => throw .fatal
  | some idns =>
      let bpshift := toU16 (ns.pageshift - idns.lbads)
      pure { ns with
        id := toU16 nsid
        maxiopq := toU16 (ns.qsize - 1)
        blockcount := idns.ncap
        blockshift := idns.lbads
        blocksize := 2 ^ idns.lbads % 2 ^ 16
        bpshift := bpshift
        nbpp := 2 ^ bpshift % 2 ^ 16
        pagecount := idns.ncap >>> bpshift
        maxbpio := (ns.maxppio <<< bpshift) % 2 ^ 16
        device := ns.device ++ "/" ++ toString nsid }

/-! ## Open and close -/

/-- The search for an open session of the device: round the list from `unvme_ses` to the first session
    with this PCI id. -/
def World.findPci (w : World) (pci : ℤ) : Option (Option ℕ) :=
  match w.unvmeSes with
  | none => some none
  | some h =>
      ringFind w.links.next (fun x => (w.session x).ns.pci == toU32 pci) h (w.nses + 1) h

/-- `vfio_create` and `nvme_create`: a new DMA region (`aurora_init`), which takes the place of the one
    before, and the controller's registers (`aurora_map`). -/
def vfioCreate : SesM Unit := modify fun w =>
  { w with vemva := w.vemva + 1, mapped := Function.update w.mapped (w.vemva + 1) true }

/-- A new device context for the controller, with its queues. -/
def createDevice (c : Ctlr) (pci qcount : ℤ) : SesM ℕ := do
  let w ← get
  let ns := ctlrNs c pci qcount
  if c.queues ns.qcount then
    set { w with
      device := Function.update w.device w.ndev ⟨pci, 0, ns, w.vemva, 0⟩
      ndev := w.ndev + 1 }
    pure w.ndev
  else throw .fatal

/-- Allocate a new session of device `dev`. -/
def addSession (c : Ctlr) (dev : ℕ) (nsid : ℤ) : SesM ℕ := do
  let w ← get
  let d := w.device dev
  set { w with device := Function.update w.device dev { d with refcount := d.refcount + 1 } }
  let ns ← unvmeNsInit c d.ns nsid
  let w ← get
  let x := w.nses
  let added := listAdd w.unvmeSes x w.links
  set { w with
    session := Function.update w.session x ⟨dev, ns⟩
    nses := w.nses + 1
    unvmeSes := added.1
    links := added.2 }
  pure x

/-- Open and attach to a UNVMe driver. Returns the session, or `none` for NULL; the two returns of NULL
    in the middle leave the lock as it is. -/
def unvmeDoOpen (H : Host) (pci nsid qcount _qsize : ℤ) : SesM (Option ℕ) := do
  unvmeLockw
  openLog H
  let w ← get
  -- check for existing opened device
  match w.findPci pci with
  | none => throw .hang
  | some (some x) => do
      let ns := (w.session x).ns
      if (ns.nscount : ℤ) < nsid then pure none
      else if (ns.id : ℤ) = nsid then pure none
      else do
        let ses ← addSession (H.ctlr (toU32 pci)) (w.session x).dev nsid
        unvmeUnlockw
        pure (some ses)
  | some none => do
      let c := H.ctlr (toU32 pci)
      vfioCreate
      if c.admin = false then throw .fatal
      else if c.nn < toU32 nsid then pure none
      else do
        let dev ← createDevice c pci qcount
        let ses ← addSession c dev nsid
        unvmeUnlockw
        pure (some ses)

/-- Open a client session with specified number of IO queues and queue size. -/
def unvmeOpenq (H : Host) (pciname : String) (qcount qsize : ℤ) : SesM (Option ℕ) :=
  if qcount < 0 ∨ qsize < 0 ∨ qsize = 1 then pure none
  else
    match parsePciName pciname with
    | none => pure none
    | some (pci, nsid) => unvmeDoOpen H pci nsid qcount qsize

/-- `unvme_ioq_delete` and `unvme_adminq_delete`: the commands are written to the admin queue of the
    device, and their status is not looked at. What becomes of the blocks is told with the allocator. -/
def deleteQueues (d : Device) : SesM Unit := do
  let w ← get
  if w.mapped d.region then pure () else throw .segv

/-- `vfio_delete`: `aurora_release` gives back the registers and the region that were mapped last. -/
def vfioDelete : SesM Unit := do
  let w ← get
  if w.mapped w.vemva then set { w with mapped := Function.update w.mapped w.vemva false }
  else throw .fatal

/-- Tear down device `dev`, and free its context. -/
def deleteDevice (dev : ℕ) : SesM Unit := do
  let w ← get
  deleteQueues (w.device dev)
  vfioDelete
  modify fun w =>
    let d := w.device dev
    { w with device := Function.update w.device dev { d with deleted := d.deleted + 1 } }

/-- One session less: the last one takes the device with it. -/
def putDevice (dev : ℕ) : SesM Unit := do
  let w ← get
  let d := w.device dev
  set { w with device := Function.update w.device dev { d with refcount := d.refcount - 1 } }
  if d.refcount - 1 = 0 then deleteDevice dev else pure ()

/-- Clean up. -/
def unvmeCleanup (x : ℕ) : SesM Unit := do
  let w ← get
  putDevice (w.session x).dev
  modify fun w =>
    let deleted := listDel w.unvmeSes x w.links
    { w with unvmeSes := deleted.1, links := deleted.2 }
  let w ← get
  if w.unvmeSes = none then logClose else pure ()

/-- Close and detach from a UNVMe driver. Returns 0 if ok else -1. -/
def unvmeDoClose (x : ℕ) : SesM ℤ := do
  let w ← get
  let ses := w.session x
  if ses.ns.pci ≠ toU32 (w.device ses.dev).pci then pure (-1)
  else do
    unvmeLockw
    unvmeCleanup x
    unvmeUnlockw
    pure 0

/-- Close a client session. -/
def unvmeClose (x : ℕ) : SesM ℤ := unvmeDoClose x

/-- The library before the first call. -/
def World.init : World where
  lock := 0
  unvmeSes := none
  links := ⟨id, id⟩
  session := fun _ => ⟨0, ⟨0, 0, "", 0, 0, 0, 0, 0, 0, 0, 0, 0, 0, 0, 0, 0, 0, 0, 0⟩⟩
  nses := 0
  device := fun _ => ⟨0, 0, ⟨0, 0, "", 0, 0, 0, 0, 0, 0, 0, 0, 0, 0, 0, 0, 0, 0, 0, 0⟩, 0, 0⟩
  ndev := 0
  vemva := 0
  mapped := fun _ => false
  logOpen := false
  logCount := 0

/-- The open sessions, in list order. -/
def World.sessions (w : World) : List ℕ := ringNodes w.links.next w.unvmeSes w.nses

end Unvme.Session
