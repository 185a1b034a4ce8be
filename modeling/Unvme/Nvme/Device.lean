import Unvme.Nvme.CompletionRing

set_option autoImplicit false

/-! # A queue pair and the controller behind it

The submission half of `nvme_queue_t`, the completion ring, and the controller: it fetches entries
in order up to the last tail written to the doorbell, reads the PRP entries of a fetched command and
executes it at moments of its own choice, and posts completions in any order and with any status
(a success only for a command it has executed). What a command does to memory and to the medium is
the parameter `Media`.

The controller runs concurrently with the driver. A run is given by a schedule, one batch of
controller actions for every point at which the driver touches shared memory (`Device.turn`); an
action that is not possible in the current state does nothing.

`History` records what has happened. No definition of the driver or of the controller reads it. -/

namespace Unvme.Nvme

open Unvme.Lib

/-- Submission queue entry (`nvme_sq_entry_t`): the common header fields the driver sets and command
    dwords 10 to 15. The rest is zero. -/
structure SqEntry where
  opc : ℕ
  cid : ℕ
  nsid : ℕ
  prp1 : ℕ
  prp2 : ℕ
  cdw10_15 : Vector ℕ 6
  deriving DecidableEq, Repr

def nvmeCmdWrite : ℕ := 0x1

def nvmeCmdRead : ℕ := 0x2

/-- What the commands of a namespace mean: the PRP list entries a controller reads for a command,
    and the effect of executing it with those on memory and medium. -/
structure Media where
  prps : SqEntry → (ℕ → ℕ) → List ℕ
  exec : SqEntry → List ℕ → (ℕ → ℕ) → (ℕ → ℕ) → (ℕ → ℕ) × (ℕ → ℕ)

/-- A fetched command: its position in the fetch order, the entry as it was read, the PRP list
    entries once they have been read, and whether it has been executed. -/
structure Cmd where
  seq : ℕ
  entry : SqEntry
  prps : Option (List ℕ)
  done : Bool
  deriving DecidableEq, Repr

/-- An action of the controller; `i` is a position in the list of fetched commands. -/
inductive CtlAct where
  | fetch
  | loadPrps (i : ℕ)
  | execute (i : ℕ)
  | post (i cs psf : ℕ)
  deriving DecidableEq, Repr

/-- A submission: its entry, the descriptor it was issued for, the buffer its PRPs were composed
    from, and the command ids in flight at that moment. -/
structure Sub where
  entry : SqEntry
  desc : ℕ
  buf : ℕ
  bufsz : ℕ
  others : List ℕ
  deriving DecidableEq, Repr

/-- The ring counters at one moment: entries submitted, fetched, completions posted, reaped, and the
    driver's `sq_tail`. -/
structure Counters where
  submitted : ℕ
  fetched : ℕ
  posted : ℕ
  reaped : ℕ
  sqTail : ℕ
  deriving DecidableEq, Repr

/-- A composition of PRP entries by `unvme_map_prps`: its arguments and the words it stored. -/
structure PrpCall where
  cid : ℕ
  buf : ℕ
  bufsz : ℕ
  stores : List (ℕ × ℕ)
  deriving DecidableEq, Repr

/-- What has happened so far on a queue pair: all submissions in order, the entries the controller
    fetched, the completions it posted with the position of the command each is for, the number of
    completions the driver has reaped, the counters at every step, and the PRP compositions. -/
structure History where
  subs : List Sub
  fetched : List SqEntry
  posts : List (ℕ × CqEntry)
  reaped : ℕ
  trail : List Counters
  prpCalls : List PrpCall

/-- Queue pair, controller and shared memory. Memory and medium are addressed in bytes and hold
    64-bit words at multiples of 8. -/
structure Device where
  size : ℕ
  sq : ℕ → SqEntry
  sqTail : ℕ
  sqDoorbell : ℕ
  sqHead : ℕ
  cq : CqRing
  inflight : List Cmd
  mem : ℕ → ℕ
  disk : ℕ → ℕ
  sched : List (List CtlAct)
  hist : History

/-- Freshly created queue pair (`nvme_ioq_create`, `nvme_adminq_setup`) on zeroed ring memory. -/
def Device.init (size : ℕ) (mem disk : ℕ → ℕ) : Device where
  size := size
  sq := fun _ => ⟨0, 0, 0, 0, 0, Vector.replicate 6 0⟩
  sqTail := 0
  sqDoorbell := 0
  sqHead := 0
  cq := CqRing.init size
  inflight := []
  mem := mem
  disk := disk
  sched := []
  hist := ⟨[], [], [], 0, [], []⟩

/-! ## History -/

def History.submitted (h : History) : ℕ := h.subs.length

/-- The commands, by position, whose completion the driver has reaped. -/
def History.reapedSeqs (h : History) : List ℕ := (h.posts.take h.reaped).map Prod.fst

/-- The command ids of the commands submitted and not yet reaped. -/
def History.inFlight (h : History) : List ℕ :=
  ((List.range h.subs.length).filter (fun k => k ∉ h.reapedSeqs)).filterMap
    (fun k => h.subs[k]?.map (fun sub => sub.entry.cid))

def Device.counters (d : Device) : Counters :=
  ⟨d.hist.subs.length, d.hist.fetched.length, d.hist.posts.length, d.hist.reaped, d.sqTail⟩

/-- Record the counters. -/
def Device.note (d : Device) : Device :=
  { d with hist := { d.hist with trail := d.hist.trail ++ [d.counters] } }

/-! ## The controller -/

/-- Fetch the next entry, if the doorbell is ahead. -/
def Device.fetch (d : Device) : Device :=
  if d.sqHead = d.sqDoorbell then d
  else
    { d with
      sqHead := wrapSucc d.size d.sqHead
      inflight := d.inflight ++ [⟨d.hist.fetched.length, d.sq d.sqHead, none, false⟩]
      hist := { d.hist with fetched := d.hist.fetched ++ [d.sq d.sqHead] } }

/-- Read the PRP list entries of fetched command `i`. -/
def Device.loadPrps (M : Media) (d : Device) (i : ℕ) : Device :=
  { d with
    inflight := d.inflight.modify i (fun c => { c with prps := some (M.prps c.entry d.mem) }) }

/-- Execute fetched command `i` with the PRP entries it has read. -/
def Device.execute (M : Media) (d : Device) (i : ℕ) : Device :=
  match d.inflight[i]? with
  | some ⟨_, entry, some ps, _⟩ =>
      { d with
        inflight := d.inflight.modify i (fun c => { c with done := true })
        mem := (M.exec entry ps d.mem d.disk).1
        disk := (M.exec entry ps d.mem d.disk).2 }
  | _ => d

/-- Complete fetched command `i` with the given status word. -/
def Device.post (d : Device) (i cs psf : ℕ) : Device :=
  match d.inflight[i]? with
  | some c =>
      let e : CqEntry := ⟨cs, d.sqHead, 0, c.entry.cid, psf⟩
      if d.cq.canPost && (c.done || e.stat != 0) then
        { d with
          cq := d.cq.post e
          inflight := d.inflight.eraseIdx i
          hist := { d.hist with posts := d.hist.posts ++ [(c.seq, e)] } }
      else d
  | none => d

def Device.act (M : Media) (d : Device) : CtlAct → Device
  | .fetch => d.fetch.note
  | .loadPrps i => d.loadPrps M i
  | .execute i => d.execute M i
  | .post i cs psf => (d.post i cs psf).note

/-- Let the controller run its next batch of actions. -/
def Device.turn (M : Media) (d : Device) : Device :=
  match d.sched with
  | [] => d
  | acts :: rest => acts.foldl (Device.act M) { d with sched := rest }

/-! ## The driver's accesses -/

/-- Fill the entry at the tail. -/
def Device.fill (d : Device) (e : SqEntry) : Device :=
  { d with sq := Function.update d.sq d.sqTail e }.note

/-- Advance the tail and ring the doorbell. -/
def Device.submit (d : Device) (sub : Sub) : Device :=
  { d with
    sqTail := wrapSucc d.size d.sqTail
    sqDoorbell := wrapSucc d.size d.sqTail
    hist := { d.hist with subs := d.hist.subs ++ [sub] } }.note

/-- A completion has been reaped. -/
def Device.reap (d : Device) : Device :=
  { d with hist := { d.hist with reaped := d.hist.reaped + 1 } }.note

/-- Store the words of a PRP list. -/
def Device.storePrps (d : Device) (call : PrpCall) : Device :=
  { d with
    mem := call.stores.foldl (fun m s => Function.update m s.1 s.2) d.mem
    hist := { d.hist with prpCalls := d.hist.prpCalls ++ [call] } }

end Unvme.Nvme
