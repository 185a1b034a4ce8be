import Unvme.Lib.DList
import Unvme.Lib.WordMask

set_option autoImplicit false

/-! # I/O queues and descriptors (`unvme_queue_t`, `unvme_desc_t`)

The driver's bookkeeping of one queue: the pending command ids as a bit mask and a count, the
descriptors on two circular lists, and the pointer from which the search for the owner of a
completed command id starts. Descriptors are nodes of an explicit heap: a pointer is a number, the
list pointers live in `Queue.links`, the other fields in `Queue.desc`.

`unvmeDescGet` and `unvmeDescPut` are the functions of that name. `Queue.retire` is the part of
`unvme_check_completion` after its wait loop and `Queue.claim` the part of `unvme_get_cid` after the
full-queue check: both only touch this bookkeeping. The loops of the source have no counter; they
are run with as much fuel as there are nodes (or 16-bit command ids), so running out of it means
that the loop does not end. -/

namespace Unvme.Core

open Unvme.Lib

/-- Why the process stops: the `FATAL` messages and aborts, an access outside an array or through a
    null pointer, or a loop that does not end. -/
inductive Stop where
  | badDescriptor
  | cidNotFound (cid : ℕ)
  | timeout
  | nonIoRegion
  | outOfBounds
  | nullDescriptor
  | hang
  deriving DecidableEq, Repr

/-- Allocated DMA memory (`vfio_dma_t`). -/
structure Dma where
  buf : ℕ
  addr : ℕ
  size : ℕ
  deriving DecidableEq, Repr

/-- I/O descriptor (`unvme_desc_t`) without its list pointers. `cmds` is history: the positions of
    the commands submitted for the descriptor since it was last taken from the free list. -/
structure Desc where
  buf : ℕ
  slba : ℕ
  nlb : ℕ
  qid : ℤ
  opc : ℕ
  sentinel : Option ℕ
  error : ℕ
  cidcount : ℤ
  cidmask : WordMask
  cmds : List ℕ

/-- Queue context (`unvme_queue_t`) with the heap of its descriptors, of which `nalloc` have been
    allocated. -/
structure Queue where
  size : ℕ
  cid : ℕ
  cidcount : ℤ
  desccount : ℤ
  masksize : ℕ
  cidmask : WordMask
  desclist : Option ℕ
  descfree : Option ℕ
  descpend : Option ℕ
  prplist : Dma
  links : Links ℕ
  desc : ℕ → Desc
  nalloc : ℕ

/-- Update one descriptor. -/
def Queue.setDesc (q : Queue) (d : ℕ) (f : Desc → Desc) : Queue :=
  { q with desc := Function.update q.desc d (f (q.desc d)) }

@[simp] theorem Queue.setDesc_self (q : Queue) (d : ℕ) (f : Desc → Desc) :
    (q.setDesc d f).desc d = f (q.desc d) := by simp [Queue.setDesc]

theorem Queue.setDesc_of_ne {q : Queue} {d d' : ℕ} {f : Desc → Desc} (h : d' ≠ d) :
    (q.setDesc d f).desc d' = q.desc d' := by simp [Queue.setDesc, h]

/-! ## Descriptors -/

/-- A zeroed descriptor with `words` mask words. -/
def Desc.zero (words : ℕ) : Desc :=
  ⟨0, 0, 0, 0, 0, none, 0, 0, WordMask.zeros words, []⟩

/-- `desc->error = 0; desc->cidcount = 0; ... *cidmask++ = 0;` -/
def Desc.reset (words : ℕ) (x : Desc) : Desc :=
  { x with error := 0, cidcount := 0, cidmask := WordMask.zeros words, cmds := [] }

/-- Append descriptor `d` to the use list. -/
def Queue.addUsed (q : Queue) (d : ℕ) : Queue :=
  let added := listAdd q.desclist d q.links
  { q with
    desclist := added.1
    links := added.2
    descpend := if added.2.next d = d then some d else q.descpend
    desccount := q.desccount + 1 }

@[simp] theorem Queue.addUsed_desc (q : Queue) (d : ℕ) : (q.addUsed d).desc = q.desc := rfl

/-- Get a descriptor entry by moving from the free to the use list. -/
def unvmeDescGet (q : Queue) : ℕ × Queue :=
  match q.descfree with
  | some d =>
      let deleted := listDel q.descfree d q.links
      let q := { q with descfree := deleted.1, links := deleted.2 }
      (d, (q.setDesc d (Desc.reset (q.masksize >>> 3))).addUsed d)
  | none =>
      let d := q.nalloc
      let q := { q with nalloc := d + 1 }
      (d, (q.setDesc d (fun _ => Desc.zero (q.masksize >>> 3))).addUsed d)

/-- Put a descriptor entry back by moving it from the use to the free list. -/
def unvmeDescPut (q : Queue) (d : ℕ) : Queue :=
  let pend :=
    if q.descpend = some d then
      if q.links.next d ≠ d then some (q.links.next d) else none
    else q.descpend
  let deleted := listDel q.desclist d q.links
  let added := listAdd q.descfree d deleted.2
  { q with
    descpend := pend
    desclist := deleted.1
    descfree := added.1
    links := added.2
    desccount := q.desccount - 1 }

/-! ## Command ids -/

/-- `if (++cid >= qsize) cid = 0` on a 16-bit `cid`. -/
def nextCid (qsize cid : ℕ) : ℕ :=
  if qsize ≤ (cid + 1) % 65536 then 0 else (cid + 1) % 65536

/-- The scan for a command id that is not pending. -/
def scanCid (mask : WordMask) (qsize : ℕ) : ℕ → ℕ → Option ℕ
  | 0, _ => none
  | fuel + 1, cid => if mask.test cid then scanCid mask qsize fuel (nextCid qsize cid) else some cid

/-- Set command id `cid` for descriptor `d`. -/
def Queue.setCid (q : Queue) (d cid : ℕ) : Queue :=
  let q := q.setDesc d
    (fun x => { x with cidmask := x.cidmask.set cid, cidcount := x.cidcount + 1 })
  { q with
    cidmask := q.cidmask.set cid, cidcount := q.cidcount + 1, cid := nextCid q.size cid }

@[simp] theorem Queue.setCid_desc_self (q : Queue) (d cid : ℕ) :
    (q.setCid d cid).desc d =
      { q.desc d with
        cidmask := (q.desc d).cidmask.set cid, cidcount := (q.desc d).cidcount + 1 } := by
  simp [Queue.setCid]

theorem Queue.setCid_desc_of_ne {q : Queue} {d d' cid : ℕ} (h : d' ≠ d) :
    (q.setCid d cid).desc d' = q.desc d' := by
  simp [Queue.setCid, Queue.setDesc_of_ne h]

@[simp] theorem Queue.setCid_cmds (q : Queue) (d cid x : ℕ) :
    ((q.setCid d cid).desc x).cmds = (q.desc x).cmds := by
  by_cases h : x = d
  · subst h; rw [Queue.setCid_desc_self]
  · rw [Queue.setCid_desc_of_ne h]

@[simp] theorem Queue.setCid_sentinel (q : Queue) (d cid x : ℕ) :
    ((q.setCid d cid).desc x).sentinel = (q.desc x).sentinel := by
  by_cases h : x = d
  · subst h; rw [Queue.setCid_desc_self]
  · rw [Queue.setCid_desc_of_ne h]

/-- Take a free command id for descriptor `d`. -/
def Queue.claim (q : Queue) (d : ℕ) : Except Stop (ℕ × Queue) :=
  match scanCid q.cidmask q.size 65536 q.cid with
  | none => .error .hang
  | some cid =>
      if q.masksize >>> 3 ≤ cid >>> 6 then .error .outOfBounds else .ok (cid, q.setCid d cid)

/-- Clear command id `cid` of descriptor `d`, recording a status other than 0. -/
def Queue.clearCid (q : Queue) (d cid err : ℕ) : Queue :=
  let q := q.setDesc d (fun x =>
    { x with
      error := if err ≠ 0 then err else x.error
      cidmask := x.cidmask.clear cid
      cidcount := x.cidcount - 1 })
  { q with cidmask := q.cidmask.clear cid, cidcount := q.cidcount - 1, cid := cid }

@[simp] theorem Queue.clearCid_desc_self (q : Queue) (d cid err : ℕ) :
    (q.clearCid d cid err).desc d =
      { q.desc d with
        error := if err ≠ 0 then err else (q.desc d).error
        cidmask := (q.desc d).cidmask.clear cid, cidcount := (q.desc d).cidcount - 1 } := by
  simp [Queue.clearCid]

theorem Queue.clearCid_desc_of_ne {q : Queue} {d d' cid err : ℕ} (h : d' ≠ d) :
    (q.clearCid d cid err).desc d' = q.desc d' := by
  simp [Queue.clearCid, Queue.setDesc_of_ne h]

@[simp] theorem Queue.clearCid_cmds (q : Queue) (d cid err x : ℕ) :
    ((q.clearCid d cid err).desc x).cmds = (q.desc x).cmds := by
  by_cases h : x = d
  · subst h; rw [Queue.clearCid_desc_self]
  · rw [Queue.clearCid_desc_of_ne h]

@[simp] theorem Queue.clearCid_sentinel (q : Queue) (d cid err x : ℕ) :
    ((q.clearCid d cid err).desc x).sentinel = (q.desc x).sentinel := by
  by_cases h : x = d
  · subst h; rw [Queue.clearCid_desc_self]
  · rw [Queue.clearCid_desc_of_ne h]

/-- Advance the pending pointer past descriptors without pending command ids. -/
def Queue.advancePend (q : Queue) : Except Stop Queue :=
  if q.cidcount ≠ 0 then
    match q.descpend with
    | none => .error .nullDescriptor
    | some p =>
        match ringSeek q.links.next (fun d => (q.desc d).cidcount != 0) q.nalloc p with
        | some p' => .ok { q with descpend := some p' }
        | none => .error .hang
  else .ok q

/-- Retire the completed command id `cid`: find the descriptor that owns it, starting at the pending
    pointer, and clear it there and in the queue. -/
def Queue.retire (q : Queue) (cid err : ℕ) : Except Stop Queue :=
  match q.descpend with
  | none => .error .nullDescriptor
  | some p =>
      if q.masksize >>> 3 ≤ cid >>> 6 then .error .outOfBounds
      else
        match ringFind q.links.next (fun d => (q.desc d).cidmask.test cid) p q.nalloc p with
        | none => .error .hang
        | some none => .error (.cidNotFound cid)
        | some (some d) => (q.clearCid d cid err).advancePend

/-! ## Initialisation -/

/-- A queue without descriptors, its masks zeroed. -/
def Queue.zeroed (qsize : ℕ) (prplist : Dma) : Queue where
  size := qsize
  cid := 0
  cidcount := 0
  desccount := 0
  masksize := ((qsize + 63) >>> 6) <<< 3
  cidmask := WordMask.zeros (((qsize + 63) >>> 6) <<< 3 >>> 3)
  desclist := none
  descfree := none
  descpend := none
  prplist := prplist
  links := ⟨fun _ => 0, fun _ => 0⟩
  desc := fun _ => Desc.zero (((qsize + 63) >>> 6) <<< 3 >>> 3)
  nalloc := 0

/-- The part of `unvme_queue_init` after its memory has been allocated: masks and 16 descriptors. -/
def Queue.setup (qsize : ℕ) (prplist : Dma) : Queue :=
  let q := (fun q => (unvmeDescGet q).2)^[16] (Queue.zeroed qsize prplist)
  { q with descfree := q.desclist, desclist := none, desccount := 0 }

/-- What holds of the zeroed queue and is kept by taking a descriptor and by moving the lists. -/
theorem Queue.setup_induct {qsize : ℕ} {prplist : Dma} {P : Queue → Prop}
    (hzero : P (Queue.zeroed qsize prplist)) (hget : ∀ q, P q → P (unvmeDescGet q).2)
    (hlists : ∀ q : Queue, P q → P { q with descfree := q.desclist, desclist := none, desccount := 0 }) :
    P (Queue.setup qsize prplist) := by
  have hall : ∀ n, P ((fun q => (unvmeDescGet q).2)^[n] (Queue.zeroed qsize prplist)) := by
    intro n
    induction n with
    | zero => exact hzero
    | succ n ih =>
        rw [Function.iterate_succ_apply']
        exact hget _ ih
  exact hlists _ (hall 16)

theorem unvmeDescGet_prplist (q : Queue) : (unvmeDescGet q).2.prplist = q.prplist := by
  unfold unvmeDescGet
  cases q.descfree with
  | none => rfl
  | some d => rfl

theorem unvmeDescGet_masksize (q : Queue) : (unvmeDescGet q).2.masksize = q.masksize := by
  unfold unvmeDescGet
  cases q.descfree with
  | none => rfl
  | some d => rfl

@[simp] theorem Queue.setup_prplist (qsize : ℕ) (prplist : Dma) :
    (Queue.setup qsize prplist).prplist = prplist :=
  Queue.setup_induct (P := fun q => q.prplist = prplist) rfl
    (fun q hq => (unvmeDescGet_prplist q).trans hq) (fun _ hq => hq)

/-- The masks of a queue have one bit for every entry, rounded up to words. -/
theorem Queue.setup_words (qsize : ℕ) (prplist : Dma) :
    (Queue.setup qsize prplist).masksize >>> 3 = (qsize + 63) / 64 := by
  have hmask : (Queue.setup qsize prplist).masksize = ((qsize + 63) >>> 6) <<< 3 :=
    Queue.setup_induct (P := fun q => q.masksize = ((qsize + 63) >>> 6) <<< 3) rfl
      (fun q hq => (unvmeDescGet_masksize q).trans hq) (fun _ hq => hq)
  rw [hmask, Nat.shiftRight_eq_div_pow, Nat.shiftRight_eq_div_pow, Nat.shiftLeft_eq]
  omega

end Unvme.Core
