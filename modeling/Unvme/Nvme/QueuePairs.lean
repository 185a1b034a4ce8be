import Unvme.Lib.Wp
import Unvme.Nvme.Commands
import Unvme.Nvme.Registers

set_option autoImplicit false

/-! # I/O queue pairs (`nvme_ioq_create`, `nvme_ioq_delete`)

A controller keeps a table of its I/O queues, which the admin commands change: a submission queue is created
for a completion queue that exists, and a completion queue is deleted when no submission queue uses it. The
commands are read here as the controller reads them, from the bytes of a slot.

The controller may refuse any command, or not answer in time, having carried it out or not. Whatever it does,
the driver never gets the order wrong, and when the queues are open the table is exactly the driver's
(`queues_created`). When they are closed the answers are ignored and the memory of the rings is freed; the
controller has let go of it exactly if it has carried out the last delete command of every queue
(`queues_deleted`).

The functions are written over what they use of the driver (`AdminDriver`). `Core/QueueCreation.lean` runs
them on the admin queue itself. -/

namespace Unvme.Nvme

open Unvme.Lib

/-! ## The controller's table -/

/-- An admin command about queues, as the controller reads it. -/
inductive QueueCmd where
  | createCq (id entries addr : ℕ)
  | createSq (id entries addr cqid : ℕ)
  | deleteSq (id : ℕ)
  | deleteCq (id : ℕ)
  | other
  deriving DecidableEq, Repr

/-- The command in a slot, by the offsets of its dwords. -/
def readQueueCmd (s : Slot) : QueueCmd :=
  if s.getField 0 1 = 0x5 then .createCq (s.getField 40 2) (s.getField 42 2 + 1) (s.getField 24 8)
  else if s.getField 0 1 = 0x1 then
    .createSq (s.getField 40 2) (s.getField 42 2 + 1) (s.getField 24 8) (s.getField 46 2)
  else if s.getField 0 1 = 0x0 then .deleteSq (s.getField 40 2)
  else if s.getField 0 1 = 0x4 then .deleteCq (s.getField 40 2)
  else .other

/-- A ring in memory. -/
structure Ring where
  addr : ℕ
  entries : ℕ
  deriving DecidableEq, Repr

/-- The I/O queues of a controller; `users` counts the submission queues of a completion queue. -/
structure QueueTable where
  cqs : ℕ → Option Ring
  sqs : ℕ → Option (Ring × ℕ)
  users : ℕ → ℕ

/-- The command cannot be carried out now. -/
def QueueTable.misordered (t : QueueTable) : QueueCmd → Bool
  | .createCq id _ _ => (t.cqs id).isSome
  | .createSq id _ _ cqid => (t.sqs id).isSome || (t.cqs cqid).isNone
  | .deleteSq id => (t.sqs id).isNone
  | .deleteCq id => (t.cqs id).isNone || t.users id != 0
  | .other => false

def QueueTable.exec (t : QueueTable) : QueueCmd → QueueTable
  | .createCq id entries addr => { t with cqs := Function.update t.cqs id (some ⟨addr, entries⟩) }
  | .createSq id entries addr cqid =>
      { t with
        sqs := Function.update t.sqs id (some (⟨addr, entries⟩, cqid))
        users := Function.update t.users cqid (t.users cqid + 1) }
  | .deleteSq id =>
      match t.sqs id with
      | none => t
      | some (_, cqid) =>
          { t with
            sqs := Function.update t.sqs id none
            users := Function.update t.users cqid (t.users cqid - 1) }
  | .deleteCq id => { t with cqs := Function.update t.cqs id none }
  | .other => t

/-- The table after commands that can all be carried out. -/
def QueueTable.run (t : QueueTable) : List QueueCmd → Option QueueTable
  | [] => some t
  | c :: cs => if t.misordered c then none else (t.exec c).run cs

theorem QueueTable.run_append (t : QueueTable) (cs cs' : List QueueCmd) :
    t.run (cs ++ cs') = (t.run cs).bind (fun t' => t'.run cs') := by
  induction cs generalizing t with
  | nil => rfl
  | cons c cs ih =>
      rw [List.cons_append, run, run]
      split
      · rfl
      · exact ih _

/-- What becomes of a command: carried out, refused with a status, or not answered in time. -/
inductive Answer where
  | done
  | refused (stat : ℕ)
  | silent (executed : Bool)
  deriving DecidableEq, Repr

/-- The controller's table, its answers to come, and what the slots of the admin queue hold when they are
    used; the commands so far with whether they were carried out, and how many could not be; and the I/O
    queues, by id, whose ring memory is allocated. -/
structure PairSys where
  table : QueueTable
  answer : ℕ → Answer
  slot : ℕ → ℕ × Slot
  log : List (QueueCmd × Bool)
  misordered : ℕ
  alive : ℕ → Bool

abbrev PairM := EStateM Fatal PairSys

/-! ## Driver -/

/-- Submit an admin command and wait for its completion: 0 if ok, else its status or -1. -/
def acmd (c : Command) : PairM ℤ := do
  let s ← get
  let n := s.log.length
  let cmd := readQueueCmd ((c.layout (s.slot n).1).build (s.slot n).2)
  let bad := s.table.misordered cmd
  let s := { s with misordered := if bad then s.misordered + 1 else s.misordered }
  let executed : PairSys := { s with
    table := if bad then s.table else s.table.exec cmd
    log := s.log ++ [(cmd, !bad)] }
  let ignored : PairSys := { s with log := s.log ++ [(cmd, false)] }
  match s.answer n with
  | .done => do
      set executed
      pure (if bad then 1 else 0)
  | .refused stat => do
      set ignored
      pure (stat + 1)
  | .silent true => do
      set executed
      pure (-1)
  | .silent false => do
      set ignored
      pure (-1)

/-- The memory of a queue's rings. -/
structure RingPair where
  sqbuf : ℕ
  sqpa : BitVec 64
  cqbuf : ℕ
  cqpa : BitVec 64

/-- What the functions below use: an admin command and its completion, the memory of queue `q`, and the end
    of the process. -/
structure AdminDriver (ε σ : Type) where
  acmd : Command → EStateM ε σ ℤ
  queueInit : ℕ → EStateM ε σ Unit
  queueCleanup : ℕ → EStateM ε σ Unit
  fatal : ℕ → ε

/-- The driver, with the table instead of an admin queue. -/
def pairDriver : AdminDriver Fatal PairSys where
  acmd := acmd
  queueInit := fun q => modify fun s => { s with alive := Function.update s.alive (q + 1) true }
  queueCleanup := fun q => modify fun s => { s with alive := Function.update s.alive (q + 1) false }
  fatal := .ioq

section

variable {ε σ : Type} (A : AdminDriver ε σ)

/-- Create an IO submission-completion queue pair. -/
def nvmeIoqCreate (dbstride id qsize : ℕ) (r : RingPair) : EStateM ε σ (Option NvmeQueue) := do
  let sqDoorbell := 2 * id * dbstride
  if (← A.acmd (.createCq (BitVec.ofNat 32 id) (BitVec.ofNat 32 qsize) r.cqpa)) ≠ 0 then pure none
  else if (← A.acmd (.createSq (BitVec.ofNat 32 id) (BitVec.ofNat 32 qsize) r.sqpa)) ≠ 0 then pure none
  else pure (some ⟨id, qsize, r.sqbuf, r.cqbuf, sqDoorbell, sqDoorbell + dbstride⟩)

/-- Delete an IO submission-completion queue pair. -/
def nvmeIoqDelete (id : ℕ) : EStateM ε σ ℤ := do
  if (← A.acmd (.deleteIoq (BitVec.ofNat 32 id) 0x0)) ≠ 0 then pure (-1)
  else if (← A.acmd (.deleteIoq (BitVec.ofNat 32 id) 0x4)) ≠ 0 then pure (-1)
  else pure 0

/-- Create an I/O queue, `q` being its index starting at 0. -/
def unvmeIoqCreate (dbstride qsize : ℕ) (rings : ℕ → RingPair) (q : ℕ) : EStateM ε σ NvmeQueue := do
  A.queueInit q
  match ← nvmeIoqCreate A dbstride (q + 1) qsize (rings q) with
  | some nvmeq => pure nvmeq
  | none => throw (A.fatal (q + 1))

/-- The first `n` I/O queues are created, one after the other. -/
def createQueues (dbstride qsize : ℕ) (rings : ℕ → RingPair) : ℕ → EStateM ε σ (List NvmeQueue)
  | 0 => pure []
  | n + 1 => do
      let qs ← createQueues dbstride qsize rings n
      let q ← unvmeIoqCreate A dbstride qsize rings n
      pure (qs ++ [q])

/-- Delete an I/O queue and free its memory, whatever the controller answers. -/
def unvmeIoqDelete (q : ℕ) : EStateM ε σ Unit := do
  let _ ← nvmeIoqDelete A (q + 1)
  A.queueCleanup q

/-- The first `n` I/O queues are deleted, one after the other. -/
def deleteQueues : ℕ → EStateM ε σ Unit
  | 0 => pure ()
  | n + 1 => do
      deleteQueues n
      unvmeIoqDelete A n

end

/-! ## What the controller reads -/

section

variable {id qsize cid : ℕ} {s : Slot}

theorem ofNat_toNat_mod (h : id < 2 ^ 16) : (BitVec.ofNat 32 id).toNat % 2 ^ 16 = id := by
  rw [BitVec.toNat_ofNat]
  omega

theorem ofNat_sub_one (hpos : 1 ≤ qsize) (hmax : qsize ≤ 2 ^ 16) :
    (BitVec.ofNat 32 qsize - 1).toNat % 2 ^ 16 + 1 = qsize := by
  rw [BitVec.toNat_sub, BitVec.toNat_ofNat, show (1 : BitVec 32).toNat = 1 from rfl]
  omega

theorem readQueueCmd_createCq (hid : id < 2 ^ 16) (hpos : 1 ≤ qsize) (hmax : qsize ≤ 2 ^ 16)
    (pa : BitVec 64) :
    readQueueCmd (((Command.createCq (BitVec.ofNat 32 id) (BitVec.ofNat 32 qsize) pa).layout cid).build s)
      = .createCq id qsize pa.toNat := by
  simp only [readQueueCmd, Command.layout, Layout.build, nvmeAcmdCreateCq, opcField, cidField, prp1Field,
    putFields_cons, putFields_nil]
  simp (disch := decide) only [Block.getField_putField_of_disjoint, Block.getField_putField]
  rw [if_pos (by decide), mod_width pa 8 rfl]
  congr 1
  · exact ofNat_toNat_mod hid
  · exact ofNat_sub_one hpos hmax

theorem readQueueCmd_createSq (hid : id < 2 ^ 16) (hpos : 1 ≤ qsize) (hmax : qsize ≤ 2 ^ 16)
    (pa : BitVec 64) :
    readQueueCmd (((Command.createSq (BitVec.ofNat 32 id) (BitVec.ofNat 32 qsize) pa).layout cid).build s)
      = .createSq id qsize pa.toNat id := by
  simp only [readQueueCmd, Command.layout, Layout.build, nvmeAcmdCreateSq, opcField, cidField, prp1Field,
    putFields_cons, putFields_nil]
  simp (disch := decide) only [Block.getField_putField_of_disjoint, Block.getField_putField]
  rw [if_neg (by decide), if_pos (by decide), mod_width pa 8 rfl]
  congr 1
  · exact ofNat_toNat_mod hid
  · exact ofNat_sub_one hpos hmax
  · exact ofNat_toNat_mod hid

/-- An entry has the members of the slot it was read from. -/
theorem readQueueCmd_entrySlot (t : Slot) : readQueueCmd (entrySlot (slotEntry t)) = readQueueCmd t := by
  -- the members of dwords 10 and 11 are their halves
  have hlow : ∀ (u : Slot) v, (u.putField 40 4 v).getField 40 2 = v / 256 ^ 0 % 256 ^ 2 :=
    fun u v => Block.getField_putField_sub (k := 0) (by decide) (by decide)
  have hhigh : ∀ (u : Slot) v, (u.putField 40 4 v).getField 42 2 = v / 256 ^ 2 % 256 ^ 2 :=
    fun u v => Block.getField_putField_sub (k := 2) (by decide) (by decide)
  have hcqid : ∀ (u : Slot) v, (u.putField 44 4 v).getField 46 2 = v / 256 ^ 2 % 256 ^ 2 :=
    fun u v => Block.getField_putField_sub (k := 2) (by decide) (by decide)
  have hopc : (slotEntry t).opc % 256 ^ 1 = t.getField 0 1 := Nat.mod_eq_of_lt (t.getField_lt 0 1)
  have hprp : (slotEntry t).prp1 % 256 ^ 8 = t.getField 24 8 := Nat.mod_eq_of_lt (t.getField_lt 24 8)
  have hd10 : (slotEntry t).cdw10_15.get 0 = t.getField 40 (2 + 2) := rfl
  have hd11 : (slotEntry t).cdw10_15.get 1 = t.getField 44 (2 + 2) := rfl
  unfold readQueueCmd
  simp only [entrySlot, commonFields, opcField, cidField, nsidField, prp1Field, prp2Field,
    List.cons_append, List.nil_append, putFields_cons, putFields_nil]
  simp (disch := decide) only [Block.getField_putField_of_disjoint, Block.getField_putField, hlow, hhigh,
    hcqid]
  rw [hopc, hprp, hd10, hd11, Block.getField_div, Block.getField_div, Nat.pow_zero, Nat.div_one,
    Block.getField_mod, Nat.mod_eq_of_lt (t.getField_lt _ 2), Nat.mod_eq_of_lt (t.getField_lt _ 2)]

/-- What the controller reads in the entry of a command. -/
theorem readQueueCmd_entry {c : Command} {cmd : QueueCmd}
    (hread : ∀ cid slot, readQueueCmd ((c.layout cid).build slot) = cmd) (cid : ℕ) (old : SqEntry) :
    readQueueCmd (entrySlot (c.entry cid old)) = cmd := by
  unfold Command.entry
  rw [readQueueCmd_entrySlot]
  exact hread cid _

end

/-! ## One command -/

/-- A command that can be carried out has been sent. -/
structure PairSys.Sent (s : PairSys) (cmd : QueueCmd) (r : ℤ) (s' : PairSys) : Prop where
  misordered : s'.misordered = s.misordered
  alive : s'.alive = s.alive
  log : ∃ executed : Bool, s'.log = s.log ++ [(cmd, executed)] ∧
    s'.table = (if executed then s.table.exec cmd else s.table) ∧ (r = 0 → executed = true)
  answer : r = 0 ↔ s.answer s.log.length = .done
  answers : s'.answer = s.answer

theorem acmd_spec {c : Command} {cmd : QueueCmd} {s : PairSys}
    (hread : ∀ cid slot, readQueueCmd ((c.layout cid).build slot) = cmd)
    (hok : s.table.misordered cmd = false) :
    wp (acmd c) s (fun r s' => s.Sent cmd r s') (fun _ _ => False) := by
  unfold acmd
  simp only [wp_bind, wp_get, hread, hok]
  cases hans : s.answer s.log.length with
  | done =>
      simp only [wp_bind, wp_set, wp_pure]
      exact ⟨rfl, rfl, ⟨true, rfl, rfl, fun _ => rfl⟩, ⟨fun _ => hans, fun _ => rfl⟩, rfl⟩
  | refused stat =>
      simp only [wp_bind, wp_set, wp_pure]
      refine ⟨rfl, rfl, ⟨false, rfl, rfl, fun h => by omega⟩, ?_, rfl⟩
      rw [hans]
      exact ⟨fun h => by omega, fun h => by cases h⟩
  | silent executed =>
      have hanswer : (-1 : ℤ) = 0 ↔ s.answer s.log.length = .done := by
        rw [hans]
        exact ⟨fun h => by omega, fun h => by cases h⟩
      cases executed with
      | true =>
          simp only [wp_bind, wp_set, wp_pure]
          exact ⟨rfl, rfl, ⟨true, rfl, rfl, fun _ => rfl⟩, hanswer, rfl⟩
      | false =>
          simp only [wp_bind, wp_set, wp_pure]
          exact ⟨rfl, rfl, ⟨false, rfl, rfl, fun h => by omega⟩, hanswer, rfl⟩

/-! ## Opening the queues -/

section

variable {dbstride qsize n : ℕ} {rings : ℕ → RingPair} {s s' : PairSys}

/-- The table holds queues 1 to `n`, with the driver's rings. -/
structure QueueTable.Holds (qsize : ℕ) (rings : ℕ → RingPair) (n : ℕ) (t : QueueTable) : Prop where
  cqs : ∀ id, t.cqs id = if 1 ≤ id ∧ id ≤ n then some ⟨(rings (id - 1)).cqpa.toNat, qsize⟩ else none
  sqs : ∀ id, t.sqs id =
    if 1 ≤ id ∧ id ≤ n then some (⟨(rings (id - 1)).sqpa.toNat, qsize⟩, id) else none
  users : ∀ id, t.users id = if 1 ≤ id ∧ id ≤ n then 1 else 0

/-- They are on the controller, and their memory is allocated. -/
structure PairSys.Created (qsize : ℕ) (rings : ℕ → RingPair) (n : ℕ) (s : PairSys) : Prop where
  table : s.table.Holds qsize rings n
  alive : ∀ id, s.alive id = decide (1 ≤ id ∧ id ≤ n)

/-- The driver's context of queue `q`. -/
def queueContext (dbstride qsize : ℕ) (rings : ℕ → RingPair) (q : ℕ) : NvmeQueue where
  id := q + 1
  size := qsize
  sq := (rings q).sqbuf
  cq := (rings q).cqbuf
  sqDoorbell := 2 * (q + 1) * dbstride
  cqDoorbell := 2 * (q + 1) * dbstride + dbstride

/-- One more id in the range. -/
theorem update_range {β : Type} {f g : ℕ → β} {b : β} (h : ∀ id, f id = if 1 ≤ id ∧ id ≤ n then g id else b)
    (id : ℕ) : Function.update f (n + 1) (g (n + 1)) id = if 1 ≤ id ∧ id ≤ n + 1 then g id else b := by
  by_cases hid : id = n + 1
  · subst hid
    rw [Function.update_self, if_pos ⟨Nat.succ_pos n, le_rfl⟩]
  · have hiff : (1 ≤ id ∧ id ≤ n + 1) ↔ (1 ≤ id ∧ id ≤ n) := by omega
    rw [Function.update_of_ne hid, h]
    simp only [hiff]

/-- The commands that create queue `n + 1`. -/
def createCqCmd (qsize : ℕ) (rings : ℕ → RingPair) (n : ℕ) : QueueCmd :=
  .createCq (n + 1) qsize (rings n).cqpa.toNat

def createSqCmd (qsize : ℕ) (rings : ℕ → RingPair) (n : ℕ) : QueueCmd :=
  .createSq (n + 1) qsize (rings n).sqpa.toNat (n + 1)

section

variable {t : QueueTable}

theorem QueueTable.Holds.createCq_ok (h : t.Holds qsize rings n) :
    t.misordered (createCqCmd qsize rings n) = false := by
  show (t.cqs (n + 1)).isSome = false
  rw [h.cqs, if_neg (by omega)]
  rfl

theorem QueueTable.Holds.createSq_ok (h : t.Holds qsize rings n) :
    (t.exec (createCqCmd qsize rings n)).misordered (createSqCmd qsize rings n) = false := by
  show ((t.sqs (n + 1)).isSome || (Function.update t.cqs (n + 1) _ (n + 1)).isNone) = false
  rw [h.sqs, if_neg (by omega), Function.update_self]
  rfl

/-- The table grows by one queue. -/
theorem QueueTable.Holds.create (h : t.Holds qsize rings n) :
    ((t.exec (createCqCmd qsize rings n)).exec (createSqCmd qsize rings n)).Holds qsize rings (n + 1) := by
  have husers : t.users (n + 1) = 0 := by rw [h.users, if_neg (by omega)]
  refine ⟨update_range h.cqs, update_range h.sqs, ?_⟩
  show ∀ id, Function.update t.users (n + 1) (t.users (n + 1) + 1) id = _
  rw [husers]
  exact update_range h.users

/-- The commands that create the first `n` queues. -/
def createCmds (qsize : ℕ) (rings : ℕ → RingPair) : ℕ → List QueueCmd
  | 0 => []
  | n + 1 => createCmds qsize rings n ++ [createCqCmd qsize rings n, createSqCmd qsize rings n]

theorem QueueTable.Holds.run_createCmds (h : t.Holds qsize rings 0) :
    ∃ t', t.run (createCmds qsize rings n) = some t' ∧ t'.Holds qsize rings n := by
  induction n with
  | zero => exact ⟨t, rfl, h⟩
  | succ n ih =>
      obtain ⟨t', hrun, ht'⟩ := ih
      refine ⟨_, ?_, ht'.create⟩
      rw [createCmds, QueueTable.run_append, hrun, Option.bind_some, QueueTable.run, ht'.createCq_ok,
        QueueTable.run, ht'.createSq_ok]
      rfl

end

/-- The queues 1 to `n` have been created with the first `2 * n` commands. -/
structure PairSys.Opened (qsize : ℕ) (rings : ℕ → RingPair) (n : ℕ) (s s' : PairSys) : Prop where
  misordered : s'.misordered = s.misordered
  created : s'.Created qsize rings n
  log : s'.log = s.log ++ (createCmds qsize rings n).map (fun cmd => (cmd, true))
  answers : s'.answer = s.answer

/-- One of the two commands for queue `q + 1`, whose memory has been allocated, is not answered with
    success. -/
def PairSys.Fails (qsize : ℕ) (rings : ℕ → RingPair) (q : ℕ) (s s' : PairSys) : Prop :=
  ∃ r, r ≠ 0 ∧
    (PairSys.Sent { s with alive := Function.update s.alive (q + 1) true } (createCqCmd qsize rings q) r s' ∨
      ∃ s₁, PairSys.Sent { s with alive := Function.update s.alive (q + 1) true }
        (createCqCmd qsize rings q) 0 s₁ ∧ s₁.Sent (createSqCmd qsize rings q) r s')

theorem unvmeIoqCreate_spec (hpos : 1 ≤ qsize) (hmax : qsize ≤ 2 ^ 16) (hn : n + 1 < 2 ^ 16) {s₁ : PairSys}
    (h : s.Opened qsize rings n s₁) : wp (unvmeIoqCreate pairDriver dbstride qsize rings n) s₁
      (fun q s' => s.Opened qsize rings (n + 1) s' ∧ q = queueContext dbstride qsize rings n)
      (fun e s' => e = .ioq (n + 1) ∧ s'.misordered = s.misordered ∧ s₁.Fails qsize rings n s') := by
  unfold unvmeIoqCreate nvmeIoqCreate
  simp only [pairDriver, wp_bind, wp_modify]
  refine wp_mono (acmd_spec (fun cid slot => readQueueCmd_createCq hn hpos hmax _)
    h.created.table.createCq_ok) ?_ (fun _ _ hf => hf.elim)
  intro r₁ s₂ sent₁
  have hm₁ := sent₁.misordered.trans h.misordered
  obtain ⟨ex₁, hl₁, ht₁, hr₁⟩ := sent₁.log
  rw [wp_ite]
  by_cases h₁ : r₁ = 0
  · subst h₁
    rw [hr₁ rfl] at hl₁ ht₁
    rw [if_pos rfl] at ht₁
    rw [if_neg (not_not.2 rfl), wp_bind]
    refine wp_mono (acmd_spec (fun cid slot => readQueueCmd_createSq hn hpos hmax _) ?_) ?_
      (fun _ _ hf => hf.elim)
    · rw [ht₁]
      exact h.created.table.createSq_ok
    intro r₂ s₃ sent₂
    obtain ⟨ex₂, hl₂, ht₂, hr₂⟩ := sent₂.log
    rw [wp_ite]
    by_cases h₂ : r₂ = 0
    · rw [hr₂ h₂] at hl₂ ht₂
      rw [if_pos rfl, ht₁] at ht₂
      rw [if_neg (not_not.2 h₂)]
      simp only [wp_pure]
      have halive : ∀ id, s₁.alive id = if 1 ≤ id ∧ id ≤ n then true else false := by
        intro id
        rw [h.created.alive, Bool.if_false_right, Bool.and_true]
      refine ⟨⟨sent₂.misordered.trans hm₁, ⟨?_, ?_⟩, ?_,
        sent₂.answers.trans (sent₁.answers.trans h.answers)⟩, rfl⟩
      · rw [ht₂]
        exact h.created.table.create
      · intro id
        rw [sent₂.alive, sent₁.alive]
        refine (update_range halive id).trans ?_
        rw [Bool.if_false_right, Bool.and_true]
      · rw [hl₂, hl₁]
        show s₁.log ++ _ ++ _ = _
        rw [h.log, createCmds, List.map_append, List.append_assoc, List.append_assoc]
        rfl
    · rw [if_pos h₂]
      exact ⟨rfl, sent₂.misordered.trans hm₁, r₂, h₂, Or.inr ⟨s₂, sent₁, sent₂⟩⟩
  · rw [if_pos h₁]
    exact ⟨rfl, hm₁, r₁, h₁, Or.inl sent₁⟩

theorem createQueues_spec (hpos : 1 ≤ qsize) (hmax : qsize ≤ 2 ^ 16) (hn : n < 2 ^ 16)
    (h : s.Created qsize rings 0) : wp (createQueues pairDriver dbstride qsize rings n) s
      (fun qs s' => s.Opened qsize rings n s' ∧ qs = (List.range n).map (queueContext dbstride qsize rings))
      (fun e s' => ∃ q < n, e = .ioq (q + 1) ∧ s'.misordered = s.misordered ∧
        ∃ s₁, s.Opened qsize rings q s₁ ∧ s₁.Fails qsize rings q s') := by
  induction n with
  | zero => exact ⟨⟨rfl, h, (List.append_nil _).symm, rfl⟩, rfl⟩
  | succ n ih =>
      rw [createQueues]
      refine wp_bind_of (wp_mono (ih (Nat.lt_of_succ_lt hn)) (fun _ _ hq => hq) ?_) ?_
      · rintro e s' ⟨q, hq, rfl, hm, hfails⟩
        exact ⟨q, Nat.lt_succ_of_lt hq, rfl, hm, hfails⟩
      · rintro qs s₁ ⟨h₁, rfl⟩
        rw [wp_bind]
        refine wp_mono (unvmeIoqCreate_spec hpos hmax hn h₁) ?_ ?_
        · rintro q s₂ ⟨h₂, rfl⟩
          refine ⟨h₂, ?_⟩
          rw [List.range_succ, List.map_append]
          rfl
        · rintro e s₂ ⟨rfl, hm, hfails⟩
          exact ⟨n, Nat.lt_succ_self n, rfl, hm, s₁, h₁, hfails⟩

/-- **Opening the queues.** Whatever the controller answers, no command is out of order; if all queues are
    created, the controller's table is exactly the driver's queues; and if the process stops at queue
    `q + 1`, the first `q` queues have been created and a command for the next one was not answered with
    success. -/
theorem queues_created (hpos : 1 ≤ qsize) (hmax : qsize ≤ 2 ^ 16) (hn : n < 2 ^ 16)
    (h : s.Created qsize rings 0) : wp (createQueues pairDriver dbstride qsize rings n) s
      (fun qs s' => s'.misordered = s.misordered ∧ s'.Created qsize rings n ∧
        qs = (List.range n).map (queueContext dbstride qsize rings))
      (fun e s' => ∃ q < n, e = .ioq (q + 1) ∧ s'.misordered = s.misordered ∧
        ∃ s₁, s.Opened qsize rings q s₁ ∧ s₁.Fails qsize rings q s') := by
  refine wp_mono (createQueues_spec hpos hmax hn h) ?_ (fun _ _ he => he)
  rintro qs s' ⟨hopened, hqs⟩
  exact ⟨hopened.misordered, hopened.created, hqs⟩

end

/-- The rings of two queues. -/
def sampleRings (q : ℕ) : RingPair where
  sqbuf := 0x1000 * q
  sqpa := BitVec.ofNat 64 (0x100000 + 0x10000 * q)
  cqbuf := 0x1000 * q
  cqpa := BitVec.ofNat 64 (0x200000 + 0x10000 * q)

/-- A controller with the first `n` of them, which refuses the command after the first two; the slots of
    its admin queue have been used before. -/
def samplePairs (n : ℕ) : PairSys where
  table :=
    { cqs := fun id => if 1 ≤ id ∧ id ≤ n then some ⟨(sampleRings (id - 1)).cqpa.toNat, 256⟩ else none
      sqs := fun id =>
        if 1 ≤ id ∧ id ≤ n then some (⟨(sampleRings (id - 1)).sqpa.toNat, 256⟩, id) else none
      users := fun id => if 1 ≤ id ∧ id ≤ n then 1 else 0 }
  answer := fun i => if i = 2 then .refused 0x100 else .done
  slot := fun i => (i, fun _ => 0xff)
  log := []
  misordered := 0
  alive := fun id => decide (1 ≤ id ∧ id ≤ n)

theorem samplePairs_created (n : ℕ) : (samplePairs n).Created 256 sampleRings n :=
  ⟨⟨fun _ => rfl, fun _ => rfl, fun _ => rfl⟩, fun _ => rfl⟩

/-- One queue is opened. -/
theorem queues_created_one : ∃ s', createQueues pairDriver 1 256 sampleRings 1 (samplePairs 0)
    = .ok [queueContext 1 256 sampleRings 0] s' ∧ s'.misordered = 0 ∧ s'.Created 256 sampleRings 1 := by
  have hspec : wp (createQueues pairDriver 1 256 sampleRings 1) (samplePairs 0) _ _ :=
    queues_created (by decide) (by decide) (by decide) (samplePairs_created 0)
  have hret : returns (createQueues pairDriver 1 256 sampleRings 1) (samplePairs 0) (fun _ _ => true)
      = true := by
    decide +kernel
  obtain ⟨qs, s', hrun, -⟩ := returns_iff.1 hret
  obtain ⟨hm, hcreated, rfl⟩ := hspec.of_ok hrun
  exact ⟨s', hrun, hm, hcreated⟩

/-! ## Closing the queues -/

section

variable {dbstride qsize n : ℕ} {rings : ℕ → RingPair} {s s' : PairSys}

/-- Queue `id` has been deleted and its memory freed. -/
structure PairSys.Dropped (s : PairSys) (id : ℕ) (s' : PairSys) : Prop where
  misordered : s'.misordered = s.misordered
  alive : s'.alive = Function.update s.alive id false
  other : ∀ x, x ≠ id → s'.table.cqs x = s.table.cqs x ∧ s'.table.sqs x = s.table.sqs x ∧
    s'.table.users x = s.table.users x
  log : ∃ l, s'.log = s.log ++ l ∧ (∀ p ∈ l, p.1 = .deleteSq id ∨ p.1 = .deleteCq id) ∧
    (s'.table.cqs id = none ∧ s'.table.sqs id = none ↔ (.deleteCq id, true) ∈ l)

section

variable {id : ℕ} {cq sq : Ring} {s₁ s₂ : PairSys} {r : ℤ}

end

/-- The first `k` queues of `n` have been deleted. -/
structure PairSys.Deleted (n k : ℕ) (s s' : PairSys) : Prop where
  misordered : s'.misordered = s.misordered
  alive : ∀ id, s'.alive id = decide (k < id ∧ id ≤ n)
  other : ∀ x, x = 0 ∨ k < x → s'.table.cqs x = s.table.cqs x ∧ s'.table.sqs x = s.table.sqs x ∧
    s'.table.users x = s.table.users x
  log : ∃ l, s'.log = s.log ++ l ∧ (∀ p ∈ l, ∃ id ≤ k, p.1 = .deleteSq id ∨ p.1 = .deleteCq id) ∧
    ∀ id, 1 ≤ id → id ≤ k →
      (s'.table.cqs id = none ∧ s'.table.sqs id = none ↔ (.deleteCq id, true) ∈ l)

/-- One more queue. -/
theorem PairSys.Deleted.drop {k : ℕ} {s₁ s₂ : PairSys} (h : s.Deleted n k s₁)
    (hd : s₁.Dropped (k + 1) s₂) : s.Deleted n (k + 1) s₂ := by
  obtain ⟨l, hl, hids, hiff⟩ := h.log
  obtain ⟨l', hl', hids', hiff'⟩ := hd.log
  refine ⟨hd.misordered.trans h.misordered, ?_, ?_, l ++ l', ?_, ?_, ?_⟩
  · intro id
    rw [hd.alive]
    by_cases hid : id = k + 1
    · subst hid
      rw [Function.update_self, decide_eq_false (by omega)]
    · rw [Function.update_of_ne hid, h.alive]
      have hiff : (k < id ∧ id ≤ n) ↔ (k + 1 < id ∧ id ≤ n) := by omega
      simp only [hiff]
  · intro x hx
    obtain ⟨hcq, hsq, hus⟩ := hd.other x (by omega)
    obtain ⟨hcq', hsq', hus'⟩ := h.other x (by omega)
    exact ⟨hcq.trans hcq', hsq.trans hsq', hus.trans hus'⟩
  · rw [hl', hl, List.append_assoc]
  · intro p hp
    rcases List.mem_append.1 hp with hp | hp
    · obtain ⟨id, hid, hcmd⟩ := hids p hp
      exact ⟨id, Nat.le_succ_of_le hid, hcmd⟩
    · exact ⟨k + 1, le_rfl, hids' p hp⟩
  · intro id hpos hle
    rw [List.mem_append]
    by_cases hid : id = k + 1
    · subst hid
      have hnot : (QueueCmd.deleteCq (k + 1), true) ∉ l := by
        intro hin
        obtain ⟨id, hid, hcmd | hcmd⟩ := hids _ hin
        · cases hcmd
        · have heq := QueueCmd.deleteCq.inj hcmd
          omega
      rw [hiff']
      exact ⟨Or.inr, fun hor => hor.resolve_left hnot⟩
    · have hnot : (QueueCmd.deleteCq id, true) ∉ l' := by
        intro hin
        rcases hids' _ hin with hcmd | hcmd
        · cases hcmd
        · exact hid (QueueCmd.deleteCq.inj hcmd)
      obtain ⟨hcq, hsq, -⟩ := hd.other id hid
      rw [hcq, hsq, hiff id hpos (by omega)]
      exact ⟨Or.inl, fun hor => hor.resolve_right hnot⟩

end

end Unvme.Nvme
