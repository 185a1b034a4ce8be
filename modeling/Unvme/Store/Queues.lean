import Unvme.Store.Refinement
import Mathlib.Data.Nat.Pairing

set_option autoImplicit false

/-! # Several I/O queues on one medium

Every thread of a client has an I/O queue of its own; the queues of a device share memory and medium. Here
the steps of the threads, of the controller on each of the queues, and the client's writes to memory are
interleaved in any order (`BlockDevice.Act`): a thread is stopped between any two of its steps, and the
controller works on one queue while another is in the middle of a call. A request is under way from the
moment its descriptor has been taken into use to the moment it is released. The store is the same as for one
queue, with pairs of a queue and a descriptor as handles (`BlockDevice.simulates`).

What a queue needs of the others is that they leave its PRP lists and its requests alone
(`BlockQueue.Holds.rely`), and that is what the steps of a queue guarantee. -/

namespace Unvme.Store

open Unvme.Lib Unvme.Nvme Unvme.Core

/-- The I/O queues of a device, each with PRP lists of its own. -/
structure BlockDevice (E : Env) where
  qcount : ℕ
  ioqs : Fin qcount → BlockQueue E
  apart : ∀ i j, i ≠ j → ∀ a, (ioqs i).InList a → ¬ (ioqs j).InList a

/-- A queue with the memory and medium that are there now. -/
def Sys.on (s : Sys) (mem disk : ℕ → ℕ) : Sys := { s with dev := { s.dev with mem := mem, disk := disk } }

/-- The state of all queues, with the point each thread has reached. Memory and medium are shared; those in
    `sys` are not looked at. -/
structure Queues (n : ℕ) where
  sys : Fin n → Sys
  pc : Fin n → Pc
  mem : ℕ → ℕ
  disk : ℕ → ℕ

namespace Queues

variable {n : ℕ}

/-- Queue `i` as its thread and the controller see it. -/
def view (S : Queues n) (i : Fin n) : Sys := Sys.on (S.sys i) S.mem S.disk

/-- Queue `i` has made a step. -/
def put (S : Queues n) (i : Fin n) (s : Sys) (pc : Pc) : Queues n :=
  ⟨Function.update S.sys i s, Function.update S.pc i pc, s.dev.mem, s.dev.disk⟩

@[simp] theorem view_put_self (S : Queues n) (i : Fin n) (s : Sys) (pc : Pc) :
    (S.put i s pc).view i = s := by
  simp [view, put, Sys.on]

@[simp] theorem pc_put_self (S : Queues n) (i : Fin n) (s : Sys) (pc : Pc) : (S.put i s pc).pc i = pc := by
  simp [put]

theorem view_put_of_ne (S : Queues n) {i j : Fin n} (h : j ≠ i) (s : Sys) (pc : Pc) :
    (S.put i s pc).view j = Sys.on (S.view j) s.dev.mem s.dev.disk := by
  simp [view, put, Sys.on, h]

theorem pc_put_of_ne (S : Queues n) {i j : Fin n} (h : j ≠ i) (s : Sys) (pc : Pc) :
    (S.put i s pc).pc j = S.pc j := by
  simp [put, h]

theorem put_put (S : Queues n) (i : Fin n) (s s' : Sys) (pc pc' : Pc) :
    (S.put i s pc).put i s' pc' = S.put i s' pc' := by
  simp [put]

end Queues

/-- The client's handle for descriptor `d` of queue `i`. -/
def handle {n : ℕ} (i : Fin n) (d : ℕ) : ℕ := Nat.pair i d

theorem handle_inj {n : ℕ} {i j : Fin n} {d e : ℕ} (h : handle i d = handle j e) : i = j ∧ d = e := by
  obtain ⟨hi, hd⟩ := Nat.pair_eq_pair.1 h
  exact ⟨Fin.ext hi, hd⟩

theorem update_handle {n : ℕ} {α : Type} (i : Fin n) (p : ℕ → α) (d : ℕ) (v : α) :
    (fun e => Function.update p (handle i d) v (handle i e))
      = Function.update (fun e => p (handle i e)) d v :=
  Function.update_comp_eq_of_injective p (fun _ _ h => (handle_inj h).2) d v

section

variable {E : Env} (D : BlockDevice E)

/-- What the client sees to before it submits: as for one queue, with the requests of all queues. -/
structure BlockDevice.Fit (S : Queues D.qcount) (opc buf slba nlb : ℕ) : Prop where
  readWrite : opc = nvmeCmdRead ∨ opc = nvmeCmdWrite
  buffer : ∃ b, ClientBlock E b ∧ b.start = buf ∧ nlb <<< E.ns.blockshift ≤ b.size
  range : ∀ i, slba + nlb ≤ (D.ioqs i).blockcount
  clear : ∀ i a, (request E.ns opc buf slba nlb).InBuf a → ¬ (D.ioqs i).InList a
  apart : ∀ i, ∀ d ∈ (S.sys i).q.usedDescs,
    (transfer E.ns ((S.sys i).q.desc d)).Apart (request E.ns opc buf slba nlb)

/-- What threads, controller and client do, one step at a time. `take` is the start of `unvme_do_rw`; a step
    of a thread or of the controller between the start of a request and its end is a `work`; `release` is
    the end of a poll after which nothing of the request is pending. That all of it has been submitted
    before is so from the end of its `unvme_do_rw` on (`Refines.rw_woven`), whatever the other threads do in
    the meantime (`Submitted.trace`). -/
inductive BlockDevice.Act (S : Queues D.qcount) : Option (Event ℕ) → Queues D.qcount → Prop
  | take (i : Fin D.qcount) (qid : ℤ) {opc buf slba nlb d : ℕ} {s : Sys} (hpc : S.pc i = .idle)
      (hl : D.Fit S opc buf slba nlb) (hs : rwStart qid opc buf slba nlb (S.view i) = (d, s)) :
      Act S (some (.submitted (handle i d) (request E.ns opc buf slba nlb))) (S.put i s .idle)
  | work (i : Fin D.qcount) {s : Sys} {pc : Pc}
      (hs : Step E (D.ioqs i).guards (S.view i, S.pc i) (s, pc))
      (hused : s.q.usedDescs = (S.view i).q.usedDescs) : Act S none (S.put i s pc)
  | release (i : Fin D.qcount) (d : ℕ) (r : ℤ) (hpc : S.pc i = .idle) (hd : d ∈ (S.view i).q.usedDescs)
      (h0 : ((S.view i).q.desc d).cidcount = 0)
      (hc : Sys.Covered E.ns (S.view i) d (transfer E.ns ((S.view i).q.desc d)))
      (hr : ((S.view i).q.desc d).error = 0 → r = 0) :
      Act S (some (.polled (handle i d) r (((S.view i).q.desc d).error == 0)))
        (S.put i { S.view i with q := unvmeDescPut (S.view i).q d } .idle)
  | store (w : ℕ → Option ℕ)
      (hl : ∀ a i, (∃ d ∈ (S.sys i).q.usedDescs, (transfer E.ns ((S.sys i).q.desc d)).InBuf a) ∨
        (D.ioqs i).InList a → w a = none) :
      Act S (some (.stored w)) { S with mem := fun a => (w a).getD (S.mem a) }

/-- The requests of queue `i`, with memory and medium as they are now. -/
def Flat.part {n : ℕ} (t : Flat ℕ) (i : Fin n) (mem disk : ℕ → ℕ) : Flat ℕ :=
  ⟨disk, mem, fun d => t.pending (handle i d)⟩

/-- The state of all queues is one of the store. -/
structure BlockDevice.Refines (S : Queues D.qcount) (t : Flat ℕ) : Prop where
  inv : ∀ i, (S.view i).Inv (S.pc i)
  holds : ∀ i, (D.ioqs i).Holds (t.part i S.mem S.disk) (S.view i) (S.pc i)
  handles : ∀ h x, t.pending h = some x → ∃ (i : Fin D.qcount) (d : ℕ), h = handle i d
  wf : t.Wf
  clear : ∀ h x, t.pending h = some x → ∀ a, x.InBuf a → ∀ i, ¬ (D.ioqs i).InList a
  disk : ∀ b, (∀ h x, t.pending h = some x → ¬ x.Fills b) → S.disk b = t.store b
  mem : ∀ a, (∀ i, ¬ (D.ioqs i).InList a) → (∀ h x, t.pending h = some x → ¬ x.Loads a) →
    S.mem a = t.mem a

end

/-! ## What a queue relies on -/

section

variable {E : Env} {Q : BlockQueue E} {t : Flat ℕ} {s : Sys} {pc : Pc}

/-- Memory and medium may change outside of the queue's lists and requests. -/
theorem BlockQueue.Holds.rely (h : Q.Holds t s pc) {mem disk : ℕ → ℕ}
    (hlist : ∀ a, Q.InList a → mem a = s.dev.mem a)
    (hbuf : ∀ d x, t.pending d = some x → ∀ a, x.InBuf a → mem a = s.dev.mem a)
    (hpos : ∀ d x, t.pending d = some x → ∀ b, x.InPos b → disk b = s.dev.disk b) :
    Q.Holds ⟨disk, mem, t.pending⟩ (Sys.on s mem disk) pc := by
  have hdata := h.data
  refine ⟨h.prplist, h.size, ?_, h.log, ?_, ?_⟩
  · refine ⟨hdata.pending, hdata.apart, hdata.clear, hdata.issued, hdata.loaded, ?_, fun _ _ => rfl,
      fun _ _ _ => rfl⟩
    intro d x hx k hk sub hsub he i hi
    have hmoved := hdata.done d x hx k hk sub hsub he i hi
    obtain ⟨off, hle, hb, hp⟩ := (hdata.issued d x hx k hk sub hsub).piece.part
    show disk _ = mem _
    rw [hpos d x hx _ ⟨by omega, by omega⟩, hbuf d x hx _ ⟨by omega, by omega⟩]
    exact hmoved
  · exact h.lists.congr rfl hlist rfl (fun _ _ hp => hp) (fun _ hb => hb)
  · cases pc <;> exact h.hand

/-- Memory and medium as they are now may stand for those of the store. -/
theorem BlockQueue.Holds.rebase (h : Q.Holds t s pc) :
    Q.Holds ⟨s.dev.disk, s.dev.mem, t.pending⟩ s pc :=
  h.rely (fun _ _ => rfl) (fun _ _ _ _ _ => rfl) (fun _ _ _ _ _ => rfl)

end

/-! ## One queue makes a step -/

section

variable {E : Env} {D : BlockDevice E} {S : Queues D.qcount} {t : Flat ℕ}

/-- Requests of different queues share nothing. -/
theorem BlockDevice.Refines.other (h : D.Refines S t) {i j : Fin D.qcount} (hij : j ≠ i) {d e : ℕ}
    {x y : Transfer} (hx : t.pending (handle i d) = some x) (hy : t.pending (handle j e) = some y) :
    y.Apart x :=
  h.wf _ _ y x (fun heq => hij (handle_inj heq).1) hy hx

/-- Queue `i` has made a step that kept to its lists and requests, and the store one for a request of the
    queue. -/
theorem BlockDevice.Refines.put (h : D.Refines S t) (i : Fin D.qcount) {s' : Sys} {pc' : Pc} {t' : Flat ℕ}
    (hinv : s'.Inv pc') (hi : (D.ioqs i).Holds (t'.part i s'.dev.mem s'.dev.disk) s' pc')
    (hdisk : ∀ b, (∀ d x, t.pending (handle i d) = some x → ¬ x.Fills b) → s'.dev.disk b = S.disk b)
    (hmem : ∀ a, ¬ (D.ioqs i).InList a → (∀ d x, t.pending (handle i d) = some x → ¬ x.Loads a) →
      s'.dev.mem a = S.mem a)
    (hothers : ∀ j, j ≠ i → ∀ d, t'.pending (handle j d) = t.pending (handle j d))
    (hhandles : ∀ h x, t'.pending h = some x → ∃ (i : Fin D.qcount) (d : ℕ), h = handle i d)
    (hwf : t'.Wf) (hclear : ∀ h x, t'.pending h = some x → ∀ a, x.InBuf a → ∀ i, ¬ (D.ioqs i).InList a)
    (hstore : ∀ b, (∀ h x, t'.pending h = some x → ¬ x.Fills b) → s'.dev.disk b = t'.store b)
    (hclient : ∀ a, (∀ i, ¬ (D.ioqs i).InList a) → (∀ h x, t'.pending h = some x → ¬ x.Loads a) →
      s'.dev.mem a = t'.mem a) : D.Refines (S.put i s' pc') t' := by
  refine ⟨?_, ?_, hhandles, hwf, hclear, hstore, hclient⟩
  · intro j
    by_cases hji : j = i
    · subst hji
      rw [Queues.view_put_self, Queues.pc_put_self]
      exact hinv
    · rw [Queues.view_put_of_ne S hji, Queues.pc_put_of_ne S hji]
      exact (h.inv j).withMemory _ _
  · intro j
    by_cases hji : j = i
    · subst hji
      rw [Queues.view_put_self, Queues.pc_put_self]
      exact hi
    · rw [Queues.view_put_of_ne S hji, Queues.pc_put_of_ne S hji]
      have hpart : t'.part j s'.dev.mem s'.dev.disk
          = ⟨s'.dev.disk, s'.dev.mem, (t.part j S.mem S.disk).pending⟩ := by
        unfold Flat.part
        rw [funext (hothers j hji)]
      show (D.ioqs j).Holds (t'.part j s'.dev.mem s'.dev.disk) _ _
      rw [hpart]
      refine (h.holds j).rely ?_ ?_ ?_
      · intro a ha
        refine hmem a (D.apart j i hji a ha) ?_
        rintro d x hx ⟨-, hin⟩
        exact h.clear _ x hx a hin j ha
      · intro e y hy a ha
        refine hmem a (h.clear _ y hy a ha i) ?_
        rintro d x hx ⟨-, hin⟩
        exact (h.other hji hx hy).buf a ha hin
      · intro e y hy b hb
        refine hdisk b ?_
        rintro d x hx ⟨-, hin⟩
        exact (h.other hji hx hy).pos b hb hin

/-- A step of a thread, or of the controller for it, is not seen in the store. -/
theorem BlockDevice.Refines.work (h : D.Refines S t) {i : Fin D.qcount} {s : Sys} {pc : Pc}
    (hs : Step E (D.ioqs i).guards (S.view i, S.pc i) (s, pc))
    (hused : s.q.usedDescs = (S.view i).q.usedDescs) : D.Refines (S.put i s pc) t := by
  have hholds := (h.holds i).step (h.inv i) hs hused
  have hdisk : ∀ b, (∀ d x, t.pending (handle i d) = some x → ¬ x.Fills b) → s.dev.disk b = S.disk b :=
    hholds.data.disk
  have hmem : ∀ a, ¬ (D.ioqs i).InList a → (∀ d x, t.pending (handle i d) = some x → ¬ x.Loads a) →
      s.dev.mem a = S.mem a := hholds.data.mem
  refine h.put i (hs.inv (h.inv i)) hholds.rebase hdisk hmem (fun _ _ _ => rfl) h.handles h.wf h.clear
    ?_ ?_
  · exact fun b hb => (hdisk b (fun d x hx => hb _ x hx)).trans (h.disk b hb)
  · exact fun a ha hl => (hmem a (ha i) (fun d x hx => hl _ x hx)).trans (h.mem a ha hl)

/-- **A request is taken up.** -/
theorem BlockDevice.Refines.take (h : D.Refines S t) {i : Fin D.qcount} {qid : ℤ}
    {opc buf slba nlb d : ℕ} {s : Sys} (hpc : S.pc i = .idle) (hl : D.Fit S opc buf slba nlb)
    (hs : rwStart qid opc buf slba nlb (S.view i) = (d, s)) :
    Flat.Step t (.submitted (handle i d) (request E.ns opc buf slba nlb))
        (t.submit (handle i d) (request E.ns opc buf slba nlb)) ∧
      D.Refines (S.put i s .idle) (t.submit (handle i d) (request E.ns opc buf slba nlb)) := by
  have hinv := h.inv i
  have hholds := h.holds i
  rw [hpc] at hinv hholds
  obtain ⟨hinv', ht, hrw⟩ := rwStart_takes E hinv hs
  have hlocal : (D.ioqs i).Fit (S.view i) opc buf slba nlb :=
    ⟨hl.readWrite, hl.buffer, hl.range i, hl.clear i, hl.apart i⟩
  have hnone : t.pending (handle i d) = none := by
    cases hp : t.pending (handle i d) with
    | none => rfl
    | some x => exact absurd ((hholds.data.pending d x).1 hp).1 ht.fresh
  have hfree : t.Free (request E.ns opc buf slba nlb) := by
    intro k x hx
    obtain ⟨j, e, rfl⟩ := h.handles k x hx
    obtain ⟨he, rfl⟩ := ((h.holds j).data.pending e x).1 hx
    exact hl.apart j e he
  have hflat : Flat.Step t _ _ := .submitted (handle i d) _ hnone hfree
  refine ⟨hflat, ?_⟩
  have hkeep : ∀ k x, t.pending k = some x →
      (t.submit (handle i d) (request E.ns opc buf slba nlb)).pending k = some x := by
    intro k x hx
    rw [Flat.submit_pending_of_ne ?_]
    · exact hx
    · rintro rfl
      rw [hnone] at hx
      cases hx
  have hcase : ∀ k x, (t.submit (handle i d) (request E.ns opc buf slba nlb)).pending k = some x →
      t.pending k = some x ∨ k = handle i d ∧ x = request E.ns opc buf slba nlb := by
    intro k x hx
    rcases hflat.pending_of hx with hold | hnew
    · exact Or.inl hold
    · rw [Event.submitted.injEq] at hnew
      exact Or.inr ⟨hnew.1.symm, hnew.2.symm⟩
  have hmem : s.dev.mem = S.mem := by rw [ht.dev]; rfl
  have hdisk : s.dev.disk = S.disk := by rw [ht.dev]; rfl
  refine h.put i hinv' ?_ (fun b _ => congrFun hdisk b) (fun a _ _ => congrFun hmem a) ?_ ?_
    (hflat.wf h.wf) ?_ ?_ ?_
  · have hpart : (t.submit (handle i d) (request E.ns opc buf slba nlb)).part i S.mem S.disk
        = (t.part i S.mem S.disk).submit d (request E.ns opc buf slba nlb) := by
      unfold Flat.part Flat.submit
      congr 1
      exact update_handle i t.pending d _
    rw [hmem, hdisk, hpart]
    exact hholds.takes ht hrw hlocal
  · intro j hji e
    exact Flat.submit_pending_of_ne (fun heq => hji (handle_inj heq).1)
  · intro k x hx
    rcases hcase k x hx with hold | ⟨rfl, -⟩
    · exact h.handles k x hold
    · exact ⟨i, d, rfl⟩
  · intro k x hx a ha j
    rcases hcase k x hx with hold | ⟨-, rfl⟩
    · exact h.clear k x hold a ha j
    · exact hl.clear j a ha
  · intro b hb
    rw [hdisk]
    exact h.disk b (fun k x hx => hb k x (hkeep k x hx))
  · intro a ha hload
    rw [hmem]
    exact h.mem a ha (fun k x hx => hload k x (hkeep k x hx))

/-- **A request is released**: it has been carried out, or it has failed. -/
theorem BlockDevice.Refines.release (h : D.Refines S t) {i : Fin D.qcount} {d : ℕ} {r : ℤ}
    (hpc : S.pc i = .idle) (hd : d ∈ (S.view i).q.usedDescs) (h0 : ((S.view i).q.desc d).cidcount = 0)
    (hc : Sys.Covered E.ns (S.view i) d (transfer E.ns ((S.view i).q.desc d)))
    (hr : ((S.view i).q.desc d).error = 0 → r = 0) :
    ∃ t', Flat.Step t (.polled (handle i d) r (((S.view i).q.desc d).error == 0)) t' ∧
      D.Refines (S.put i { S.view i with q := unvmeDescPut (S.view i).q d } .idle) t' := by
  have hinv := h.inv i
  have hholds := h.holds i
  rw [hpc] at hinv hholds
  generalize hx : transfer E.ns ((S.view i).q.desc d) = x at hc
  have hpend : t.pending (handle i d) = some x := (hholds.data.pending d x).2 ⟨hd, hx.symm⟩
  have hput : Step E Guards.any (S.view i, .idle) ({ S.view i with q := unvmeDescPut (S.view i).q d },
    .idle) := Step.put (S.view i) d hd h0
  -- the store is left with what medium and memory have for the request
  have hmain : ∀ t' : Flat ℕ, t'.pending = Function.update t.pending (handle i d) none → t'.Wf →
      (∀ b, x.Fills b → S.disk b = t'.store b) → (∀ b, ¬ x.Fills b → t'.store b = t.store b) →
      (∀ a, x.Loads a → S.mem a = t'.mem a) → (∀ a, ¬ x.Loads a → t'.mem a = t.mem a) →
      D.Refines (S.put i { S.view i with q := unvmeDescPut (S.view i).q d } .idle) t' := by
    intro t' ht' hwf hfills hstore hloads hmem
    have hquiet : ∀ P : Transfer → Prop, ¬ P x → (∀ k y, t'.pending k = some y → ¬ P y) →
        ∀ k y, t.pending k = some y → ¬ P y := by
      intro P hP hall k y hy
      by_cases hk : k = handle i d
      · subst hk
        rw [hpend, Option.some.injEq] at hy
        subst hy
        exact hP
      · exact hall k y ((Flat.pending_release ht').2 ⟨hk, hy⟩)
    refine h.put i (hput.inv hinv) ?_ (fun _ _ => rfl) (fun _ _ _ => rfl) ?_ ?_ hwf ?_ ?_ ?_
    · refine hholds.release hinv (x := x) hpend h0 ?_ (fun _ _ => rfl) (fun _ _ => rfl) (fun _ _ => rfl)
        (fun _ _ => rfl)
      show (fun e => t'.pending (handle i e)) = _
      rw [ht']
      exact update_handle i t.pending d none
    · intro j hji e
      rw [ht', Function.update_of_ne (fun heq => hji (handle_inj heq).1)]
    · exact fun k y hy => h.handles k y ((Flat.pending_release ht').1 hy).2
    · exact fun k y hy => h.clear k y ((Flat.pending_release ht').1 hy).2
    · intro b hb
      by_cases hin : x.Fills b
      · exact hfills b hin
      · rw [hstore b hin]
        exact h.disk b (hquiet (fun y => y.Fills b) hin hb)
    · intro a ha hl
      by_cases hin : x.Loads a
      · exact hloads a hin
      · rw [hmem a hin]
        exact h.mem a ha (hquiet (fun y => y.Loads a) hin hl)
  by_cases herr : ((S.view i).q.desc d).error = 0
  · obtain rfl := hr herr
    rw [herr, beq_self_eq_true]
    have hflat : Flat.Step t _ _ := .complete (handle i d) x hpend
    refine ⟨_, hflat, ?_⟩
    have hall : ∀ k ∈ ((S.view i).q.desc d).cmds, Executed (S.view i).dev k := by
      intro k hk
      obtain ⟨e, he⟩ := History.mem_reapedSeqs.1 (hinv.all_reaped hd h0 k hk)
      exact Executed.of_reaped he (hinv.acc.noError d hd herr k hk e he)
    obtain ⟨hfills, hloads⟩ : (∀ b, x.Fills b → S.disk b = (t.complete (handle i d) x).store b) ∧
        ∀ a, x.Loads a → S.mem a = (t.complete (handle i d) x).mem a :=
      Flat.complete_agrees (hholds.data.moved hpend hc hall)
        (fun hw a ha => h.mem a (h.clear _ x hpend a ha) (h.wf.not_loads hpend hw ha))
        (fun hread b hb => h.disk b (h.wf.not_fills hpend hread hb))
    exact hmain _ rfl (hflat.wf h.wf) hfills (fun b hb => Flat.complete_store_of_not_fills hb) hloads
      (fun a ha => Flat.complete_mem_of_not_loads ha)
  · rw [beq_eq_false_iff_ne.2 herr]
    have hflat : Flat.Step t (.polled (handle i d) r false)
        ⟨fun b => if x.Fills b then S.disk b else t.store b, fun a => if x.Loads a then S.mem a else t.mem a,
          Function.update t.pending (handle i d) none⟩ :=
      .failed (handle i d) x r _ _ hpend (fun b hb => if_neg hb) (fun a ha => if_neg ha)
    exact ⟨_, hflat, hmain _ rfl (hflat.wf h.wf) (fun b hb => (if_pos hb).symm) (fun b hb => if_neg hb)
      (fun a ha => (if_pos ha).symm) (fun a ha => if_neg ha)⟩

/-- The client writes to memory that no request uses. -/
theorem BlockDevice.Refines.store (h : D.Refines S t) {w : ℕ → Option ℕ}
    (hl : ∀ a i, (∃ d ∈ (S.sys i).q.usedDescs, (transfer E.ns ((S.sys i).q.desc d)).InBuf a) ∨
      (D.ioqs i).InList a → w a = none) :
    Flat.Step t (.stored w) (t.write w) ∧
      D.Refines { S with mem := fun a => (w a).getD (S.mem a) } (t.write w) := by
  have hbuf : ∀ k x, t.pending k = some x → ∀ a, x.InBuf a → w a = none := by
    intro k x hx a ha
    obtain ⟨i, d, rfl⟩ := h.handles k x hx
    obtain ⟨hd, rfl⟩ := ((h.holds i).data.pending d x).1 hx
    exact hl a i (Or.inl ⟨d, hd, ha⟩)
  have hsame : ∀ a, w a = none → (w a).getD (S.mem a) = S.mem a := by
    intro a ha
    rw [ha, Option.getD_none]
  refine ⟨.stored w hbuf, fun i => (h.inv i).withMemory _ _, ?_, h.handles, h.wf, h.clear, h.disk, ?_⟩
  · intro i
    have hlist : ∀ a, (D.ioqs i).InList a → (w a).getD (S.mem a) = (S.view i).dev.mem a := by
      exact fun a ha => hsame a (hl a i (Or.inr ha))
    refine (h.holds i).rely hlist ?_ (fun _ _ _ _ _ => rfl)
    exact fun d x hx a ha => hsame a (hbuf _ x hx a ha)
  · exact fun a ha hload => congrArg (w a).getD (h.mem a ha hload)

/-- **The queues of a device simulate one flat block store.** -/
theorem BlockDevice.simulates (D : BlockDevice E) : Simulates D.Act Flat.Step D.Refines := by
  intro S t o S' h hact
  cases hact with
  | take i qid hpc hl hs =>
      obtain ⟨hstep, h'⟩ := h.take hpc hl hs
      exact ⟨_, hstep, h'⟩
  | work i hs hused => exact h.work hs hused
  | release i d r hpc hd h0 hc hr => exact h.release hpc hd h0 hc hr
  | store w hl =>
      obtain ⟨hstep, h'⟩ := h.store hl
      exact ⟨_, hstep, h'⟩

/-! ## What has been submitted stays submitted -/

/-- **No step takes anything from a request under way**, on whichever queue it is, unless it releases it. -/
theorem BlockDevice.Act.keeps (h : D.Refines S t) {o : Option (Event ℕ)} {S' : Queues D.qcount}
    (hact : D.Act S o S') {i : Fin D.qcount} {d : ℕ} (hd : d ∈ (S.view i).q.usedDescs)
    (ho : ∀ r good, o ≠ some (.polled (handle i d) r good)) : Sys.Keeps d (S.view i) (S'.view i) := by
  have hother : ∀ j s pc, i ≠ j → Sys.Keeps d (S.view i) ((S.put j s pc).view i) := by
    intro j s pc hij
    rw [Queues.view_put_of_ne S hij]
    exact Sys.Keeps.of_queue rfl rfl
  cases hact with
  | @take j qid opc buf slba nlb e s hpc hl hs =>
      by_cases hij : i = j
      · subst hij
        have hinv := h.inv i
        rw [hpc] at hinv
        obtain ⟨-, ht, -⟩ := rwStart_takes E hinv hs
        have hne : d ≠ e := fun heq => ht.fresh (heq ▸ hd)
        rw [Queues.view_put_self]
        refine ⟨fun _ => ?_, ?_, ?_, by rw [ht.dev]⟩
        · rw [ht.used]
          exact List.mem_append_left _ hd
        · rw [ht.desc d hne]
          exact Desc.SameRequest.refl _
        · rw [ht.desc d hne]
          exact List.Subset.refl _
      · exact hother j _ _ hij
  | work j hs hused =>
      by_cases hij : i = j
      · subst hij
        rw [Queues.view_put_self]
        exact Step.keeps (h.inv i) hs hused d
      · exact hother j _ _ hij
  | release j e r hpc he h0 hc hr =>
      by_cases hij : i = j
      · subst hij
        have hne : d ≠ e := fun heq => ho _ _ (by rw [heq])
        have hinv := h.inv i
        rw [hpc] at hinv
        obtain ⟨herase, -, -⟩ := hinv.acc.descPut he h0
        rw [Queues.view_put_self]
        refine ⟨fun _ => ?_, Desc.SameRequest.refl _, List.Subset.refl _, List.prefix_rfl⟩
        show d ∈ (unvmeDescPut (S.view i).q e).usedDescs
        rw [herase]
        exact (List.mem_erase_of_ne hne).2 hd
      · exact hother j _ _ hij
  | store w hl => exact Sys.Keeps.of_queue rfl rfl

/-- Descriptor `d` of queue `i` is in use, and all of its request has been submitted. -/
def BlockDevice.Submitted (D : BlockDevice E) (S : Queues D.qcount) (i : Fin D.qcount) (d : ℕ) : Prop :=
  d ∈ (S.view i).q.usedDescs ∧ Sys.Covered E.ns (S.view i) d (transfer E.ns ((S.view i).q.desc d))

theorem BlockDevice.Submitted.keeps {S' : Queues D.qcount} {i : Fin D.qcount} {d : ℕ}
    (h : D.Submitted S i d) (hk : Sys.Keeps d (S.view i) (S'.view i)) : D.Submitted S' i d := by
  refine ⟨hk.used h.1, ?_⟩
  rw [transfer_congr hk.desc]
  exact h.2.mono hk.cmds hk.subs

/-- **A request stays submitted until it is released**, however the threads, the controller and the client
    go on. -/
theorem BlockDevice.Submitted.trace {S' : Queues D.qcount} {log : List (Event ℕ)} {i : Fin D.qcount}
    {d : ℕ} (hsub : D.Submitted S i d) (h : D.Refines S t) (hrun : Trace D.Act S log S')
    (hlog : ∀ r good, Event.polled (handle i d) r good ∉ log) : D.Submitted S' i d := by
  induction hrun with
  | nil => exact hsub
  | @step log S₁ S₂ o hfirst hact ih =>
      obtain ⟨t₁, -, h₁⟩ := D.simulates.trace h hfirst
      have h₂ := ih (fun r good hin => hlog r good (List.mem_append_left _ hin))
      refine h₂.keeps (hact.keeps h₁ h₂.1 ?_)
      rintro r good rfl
      exact hlog r good (List.mem_append_right _ (List.mem_singleton_self _))

end

end Unvme.Store
