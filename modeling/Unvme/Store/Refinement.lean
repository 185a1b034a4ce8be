import Unvme.Core.PrpRegion
import Unvme.Store.Requests
import Unvme.Store.TransferSteps

set_option autoImplicit false

/-! # Driver and controller as a flat block store

A client of one I/O queue submits reads and writes, polls, and writes to its memory; the controller acts
during the calls and between them. `BlockQueue.Act` lists these, with what the client sees of each, and
`BlockQueue.Refines` relates the state between them to a state of the flat block store: every run is one
of the store, with the same log (`BlockQueue.simulates`). -/

namespace Unvme.Store

open Unvme.Lib Unvme.Nvme Unvme.Core Unvme.Aurora

section

variable {E : Env} (Q : BlockQueue E)

/-- What the client sees to before it submits: the buffer is one of its blocks of DMA memory, the blocks
    exist, and neither is used by another request under way. -/
structure BlockQueue.Fit (s : Sys) (opc buf slba nlb : ℕ) : Prop where
  readWrite : opc = nvmeCmdRead ∨ opc = nvmeCmdWrite
  buffer : ∃ b, ClientBlock E b ∧ b.start = buf ∧ nlb <<< E.ns.blockshift ≤ b.size
  range : slba + nlb ≤ Q.blockcount
  clear : ∀ a, (request E.ns opc buf slba nlb).InBuf a → ¬ Q.InList a
  apart : ∀ d ∈ s.q.usedDescs, (transfer E.ns (s.q.desc d)).Apart (request E.ns opc buf slba nlb)

/-- What client and controller do between two states with no call running. A poll went well if the
    descriptor has no error. -/
inductive BlockQueue.Act (s : Sys) : Option (Event ℕ) → Sys → Prop
  | submit (qid : ℤ) {opc buf slba nlb d : ℕ} (σ : List (List CtlAct)) {s' : Sys}
      (hl : Q.Fit s opc buf slba nlb)
      (hr : unvmeDoRw E qid opc buf slba nlb (s.withSched σ) = .ok d s') :
      Act s (some (.submitted d (request E.ns opc buf slba nlb))) s'
  | poll (d : ℕ) (timeout : ℤ) (σ : List (List CtlAct)) {r : ℤ} {cs : Option ℕ} {s' : Sys}
      (hd : d ∈ s.q.usedDescs) (hr : unvmeDoPoll E d timeout (s.withSched σ) = .ok (r, cs) s') :
      Act s (some (.polled d r ((s'.q.desc d).error == 0))) s'
  | store (w : ℕ → Option ℕ)
      (hl : ∀ a, (∃ d ∈ s.q.usedDescs, (transfer E.ns (s.q.desc d)).InBuf a) ∨ Q.InList a → w a = none) :
      Act s (some (.stored w)) { s with dev := { s.dev with mem := fun a => (w a).getD (s.dev.mem a) } }
  | idle (acts : List CtlAct) : Act s none { s with dev := acts.foldl (Device.act E.media) s.dev }

/-- Byte `i` of a transfer is moved by the command. -/
def Sub.Covers (ns : Ns) (x : Transfer) (sub : Sub) (i : ℕ) : Prop :=
  ∃ off, off ≤ i ∧ i < off + sub.bufsz ∧ sub.buf = x.buf + off ∧
    sub.entry.dataPos ns.blockshift = x.pos + off

/-- Every byte of the transfer is moved by one of the commands submitted for descriptor `d`. -/
def Sys.Covered (ns : Ns) (s : Sys) (d : ℕ) (x : Transfer) : Prop :=
  ∀ i < x.len, ∃ k ∈ (s.q.desc d).cmds, ∃ sub, s.dev.hist.subs[k]? = some sub ∧ Sub.Covers ns x sub i

/-- It stays so as commands are added. -/
theorem Sys.Covered.mono {ns : Ns} {s s' : Sys} {d : ℕ} {x : Transfer} (h : Sys.Covered ns s d x)
    (hcmds : (s.q.desc d).cmds ⊆ (s'.q.desc d).cmds) (hsubs : s.dev.hist.subs <+: s'.dev.hist.subs) :
    Sys.Covered ns s' d x := by
  intro i hi
  obtain ⟨k, hk, sub, hsub, hcovers⟩ := h i hi
  obtain ⟨new, hnew⟩ := hsubs
  refine ⟨k, hcmds hk, sub, ?_, hcovers⟩
  rw [← hnew, List.getElem?_append_left (List.getElem?_eq_some_iff.1 hsub).1]
  exact hsub

theorem Sys.Covered.congr {ns : Ns} {s s' : Sys} {d : ℕ} {x : Transfer} (h : Sys.Covered ns s d x)
    (hcmds : (s'.q.desc d).cmds = (s.q.desc d).cmds) (hsubs : s.dev.hist.subs <+: s'.dev.hist.subs) :
    Sys.Covered ns s' d x := by
  refine h.mono ?_ hsubs
  rw [hcmds]
  exact List.Subset.refl _

/-- The state of queue, controller and memory is one of the store. -/
structure BlockQueue.Refines (s : Sys) (t : Flat ℕ) : Prop where
  inv : s.Inv .idle
  holds : Q.Holds t s .idle
  covered : ∀ d x, t.pending d = some x → Sys.Covered E.ns s d x

end

section

variable {E : Env} {Q : BlockQueue E} {s s' : Sys} {t : Flat ℕ}

/-! ## Waiting -/

/-- What only reaps completions is not seen in the store. -/
theorem BlockQueue.Refines.of_reaps (h : Q.Refines s t) {n : ℕ}
    (hst : Steps E Q.guards (s, .idle) (s', .idle)) (hr : s.Reaps s' n) : Q.Refines s' t := by
  refine ⟨hst.inv h.inv, h.holds.steps h.inv hst (hr 0).used, ?_⟩
  intro d x hx
  refine (h.covered d x hx).congr ?_ ?_
  · rw [(hr d).own, List.length_nil, List.range'_zero, List.append_nil]
  · rw [(hr d).subs]
    exact List.prefix_append _ _

theorem BlockQueue.Refines.withSched (h : Q.Refines s t) (σ : List (List CtlAct)) :
    Q.Refines (s.withSched σ) t :=
  h.of_reaps ((Steps.refl _).tail (Step.sched s .idle σ))
    (Sys.Reaps.later ⟨rfl, rfl, rfl, rfl, rfl, rfl, List.prefix_rfl, rfl⟩ rfl)

theorem BlockQueue.Refines.idle (h : Q.Refines s t) (acts : List CtlAct) :
    Q.Refines { s with dev := acts.foldl (Device.act E.media) s.dev } t := by
  have hsteps := Round.steps (E := E) (G := Q.guards) (r := .idle acts) h.inv trivial rfl
  rcases hsteps with hst | ⟨mem, hr, -⟩
  · exact h.of_reaps hst (Sys.Reaps.later (Device.Later.acts s.dev E.media acts) rfl)
  · cases hr

/-! ## Client stores -/

/-- The client writes to memory that is not in use. -/
theorem BlockQueue.Refines.store (h : Q.Refines s t) {w : ℕ → Option ℕ}
    (hl : ∀ a, (∃ d ∈ s.q.usedDescs, (transfer E.ns (s.q.desc d)).InBuf a) ∨ Q.InList a → w a = none) :
    Flat.Step t (.stored w) (t.write w) ∧
      Q.Refines { s with dev := { s.dev with mem := fun a => (w a).getD (s.dev.mem a) } } (t.write w) := by
  have hdata := h.holds.data
  have hbuf : ∀ d x, t.pending d = some x → ∀ a, x.InBuf a → w a = none := by
    intro d x hx a ha
    obtain ⟨hd, rfl⟩ := (hdata.pending d x).1 hx
    exact hl a (Or.inl ⟨d, hd, ha⟩)
  have hlist : ∀ a, Q.InList a → (w a).getD (s.dev.mem a) = s.dev.mem a := by
    intro a ha
    rw [hl a (Or.inr ha), Option.getD_none]
  refine ⟨.stored w hbuf, h.inv.later ⟨rfl, rfl, rfl, rfl, rfl, rfl, List.prefix_rfl, rfl⟩
    (h.inv.dev.mem _), ⟨h.holds.prplist, h.holds.size, ?_, h.holds.log, ?_, trivial⟩, h.covered⟩
  · refine ⟨hdata.pending, hdata.apart, hdata.clear, hdata.issued, hdata.loaded, ?_, hdata.disk, ?_⟩
    · intro d x hx k hk sub hsub he i hi
      have hmoved := hdata.done d x hx k hk sub hsub he i hi
      obtain ⟨off, hle, hb, -⟩ := (hdata.issued d x hx k hk sub hsub).piece.part
      have hnone := hbuf d x hx (sub.buf + i) ⟨by omega, by omega⟩
      show _ = (w (sub.buf + i)).getD _
      rw [hnone]
      exact hmoved
    · intro a ha hloads
      exact congrArg (w a).getD (hdata.mem a ha hloads)
  · exact h.holds.lists.congr rfl hlist rfl (fun _ _ hp => hp) (fun _ hx => hx)

/-! ## Releasing a descriptor -/

/-- A request that a released descriptor was for is no longer under way; the others are as before. -/
theorem Flat.pending_release {t t' : Flat ℕ} {d : ℕ} (hpend : t'.pending = Function.update t.pending d none)
    {d' : ℕ} {x' : Transfer} : t'.pending d' = some x' ↔ d' ≠ d ∧ t.pending d' = some x' := by
  rw [hpend]
  by_cases hdd : d' = d
  · rw [hdd, Function.update_self]
    simp
  · rw [Function.update_of_ne hdd]
    simp [hdd]

/-- The request of a released descriptor is no longer under way; what it was to fill is in the store as
    it is on the medium or in memory. -/
theorem BlockQueue.Holds.release (h : Q.Holds t s .idle) (hi : s.Inv .idle) {d : ℕ} {x : Transfer}
    (hx : t.pending d = some x) (h0 : (s.q.desc d).cidcount = 0) {t' : Flat ℕ}
    (hpend : t'.pending = Function.update t.pending d none)
    (hfills : ∀ b, x.Fills b → s.dev.disk b = t'.store b)
    (hstore : ∀ b, ¬ x.Fills b → t'.store b = t.store b)
    (hloads : ∀ a, x.Loads a → s.dev.mem a = t'.mem a)
    (hmem : ∀ a, ¬ x.Loads a → t'.mem a = t.mem a) :
    Q.Holds t' { s with q := unvmeDescPut s.q d } .idle := by
  have hdata := h.data
  obtain ⟨hd, -⟩ := (hdata.pending d x).1 hx
  obtain ⟨hused, -, hacc⟩ := hi.acc.descPut hd h0
  have hother : ∀ d' x', t'.pending d' = some x' → d' ≠ d ∧ t.pending d' = some x' :=
    fun _ _ => (Flat.pending_release hpend).1
  have hback : ∀ d' x', d' ≠ d → t.pending d' = some x' → t'.pending d' = some x' :=
    fun _ _ hdd hx' => (Flat.pending_release hpend).2 ⟨hdd, hx'⟩
  -- what no request from now on fills, the released one aside, no request filled before
  have hquiet : ∀ P : Transfer → Prop, ¬ P x → (∀ d' x', t'.pending d' = some x' → ¬ P x') →
      ∀ d' x', t.pending d' = some x' → ¬ P x' := by
    intro P hP hall d' x' hx'
    by_cases hdd : d' = d
    · subst hdd
      rw [hx, Option.some.injEq] at hx'
      subst hx'
      exact hP
    · exact hall d' x' (hback d' x' hdd hx')
  have hnodup := hi.acc.wf.toLists.used_nodup
  refine ⟨h.prplist, h.size, ?_, h.log, ?_, trivial⟩
  · constructor
    · intro d' x'
      show _ ↔ d' ∈ (unvmeDescPut s.q d).usedDescs ∧ _
      rw [hused, hnodup.mem_erase_iff, Flat.pending_release hpend, hdata.pending, and_assoc]
      rfl
    · intro d₁ d₂ x₁ x₂ hne h₁ h₂
      exact hdata.apart d₁ d₂ x₁ x₂ hne (hother d₁ x₁ h₁).2 (hother d₂ x₂ h₂).2
    · exact fun d' x' hx' => hdata.clear d' x' (hother d' x' hx').2
    · exact fun d' x' hx' => hdata.issued d' x' (hother d' x' hx').2
    · exact hdata.loaded
    · exact fun d' x' hx' => hdata.done d' x' (hother d' x' hx').2
    · intro b hb
      by_cases hin : x.Fills b
      · exact hfills b hin
      · rw [hstore b hin]
        exact hdata.disk b (hquiet (fun y => y.Fills b) hin hb)
    · intro a ha hl
      by_cases hin : x.Loads a
      · exact hloads a hin
      · rw [hmem a hin]
        exact hdata.mem a ha (hquiet (fun y => y.Loads a) hin hl)
  · exact h.lists.congr rfl (fun _ _ => rfl) rfl (fun _ _ hp => hp) (fun _ hb => hb)

theorem BlockQueue.Refines.release (h : Q.Refines s t) {d : ℕ} {x : Transfer}
    (hx : t.pending d = some x) (h0 : (s.q.desc d).cidcount = 0) {t' : Flat ℕ}
    (hpend : t'.pending = Function.update t.pending d none)
    (hfills : ∀ b, x.Fills b → s.dev.disk b = t'.store b)
    (hstore : ∀ b, ¬ x.Fills b → t'.store b = t.store b)
    (hloads : ∀ a, x.Loads a → s.dev.mem a = t'.mem a)
    (hmem : ∀ a, ¬ x.Loads a → t'.mem a = t.mem a) :
    Q.Refines { s with q := unvmeDescPut s.q d } t' := by
  have hput : Step E Guards.any (s, .idle) ({ s with q := unvmeDescPut s.q d }, .idle) :=
    Step.put s d ((h.holds.data.pending d x).1 hx).1 h0
  refine ⟨hput.inv h.inv, h.holds.release h.inv hx h0 hpend hfills hstore hloads hmem, ?_⟩
  exact fun d' x' hx' => h.covered d' x' ((Flat.pending_release hpend).1 hx').2

/-- All of a request whose commands have been executed has been moved. -/
theorem BlockQueue.Data.moved (h : Q.Data t s) {d : ℕ} {x : Transfer} (hx : t.pending d = some x)
    (hc : Sys.Covered E.ns s d x) (hall : ∀ k ∈ (s.q.desc d).cmds, Executed s.dev k) :
    ∀ i < x.len, s.dev.disk (x.pos + i) = s.dev.mem (x.buf + i) := by
  intro i hi
  obtain ⟨k, hk, sub, hsub, off, hlo, hhi, hbuf, hpos⟩ := hc i hi
  have hmoved := h.done d x hx k hk sub hsub (hall k hk) (i - off) (by omega)
  rwa [hbuf, hpos, Nat.add_assoc, Nat.add_assoc, Nat.add_sub_cancel' hlo] at hmoved

/-- The descriptor of a request that went well is released. -/
theorem BlockQueue.Refines.complete (h : Q.Refines s t) {d : ℕ} {x : Transfer}
    (hx : t.pending d = some x) (h0 : (s.q.desc d).cidcount = 0)
    (hall : ∀ k ∈ (s.q.desc d).cmds, Executed s.dev k) :
    Q.Refines { s with q := unvmeDescPut s.q d } (t.complete d x) := by
  have hdata := h.holds.data
  have hwf : t.Wf := hdata.apart
  obtain ⟨hfills, hloads⟩ := Flat.complete_agrees (d := d) (hdata.moved hx (h.covered d x hx) hall)
    (fun hw a ha => hdata.mem a (hdata.clear d x hx a ha) (hwf.not_loads hx hw ha))
    (fun hr b hb => hdata.disk b (hwf.not_fills hx hr hb))
  exact h.release hx h0 rfl hfills (fun b hb => Flat.complete_store_of_not_fills hb) hloads
    (fun a ha => Flat.complete_mem_of_not_loads ha)

/-! ## Polling -/

/-- A command whose completion was reaped with status 0 has been executed. -/
theorem Executed.of_reaped {k : ℕ} {e : CqEntry} (h : s.dev.hist.Reaped k e) (he : e.stat = 0) :
    Executed s.dev k := Or.inr ⟨e, List.mem_of_mem_take h, he⟩

/-- A poll after which nothing of its descriptor is pending returns an error only if the descriptor has
    one. -/
theorem pollResult_zero {s₁ : Sys} {d n : ℕ} {r : ℤ} (h₁ : s₁.Inv .idle) (hd₁ : d ∈ s₁.q.usedDescs)
    (hpolls : Sys.Polls d s s₁ n) (hres : Sys.PollResult d s s₁ n r) (h0 : (s₁.q.desc d).cidcount = 0)
    (herr : (s₁.q.desc d).error = 0) : r = 0 := by
  cases hres with
  | done hclean hzero => rfl
  | timeout hclean hne => exact absurd h0 hne
  | error m k e hn hp he =>
      have hreaped : s₁.dev.hist.reaped = s.dev.hist.reaped + m + 1 := by
        rw [(hpolls.reaps d).reaped, hn, Nat.add_assoc]
      obtain ⟨k', hk', hnot⟩ := hpolls.waiting m (by omega)
      have hcmds : (s₁.q.desc d).cmds = (s.q.desc d).cmds := by
        rw [(hpolls.reaps d).own, List.length_nil, List.range'_zero, List.append_nil]
      rw [← hcmds] at hk'
      -- the last completion is that of the command still waited for, so of `d`
      have hlast := h₁.all_reaped hd₁ h0 k' hk'
      rw [History.reapedSeqs, hreaped, List.take_add_one, hp, List.map_append,
        List.mem_append] at hlast
      have hk : k' = k := by simpa using hlast.resolve_left hnot
      subst hk
      have hstat := h₁.acc.noError d hd₁ herr k' hk' e (by
        rw [History.Reaped, hreaped, List.take_add_one, hp]
        exact List.mem_append_right _ (List.mem_singleton_self _))
      exact absurd hstat he

/-- **A poll is a step of the store**: it completes the request, or ends it with an error, or leaves it
    under way. -/
theorem BlockQueue.Refines.poll (h : Q.Refines s t) {d : ℕ} {timeout r : ℤ} {cs : Option ℕ}
    {σ : List (List CtlAct)} (hd : d ∈ s.q.usedDescs)
    (hr : unvmeDoPoll E d timeout (s.withSched σ) = .ok (r, cs) s') :
    ∃ t', Flat.Step t (.polled d r ((s'.q.desc d).error == 0)) t' ∧ Q.Refines s' t' := by
  have hσ := h.withSched σ
  obtain ⟨-, n, s₁, hst, hpolls, hres, hs'⟩ :=
    (unvmeDoPoll_spec (G := Q.guards) timeout hσ.inv hd).of_ok hr
  have h₁ := hσ.of_reaps hst hpolls.reaps
  have hd₁ : d ∈ s₁.q.usedDescs := by
    rw [(hpolls.reaps d).used]
    exact hd
  have hx := (h₁.holds.data.pending d _).2 ⟨hd₁, rfl⟩
  dsimp only at hres
  by_cases h0 : (s₁.q.desc d).cidcount = 0
  · rw [if_pos h0] at hs'
    have hdesc : (s'.q.desc d).error = (s₁.q.desc d).error := by rw [hs']; rfl
    rw [hdesc]
    by_cases herr : (s₁.q.desc d).error = 0
    · have hall : ∀ k ∈ (s₁.q.desc d).cmds, Executed s₁.dev k := by
        intro k hk
        obtain ⟨e, he⟩ := History.mem_reapedSeqs.1 (h₁.inv.all_reaped hd₁ h0 k hk)
        exact Executed.of_reaped he (h₁.inv.acc.noError d hd₁ herr k hk e he)
      obtain rfl := pollResult_zero h₁.inv hd₁ hpolls hres h0 herr
      rw [herr, beq_self_eq_true, hs']
      exact ⟨_, .complete d _ hx, h₁.complete hx h0 hall⟩
    · rw [beq_eq_false_iff_ne.2 herr, hs']
      refine ⟨_, .failed d _ r (fun b => if (transfer E.ns (s₁.q.desc d)).Fills b then s₁.dev.disk b
          else t.store b) (fun a => if (transfer E.ns (s₁.q.desc d)).Loads a then s₁.dev.mem a
          else t.mem a) hx (fun b hb => if_neg hb) (fun a ha => if_neg ha), ?_⟩
      exact h₁.release hx h0 rfl (fun b hb => (if_pos hb).symm) (fun b hb => if_neg hb)
        (fun a ha => (if_pos ha).symm) (fun a ha => if_neg ha)
  · rw [if_neg h0] at hs'
    have hr0 : r ≠ 0 := by
      cases hres with
      | done hclean hzero => exact absurd hzero h0
      | error m k e hn hp he => exact_mod_cast he
      | timeout hclean hne => decide
    rw [hs']
    exact ⟨t, .unfinished d _ r _ hx hr0, h₁⟩

/-! ## Submitting -/

/-- The start of `unvme_do_rw`: a descriptor is taken into use and filled in. -/
def rwStart (qid : ℤ) (opc buf slba nlb : ℕ) (s : Sys) : ℕ × Sys :=
  let (d, q) := unvmeDescGet s.q
  (d, { s with q := q.setDesc d (fun x =>
    { x with opc := opc, buf := buf, qid := qid, slba := slba, nlb := nlb, sentinel := some d }) })

theorem unvmeDoRw_eq (qid : ℤ) (opc buf slba nlb : ℕ) (s : Sys) :
    unvmeDoRw E qid opc buf slba nlb s
      = (rwLoop E (rwStart qid opc buf slba nlb s).1 nlb buf slba nlb >>= fun _ =>
          pure (rwStart qid opc buf slba nlb s).1) (rwStart qid opc buf slba nlb s).2 := rfl

theorem rwStart_takes (E : Env) {qid : ℤ} {opc buf slba nlb d : ℕ} {s₁ : Sys} (h : s.Inv .idle)
    (hs : rwStart qid opc buf slba nlb s = (d, s₁)) :
    s₁.Inv .idle ∧ Sys.Takes d s s₁ ∧ Desc.IsRw opc buf slba nlb (s₁.q.desc d) := by
  obtain ⟨d', q', hget, htakes⟩ := h.takes (E := E) (G := Guards.any)
  obtain ⟨s', hs', hstep, ht, hdesc⟩ := htakes (fun x =>
      { x with opc := opc, buf := buf, qid := qid, slba := slba, nlb := nlb, sentinel := some d' })
    (fun x => ⟨rfl, rfl, rfl, rfl⟩) rfl trivial
  rw [rwStart, hget, Prod.mk.injEq] at hs
  obtain ⟨rfl, rfl⟩ := hs
  rw [← hs']
  refine ⟨hstep.inv h, ht, ?_⟩
  rw [hdesc]
  exact ⟨rfl, rfl, rfl, rfl⟩

/-- `unvme_do_rw` takes a descriptor, and then only issues the chunks. -/
theorem unvmeDoRw_issues {G : Guards} {qid : ℤ} {opc buf slba nlb : ℕ} (h : s.Inv .idle)
    (hc : ∀ d x, Desc.IsRw opc buf slba nlb x →
      ∀ c ∈ chunks E nlb buf slba nlb, c.Allowed E G x s.q.prplist d) {d : ℕ}
    (hr : unvmeDoRw E qid opc buf slba nlb s = .ok d s') :
    ∃ s₁ new, rwStart qid opc buf slba nlb s = (d, s₁) ∧ s₁.Inv .idle ∧ Sys.Takes d s s₁ ∧
      Desc.IsRw opc buf slba nlb (s₁.q.desc d) ∧
      Steps E G (s₁, .idle) (s', .idle) ∧ Sys.Works d s₁ s' new (s₁.q.forced new.length) ∧
      List.Forall₂ (Chunk.IsSub E s.q.prplist d opc) (chunks E nlb buf slba nlb) new := by
  rw [unvmeDoRw_eq] at hr
  rcases hstart : rwStart qid opc buf slba nlb s with ⟨d', s₁⟩
  rw [hstart] at hr
  dsimp only at hr
  obtain ⟨h₁, ht, hrw⟩ := rwStart_takes E h hstart
  have hd : d' ∈ s₁.q.usedDescs := by
    rw [ht.used]
    exact List.mem_append_right _ (List.mem_singleton_self _)
  have hspec := rwLoop_spec (G := G) nlb buf slba nlb h₁ hd (Or.inl le_rfl) (by
    intro c hcm
    rw [ht.prplist]
    exact hc d' _ hrw c hcm)
  have hwp : wp (rwLoop E d' nlb buf slba nlb >>= fun _ => pure d') s₁ (fun v s' => v = d' ∧
      Steps E G (s₁, .idle) (s', .idle) ∧ ∃ new, Sys.Works d' s₁ s' new (s₁.q.forced new.length) ∧
        List.Forall₂ (Chunk.IsSub E s.q.prplist d' opc) (chunks E nlb buf slba nlb) new)
      (fun _ _ => True) := by
    rw [wp_bind]
    refine wp_mono hspec ?_ (fun _ _ _ => trivial)
    rintro - s₂ ⟨hst, new, hw, hall⟩
    rw [ht.prplist, hrw.opc] at hall
    exact ⟨rfl, hst, new, hw, hall⟩
  obtain ⟨rfl, hst, new, hw, hall⟩ := hwp.of_ok hr
  exact ⟨s₁, new, rfl, h₁, ht, hrw, hst, hw, hall⟩

/-- The chunks of a fit request may be mapped and filled in. -/
theorem BlockQueue.Fit.allowed {opc buf slba nlb : ℕ} (hl : Q.Fit s opc buf slba nlb) (prplist : Dma)
    {d : ℕ} {x : Desc} (hx : Desc.IsRw opc buf slba nlb x) :
    ∀ c ∈ chunks E nlb buf slba nlb, c.Allowed E Q.guards x prplist d := by
  intro c hc
  obtain ⟨b, hb, rfl, hlen⟩ := hl.buffer
  have hrange := hl.range
  have hblocks := Q.blocks
  obtain ⟨o, hat⟩ := (chunks_parts_all Q.maxbpio_pos (by omega)).1 c hc
  constructor
  · exact fun q _ => BlockQueue.chunk_describes hb hlen hat
  · intro q cid addr hq _
    have htrans : transfer E.ns (q.desc d) = request E.ns opc b.start slba nlb := by
      rw [transfer_congr hq, transfer, hx.opc, hx.buf, hx.slba, hx.nlb]
    show Piece E.ns (transfer E.ns (q.desc d)) _ _ _
    rw [htrans, hx.opc]
    exact Q.chunk_piece cid addr _ hb hlen hat hl.readWrite hrange

/-- The request of a descriptor just taken into use is under way, and nothing of it has been done. -/
theorem BlockQueue.Holds.takes (h : Q.Holds t s .idle) {s₁ : Sys} {d opc buf slba nlb : ℕ}
    (ht : Sys.Takes d s s₁) (hrw : Desc.IsRw opc buf slba nlb (s₁.q.desc d))
    (hl : Q.Fit s opc buf slba nlb) : Q.Holds (t.submit d (request E.ns opc buf slba nlb)) s₁ .idle := by
  have hdata := h.data
  have hnone : t.pending d = none := by
    cases hp : t.pending d with
    | none => rfl
    | some x => exact absurd ((hdata.pending d x).1 hp).1 ht.fresh
  have hnew : transfer E.ns (s₁.q.desc d) = request E.ns opc buf slba nlb := by
    rw [transfer, hrw.opc, hrw.buf, hrw.slba, hrw.nlb]
  generalize hx : request E.ns opc buf slba nlb = x at hnew ⊢
  -- under way are the new request and those from before
  have hcase : ∀ d' x', (t.submit d x).pending d' = some x' →
      d' = d ∧ x' = x ∨ d' ≠ d ∧ t.pending d' = some x' := by
    intro d' x' hx'
    by_cases hdd : d' = d
    · left
      subst hdd
      rw [Flat.submit_pending_self, Option.some.injEq] at hx'
      exact ⟨rfl, hx'.symm⟩
    · right
      rw [Flat.submit_pending_of_ne hdd] at hx'
      exact ⟨hdd, hx'⟩
  have hold : ∀ d' x', t.pending d' = some x' → d' ≠ d ∧ (t.submit d x).pending d' = some x' := by
    intro d' x' hx'
    have hdd : d' ≠ d := by
      rintro rfl
      rw [hnone] at hx'
      cases hx'
    refine ⟨hdd, ?_⟩
    rw [Flat.submit_pending_of_ne hdd]
    exact hx'
  have hapart : ∀ d' x', t.pending d' = some x' → x'.Apart x := by
    intro d' x' hx'
    obtain ⟨hd', rfl⟩ := (hdata.pending d' x').1 hx'
    rw [← hx]
    exact hl.apart d' hd'
  refine ⟨ht.prplist.trans h.prplist, ht.size.trans h.size, ?_, ?_, ?_, trivial⟩
  · constructor
    · intro d' x'
      rw [ht.used, List.mem_append, List.mem_singleton]
      constructor
      · intro hx'
        rcases hcase d' x' hx' with ⟨rfl, rfl⟩ | ⟨hdd, hx'⟩
        · exact ⟨Or.inr rfl, hnew.symm⟩
        · obtain ⟨hd', heq⟩ := (hdata.pending d' x').1 hx'
          rw [ht.desc d' hdd]
          exact ⟨Or.inl hd', heq⟩
      · rintro ⟨hd' | rfl, rfl⟩
        · have hdd : d' ≠ d := by
            rintro rfl
            exact ht.fresh hd'
          rw [ht.desc d' hdd]
          exact (hold d' _ ((hdata.pending d' _).2 ⟨hd', rfl⟩)).2
        · rw [hnew]
          exact Flat.submit_pending_self t _ _
    · intro d₁ d₂ x₁ x₂ hne h₁ h₂
      rcases hcase d₁ x₁ h₁ with ⟨rfl, rfl⟩ | ⟨-, hold₁⟩
      · rcases hcase d₂ x₂ h₂ with ⟨rfl, rfl⟩ | ⟨-, hold₂⟩
        · exact absurd rfl hne
        · exact (hapart d₂ x₂ hold₂).symm
      · rcases hcase d₂ x₂ h₂ with ⟨rfl, rfl⟩ | ⟨-, hold₂⟩
        · exact hapart d₁ x₁ hold₁
        · exact hdata.apart d₁ d₂ x₁ x₂ hne hold₁ hold₂
    · intro d' x' hx'
      rcases hcase d' x' hx' with ⟨rfl, rfl⟩ | ⟨-, hx'⟩
      · rw [← hx]
        exact hl.clear
      · exact hdata.clear d' x' hx'
    · intro d' x' hx' k hk sub hsub
      rcases hcase d' x' hx' with ⟨rfl, rfl⟩ | ⟨hdd, hx'⟩
      · rw [ht.cmds] at hk
        cases hk
      · rw [ht.desc d' hdd] at hk
        rw [ht.dev] at hsub
        exact hdata.issued d' x' hx' k hk sub hsub
    · rw [ht.dev]
      exact hdata.loaded
    · intro d' x' hx' k hk sub hsub he
      rcases hcase d' x' hx' with ⟨rfl, rfl⟩ | ⟨hdd, hx'⟩
      · rw [ht.cmds] at hk
        cases hk
      · rw [ht.desc d' hdd] at hk
        rw [ht.dev] at hsub he ⊢
        exact hdata.done d' x' hx' k hk sub hsub he
    · intro b hb
      rw [ht.dev]
      exact hdata.disk b (fun d' x' hx' => hb d' x' (hold d' x' hx').2)
    · intro a ha hloads
      rw [ht.dev]
      exact hdata.mem a ha (fun d' x' hx' => hloads d' x' (hold d' x' hx').2)
  · intro call hcall
    rw [ht.dev] at hcall
    rw [ht.ids, ht.prplist]
    exact h.log call hcall
  · refine h.lists.congr ht.prplist (fun a _ => by rw [ht.dev]) (by rw [ht.dev]) ?_ (fun _ hb => hb)
    intro k c hk
    rwa [ht.dev] at hk

/-- Every byte of the request is moved by one of the commands submitted for it. -/
theorem chunks_cover_bytes {opc slba nlb d : ℕ} {b : Span} {prplist : Dma} {new : List Sub}
    (hopc : opc = nvmeCmdRead ∨ opc = nvmeCmdWrite) (hb : ClientBlock E b)
    (hlen : nlb <<< E.ns.blockshift ≤ b.size) (hrange : slba + nlb ≤ Q.blockcount)
    (hall : List.Forall₂ (Chunk.IsSub E prplist d opc) (chunks E nlb b.start slba nlb) new) {i : ℕ}
    (hi : i < nlb <<< E.ns.blockshift) :
    ∃ sub ∈ new, Sub.Covers E.ns (request E.ns opc b.start slba nlb) sub i := by
  have hblocks := Q.blocks
  have hpow := Nat.two_pow_pos E.ns.blockshift
  have hslba : slba < 2 ^ 64 := by omega
  rw [Nat.shiftLeft_eq] at hi
  obtain ⟨c, hc, o, hat, hlo, hhi⟩ := (chunks_parts_all Q.maxbpio_pos hslba).2
    (i / 2 ^ E.ns.blockshift) ((Nat.div_lt_iff_lt_mul hpow).2 hi)
  obtain ⟨sub, hsub, his⟩ := exists_right_of_mem hall hc
  obtain ⟨-, hbufsz⟩ := hat.bytes hb hlen
  obtain ⟨addr, -, hentry⟩ := his.entry
  have hpiece := Q.chunk_piece sub.entry.cid addr prplist hb hlen hat hopc hrange
  rw [← hentry] at hpiece
  obtain ⟨off, -, hbuf, hpos⟩ := hpiece.part
  have hoff : off = o <<< E.ns.blockshift := by
    have hstart : b.start + o <<< E.ns.blockshift = b.start + off := hat.buf.symm.trans hbuf
    exact (Nat.add_left_cancel hstart).symm
  refine ⟨sub, hsub, off, ?_, ?_, his.buf.trans hbuf, hpos⟩
  · rw [hoff, Nat.shiftLeft_eq]
    exact (Nat.le_div_iff_mul_le hpow).1 hlo
  · rw [hoff, his.bufsz, hbufsz, Nat.shiftLeft_eq, Nat.shiftLeft_eq, ← Nat.add_mul]
    exact (Nat.div_lt_iff_lt_mul hpow).1 hhi

/-- The commands of a submission cover the request. -/
theorem BlockQueue.Fit.covered {opc buf slba nlb d n : ℕ} {s₁ : Sys} {new : List Sub}
    (hl : Q.Fit s opc buf slba nlb) (ht : Sys.Takes d s s₁) (hw : Sys.Works d s₁ s' new n)
    (hall : List.Forall₂ (Chunk.IsSub E s.q.prplist d opc) (chunks E nlb buf slba nlb) new) :
    Sys.Covered E.ns s' d (request E.ns opc buf slba nlb) := by
  intro i hi
  obtain ⟨b, hb, rfl, hlen⟩ := hl.buffer
  obtain ⟨sub, hsub, hcovers⟩ := chunks_cover_bytes (Q := Q) hl.readWrite hb hlen hl.range hall hi
  obtain ⟨m, hm⟩ := List.mem_iff_getElem?.1 hsub
  have hlt := (List.getElem?_eq_some_iff.1 hm).1
  refine ⟨s₁.dev.hist.subs.length + m, ?_, sub, ?_, hcovers⟩
  · rw [hw.own, ht.cmds, List.nil_append, List.mem_range'_1]
    omega
  · rw [hw.subs, List.getElem?_append_right (Nat.le_add_right _ _), Nat.add_sub_cancel_left]
    exact hm

/-- **A submission is a step of the store.** -/
theorem BlockQueue.Refines.submit (h : Q.Refines s t) {qid : ℤ} {opc buf slba nlb d : ℕ}
    {σ : List (List CtlAct)} (hl : Q.Fit s opc buf slba nlb)
    (hr : unvmeDoRw E qid opc buf slba nlb (s.withSched σ) = .ok d s') :
    Flat.Step t (.submitted d (request E.ns opc buf slba nlb))
        (t.submit d (request E.ns opc buf slba nlb)) ∧
      Q.Refines s' (t.submit d (request E.ns opc buf slba nlb)) := by
  have hσ := h.withSched σ
  have hlσ : Q.Fit (s.withSched σ) opc buf slba nlb :=
    ⟨hl.readWrite, hl.buffer, hl.range, hl.clear, hl.apart⟩
  obtain ⟨s₁, new, -, h₁, ht, hrw, hst, hw, hall⟩ :=
    unvmeDoRw_issues (G := Q.guards) hσ.inv (fun _ _ hx => hlσ.allowed _ hx) hr
  have hholds₁ := hσ.holds.takes ht hrw hlσ
  have hholds := hholds₁.steps h₁ hst hw.used
  have hdata := h.holds.data
  have hnone : t.pending d = none := by
    cases hp : t.pending d with
    | none => rfl
    | some x => exact absurd ((hdata.pending d x).1 hp).1 ht.fresh
  refine ⟨.submitted d _ hnone ?_, hst.inv h₁, hholds, ?_⟩
  · intro d' x' hx'
    obtain ⟨hd', rfl⟩ := (hdata.pending d' x').1 hx'
    exact hl.apart d' hd'
  · intro d' x' hx'
    by_cases hdd : d' = d
    · -- the new request: its commands are the last ones
      subst hdd
      rw [Flat.submit_pending_self, Option.some.injEq] at hx'
      subst hx'
      exact hlσ.covered ht hw hall
    · rw [Flat.submit_pending_of_ne hdd] at hx'
      refine (h.covered d' x' hx').congr ?_ ?_
      · rw [hw.cmds d' hdd, ht.desc d' hdd]
        rfl
      · rw [hw.subs, ht.dev]
        exact List.prefix_append _ _

/-! ## Runs -/

/-- **Driver and controller simulate the flat block store.** -/
theorem BlockQueue.simulates (Q : BlockQueue E) : Simulates Q.Act Flat.Step Q.Refines := by
  intro s t o s' h hact
  cases hact with
  | submit qid σ hl hr =>
      obtain ⟨hstep, h'⟩ := h.submit hl hr
      exact ⟨_, hstep, h'⟩
  | poll d timeout σ hd hr => exact h.poll hd hr
  | store w hl =>
      obtain ⟨hstep, h'⟩ := h.store hl
      exact ⟨_, hstep, h'⟩
  | idle acts => exact h.idle acts

/-- A new queue is an idle store. -/
theorem BlockQueue.refines_boot (Q : BlockQueue E) (mem disk : ℕ → ℕ) :
    Q.Refines (Sys.boot Q.qsize Q.prplist mem disk) (Flat.start disk mem) := by
  have hinv := Sys.Inv.init Q.two_le Q.prplist mem disk
  obtain ⟨hsize, -, hprp, fs, hwf⟩ := Queue.setup_wf Q.two_le Q.prplist
  have hnil : (Queue.setup Q.qsize Q.prplist).usedDescs = [] := hwf.usedDescs_eq
  have hpend : ∀ k c, ¬ (Device.init Q.qsize mem disk).hist.Pending k c := by
    rintro k c ⟨⟨sub, hs, -⟩, -⟩
    cases hs
  refine ⟨hinv, ⟨hprp, hsize, ⟨?_, ?_, ?_, ?_, ?_, ?_, fun _ _ => rfl, fun _ _ _ => rfl⟩, ?_, ⟨?_, ?_⟩,
    trivial⟩, ?_⟩
  · intro d x
    constructor
    · intro hx
      cases hx
    · rintro ⟨hd, -⟩
      change d ∈ (Queue.setup Q.qsize Q.prplist).usedDescs at hd
      rw [hnil] at hd
      cases hd
  · intro d d' x x' _ hx
    cases hx
  · intro d x hx
    cases hx
  · intro d x hx
    cases hx
  · intro c hc
    cases hc
  · intro d x hx
    cases hx
  · intro call hcall
    cases hcall
  · intro k c sub hk
    exact absurd hk (hpend k c)
  · intro cid buf bufsz hb
    cases hb
  · intro d x hx
    cases hx

end

end Unvme.Store
