import Unvme.Core.PrpLists

set_option autoImplicit false

/-! # Where the entries of a command come from

Every entry that was submitted has the PRPs that `unvme_map_prps` composed for its id and buffer, and
every call of `unvme_map_prps` has stored the list of its composition. `Step.traced` is the step lemma;
what guards allow of buffers and entries is kept with them. -/

namespace Unvme.Core

open Unvme.Lib Unvme.Nvme

/-- `unvme_map_prps` was called for this id and buffer, at DMA address `addr`, as the guards allow. -/
structure Sys.Composed (E : Env) (G : Guards) (prplist : Dma) (s : Sys) (cid buf bufsz addr : ℕ) : Prop where
  below : cid < s.q.ids
  resolved : unvmeMapDma E buf bufsz = .ok addr
  allowed : ∃ q d, G.map q d buf bufsz
  call : ⟨cid, buf, bufsz, (composePrps E.ns prplist cid addr bufsz).2.2⟩ ∈ s.dev.hist.prpCalls

/-- The entry has the PRPs of this composition. -/
structure HoldsPrps (E : Env) (prplist : Dma) (cid bufsz addr : ℕ) (e : SqEntry) : Prop where
  prp1 : e.prp1 = (composePrps E.ns prplist cid addr bufsz).1
  prp2 : e.prp2 = (composePrps E.ns prplist cid addr bufsz).2.1

/-- The composition for the command id in hand. -/
def Pc.Traced (E : Env) (G : Guards) (prplist : Dma) (s : Sys) : Pc → Prop
  | .mapped _ cid buf bufsz addr => s.Composed E G prplist cid buf bufsz addr
  | .filled _ cid buf bufsz addr e =>
      s.Composed E G prplist cid buf bufsz addr ∧ e.cid = cid ∧ HoldsPrps E prplist cid bufsz addr e ∧
        ∃ q d, G.fill q d e buf bufsz
  | _ => True

/-- Every call of `unvme_map_prps` has stored the list of its composition, and every submission so far has
    the PRPs of a call. -/
structure Sys.Traced (E : Env) (G : Guards) (prplist : Dma) (s : Sys) (pc : Pc) : Prop where
  queue : s.q.prplist = prplist
  calls : ∀ call ∈ s.dev.hist.prpCalls, ∃ addr, unvmeMapDma E call.buf call.bufsz = .ok addr ∧
    call.stores = listWords E.ns prplist call.cid addr (E.ns.numpages call.bufsz)
  subs : ∀ sub ∈ s.dev.hist.subs, ∃ addr, s.Composed E G prplist sub.entry.cid sub.buf sub.bufsz addr ∧
    HoldsPrps E prplist sub.entry.cid sub.bufsz addr sub.entry ∧ ∃ q d, G.fill q d sub.entry sub.buf sub.bufsz
  hand : pc.Traced E G prplist s

section

variable {E : Env} {G : Guards} {prplist : Dma} {s s' : Sys} {pc pc' : Pc}

theorem Sys.Composed.congr {cid buf bufsz addr : ℕ} (h : s.Composed E G prplist cid buf bufsz addr)
    (hq : s.SameQueue s') (hc : s.dev.hist.prpCalls <+: s'.dev.hist.prpCalls) :
    s'.Composed E G prplist cid buf bufsz addr :=
  ⟨by rw [hq.ids]; exact h.below, h.resolved, h.allowed, hc.subset h.call⟩

/-- What was submitted keeps its composition. -/
theorem Sys.Traced.old_subs (h : s.Traced E G prplist pc) (hq : s.SameQueue s')
    (hc : s.dev.hist.prpCalls <+: s'.dev.hist.prpCalls) :
    ∀ sub ∈ s.dev.hist.subs, ∃ addr, s'.Composed E G prplist sub.entry.cid sub.buf sub.bufsz addr ∧
      HoldsPrps E prplist sub.entry.cid sub.bufsz addr sub.entry ∧
        ∃ q d, G.fill q d sub.entry sub.buf sub.bufsz := by
  intro sub hsub
  obtain ⟨addr, hcomp, hholds⟩ := h.subs sub hsub
  exact ⟨addr, hcomp.congr hq hc, hholds⟩

/-- The memory does not concern it. -/
theorem Sys.Traced.withMemory (h : s.Traced E G prplist .idle) (mem disk : ℕ → ℕ) :
    Sys.Traced E G prplist { s with dev := { s.dev with mem := mem, disk := disk } } .idle :=
  ⟨h.queue, h.calls, h.old_subs ⟨rfl, rfl, rfl⟩ List.prefix_rfl, trivial⟩

theorem Pc.Traced.congr (h : pc.Traced E G prplist s) (hq : s.SameQueue s')
    (hc : s.dev.hist.prpCalls <+: s'.dev.hist.prpCalls) : pc.Traced E G prplist s' := by
  cases pc with
  | mapped d cid buf bufsz addr => exact Sys.Composed.congr h hq hc
  | filled d cid buf bufsz addr e => exact ⟨h.1.congr hq hc, h.2⟩
  | _ => trivial

/-- The call recorded for a composition. -/
theorem PrpCall.composed {call : PrpCall} {cid buf bufsz addr : ℕ} (ha : unvmeMapDma E buf bufsz = .ok addr)
    (h : call = ⟨cid, buf, bufsz, (composePrps E.ns prplist cid addr bufsz).2.2⟩) :
    ∃ addr, unvmeMapDma E call.buf call.bufsz = .ok addr ∧
      call.stores = listWords E.ns prplist call.cid addr (E.ns.numpages call.bufsz) := by
  obtain ⟨cid', buf', bufsz', stores⟩ := call
  injection h with hcid hbuf hbufsz hstores
  subst hcid hbuf hbufsz
  exact ⟨addr, ha, hstores.trans (composePrps_words ..)⟩

/-- **Every step keeps the trace.** -/
theorem Step.traced (h : s.Inv pc) (hstep : Step E G (s, pc) (s', pc')) (ht : s.Traced E G prplist pc) :
    s'.Traced E G prplist pc' := by
  have hsame := hstep.sameQueue h
  have hc := hstep.prpCalls_prefix
  have hold := ht.old_subs hsame hc
  have hqueue : s'.q.prplist = prplist := hsame.prplist.trans ht.queue
  have hqs := ht.queue
  subst hqs
  cases hstep with
  | act _ _ a =>
      have hl := Device.Later.act s.dev E.media a
      refine ⟨hqueue, ?_, ?_, ht.hand.congr hsame hc⟩
      · rw [show _ = s.dev.hist.prpCalls from hl.prpCalls]
        exact ht.calls
      · rw [show _ = s.dev.hist.subs from hl.subs]
        exact hold
  | sched _ _ σ => exact ⟨hqueue, ht.calls, hold, ht.hand.congr hsame hc⟩
  | map _ d cid buf bufsz addr ha hmap =>
      refine ⟨hqueue, ?_, ?_, h.hand_lt rfl, ha, ⟨_, _, hmap⟩, call_mem_storePrps s.dev _⟩
      · dsimp only
        rw [storePrps_prpCalls]
        intro call hcall
        rcases List.mem_append.1 hcall with hcall | hcall
        · exact ht.calls call hcall
        · exact PrpCall.composed ha (List.mem_singleton.1 hcall)
      · dsimp only
        rw [storePrps_subs]
        exact hold
  | fill _ d cid buf bufsz addr e hcid h1 h2 hG =>
      exact ⟨hqueue, ht.calls, hold, Sys.Composed.congr ht.hand hsame hc, hcid, ⟨h1, h2⟩, _, _, hG⟩
  | submit _ d cid buf bufsz addr e =>
      refine ⟨hqueue, ht.calls, ?_, trivial⟩
      intro sub hsub
      rcases List.mem_append.1 hsub with hsub | hsub
      · exact hold sub hsub
      · rw [List.mem_singleton] at hsub
        subst hsub
        obtain ⟨hcomp, hcid, hholds, hfill⟩ := ht.hand
        dsimp only
        rw [hcid]
        exact ⟨addr, hcomp.congr hsame hc, hholds, hfill⟩
  | advance _ hp => exact ⟨hqueue, ht.calls, hold, trivial⟩
  | ring _ => exact ⟨hqueue, ht.calls, hold, trivial⟩
  | reap _ k e q' hp hq => exact ⟨hqueue, ht.calls, hold, trivial⟩
  | take _ d q' f hget hf hs hG => exact ⟨hqueue, ht.calls, hold, trivial⟩
  | put _ d hd h0 => exact ⟨hqueue, ht.calls, hold, trivial⟩
  | claim _ d cid q' hd hroom hq => exact ⟨hqueue, ht.calls, hold, trivial⟩

end

end Unvme.Core
