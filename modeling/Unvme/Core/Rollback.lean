import Unvme.Core.Loops

set_option autoImplicit false

/-! # Submissions that fail

`unvme_map_dma` may return -1 for a buffer it cannot map; the callers are written for that, although
the lookup of this driver never does. Here the same driver runs with a lookup that fails for the
buffers `fails` names. Both callers take the command id before they map the buffer, and neither gives
it back: `unvme_do_cmd` releases the descriptor with the id still set, `unvme_do_rw` polls a
descriptor that cannot become idle any more.

As long as every buffer is mapped the runs are those of `Run`. After a failure the queue is still
consistent, but one id is lost (`Sys.Stuck`): it is pending for a descriptor and no command in flight
will ever clear it. -/

namespace Unvme.Core

open Unvme.Lib Unvme.Nvme

section

variable (E : Env) (fails : ℕ → ℕ → Bool)

/-- Lookup DMA address associated with the user buffer, or -1. -/
def unvmeMapDmaBy (buf bufsz : ℕ) : Except Stop ℕ :=
  if fails buf bufsz then .ok (2 ^ 64 - 1) else unvmeMapDma E buf bufsz

/-- Every buffer the call maps can be mapped. -/
def Call.Maps : Call → Prop
  | .rw _ _ buf slba nlb => ∀ c ∈ chunks E nlb buf slba nlb, fails c.buf (E.ns.bufsz c.nlb) = false
  | .cmd _ _ _ buf bufsz _ => fails buf bufsz = false
  | .poll _ _ => True

def Round.Maps : Round → Prop
  | .call c _ => c.Maps E fails
  | _ => True

end

variable {E : Env} {fails : ℕ → ℕ → Bool}

/-! ## Without failures

Two lookups that agree on the buffers of a call cannot be told apart. -/

section

variable {map map' : Lookup}

theorem unvmeMapPrpsBy_congr {buf bufsz : ℕ} (h : map buf bufsz = map' buf bufsz) (cid : ℕ) :
    unvmeMapPrpsBy E map cid buf bufsz = unvmeMapPrpsBy E map' cid buf bufsz := by
  unfold unvmeMapPrpsBy
  rw [h]

theorem unvmeSubmitIoBy_congr {buf nlb : ℕ}
    (h : map buf (E.ns.bufsz nlb) = map' buf (E.ns.bufsz nlb)) (d slba : ℕ) :
    unvmeSubmitIoBy E map d buf slba nlb = unvmeSubmitIoBy E map' d buf slba nlb := by
  unfold unvmeSubmitIoBy
  refine bind_congr (fun cid => ?_)
  rw [unvmeMapPrpsBy_congr h cid]

theorem rwLoopBy_congr (d fuel buf slba nlb : ℕ)
    (h : ∀ c ∈ chunks E fuel buf slba nlb, map c.buf (E.ns.bufsz c.nlb) = map' c.buf (E.ns.bufsz c.nlb)) :
    rwLoopBy E map d fuel buf slba nlb = rwLoopBy E map' d fuel buf slba nlb := by
  induction fuel generalizing buf slba nlb with
  | zero => cases nlb <;> rfl
  | succ fuel ih =>
      cases nlb with
      | zero => rfl
      | succ rest =>
          rw [chunks] at h
          have hfirst := h _ (List.mem_cons_self ..)
          have hrest := ih _ _ _ (fun c hc => h c (List.mem_cons_of_mem _ hc))
          rw [rwLoopBy, rwLoopBy]
          simp only [unvmeSubmitIoBy_congr hfirst, hrest]

theorem unvmeDoRwBy_congr {buf slba nlb : ℕ}
    (h : ∀ c ∈ chunks E nlb buf slba nlb, map c.buf (E.ns.bufsz c.nlb) = map' c.buf (E.ns.bufsz c.nlb))
    (qid : ℤ) (opc : ℕ) :
    unvmeDoRwBy E map qid opc buf slba nlb = unvmeDoRwBy E map' qid opc buf slba nlb := by
  unfold unvmeDoRwBy
  simp only [rwLoopBy_congr _ _ _ _ _ h]

theorem unvmeDoCmdBy_congr {buf bufsz : ℕ} (h : map buf bufsz = map' buf bufsz) (qid : ℤ)
    (opc nsid : ℕ) (cdw10_15 : Option (Vector ℕ 6)) :
    unvmeDoCmdBy E map qid opc nsid buf bufsz cdw10_15 =
      unvmeDoCmdBy E map' qid opc nsid buf bufsz cdw10_15 := by
  unfold unvmeDoCmdBy
  simp only [unvmeMapPrpsBy_congr h]

end

theorem unvmeMapDmaBy_of_maps {buf bufsz : ℕ} (h : fails buf bufsz = false) :
    unvmeMapDmaBy E fails buf bufsz = unvmeMapDma E buf bufsz := by
  unfold unvmeMapDmaBy
  rw [h, if_neg Bool.false_ne_true]

theorem unvmeMapPrpsBy_of_fails {buf bufsz : ℕ} (h : fails buf bufsz = true) (cid : ℕ) :
    unvmeMapPrpsBy E (unvmeMapDmaBy E fails) cid buf bufsz = pure none := by
  unfold unvmeMapPrpsBy unvmeMapDmaBy
  rw [if_pos h]
  rfl

theorem unvmeDoRwBy_of_maps {buf slba nlb : ℕ}
    (h : ∀ c ∈ chunks E nlb buf slba nlb, fails c.buf (E.ns.bufsz c.nlb) = false) (qid : ℤ) (opc : ℕ) :
    unvmeDoRwBy E (unvmeMapDmaBy E fails) qid opc buf slba nlb = unvmeDoRw E qid opc buf slba nlb :=
  unvmeDoRwBy_congr (fun c hc => unvmeMapDmaBy_of_maps (h c hc)) qid opc

theorem unvmeDoCmdBy_of_maps {buf bufsz : ℕ} (h : fails buf bufsz = false) (qid : ℤ)
    (opc nsid : ℕ) (cdw10_15 : Option (Vector ℕ 6)) :
    unvmeDoCmdBy E (unvmeMapDmaBy E fails) qid opc nsid buf bufsz cdw10_15 =
      unvmeDoCmd E qid opc nsid buf bufsz cdw10_15 :=
  unvmeDoCmdBy_congr (unvmeMapDmaBy_of_maps h) qid opc nsid cdw10_15

theorem Call.runBy_of_maps {c : Call} (h : c.Maps E fails) :
    c.runBy E (unvmeMapDmaBy E fails) = c.run E := by
  cases c with
  | rw qid opc buf slba nlb => exact congrArg (· >>= _) (unvmeDoRwBy_of_maps h qid opc)
  | cmd qid opc nsid buf bufsz cdw10_15 =>
      exact congrArg (· >>= _) (unvmeDoCmdBy_of_maps h qid opc nsid cdw10_15)
  | poll d timeout => rfl

/-- A run in which every buffer is mapped is a run of the driver. -/
theorem RunBy.run {s₀ s : Sys}
    (h : RunBy E (unvmeMapDmaBy E fails) (fun s r => r.Legal s ∧ r.Maps E fails) s₀ s) :
    Run E (fun s r => r.Legal s) s₀ s := by
  induction h with
  | nil => exact .nil
  | round _ r hl hd ih =>
      refine .round ih r hl.1 ?_
      cases r with
      | call c σ =>
          obtain ⟨v, hv⟩ := hd
          rw [Call.runBy_of_maps hl.2] at hv
          exact ⟨v, hv⟩
      | idle acts => exact hd
      | store mem => exact hd

/-! ## A lost command id -/

/-- Command id `c` is pending for descriptor `d`, but no command in flight has it. The queue and the
    rings are consistent otherwise; `n` is a lower bound on the ids pending beyond the commands in
    flight. -/
structure Sys.Stuck (s : Sys) (d c n : ℕ) : Prop where
  wf : s.q.Wf s.q.usedDescs s.q.freeDescs
  used : d ∈ s.q.usedDescs
  mem : c ∈ s.q.pending d
  lost : ∀ k, ¬ s.dev.hist.Pending k c
  dev : s.dev.Inv s.dev.hist.reaped s.dev.hist.reaped
  size : s.q.size = s.dev.size
  count : (s.dev.hist.subs.length : ℤ) + n ≤ s.dev.hist.reaped + s.q.cidcount

/-- An id in hand is not in flight. -/
theorem Sys.Inv.stuck {s : Sys} {d c : ℕ} (h : s.Inv (.claimed d c)) : s.Stuck d c 1 := by
  obtain ⟨hd, hfree⟩ := h.acc.inHand d c rfl
  refine ⟨h.acc.wf, hd, (h.acc.bits d hd c).2 (Or.inr rfl), hfree, h.dev, h.size, ?_⟩
  have hcount := h.acc.count
  simp only [Pc.hand, Option.toList_some, List.length_singleton] at hcount
  omega

namespace Sys.Stuck

variable {s : Sys} {d c n : ℕ}

theorem mono (h : s.Stuck d c n) {m : ℕ} (hm : m ≤ n) : s.Stuck d c m :=
  { h with count := by have := h.count; omega }

theorem cidmask (h : s.Stuck d c n) : c ∈ s.q.cidmask.bits := (h.wf.bits c).2 ⟨d, h.used, h.mem⟩

/-- The descriptor cannot become idle. -/
theorem busy (h : s.Stuck d c n) : (s.q.desc d).cidcount ≠ 0 := by
  rw [h.wf.descCount d (Or.inl h.used)]
  have := Finset.card_pos.2 ⟨c, h.mem⟩
  omega

/-- Whatever leaves submissions and reaped completions alone. -/
theorem same (h : s.Stuck d c n) (dev : Device) (hs : s.dev.hist.Same dev.hist)
    (hsize : dev.size = s.dev.size) (hd : dev.Inv s.dev.hist.reaped s.dev.hist.reaped) :
    Sys.Stuck { s with dev := dev } d c n := by
  refine ⟨h.wf, h.used, h.mem, ?_, ?_, h.size.trans hsize.symm, ?_⟩
  · intro k hk
    exact h.lost k (hs.pending_iff.1 hk)
  · show dev.Inv dev.hist.reaped dev.hist.reaped
    rw [hs.reaped]
    exact hd
  · show (dev.hist.subs.length : ℤ) + n ≤ dev.hist.reaped + s.q.cidcount
    rw [hs.subs, hs.reaped]
    exact h.count

theorem turn (h : s.Stuck d c n) (M : Media) : Sys.Stuck { s with dev := s.dev.turn M } d c n :=
  h.same _ ((Device.Later.turn s.dev M).same h.dev.reaped_le_posted) (Device.Later.turn s.dev M).size
    (h.dev.turn M)

theorem storePrps (h : s.Stuck d c n) (call : PrpCall) :
    Sys.Stuck ⟨s.q, s.dev.storePrps call⟩ d c n :=
  h.same (s.dev.storePrps call) ⟨rfl, rfl, rfl⟩ rfl (h.dev.storePrps call)

theorem fill (h : s.Stuck d c n) (e : SqEntry) : Sys.Stuck ⟨s.q, s.dev.fill e⟩ d c n :=
  h.same (s.dev.fill e) ⟨rfl, rfl, rfl⟩ rfl (h.dev.fill e)

/-- A command with another id is submitted. -/
theorem submit (h : s.Stuck d c (n + 1)) {sub : Sub} (hsq : s.dev.sq s.dev.sqTail = sub.entry)
    (hc : sub.entry.cid ≠ c) (d' : ℕ) (cmds : Desc → List ℕ) :
    Sys.Stuck ⟨s.q.setDesc d' (fun x => { x with cmds := cmds x }), s.dev.submit sub⟩ d c n := by
  have hcount := h.count
  have hbound := h.wf.bound
  have hsize := h.size
  have hwf := h.wf.setDesc d' (f := fun x => { x with cmds := cmds x }) rfl rfl
  refine ⟨hwf, h.used, ?_, ?_, h.dev.submit hsq ?_, h.size, ?_⟩
  · by_cases hdd : d = d'
    · subst hdd
      rw [Queue.pending, Queue.setDesc_self]
      exact h.mem
    · rw [Queue.pending, Queue.setDesc_of_ne hdd]
      exact h.mem
  · intro k hk
    rcases (History.pending_submit h.dev.new_not_reaped).1 hk with hk | ⟨-, hk⟩
    · exact h.lost k hk
    · exact hc hk
  · push_cast at hcount
    omega
  · show ((s.dev.hist.subs ++ [sub]).length : ℤ) + n ≤ s.dev.hist.reaped + s.q.cidcount
    rw [List.length_append, List.length_singleton]
    push_cast at hcount ⊢
    omega

end Sys.Stuck

/-- The lost id while a completion of another command is waited for. -/
def Sys.Stuck.Waited (s : Sys) (d c n : ℕ) (r : Option Completion) (s' : Sys) : Prop :=
  s'.q = s.q ∧ match r with
    | none => s'.Stuck d c n
    | some comp => comp.cid ≠ c ∧ s'.Stuck d c (n + 1)

section

variable {map : Lookup} {s : Sys} {d c n : ℕ}

theorem nvmeCheckCompletion_stuck (h : s.Stuck d c n) :
    wp (nvmeCheckCompletion E) s (Sys.Stuck.Waited s d c n) (fun _ _ => False) := by
  refine wp_mono (nvmeCheckCompletion_reads h.dev) ?_ (fun _ _ hf => hf)
  rintro (_ | comp) s' ⟨dev, hsame, hsize, hrest⟩
  · obtain ⟨hdev, -, rfl⟩ := hrest
    exact ⟨rfl, h.same dev hsame hsize hdev⟩
  · obtain ⟨hdev, k, e, hpost, rfl, rfl⟩ := hrest
    obtain ⟨sub, hs, hc, hnew⟩ := hdev.next_pending hpost
    have hpend : dev.hist.Pending k e.cid := ⟨⟨sub, hs, hc.symm⟩, hnew⟩
    refine ⟨rfl, ?_, h.wf, h.used, h.mem, ?_, ?_, h.size.trans hsize.symm, ?_⟩
    · rintro rfl
      exact h.lost k (hsame.pending_iff.1 hpend)
    · intro k' hk'
      exact h.lost k' (hsame.pending_iff.1 ((History.pending_reap hpost).1 hk').1)
    · rw [← hsame.reaped] at hdev
      exact hdev.reap rfl
    · have hcount := h.count
      show (dev.hist.subs.length : ℤ) + (n + 1 : ℕ) ≤ (dev.hist.reaped + 1 : ℕ) + s.q.cidcount
      rw [hsame.subs, hsame.reaped]
      push_cast
      omega

theorem waitCompletion_stuck (timeout : ℤ) (m : ℕ) (h : s.Stuck d c n) :
    wp (waitCompletion E timeout m) s (Sys.Stuck.Waited s d c n) (fun _ _ => False) := by
  induction m generalizing s with
  | zero => exact nvmeCheckCompletion_stuck h
  | succ m ih =>
      rw [waitCompletion]
      refine wp_bind_of (nvmeCheckCompletion_stuck h) ?_
      rintro (_ | comp) s₁ ⟨hq, hs₁⟩
      · rw [wp_ite]
        split
        · exact ⟨hq, hs₁⟩
        · exact wp_mono (ih hs₁) (fun _ _ hr => ⟨hr.1.trans hq, hr.2⟩) (fun _ _ hf => hf)
      · exact ⟨hq, hs₁⟩

/-- Only a completion whose id is pending is retired, and it is not the lost one. -/
theorem unvmeCheckCompletion_stuck (timeout : ℤ) (h : s.Stuck d c n) :
    wp (unvmeCheckCompletion E timeout) s
      (fun r s' => s'.Stuck d c n ∧ s'.q.size = s.q.size ∧
        (r.1 ≠ -1 → s'.q.cidcount = s.q.cidcount - 1)) (fun _ _ => True) := by
  unfold unvmeCheckCompletion
  rw [wp_bind, wp_get]
  refine wp_bind_of (wp_mono (waitCompletion_stuck timeout _ h) (fun _ _ hq => hq)
    (fun _ _ _ => trivial)) ?_
  rintro (_ | comp) s₁ ⟨hq, hs₁⟩
  · exact ⟨hs₁, by rw [hq], fun hne => absurd rfl hne⟩
  · obtain ⟨hne, h₁⟩ := hs₁
    rw [wp_bind, wp_get]
    have hused : s₁.q.usedDescs ≠ [] := List.ne_nil_of_mem h₁.used
    by_cases hbit : comp.cid ∈ s₁.q.cidmask.bits
    · obtain ⟨d', hd', -, p, hret, hwf, hpend, -⟩ := h₁.wf.retire hbit comp.stat
      have hlists := hwf.usedDescs_eq
      have hfrees := hwf.freeDescs_eq
      simp only [hret, wp_bind, wp_set, wp_pure]
      generalize hq' : ({ s₁.q.clearCid d' comp.cid comp.stat with descpend := p } : Queue) = q' at *
      have hcount : q'.cidcount = s₁.q.cidcount - 1 := by rw [← hq']; rfl
      have hdesc : q'.desc = (s₁.q.clearCid d' comp.cid comp.stat).desc := by rw [← hq']
      refine ⟨⟨by rw [hlists, hfrees]; exact hwf, by rw [hlists]; exact h₁.used, ?_, h₁.lost, h₁.dev,
        by rw [← hq']; exact h₁.size, ?_⟩, by rw [← hq]; rfl, fun _ => by rw [← hq]; rfl⟩
      · show c ∈ (q'.desc d).cidmask.bits
        rw [hdesc]
        by_cases hdd : d = d'
        · subst hdd
          have hmem := Finset.mem_erase.2 ⟨Ne.symm hne, h₁.mem⟩
          rw [← hpend] at hmem
          exact hmem
        · rw [Queue.clearCid_desc_of_ne hdd]
          exact h₁.mem
      · have := h₁.count
        show (s₁.dev.hist.subs.length : ℤ) + n ≤ s₁.dev.hist.reaped + q'.cidcount
        push_cast at this
        omega
    · rw [h₁.wf.retire_unknown hused hbit]
      by_cases hword : s₁.q.masksize >>> 3 ≤ comp.cid >>> 6
      · rw [if_pos hword]
        trivial
      · rw [if_neg hword]
        trivial

theorem claimCid_stuck (h : s.Stuck d c n) (hroom : s.q.cidcount + 1 < s.q.size) :
    wp (claimCid d) s (fun cid s' => cid ≠ c ∧ s'.Stuck d c (n + 1)) (fun _ _ => True) := by
  unfold claimCid
  rw [wp_bind, wp_get]
  rcases h.wf.claim h.used hroom with ⟨herr, -⟩ | ⟨cid, hok, hwf, -, hfresh, hpend⟩
  · rw [herr]
    trivial
  · have hlists := hwf.usedDescs_eq
    have hfrees := hwf.freeDescs_eq
    simp only [hok, wp_bind, wp_set, wp_pure]
    refine ⟨?_, by rw [hlists, hfrees]; exact hwf, by rw [hlists]; exact h.used, ?_, h.lost, h.dev,
      h.size, ?_⟩
    · rintro rfl
      exact hfresh h.cidmask
    · rw [hpend]
      exact Finset.mem_insert_of_mem h.mem
    · have := h.count
      show (s.dev.hist.subs.length : ℤ) + (n + 1 : ℕ) ≤ s.dev.hist.reaped + (s.q.cidcount + 1)
      push_cast
      omega

theorem unvmeGetCid_stuck (h : s.Stuck d c n) :
    wp (unvmeGetCid E d) s (fun cid s' => cid ≠ c ∧ s'.Stuck d c (n + 1)) (fun _ _ => True) := by
  unfold unvmeGetCid
  rw [wp_bind, wp_get, wp_ite]
  have hbound := h.wf.bound
  split
  · next hfull =>
      refine wp_bind_of (unvmeCheckCompletion_stuck unvmeTimeout h) ?_
      rintro r s₁ ⟨h₁, hsize, hcount⟩
      rw [wp_ite]
      split
      · trivial
      · next hne =>
          refine claimCid_stuck h₁ ?_
          have := hcount hne
          omega
  · exact claimCid_stuck h (by omega)

theorem unvmeMapPrpsBy_stuck (cid buf bufsz : ℕ) (h : s.Stuck d c n) :
    wp (unvmeMapPrpsBy E map cid buf bufsz) s (fun _ s' => s'.Stuck d c n) (fun _ _ => True) := by
  unfold unvmeMapPrpsBy
  cases map buf bufsz with
  | error e => trivial
  | ok addr =>
      simp only [wp_ite]
      by_cases hfail : addr = 2 ^ 64 - 1
      · rw [if_pos hfail]
        exact h
      · rw [if_neg hfail]
        have h₁ := h.turn E.media
        simp only [interfere, wp_bind, wp_modify, wp_get, wp_set, wp_pure]
        exact h₁.storePrps _

theorem nvmeCmd_stuck {e : SqEntry} (d' buf bufsz : ℕ) (hc : e.cid ≠ c) (h : s.Stuck d c (n + 1)) :
    wp (nvmeCmd E e d' buf bufsz) s (fun r s' => r = 0 ∧ s'.Stuck d c n) (fun _ _ => True) := by
  unfold nvmeCmd nvmeSubmitCmd
  refine wp_bind_of (R := fun _ s' => s'.Stuck d c (n + 1)) (h.turn E.media) ?_
  rintro - s₁ h₁
  rw [wp_bind, wp_modify]
  have h₂ := (h₁.fill e).turn E.media
  have hl := Device.Later.turn (s₁.dev.fill e) E.media
  refine wp_bind_of (R := fun _ s' => s' = ⟨s₁.q, (s₁.dev.fill e).turn E.media⟩) rfl ?_
  rintro - s₂ rfl
  rw [wp_bind, wp_modify, wp_pure]
  refine ⟨rfl, h₂.submit ?_ hc d' _⟩
  show ((s₁.dev.fill e).turn E.media).sq ((s₁.dev.fill e).turn E.media).sqTail = e
  rw [hl.sq, hl.sqTail]
  exact Function.update_self _ _ _

theorem unvmeSubmitIoBy_stuck (buf slba nlb : ℕ) (h : s.Stuck d c n) :
    wp (unvmeSubmitIoBy E map d buf slba nlb) s (fun _ s' => s'.Stuck d c n)
      (fun _ _ => True) := by
  unfold unvmeSubmitIoBy
  refine wp_bind_of (unvmeGetCid_stuck h) ?_
  rintro cid s₁ ⟨hne, h₁⟩
  refine wp_bind_of (unvmeMapPrpsBy_stuck cid buf (E.ns.bufsz nlb) h₁) ?_
  rintro (_ | ⟨prp1, prp2⟩) s₂ h₂
  · exact h₂.mono (Nat.le_succ n)
  · rw [wp_bind, wp_get, nvmeCmdRw]
    refine wp_bind_of (nvmeCmd_stuck d buf _ hne h₂) ?_
    rintro r s₃ ⟨rfl, h₃⟩
    rw [wp_ite, if_neg (by decide), wp_pure]
    exact h₃

theorem pollLoop_stuck (timeout : ℤ) (fuel : ℕ) (cs : Option ℕ) (h : s.Stuck d c n) :
    wp (pollLoop E d timeout fuel cs) s (fun _ s' => s'.Stuck d c n) (fun _ _ => True) := by
  induction fuel generalizing s cs with
  | zero => trivial
  | succ fuel ih =>
      rw [pollLoop, wp_bind, wp_get, wp_ite, if_neg h.busy]
      refine wp_bind_of (unvmeCheckCompletion_stuck timeout h) ?_
      rintro r s₁ ⟨h₁, -, -⟩
      rw [wp_ite]
      split
      · exact h₁
      · exact ih _ h₁

/-- The poll never releases the descriptor. -/
theorem unvmeDoPoll_stuck (timeout : ℤ) (h : s.Stuck d c n) :
    wp (unvmeDoPoll E d timeout) s (fun _ s' => s'.Stuck d c n) (fun _ _ => True) := by
  unfold unvmeDoPoll
  rw [wp_bind, wp_get, wp_ite]
  split
  · trivial
  · refine wp_bind_of (pollLoop_stuck timeout _ none h) ?_
    intro r s₁ h₁
    rw [wp_bind, wp_get, wp_ite, if_neg h₁.busy]
    exact h₁

theorem rwLoopBy_stuck (fuel buf slba nlb : ℕ) (h : s.Stuck d c n) :
    wp (rwLoopBy E map d fuel buf slba nlb) s (fun _ s' => s'.Stuck d c n) (fun _ _ => True) := by
  induction fuel generalizing s buf slba nlb with
  | zero =>
      cases nlb with
      | zero => exact h
      | succ rest => trivial
  | succ fuel ih =>
      cases nlb with
      | zero => exact h
      | succ rest =>
          rw [rwLoopBy]
          refine wp_bind_of (unvmeSubmitIoBy_stuck _ _ _ h) ?_
          intro cid s₁ h₁
          rw [wp_ite]
          split
          · refine wp_bind_of (unvmeDoPoll_stuck unvmeTimeout h₁) ?_
            intro r s₂ h₂
            rw [wp_ite]
            split
            · trivial
            · exact ih _ _ _ h₂
          · exact ih _ _ _ h₁

/-! ## The first failure -/

theorem unvmeSubmitIoBy_fails {buf slba nlb : ℕ} (hf : fails buf (E.ns.bufsz nlb) = true)
    (h : s.Inv .idle) (hd : d ∈ s.q.usedDescs) :
    wp (unvmeSubmitIoBy E (unvmeMapDmaBy E fails) d buf slba nlb) s
      (fun r s' => r = -1 ∧ ∃ c, s'.Stuck d c 1) (fun _ _ => True) := by
  unfold unvmeSubmitIoBy
  refine wp_bind_of (wp_mono (unvmeGetCid_spec (G := Guards.any) h hd) (fun _ _ hq => hq)
    (fun _ _ _ => trivial)) ?_
  rintro cid s₁ ⟨hst, -⟩
  rw [unvmeMapPrpsBy_of_fails hf]
  exact ⟨rfl, cid, (hst.inv h).stuck⟩

/-- A request with a chunk that cannot be mapped loses a command id. -/
theorem rwLoopBy_fails (fuel buf slba nlb : ℕ) (h : s.Inv .idle) (hd : d ∈ s.q.usedDescs)
    (hf : ∃ c ∈ chunks E fuel buf slba nlb, fails c.buf (E.ns.bufsz c.nlb) = true) :
    wp (rwLoopBy E (unvmeMapDmaBy E fails) d fuel buf slba nlb) s (fun _ s' => ∃ c, s'.Stuck d c 1)
      (fun _ _ => True) := by
  induction fuel generalizing s buf slba nlb with
  | zero =>
      obtain ⟨c, hc, -⟩ := hf
      cases nlb <;> exact absurd hc (by simp [chunks])
  | succ fuel ih =>
      cases nlb with
      | zero =>
          obtain ⟨c, hc, -⟩ := hf
          exact absurd hc (by simp [chunks])
      | succ rest =>
          rw [rwLoopBy]
          rw [chunks] at hf
          generalize (if rest + 1 < E.ns.maxbpio then rest + 1 else E.ns.maxbpio) = n at hf ⊢
          cases hhead : fails buf (E.ns.bufsz n) with
          | true =>
              -- the poll that follows and the chunks that are left do not give the id back
              refine wp_bind_of (unvmeSubmitIoBy_fails hhead h hd) ?_
              rintro r s₁ ⟨rfl, c, h₁⟩
              rw [wp_ite, if_pos (by decide)]
              refine wp_bind_of (unvmeDoPoll_stuck unvmeTimeout h₁) ?_
              intro r s₂ h₂
              rw [wp_ite]
              split
              · trivial
              · exact wp_mono (rwLoopBy_stuck _ _ _ _ h₂) (fun _ _ hq => ⟨c, hq⟩) (fun _ _ he => he)
          | false =>
              have hrest : ∃ c ∈ chunks E fuel (buf + n <<< E.ns.blockshift) ((slba + n) % 2 ^ 64)
                  (rest + 1 - n), fails c.buf (E.ns.bufsz c.nlb) = true := by
                obtain ⟨c, hc, hcf⟩ := hf
                rcases List.mem_cons.1 hc with rfl | hc
                · rw [hhead] at hcf
                  exact absurd hcf (by decide)
                · exact ⟨c, hc, hcf⟩
              rw [unvmeSubmitIoBy_congr (unvmeMapDmaBy_of_maps hhead)]
              refine wp_bind_of (wp_mono (unvmeSubmitIo_spec (G := Guards.any) (c := ⟨buf, slba, n⟩) h hd
                ⟨fun _ _ => trivial, fun _ _ _ _ _ => trivial⟩) (fun _ _ hq => hq)
                (fun _ _ _ => trivial)) ?_
              rintro r s₁ ⟨hr, hst, sub, hw, -⟩
              rw [wp_ite, if_neg (by omega)]
              exact ih _ _ _ (hst.inv h) (by rw [hw.used]; exact hd) hrest

theorem unvmeDoRwBy_fails {qid : ℤ} {opc buf slba nlb : ℕ} (h : s.Inv .idle)
    (hf : ∃ c ∈ chunks E nlb buf slba nlb, fails c.buf (E.ns.bufsz c.nlb) = true) :
    wp (unvmeDoRwBy E (unvmeMapDmaBy E fails) qid opc buf slba nlb) s (fun d s' => ∃ c, s'.Stuck d c 1)
      (fun _ _ => True) := by
  unfold unvmeDoRwBy
  obtain ⟨d, q', hget, htakes⟩ := h.takes (E := E) (G := Guards.any)
  obtain ⟨s₁, hs₁, hstep, ht, -⟩ := htakes (fun x =>
      { x with opc := opc, buf := buf, qid := qid, slba := slba, nlb := nlb, sentinel := some d })
    (fun x => ⟨rfl, rfl, rfl, rfl⟩) rfl trivial
  rw [wp_bind, wp_get]
  simp only [hget, wp_bind, wp_set]
  rw [← hs₁]
  have hd : d ∈ s₁.q.usedDescs := by rw [ht.used]; simp
  exact wp_mono (rwLoopBy_fails nlb buf slba nlb (hstep.inv h) hd hf) (fun _ _ hq => hq)
    (fun _ _ he => he)

/-- `unvme_do_cmd` returns NULL when the buffer cannot be mapped, with one id more pending. -/
theorem unvmeDoCmdBy_fails {qid : ℤ} {opc nsid buf bufsz : ℕ} {cdw10_15 : Option (Vector ℕ 6)}
    (h : s.Inv .idle) (hf : fails buf bufsz = true) :
    wp (unvmeDoCmdBy E (unvmeMapDmaBy E fails) qid opc nsid buf bufsz cdw10_15) s
      (fun r s' => r = none ∧ s'.dev.hist.reaped ≤ s'.dev.hist.posts.length ∧
        s'.q.cidcount + s'.dev.hist.reaped = s.q.cidcount + s.dev.hist.reaped + 1)
      (fun _ _ => True) := by
  unfold unvmeDoCmdBy
  obtain ⟨d, q', hget, htakes⟩ := h.takes (E := E) (G := Guards.any)
  obtain ⟨s₁, hs₁, hstep, ht, -⟩ := htakes (fun x =>
      { x with opc := opc, buf := buf, qid := qid, sentinel := some d })
    (fun x => ⟨rfl, rfl, rfl, rfl⟩) rfl trivial
  rw [wp_bind, wp_get]
  simp only [hget, wp_bind, wp_set]
  rw [← hs₁]
  have h₁ := hstep.inv h
  have hd : d ∈ s₁.q.usedDescs := by rw [ht.used]; simp
  refine wp_mono (unvmeGetCid_spec (G := Guards.any) h₁ hd) ?_ (fun _ _ _ => trivial)
  rintro cid s₂ ⟨hst, hreaps⟩
  rw [unvmeMapPrpsBy_of_fails hf]
  have h₂ := hst.inv h₁
  have hcount := h.acc.count
  have hcount₂ := h₂.acc.count
  simp only [Pc.hand, Option.toList_some, Option.toList_none, List.length_singleton,
    List.length_nil] at hcount hcount₂
  have hsubs : s₂.dev.hist.subs.length = s.dev.hist.subs.length := by
    rw [(hreaps d).subs, ht.dev, List.append_nil]
  rw [hsubs] at hcount₂
  refine ⟨rfl, h₂.dev.reaped_le_posted, ?_⟩
  show s₂.q.cidcount + s₂.dev.hist.reaped = _
  omega

end

/-! ## Rolling back -/

/-- The ids of the completions reaped between two states. -/
def Sys.reapedSince (s s' : Sys) : List ℕ :=
  ((s'.dev.hist.posts.take s'.dev.hist.reaped).drop s.dev.hist.reaped).map (fun p => p.2.cid)

/-- The queue is as before, except for the completions reaped on the way. -/
structure Sys.RolledBack (s s' : Sys) : Prop where
  cidmask : ∀ c, c ∈ s'.q.cidmask.bits ↔ c ∈ s.q.cidmask.bits ∧ c ∉ s.reapedSince s'
  cidcount : s'.q.cidcount = s.q.cidcount - (s.reapedSince s').length
  used : ∀ d, d ∈ s'.q.usedDescs ↔ d ∈ s.q.usedDescs

/-- No command id is pending without a command in flight. -/
def Sys.NoLeak (s : Sys) : Prop := ∀ c ∈ s.q.cidmask.bits, c ∈ s.dev.hist.inFlight

theorem Sys.Inv.noLeak {s : Sys} (h : s.Inv .idle) : s.NoLeak := by
  intro c hc
  exact ((h.accounted rfl).inFlight c).1 hc

theorem Sys.Stuck.leak {s : Sys} {d c n : ℕ} (h : s.Stuck d c n) : ¬ s.NoLeak := by
  intro hno
  obtain ⟨k, hk⟩ := History.mem_inFlight.1 (hno c h.cidmask)
  exact h.lost k hk

theorem Sys.length_reapedSince {s s' : Sys} (h : s'.dev.hist.reaped ≤ s'.dev.hist.posts.length) :
    (s.reapedSince s').length = s'.dev.hist.reaped - s.dev.hist.reaped := by
  rw [Sys.reapedSince, List.length_map, List.length_drop, List.length_take, Nat.min_eq_left h]

/-- **A failed submission is rolled back exactly if it does not happen.** In every state of a run in
    which all buffers were mapped no id is pending without a command in flight. A further
    `unvme_do_cmd` that returns NULL leaves the queue as it was, and a further `unvme_do_rw` returns a
    descriptor in use and no pending id without a command, exactly if the buffer, or the buffers of
    all chunks, can be mapped. -/
theorem submission_rolled_back_iff {E : Env} {fails : ℕ → ℕ → Bool} {qsize : ℕ} (hq : 2 ≤ qsize)
    {prplist : Dma} {mem disk : ℕ → ℕ} {s : Sys}
    (hrun : RunBy E (unvmeMapDmaBy E fails) (fun s r => r.Legal s ∧ r.Maps E fails)
      (Sys.boot qsize prplist mem disk) s)
    (σ : List (List CtlAct)) :
    s.NoLeak ∧
      (∀ qid opc nsid buf bufsz cdw10_15 r s',
        unvmeDoCmdBy E (unvmeMapDmaBy E fails) qid opc nsid buf bufsz cdw10_15 (s.withSched σ) = .ok r s' →
        ((r = none → s.RolledBack s') ↔ fails buf bufsz = false)) ∧
      ∀ qid opc buf slba nlb d s',
        unvmeDoRwBy E (unvmeMapDmaBy E fails) qid opc buf slba nlb (s.withSched σ) = .ok d s' →
        (s'.NoLeak ∧ d ∈ s'.q.usedDescs ∧ d ∉ s'.q.freeDescs ↔
          ∀ c ∈ chunks E nlb buf slba nlb, fails c.buf (E.ns.bufsz c.nlb) = false) := by
  obtain ⟨h, -, -⟩ := hrun.run.boot (fun _ _ hl => hl) hq
  have hs := h.withSched σ
  refine ⟨h.noLeak, ?_, ?_⟩
  · intro qid opc nsid buf bufsz cdw10_15 r s' hcall
    constructor
    · intro hback
      by_contra hf
      rw [Bool.not_eq_false] at hf
      obtain ⟨hr, hle, hcount⟩ := (unvmeDoCmdBy_fails hs hf).of_ok hcall
      have hsame := (hback hr).cidcount
      rw [Sys.length_reapedSince hle] at hsame
      change _ = s.q.cidcount + s.dev.hist.reaped + 1 at hcount
      omega
    · intro hmaps hr
      rw [unvmeDoCmdBy_of_maps hmaps] at hcall
      obtain ⟨-, d, -, -, hd, -⟩ := (unvmeDoCmd_spec (G := Guards.any) hs (fun _ _ => trivial)
        (fun _ _ => trivial) (fun _ _ _ _ _ => trivial)).of_ok hcall
      rw [hr] at hd
      cases hd
  · intro qid opc buf slba nlb d s' hcall
    constructor
    · rintro ⟨hno, -⟩ c hc
      by_contra hf
      rw [Bool.not_eq_false] at hf
      obtain ⟨c', hstuck⟩ := (unvmeDoRwBy_fails hs ⟨c, hc, hf⟩).of_ok hcall
      exact hstuck.leak hno
    · intro hmaps
      rw [unvmeDoRwBy_of_maps hmaps] at hcall
      obtain ⟨hst, s₁, new, -, ht, -, hw, -⟩ := (unvmeDoRw_spec (G := Guards.any) hs
        (fun _ _ _ => trivial)
        (fun _ _ _ _ _ => ⟨fun _ _ => trivial, fun _ _ _ _ _ => trivial⟩)).of_ok hcall
      have h' := hst.inv hs
      have hd : d ∈ s'.q.usedDescs := by rw [hw.used, ht.used]; simp
      exact ⟨h'.noLeak, hd, h'.acc.wf.disj d hd⟩

/-- The buffer at the second page cannot be mapped. -/
def secondPage (buf _bufsz : ℕ) : Bool := buf == 4096

def secondPageMap : Lookup := unvmeMapDmaBy sampleEnv secondPage

/-- A request of one chunk in the first page, on a queue where nothing has gone wrong. -/
theorem submission_rolled_back_first_page :
    returns (unvmeDoRwBy sampleEnv secondPageMap 0 1 0 0 8) ((sampleSys 4).withSched [])
      (fun d _ => d == 0) = true ∧
    ∀ d s', unvmeDoRwBy sampleEnv secondPageMap 0 1 0 0 8 ((sampleSys 4).withSched []) = .ok d s' →
      s'.NoLeak ∧ d ∈ s'.q.usedDescs ∧ d ∉ s'.q.freeDescs := by
  refine ⟨by decide +kernel, ?_⟩
  intro d s' hcall
  have hrun : RunBy sampleEnv secondPageMap (fun s r => r.Legal s ∧ r.Maps sampleEnv secondPage)
      (sampleSys 4) (sampleSys 4) := .nil
  exact ((submission_rolled_back_iff (by decide) hrun []).2.2 0 1 0 0 8 d s' hcall).2 (by decide)

/-- A command whose buffer cannot be mapped: NULL is returned, nothing is in flight, and command id 0
    stays pending. A request whose second chunk cannot be mapped, while the command of its first one
    fails: the descriptor is returned with command id 1 pending for ever. -/
theorem failed_submission_keeps_cid :
    returns (unvmeDoCmdBy sampleEnv secondPageMap 0 2 1 4096 512 none) ((sampleSys 4).withSched [])
      (fun r s => r == none && s.q.cidcount == 1 && s.q.cidmask.test 0 &&
        s.dev.hist.inFlight.isEmpty) = true ∧
    returns (unvmeDoRwBy sampleEnv secondPageMap 0 1 0 0 16)
      ((sampleSys 4).withSched [[], [], [], [.fetch, .post 0 0 4]])
      (fun d s => d == 0 && s.q.cidcount == 1 && s.q.cidmask.test 1 &&
        s.dev.hist.inFlight.isEmpty) = true ∧
    ¬ ∀ r s', unvmeDoCmdBy sampleEnv secondPageMap 0 2 1 4096 512 none ((sampleSys 4).withSched []) =
      .ok r s' → r = none → Sys.RolledBack (sampleSys 4) s' := by
  have hcmd : returns (unvmeDoCmdBy sampleEnv secondPageMap 0 2 1 4096 512 none)
      ((sampleSys 4).withSched []) (fun r s => r == none && s.q.cidcount == 1 &&
        s.q.cidmask.test 0 && s.dev.hist.inFlight.isEmpty) = true := by decide +kernel
  refine ⟨hcmd, by decide +kernel, ?_⟩
  intro hback
  obtain ⟨r, s', hcall, hr⟩ := returns_iff.1 hcmd
  simp only [Bool.and_eq_true, beq_iff_eq] at hr
  have hbits := ((hback r s' hcall hr.1.1.1).cidmask 0).1 (WordMask.mem_bits.2 hr.1.2)
  exact absurd hbits.1 (by rw [WordMask.mem_bits]; decide +kernel)

end Unvme.Core
