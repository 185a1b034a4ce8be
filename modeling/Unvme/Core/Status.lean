import Unvme.Core.QueueSafety

set_option autoImplicit false

/-! # What a poll reports

`unvme_do_poll` stops at the first completion with a status other than 0, whichever descriptor it
belongs to, and does not look at the error recorded in the descriptor itself. Two results say exactly
what follows: when the value of a poll is about the polled descriptor (`poll_status_attributed`), and
when a synchronous call leaves nothing in flight (`sync_call_complete_iff`). Each comes with a run in
which it does not. -/

namespace Unvme.Core

open Unvme.Lib Unvme.Nvme

/-! ## The status of a poll -/

/-- A poll as it happened: the commands issued for the descriptor, the completions reaped and the
    error recorded before it, its value, and the history when it returned. -/
structure PollRecord where
  cmds : List ℕ
  start : ℕ
  error : ℕ
  ret : ℤ
  hist : History

/-- The record of a poll of `d` with value `r` from `s` to `s'`. -/
def pollRecord (d : ℕ) (r : ℤ) (s s' : Sys) : PollRecord :=
  ⟨(s.q.desc d).cmds, s.dev.hist.reaped, (s.q.desc d).error, r, s'.dev.hist⟩

/-- The value of the poll is about the polled descriptor: 0 only if all its commands completed with
    status 0, and another value than 0 and -1 only if it is the status of one of them. -/
structure PollRecord.Attributed (p : PollRecord) : Prop where
  zero : p.ret = 0 → ∀ k ∈ p.cmds, ∃ e, p.hist.Reaped k e ∧ e.stat = 0
  error : p.ret ≠ 0 → p.ret ≠ -1 → ∃ k ∈ p.cmds, ∃ e, p.hist.Reaped k e ∧ (e.stat : ℤ) = p.ret

/-- Completion number `i` has a status other than 0 and is posted, not yet reaped when the poll
    starts, while the descriptor waits for it. -/
def PollRecord.MeetsError (p : PollRecord) (i k : ℕ) : Prop :=
  p.start ≤ i ∧ (∃ e, p.hist.posts[i]? = some (k, e) ∧ e.stat ≠ 0) ∧ p.hist.WaitingAt p.cmds i

/-- The first error completion the poll meets, in the order of the completion queue, is one of the
    descriptor's own commands, and if it meets none then no error was recorded before it. -/
structure PollRecord.OwnErrorFirst (p : PollRecord) : Prop where
  first : ∀ i k, p.MeetsError i k → (∀ j < i, ∀ k', ¬ p.MeetsError j k') → k ∈ p.cmds
  recorded : p.error = 0 ∨ ∃ i k, p.MeetsError i k

/-- A run with the polls made in it. -/
inductive LoggedRun (E : Env) (s₀ : Sys) : List PollRecord → Sys → Prop
  | nil : LoggedRun E s₀ [] s₀
  | poll {log : List PollRecord} {s s' : Sys} (h : LoggedRun E s₀ log s) (d : ℕ) (timeout r : ℤ)
      (cs : Option ℕ) (σ : List (List CtlAct)) (hd : d ∈ s.q.usedDescs)
      (hp : unvmeDoPoll E d timeout (s.withSched σ) = .ok (r, cs) s') :
      LoggedRun E s₀ (log ++ [pollRecord d r s s']) s'
  | round {log : List PollRecord} {s s' : Sys} (h : LoggedRun E s₀ log s) (r : Round)
      (hl : r.Legal s) (hd : r.Does E s s') : LoggedRun E s₀ log s'

section

variable {E : Env} {s s' : Sys}

theorem LoggedRun.run {s₀ : Sys} {log : List PollRecord} (h : LoggedRun E s₀ log s) :
    Run E (fun s r => r.Legal s) s₀ s := by
  induction h with
  | nil => exact .nil
  | poll _ d timeout r cs σ hd hp ih =>
      refine .round ih (.call (.poll d timeout) σ) hd ⟨.status r, ?_⟩
      show (unvmeDoPoll E d timeout >>= fun r => pure (Ret.status r.1)) _ = _
      show EStateM.bind (unvmeDoPoll E d timeout) _ _ = _
      unfold EStateM.bind
      rw [hp]
      rfl
  | round _ r hl hd ih => exact .round ih r hl hd

/-- A completion reaped by position. -/
theorem reaped_of_get {h : History} {i k : ℕ} {e : CqEntry} (hp : h.posts[i]? = some (k, e))
    (hi : i < h.reaped) : h.Reaped k e := by
  obtain ⟨hlt, hget⟩ := List.getElem?_eq_some_iff.1 hp
  rw [History.Reaped, List.mem_take_iff_getElem]
  exact ⟨i, by omega, hget⟩

theorem get_of_reaped {h : History} {k : ℕ} {e : CqEntry} (hr : h.Reaped k e) :
    ∃ i < h.reaped, h.posts[i]? = some (k, e) := by
  rw [History.Reaped, List.mem_take_iff_getElem] at hr
  obtain ⟨i, hi, hget⟩ := hr
  exact ⟨i, by omega, List.getElem?_eq_some_iff.2 ⟨by omega, hget⟩⟩

/-- A completion posted after the reaped ones is no longer waited for once all commands are reaped. -/
theorem lt_reaped_of_waitingAt {h : History} {cmds : List ℕ} {i : ℕ} (hw : h.WaitingAt cmds i)
    (hall : ∀ k ∈ cmds, k ∈ h.reapedSeqs) : i < h.reaped := by
  obtain ⟨k, hk, hn⟩ := hw
  by_contra hle
  obtain ⟨e, he⟩ := History.mem_reapedSeqs.1 (hall k hk)
  exact hn (List.mem_map.2 ⟨(k, e), List.take_subset_take_left _ (by omega) he, rfl⟩)

/-- **A poll whose first error completion is its own reports its own descriptor.** -/
theorem poll_attributed {d : ℕ} {timeout r : ℤ} {cs : Option ℕ} {σ : List (List CtlAct)}
    (h : s.Inv .idle) (hd : d ∈ s.q.usedDescs)
    (hp : unvmeDoPoll E d timeout (s.withSched σ) = .ok (r, cs) s')
    (hown : (pollRecord d r s s').OwnErrorFirst) : (pollRecord d r s s').Attributed := by
  obtain ⟨-, n, s₁, hst, hpolls, hres, hs'⟩ :=
    (unvmeDoPoll_spec (G := Guards.any) timeout (h.withSched σ) hd).of_ok hp
  have h₁ := hst.inv (h.withSched σ)
  have hd₁ : d ∈ s₁.q.usedDescs := by rw [(hpolls.reaps d).used]; exact hd
  have hdev : s'.dev = s₁.dev := by rw [hs']; split <;> rfl
  have hcmds : (s₁.q.desc d).cmds = (s.q.desc d).cmds := by
    rw [(hpolls.reaps d).own, List.length_nil, List.range'_zero, List.append_nil]; rfl
  have hR : s₁.dev.hist.reaped = s.dev.hist.reaped + n := (hpolls.reaps d).reaped
  obtain ⟨more, hmore⟩ : s.dev.hist.posts <+: s₁.dev.hist.posts := (hpolls.reaps d).posts
  unfold pollRecord at hown ⊢
  rw [hdev] at hown ⊢
  dsimp only at hres
  cases hres with
  | done hclean h0 =>
      refine ⟨fun _ => ?_, fun hne => absurd rfl hne⟩
      intro k hk
      have hall := h₁.all_reaped hd₁ h0
      rw [hcmds] at hall
      obtain ⟨e, he⟩ := History.mem_reapedSeqs.1 (hall k hk)
      refine ⟨e, he, ?_⟩
      obtain ⟨i, hi, hget⟩ := get_of_reaped he
      -- nothing with an error is met before the last command is reaped
      have hnone : ∀ i k', ¬ PollRecord.MeetsError ⟨(s.q.desc d).cmds, s.dev.hist.reaped,
          (s.q.desc d).error, 0, s₁.dev.hist⟩ i k' := by
        intro i k' hm
        obtain ⟨hle, ⟨e', hget', hne⟩, hwait⟩ := hm
        have hlt := lt_reaped_of_waitingAt hwait hall
        obtain ⟨j, rfl⟩ := Nat.exists_eq_add_of_le hle
        exact hne (hclean j k' e' (by dsimp only at *; omega) hget')
      rcases Nat.lt_or_ge i s.dev.hist.reaped with hlt | hge
      · have herr : (s.q.desc d).error = 0 := by
          rcases hown.recorded with h0 | ⟨i', k', hm⟩
          · exact h0
          · exact absurd hm (hnone i' k')
        rw [← hmore, List.getElem?_append_left
          (Nat.lt_of_lt_of_le hlt h.dev.reaped_le_posted)] at hget
        exact h.acc.noError d hd herr k hk e (reaped_of_get hget hlt)
      · obtain ⟨j, rfl⟩ := Nat.exists_eq_add_of_le hge
        exact hclean j k e (by omega) hget
  | error m k e hn hget he =>
      have hret : ((e.stat : ℕ) : ℤ) ≠ 0 := by exact_mod_cast he
      refine ⟨fun h0 => absurd h0 hret, fun _ _ => ?_⟩
      have hlast : k ∈ (s.q.desc d).cmds := by
        refine hown.first (s.dev.hist.reaped + m) k
          ⟨Nat.le_add_right _ _, ⟨e, hget, he⟩, hpolls.waiting m (by omega)⟩ ?_
        intro j hj k' hm
        obtain ⟨hle, ⟨e', hget', hne⟩, -⟩ := hm
        obtain ⟨i, rfl⟩ := Nat.exists_eq_add_of_le hle
        exact hne (hpolls.clean i k' e' (by dsimp only at *; omega) hget')
      have hlt : s.dev.hist.reaped + m < s₁.dev.hist.reaped := by omega
      exact ⟨k, hlast, e, reaped_of_get hget hlt, rfl⟩
  | timeout hclean h0 => exact ⟨nofun, fun _ hr => absurd rfl hr⟩

/-- **Status attribution.** In every run, a poll whose first error completion in the completion queue
    is one of its own, or that meets none and finds no recorded error, reports its own descriptor. -/
theorem poll_status_attributed {qsize : ℕ} (hq : 2 ≤ qsize) {prplist : Dma} {mem disk : ℕ → ℕ}
    {log : List PollRecord} (hrun : LoggedRun E (Sys.boot qsize prplist mem disk) log s) :
    ∀ p ∈ log, p.OwnErrorFirst → p.Attributed := by
  induction hrun with
  | nil => exact fun p hp => absurd hp List.not_mem_nil
  | @poll log s s' hrun d timeout r cs σ hd hp ih =>
      intro p hpm hown
      rcases List.mem_append.1 hpm with hpm | hpm
      · exact ih p hpm hown
      · rw [List.mem_singleton] at hpm
        subst hpm
        exact poll_attributed (hrun.run.boot (fun _ _ hl => hl) hq).1 hd hp hown
  | round _ r hl hd ih => exact ih

end

/-- A call that returns continues a run. -/
theorem LoggedRun.call {E : Env} {s₀ s : Sys} {log : List PollRecord} (h : LoggedRun E s₀ log s)
    (c : Call) (σ : List (List CtlAct)) (hl : Round.Legal s (.call c σ)) (v : Ret)
    (hv : returns (c.run E) (s.withSched σ) (fun a _ => decide (a = v)) = true) :
    LoggedRun E s₀ log (c.after E (s.withSched σ)) :=
  h.round (.call c σ) hl ⟨v, eq_ok_of_returns hv⟩

/-- Two reads on descriptors 0 and 1. -/
def twoReads : Sys :=
  Call.after sampleEnv (.rw 0 nvmeCmdRead 4096 8 8)
    ((Call.after sampleEnv (.rw 0 nvmeCmdRead 0 0 8) ((sampleSys 4).withSched [])).withSched [])

theorem twoReads_run : LoggedRun sampleEnv (sampleSys 4) [] twoReads :=
  (LoggedRun.nil.call (.rw 0 nvmeCmdRead 0 0 8) [] trivial (.desc (some 0))
    (by decide +kernel)).call (.rw 0 nvmeCmdRead 4096 8 8) [] trivial (.desc (some 1))
    (by decide +kernel)

/-- The controller has fetched both and completed the first with status 8. -/
def crossedReads : Sys :=
  { twoReads with
    dev := [.fetch, .fetch, .post 0 0 8].foldl (Device.act sampleEnv.media) twoReads.dev }

theorem crossedReads_run : LoggedRun sampleEnv (sampleSys 4) [] crossedReads :=
  twoReads_run.round (.idle [.fetch, .fetch, .post 0 0 8]) trivial rfl

/-- The state after a poll of `d`. -/
def polled (d : ℕ) (s : Sys) : Sys :=
  final (unvmeDoPoll sampleEnv d unvmeTimeout) (s.withSched [])

/-- The first read is polled first: it reports its own status. -/
theorem poll_status_attributed_own :
    let p := pollRecord 0 8 crossedReads (polled 0 crossedReads)
    LoggedRun sampleEnv (sampleSys 4) [p] (polled 0 crossedReads) ∧ p.OwnErrorFirst ∧
      p.Attributed := by
  intro p
  have hrun : LoggedRun sampleEnv (sampleSys 4) ([] ++ [p]) (polled 0 crossedReads) :=
    crossedReads_run.poll 0 unvmeTimeout 8 (some 0) [] (by decide +kernel)
      (eq_ok_of_returns (by decide +kernel))
  have hposts : ∀ x ∈ p.hist.posts, x.1 ∈ p.cmds := by decide +kernel
  have hown : p.OwnErrorFirst := by
    refine ⟨?_, Or.inl (by decide +kernel)⟩
    intro i k hm _
    obtain ⟨-, ⟨e, hget, -⟩, -⟩ := hm
    exact hposts _ (List.mem_of_getElem? hget)
  exact ⟨hrun, hown, poll_status_attributed (by decide) hrun p (by simp) hown⟩

/-- The second read is polled first: it reports the status of the first read, whose own poll then
    returns 0. -/
theorem poll_status_misattributed :
    let s₁ := polled 1 crossedReads
    let p₁ := pollRecord 1 8 crossedReads s₁
    let p₀ := pollRecord 0 0 s₁ (polled 0 s₁)
    LoggedRun sampleEnv (sampleSys 4) [p₁, p₀] (polled 0 s₁) ∧ ¬ p₁.Attributed ∧
      ¬ p₀.Attributed := by
  intro s₁ p₁ p₀
  have hrun₁ : LoggedRun sampleEnv (sampleSys 4) ([] ++ [p₁]) s₁ :=
    crossedReads_run.poll 1 unvmeTimeout 8 (some 0) [] (by decide +kernel)
      (eq_ok_of_returns (by decide +kernel))
  have hrun₀ : LoggedRun sampleEnv (sampleSys 4) ([] ++ [p₁] ++ [p₀]) (polled 0 s₁) :=
    hrun₁.poll 0 unvmeTimeout 0 none [] (by decide +kernel) (eq_ok_of_returns (by decide +kernel))
  refine ⟨hrun₀, ?_, ?_⟩
  · intro ha
    obtain ⟨k, hk, e, he, -⟩ := ha.error (by decide) (by decide)
    have hnot : ∀ x ∈ p₁.hist.posts.take p₁.hist.reaped, x.1 ∉ p₁.cmds := by decide +kernel
    exact hnot _ he hk
  · intro ha
    have hmem : 0 ∈ p₀.cmds := by decide +kernel
    obtain ⟨e, he, h0⟩ := ha.zero rfl 0 hmem
    have hbad : ∀ x ∈ p₀.hist.posts.take p₀.hist.reaped, x.2.stat ≠ 0 := by decide +kernel
    exact hbad _ he h0

/-! ## Synchronous calls -/

/-- A synchronous call on the queue (`unvme_read`, `unvme_write`, `unvme_cmd`). -/
inductive SyncCall where
  | read (qid : ℤ) (buf slba nlb : ℕ)
  | write (qid : ℤ) (buf slba nlb : ℕ)
  | cmd (qid : ℤ) (opc nsid buf bufsz : ℕ) (cdw10_15 : Option (Vector ℕ 6))

def SyncCall.run (E : Env) : SyncCall → Drv ℤ
  | .read qid buf slba nlb => unvmeRead E qid buf slba nlb
  | .write qid buf slba nlb => unvmeWrite E qid buf slba nlb
  | .cmd qid opc nsid buf bufsz cdw10_15 => unvmeCmd E qid opc nsid buf bufsz cdw10_15

/-- The number of commands a call issues. -/
def SyncCall.count (E : Env) : SyncCall → ℕ
  | .read _ buf slba nlb | .write _ buf slba nlb => (chunks E nlb buf slba nlb).length
  | .cmd .. => 1

/-- From `s` to `s'` every command issued was reaped, and the descriptor taken in `s` is back on the
    free list. -/
structure Sys.NothingLeft (s s' : Sys) : Prop where
  reaped : ∀ k, s.dev.hist.submitted ≤ k → k < s'.dev.hist.submitted → k ∈ s'.dev.hist.reapedSeqs
  released : (unvmeDescGet s.q).1 ∈ s'.q.freeDescs

/-- No completion with an error stands in the completion queue before the last of the commands
    `cmds`, from position `start` on. -/
def History.ErrorsLast (h : History) (cmds : List ℕ) (start : ℕ) : Prop :=
  ∀ i k e, start ≤ i → h.posts[i]? = some (k, e) → e.stat ≠ 0 →
    ∀ k' ∈ cmds, k' ∈ (h.posts.take (i + 1)).map Prod.fst

section

variable {E : Env} {s s' : Sys}

/-- **A poll that does not time out releases its descriptor exactly if no error stands before the
    last of its completions.** -/
theorem poll_releases_iff {d : ℕ} {timeout r : ℤ} {cs : Option ℕ} (h : s.Inv .idle)
    (hd : d ∈ s.q.usedDescs) (hp : unvmeDoPoll E d timeout s = .ok (r, cs) s') (hr : r ≠ -1) :
    (∀ k ∈ (s.q.desc d).cmds, k ∈ s'.dev.hist.reapedSeqs) ∧ d ∈ s'.q.freeDescs ↔
      History.ErrorsLast s'.dev.hist (s.q.desc d).cmds s.dev.hist.reaped := by
  obtain ⟨-, n, s₁, hst, hpolls, hres, hs'⟩ :=
    (unvmeDoPoll_spec (G := Guards.any) timeout h hd).of_ok hp
  have h₁ := hst.inv h
  have hd₁ : d ∈ s₁.q.usedDescs := by rw [(hpolls.reaps d).used]; exact hd
  have hdev : s'.dev = s₁.dev := by rw [hs']; split <;> rfl
  have hcmds : (s₁.q.desc d).cmds = (s.q.desc d).cmds := by
    rw [(hpolls.reaps d).own, List.length_nil, List.range'_zero, List.append_nil]
  have hR : s₁.dev.hist.reaped = s.dev.hist.reaped + n := (hpolls.reaps d).reaped
  have hput : (s₁.q.desc d).cidcount = 0 → d ∈ s'.q.freeDescs := by
    intro h0
    rw [hs', if_pos h0]
    show d ∈ (unvmeDescPut s₁.q d).freeDescs
    rw [(h₁.acc.descPut hd₁ h0).2.1]
    exact List.mem_append_right _ (List.mem_singleton_self d)
  have hall : (s₁.q.desc d).cidcount = 0 → ∀ k ∈ (s.q.desc d).cmds, k ∈ s'.dev.hist.reapedSeqs := by
    intro h0 k hk
    rw [hdev]
    exact h₁.all_reaped hd₁ h0 k (by rw [hcmds]; exact hk)
  constructor
  · intro hleft i k e hi hget he k' hk'
    obtain ⟨e', he'⟩ := History.mem_reapedSeqs.1 (hleft.1 k' hk')
    -- an error that was reaped was the last completion reaped
    have hle : s'.dev.hist.reaped ≤ i + 1 := by
      rw [hdev, hR]
      by_contra hlt
      obtain ⟨j, rfl⟩ := Nat.exists_eq_add_of_le hi
      rw [hdev] at hget
      exact he (hpolls.clean j k e (by omega) hget)
    exact List.mem_map.2 ⟨(k', e'), List.take_subset_take_left _ hle he', rfl⟩
  · intro hlast
    have h0 : (s₁.q.desc d).cidcount = 0 := by
      dsimp only at hres
      cases hres with
      | done hclean h0 => exact h0
      | error m k e hn hget he =>
          by_contra hne
          obtain ⟨k', hk', hnot⟩ := h₁.unreaped hd₁ hne
          rw [hcmds] at hk'
          rw [hdev] at hlast
          have hmem := hlast _ k e (Nat.le_add_right _ m) hget he k' hk'
          rw [Nat.add_assoc, ← hn, ← hR] at hmem
          exact hnot hmem
      | timeout hclean h0 => exact absurd rfl hr
    exact ⟨hall h0, hput h0⟩

/-- What a synchronous call does before it polls: it takes a descriptor and issues its commands. -/
structure SyncCall.Issues (E : Env) (c : SyncCall) (d : ℕ) (s s' : Sys) : Prop where
  inv : s'.Inv .idle
  work : ∃ s₁ new, Sys.Takes d s s₁ ∧ Sys.Works d s₁ s' new (s.q.forced (c.count E)) ∧
    new.length = c.count E

/-- A read or write issues one command for every chunk. -/
theorem unvmeRw_issues {qid r : ℤ} {opc buf slba nlb : ℕ} (h : s.Inv .idle)
    (hc : unvmeRw E qid opc buf slba nlb s = .ok r s') : ∃ d s₂ cs,
      SyncCall.Issues E (.read qid buf slba nlb) d s s₂ ∧
        unvmeDoPoll E d unvmeTimeout s₂ = .ok (r, cs) s' := by
  obtain ⟨d, s₂, hrw, hrest⟩ := bind_eq_ok hc
  obtain ⟨⟨r', cs⟩, s₃, hpoll, hpure⟩ := bind_eq_ok hrest
  cases hpure
  obtain ⟨hst, s₁, new, -, htakes, -, hworks, hall⟩ :=
    (unvmeDoRw_spec (G := Guards.any) h (fun _ _ _ => trivial)
      (fun _ _ _ _ _ => ⟨fun _ _ => trivial, fun _ _ _ _ _ => trivial⟩)).of_ok hrw
  have hlen : new.length = SyncCall.count E (.read qid buf slba nlb) := hall.length_eq.symm
  exact ⟨d, s₂, cs, ⟨hst.inv h, s₁, new, htakes, hlen ▸ hworks, hlen⟩, hpoll⟩

/-- **Every synchronous call issues its commands for one descriptor and polls it.** -/
theorem SyncCall.run_issues (c : SyncCall) (h : s.Inv .idle) {r : ℤ} (hr : r ≠ -1)
    (hc : c.run E s = .ok r s') : ∃ d s₂ cs,
      c.Issues E d s s₂ ∧ unvmeDoPoll E d unvmeTimeout s₂ = .ok (r, cs) s' := by
  cases c with
  | read qid buf slba nlb => exact unvmeRw_issues h hc
  | write qid buf slba nlb =>
      obtain ⟨d, s₂, cs, ⟨hinv, hwork⟩, hpoll⟩ := unvmeRw_issues h hc
      exact ⟨d, s₂, cs, ⟨hinv, hwork⟩, hpoll⟩
  | cmd qid opc nsid buf bufsz cdw10_15 =>
      obtain ⟨v, s₂, hcmd, hrest⟩ := bind_eq_ok hc
      obtain ⟨hst, d, s₁, sub, rfl, -, htakes, hworks, -⟩ :=
        (unvmeDoCmd_spec (G := Guards.any) h (fun _ _ => trivial) (fun _ _ => trivial)
          (fun _ _ _ _ _ => trivial)).of_ok hcmd
      obtain ⟨⟨r', cs⟩, s₃, hpoll, hpure⟩ := bind_eq_ok hrest
      cases hpure
      exact ⟨d, s₂, cs, ⟨hst.inv h, s₁, [sub], htakes, hworks, rfl⟩, hpoll⟩

/-- **A synchronous call that does not time out leaves nothing in flight exactly if** no completion
    with an error stands in the completion queue, behind those reaped to make room, before the last of
    the call's own. -/
theorem sync_call_complete_iff {qsize : ℕ} (hq : 2 ≤ qsize) {prplist : Dma} {mem disk : ℕ → ℕ}
    (hrun : Run E (fun s r => r.Legal s) (Sys.boot qsize prplist mem disk) s) (c : SyncCall)
    (σ : List (List CtlAct)) {r : ℤ} (hc : c.run E (s.withSched σ) = .ok r s') (hr : r ≠ -1) :
    s.NothingLeft s' ↔
      History.ErrorsLast s'.dev.hist (List.range' s.dev.hist.submitted (c.count E))
        (s.dev.hist.reaped + s.q.forced (c.count E)) := by
  have h := (hrun.boot (fun _ _ hl => hl) hq).1.withSched σ
  obtain ⟨d, s₂, cs, ⟨h₂, s₁, new, htakes, hworks, hlen⟩, hpoll⟩ := c.run_issues h hr hc
  have hd₁ : d ∈ s₁.q.usedDescs := by rw [htakes.used]; simp
  have hd₂ : d ∈ s₂.q.usedDescs := by rw [hworks.used]; exact hd₁
  have hcmds : (s₂.q.desc d).cmds = List.range' s.dev.hist.submitted (c.count E) := by
    rw [hworks.own, htakes.cmds, List.nil_append, htakes.dev, hlen]; rfl
  have hreaped : s₂.dev.hist.reaped = s.dev.hist.reaped + s.q.forced (c.count E) := by
    rw [hworks.reaped, htakes.dev]; rfl
  have hsubs : s'.dev.hist.submitted = s.dev.hist.submitted + c.count E := by
    obtain ⟨-, n, s₃, -, hpolls, -, hs'⟩ :=
      (unvmeDoPoll_spec (G := Guards.any) unvmeTimeout h₂ hd₂).of_ok hpoll
    have hdev : s'.dev = s₃.dev := by rw [hs']; split <;> rfl
    rw [hdev, History.submitted, (hpolls.reaps d).subs, List.append_nil, hworks.subs,
      List.length_append, htakes.dev, hlen]
    rfl
  rw [← hcmds, ← hreaped, ← poll_releases_iff h₂ hd₂ hpoll hr, hcmds]
  have hget : (unvmeDescGet s.q).1 = d := htakes.get.symm
  constructor
  · intro hleft
    refine ⟨fun k hk => ?_, hget ▸ hleft.released⟩
    obtain ⟨hlo, hhi⟩ := List.mem_range'_1.1 hk
    exact hleft.reaped k hlo (by omega)
  · intro hleft
    refine ⟨fun k hlo hhi => ?_, hget.symm ▸ hleft.2⟩
    exact hleft.1 k (List.mem_range'_1.2 ⟨hlo, by omega⟩)

end

/-- A read of two chunks; the controller fetches both when the poll starts, and does `acts` then. -/
def splitRead (acts : List CtlAct) : EStateM.Result Stop Sys ℤ :=
  SyncCall.run sampleEnv (.read 0 0 0 16)
    ((sampleSys 4).withSched [[], [], [], [], [], [], [.fetch, .fetch] ++ acts])

/-- The second chunk completes with status 8, after the first: nothing is left. -/
theorem sync_call_complete_last : ∃ s', splitRead
      [.loadPrps 0, .execute 0, .post 0 0 0, .post 0 0 8] = .ok 8 s' ∧
    (sampleSys 4).NothingLeft s' := by
  have hrun : returns (SyncCall.run sampleEnv (.read 0 0 0 16)) ((sampleSys 4).withSched
      [[], [], [], [], [], [],
        [.fetch, .fetch, .loadPrps 0, .execute 0, .post 0 0 0, .post 0 0 8]])
      (fun r s' => r == 8 && (List.range s'.dev.hist.posts.length).all (fun i =>
        s'.dev.hist.posts[i]?.all (fun x => x.2.stat == 0 ||
          [0, 1].all (fun k => (s'.dev.hist.posts.take (i + 1)).any (fun y => y.1 == k))))) = true := by
    decide +kernel
  obtain ⟨r, s', hc, hp⟩ := returns_iff.1 hrun
  rw [Bool.and_eq_true, beq_iff_eq] at hp
  obtain ⟨rfl, hposts⟩ := hp
  refine ⟨s', hc, (sync_call_complete_iff (by decide) RunBy.nil _ _ hc (by decide)).2 ?_⟩
  intro i k e _ hget he k' hk'
  have hi : i ∈ List.range s'.dev.hist.posts.length :=
    List.mem_range.2 (List.getElem?_eq_some_iff.1 hget).1
  have hone := List.all_eq_true.1 hposts i hi
  rw [hget, Option.all_some, Bool.or_eq_true, beq_iff_eq] at hone
  obtain ⟨y, hy, hyk⟩ := List.any_eq_true.1 (List.all_eq_true.1 (hone.resolve_left he) k' hk')
  exact List.mem_map.2 ⟨y, hy, beq_iff_eq.1 hyk⟩

/-- The first chunk completes with status 8: the call returns it with the second still in flight. -/
theorem sync_call_leaves_chunk : ∃ s', splitRead [.post 0 0 8] = .ok 8 s' ∧
    ¬ (sampleSys 4).NothingLeft s' := by
  have hrun : returns (SyncCall.run sampleEnv (.read 0 0 0 16)) ((sampleSys 4).withSched
      [[], [], [], [], [], [], [.fetch, .fetch, .post 0 0 8]])
      (fun r s' => r == 8 && s'.dev.hist.submitted == 2 && !s'.dev.hist.reapedSeqs.contains 1)
      = true := by
    decide +kernel
  obtain ⟨r, s', hc, hp⟩ := returns_iff.1 hrun
  simp only [Bool.and_eq_true, beq_iff_eq, Bool.not_eq_true', List.contains_eq_mem,
    decide_eq_false_iff_not] at hp
  obtain ⟨⟨rfl, hsub⟩, hnot⟩ := hp
  exact ⟨s', hc, fun hleft => hnot (hleft.reaped 1 (Nat.zero_le 1) (by omega))⟩

end Unvme.Core
