import Unvme.Core.Status

set_option autoImplicit false

/-! # The command-specific result of a command

`unvme_apoll_cs` hands a pointer down to `nvme_check_completion`, which stores the DW0 of whatever
completion it takes from the ring. A poll that waits for its command takes that command's completion
last, so its DW0 is the one that stays. A completion that was taken earlier, by the poll of another
descriptor or by a submission on a full queue, has left its DW0 with that caller, and the poll stores
nothing. -/

namespace Unvme.Core

open Unvme.Lib Unvme.Nvme

variable {E : Env} {s s' : Sys}

/-- **The last completion a poll takes is one of its own commands**, if it returns 0. -/
theorem pollLoop_cs {d : ℕ} (timeout : ℤ) (fuel : ℕ) (cs : Option ℕ) (h : s.Inv .idle)
    (hd : d ∈ s.q.usedDescs) :
    wp (pollLoop E d timeout fuel cs) s
      (fun r s' => r.1 = 0 →
        ((s.q.desc d).cidcount = 0 → r.2 = cs ∧ s' = s) ∧
        ((s.q.desc d).cidcount ≠ 0 → ∃ k ∈ (s.q.desc d).cmds, ∃ e, s'.dev.hist.Reaped k e ∧
          r.2 = some e.cs))
      (fun _ _ => True) := by
  induction fuel generalizing s cs with
  | zero => trivial
  | succ fuel ih =>
      rw [pollLoop, wp_bind, wp_get, wp_ite]
      split
      · next h0 => exact fun _ => ⟨fun _ => ⟨rfl, rfl⟩, fun hne => absurd h0 hne⟩
      · next h0 =>
          refine wp_bind_of (wp_mono (unvmeCheckCompletion_spec (G := Guards.any) timeout h)
            (fun _ _ hq => hq) (fun _ _ hf => hf.elim)) ?_
          rintro r s₁ ⟨hst, ⟨rfl, hr, hq⟩ | ⟨k, e, d', rfl, hone⟩⟩
          · simp only [wp_ite]
            rw [if_pos (by decide)]
            intro hr
            change (-1 : ℤ) = 0 at hr
            exact absurd hr (by decide)
          · simp only [wp_ite]
            split
            · next hne => exact fun hr => absurd hr hne
            · have h₁ := hst.inv h
              have hd₁ : d ∈ s₁.q.usedDescs := by rw [(hone.reaps d).used]; exact hd
              have hcmds : (s₁.q.desc d).cmds = (s.q.desc d).cmds := by
                rw [(hone.reaps d).own, List.length_nil, List.range'_zero, List.append_nil]
              refine wp_mono (ih _ h₁ hd₁) ?_ (fun _ _ ht => ht)
              rintro r s₂ hrest hr
              obtain ⟨hdone, hmore⟩ := hrest hr
              refine ⟨fun hz => absurd hz h0, fun _ => ?_⟩
              by_cases h0₁ : (s₁.q.desc d).cidcount = 0
              · -- this completion was the one the descriptor waited for
                obtain ⟨hcs, rfl⟩ := hdone h0₁
                obtain ⟨p, hret⟩ := hone.retired
                have hdd : d = d' := by
                  by_contra hne
                  rw [hret] at h0₁
                  change ((s.q.clearCid d' e.cid e.stat).desc d).cidcount = 0 at h0₁
                  rw [Queue.clearCid_desc_of_ne hne] at h0₁
                  exact h0 h0₁
                subst hdd
                refine ⟨k, hone.cmd, e, reaped_of_get hone.post ?_, hcs⟩
                rw [(hone.reaps d).reaped]
                omega
              · rw [hcmds] at hmore
                exact hmore h0₁

/-- A poll that returns 0 stores the DW0 of one of its own commands, or nothing if the descriptor had
    no command pending. -/
theorem unvmeDoPoll_cs {d : ℕ} (timeout : ℤ) (h : s.Inv .idle) (hd : d ∈ s.q.usedDescs) :
    wp (unvmeDoPoll E d timeout) s
      (fun r s' => r.1 = 0 →
        ((s.q.desc d).cidcount = 0 → r.2 = none) ∧
        ((s.q.desc d).cidcount ≠ 0 → ∃ k ∈ (s.q.desc d).cmds, ∃ e, s'.dev.hist.Reaped k e ∧
          r.2 = some e.cs))
      (fun _ _ => True) := by
  unfold unvmeDoPoll
  rw [wp_bind, wp_get, wp_ite]
  split
  · trivial
  · refine wp_bind_of (pollLoop_cs timeout _ none h hd) ?_
    intro r s₁ hr
    rw [wp_bind, wp_get, wp_ite]
    split
    · exact fun h0 => ⟨fun hz => ((hr h0).1 hz).1, (hr h0).2⟩
    · exact fun h0 => ⟨fun hz => ((hr h0).1 hz).1, (hr h0).2⟩

/-- The commands of a descriptor stay those it was issued for while it is in use. -/
theorem Round.cmds_of_used {r : Round} (h : s.Inv .idle) (hl : r.Legal s) (hd : r.Does E s s')
    {x : ℕ} (hx : x ∈ s.q.usedDescs) : (s'.q.desc x).cmds = (s.q.desc x).cmds := by
  cases r with
  | call c σ =>
      obtain ⟨v, hv⟩ := hd
      have hs := h.withSched σ
      cases c with
      | rw qid opc buf slba nlb =>
          obtain ⟨d, s₂, hrw, hpure⟩ := bind_eq_ok hv
          cases hpure
          obtain ⟨-, s₁, new, -, ht, -, hw, -⟩ := (unvmeDoRw_spec (G := Guards.any) hs
            (fun _ _ _ => trivial)
            (fun _ _ _ _ _ => ⟨fun _ _ => trivial, fun _ _ _ _ _ => trivial⟩)).of_ok hrw
          have hne : x ≠ d := fun he => ht.fresh (he ▸ hx)
          rw [hw.cmds x hne, ht.desc x hne]
          rfl
      | cmd qid opc nsid buf bufsz cdw10_15 =>
          obtain ⟨d, s₂, hcmd, hpure⟩ := bind_eq_ok hv
          cases hpure
          obtain ⟨-, d, s₁, sub, -, -, ht, hw, -⟩ := (unvmeDoCmd_spec (G := Guards.any) hs
            (fun _ _ => trivial) (fun _ _ => trivial) (fun _ _ _ _ _ => trivial)).of_ok hcmd
          have hne : x ≠ d := fun he => ht.fresh (he ▸ hx)
          rw [hw.cmds x hne, ht.desc x hne]
          rfl
      | poll d timeout =>
          obtain ⟨r, s₂, hpoll, hpure⟩ := bind_eq_ok hv
          cases hpure
          obtain ⟨-, n, s₁, -, hpolls, -, hs'⟩ :=
            (unvmeDoPoll_spec (G := Guards.any) timeout hs hl).of_ok hpoll
          have hdesc : s'.q.desc = s₁.q.desc := by rw [hs']; split <;> rfl
          rw [hdesc, (hpolls.reaps x).own, List.length_nil, List.range'_zero, List.append_nil]
          rfl
  | idle acts => rw [hd]
  | store mem => rw [hd]

theorem Run.cmds_of_used {s₀ : Sys} {x : ℕ} (h₀ : s₀.Inv .idle)
    (hrun : Run E (fun s r => r.Legal s ∧ x ∈ s.q.usedDescs) s₀ s) :
    (s.q.desc x).cmds = (s₀.q.desc x).cmds := by
  induction hrun with
  | nil => rfl
  | round hrun r hl hd ih =>
      have h := (Run.inv (fun _ _ hl => hl.1) h₀ hrun).1
      rw [Round.cmds_of_used h hl.1 hd hl.2, ih]

/-- **The DW0 of a command reaches its requester exactly if the completion was not taken before the
    poll.** Descriptor `d` is created by `unvme_acmd` and not released since; the poll returns 0. The
    caller's variable then holds the DW0 of the command's completion, whatever it held before, exactly
    if the completion was not reaped when the poll started. -/
theorem command_result_iff {qsize : ℕ} (hq : 2 ≤ qsize) {prplist : Dma} {mem disk : ℕ → ℕ}
    {s₀ s₁ : Sys} (hrun₀ : Run E (fun s r => r.Legal s) (Sys.boot qsize prplist mem disk) s₀)
    {qid : ℤ} {opc nsid buf bufsz d : ℕ} {cdw10_15 : Option (Vector ℕ 6)} {σ₀ : List (List CtlAct)}
    (hcmd : unvmeDoCmd E qid opc nsid buf bufsz cdw10_15 (s₀.withSched σ₀) = .ok (some d) s₁)
    (hrun : Run E (fun s r => r.Legal s ∧ d ∈ s.q.usedDescs) s₁ s) (hd : d ∈ s.q.usedDescs)
    {timeout : ℤ} {σ : List (List CtlAct)} {cs : Option ℕ}
    (hpoll : unvmeDoPoll E d timeout (s.withSched σ) = .ok (0, cs) s') :
    (∃ e, (s₀.dev.hist.submitted, e) ∈ s'.dev.hist.posts ∧ ∀ cs₀, cs.getD cs₀ = e.cs) ↔
      s₀.dev.hist.submitted ∉ s.dev.hist.reapedSeqs := by
  have h₀ := (hrun₀.boot (fun _ _ hl => hl) hq).1.withSched σ₀
  obtain ⟨hst₁, d', s₂, sub, hd', -, ht, hw, -⟩ := (unvmeDoCmd_spec (G := Guards.any) h₀
    (fun _ _ => trivial) (fun _ _ => trivial) (fun _ _ _ _ _ => trivial)).of_ok hcmd
  obtain rfl : d = d' := Option.some.inj hd'
  have h₁ := hst₁.inv h₀
  have h := (Run.inv (fun _ _ hl => hl.1) h₁ hrun).1
  have hcmds : (s.q.desc d).cmds = [s₀.dev.hist.submitted] := by
    rw [Run.cmds_of_used h₁ hrun, hw.own, ht.cmds, ht.dev]
    rfl
  have hs := h.withSched σ
  obtain ⟨hidle, hbusy⟩ := (unvmeDoPoll_cs timeout hs hd).of_ok hpoll rfl
  constructor
  · rintro ⟨e, -, hcs⟩ hreaped
    have h0 : (s.q.desc d).cidcount = 0 := by
      by_contra hne
      obtain ⟨k, hk, hnew⟩ := h.unreaped hd hne
      rw [hcmds, List.mem_singleton] at hk
      exact hnew (hk ▸ hreaped)
    have hnone : cs = none := hidle h0
    have habs := hcs (e.cs + 1)
    rw [hnone, Option.getD_none] at habs
    omega
  · intro hnew
    have hne : (s.q.desc d).cidcount ≠ 0 := by
      intro h0
      refine hnew (h.all_reaped hd h0 _ ?_)
      rw [hcmds]
      exact List.mem_singleton_self _
    obtain ⟨k, hk, e, hreaped, hcs⟩ := hbusy hne
    obtain rfl : k = s₀.dev.hist.submitted := by
      change k ∈ (s.q.desc d).cmds at hk
      rw [hcmds] at hk
      exact List.mem_singleton.1 hk
    refine ⟨e, List.mem_of_mem_take hreaped, fun cs₀ => ?_⟩
    have hsome : cs = some e.cs := hcs
    rw [hsome, Option.getD_some]

/-- A command on descriptor 0. -/
def firstCmd : Sys :=
  final (unvmeDoCmd sampleEnv 0 2 1 0 512 none) ((sampleSys 4).withSched [])

/-- A second one on descriptor 1. -/
def secondCmd : Sys := Call.after sampleEnv (.cmd 0 2 1 4096 512 none) (firstCmd.withSched [])

/-- The controller executes both, then completes the first with DW0 5 and the second with DW0 7. -/
def completeBoth : List CtlAct :=
  [.fetch, .fetch, .loadPrps 0, .execute 0, .loadPrps 1, .execute 1, .post 0 5 0, .post 0 7 0]

def bothDone : Sys :=
  { secondCmd with dev := completeBoth.foldl (Device.act sampleEnv.media) secondCmd.dev }

theorem firstCmd_eq : unvmeDoCmd sampleEnv 0 2 1 0 512 none ((sampleSys 4).withSched []) =
    .ok (some 0) firstCmd := eq_ok_of_returns (by decide +kernel)

theorem bothDone_run :
    Run sampleEnv (fun s r => r.Legal s ∧ 0 ∈ s.q.usedDescs) firstCmd bothDone := by
  refine .round (.round .nil (.call (.cmd 0 2 1 4096 512 none) []) ⟨trivial, by decide +kernel⟩
    ⟨.desc (some 1), eq_ok_of_returns ?_⟩) (.idle completeBoth) ⟨trivial, by decide +kernel⟩ rfl
  decide +kernel

/-- The first command is polled first and gets its DW0. -/
theorem command_result_first :
    unvmeDoPoll sampleEnv 0 unvmeTimeout (bothDone.withSched []) =
        .ok (0, some 5) (polled 0 bothDone) ∧
      ∃ e, (0, e) ∈ (polled 0 bothDone).dev.hist.posts ∧ ∀ cs₀, (some 5).getD cs₀ = e.cs := by
  have hpoll : unvmeDoPoll sampleEnv 0 unvmeTimeout (bothDone.withSched []) =
      .ok (0, some 5) (polled 0 bothDone) := eq_ok_of_returns (by decide +kernel)
  exact ⟨hpoll, (command_result_iff (by decide) .nil firstCmd_eq bothDone_run (by decide +kernel)
    hpoll).2 (by decide +kernel)⟩

/-- The second command is polled first. It takes both completions and is given DW0 7; the poll of the
    first command then returns 0 and stores nothing. -/
theorem command_result_lost :
    Run sampleEnv (fun s r => r.Legal s ∧ 0 ∈ s.q.usedDescs) firstCmd (polled 1 bothDone) ∧
      unvmeDoPoll sampleEnv 0 unvmeTimeout ((polled 1 bothDone).withSched []) =
        .ok (0, none) (polled 0 (polled 1 bothDone)) ∧
      ¬ ∃ e, (0, e) ∈ (polled 0 (polled 1 bothDone)).dev.hist.posts ∧
        ∀ cs₀, (none : Option ℕ).getD cs₀ = e.cs := by
  refine ⟨?_, eq_ok_of_returns (by decide +kernel), ?_⟩
  · have hused : 1 ∈ bothDone.q.usedDescs := by decide +kernel
    refine .round bothDone_run (.call (.poll 1 unvmeTimeout) []) ⟨hused, by decide +kernel⟩
      ⟨.status 0, ?_⟩
    show (unvmeDoPoll sampleEnv 1 unvmeTimeout >>= fun r => pure (Ret.status r.1)) _ = _
    have hpoll : unvmeDoPoll sampleEnv 1 unvmeTimeout (bothDone.withSched []) =
        .ok (0, some 7) (polled 1 bothDone) := eq_ok_of_returns (by decide +kernel)
    show EStateM.bind _ _ _ = _
    rw [EStateM.bind, hpoll]
    rfl
  · rintro ⟨e, -, hcs⟩
    have habs := hcs (e.cs + 1)
    rw [Option.getD_none] at habs
    omega

end Unvme.Core
