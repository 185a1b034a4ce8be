import Unvme.Core.Runs

set_option autoImplicit false

/-! # Command-id accounting and ring safety

The two invariants of a queue over all runs: the records of pending command ids agree with each other
and with the commands in flight, and neither ring is ever overrun, although `nvme_submit_cmd` does not
look for a full queue. -/

namespace Unvme.Core

open Unvme.Lib Unvme.Nvme

/-- The records of the pending command ids of a queue of size `qsize`. -/
structure Sys.Accounted (s : Sys) (qsize : ℕ) : Prop where
  /-- The queue's mask is the union of the masks of the descriptors on `desclist`, ... -/
  union : ∀ c, c ∈ s.q.cidmask.bits ↔ ∃ d ∈ s.q.usedDescs, c ∈ (s.q.desc d).cidmask.bits
  /-- ... which are disjoint. -/
  disjoint : ∀ d ∈ s.q.usedDescs, ∀ d' ∈ s.q.usedDescs, d ≠ d' →
    Disjoint (s.q.desc d).cidmask.bits (s.q.desc d').cidmask.bits
  popcount : s.q.cidcount = s.q.cidmask.bits.card
  sum : s.q.cidcount = (s.q.usedDescs.map (fun d => (s.q.desc d).cidcount)).sum
  descCount : ∀ d, d ∈ s.q.usedDescs ∨ d ∈ s.q.freeDescs →
    (s.q.desc d).cidcount = (s.q.desc d).cidmask.bits.card
  free : ∀ d ∈ s.q.freeDescs, (s.q.desc d).cidmask.bits = ∅
  below : ∀ c ∈ s.q.cidmask.bits, c < qsize
  cid : s.q.cid < qsize
  bound : s.q.cidcount ≤ qsize - 1
  /-- The set bits are the ids of the commands submitted and not yet reaped. -/
  inFlight : ∀ c, c ∈ s.q.cidmask.bits ↔ c ∈ s.dev.hist.inFlight
  /-- No command was submitted with an id that was in flight. -/
  fresh : ∀ sub ∈ s.dev.hist.subs, sub.entry.cid ∉ sub.others

theorem Sys.Inv.accounted {s : Sys} {qsize : ℕ} (h : s.Inv .idle) (hq : s.q.size = qsize) :
    s.Accounted qsize := by
  subst hq
  have hwf := h.acc.wf
  have hbound := hwf.bound
  refine ⟨hwf.bits, ?_, hwf.cidcount, ?_, hwf.descCount, hwf.freeBits,
    fun c hc => Queue.lt_size_of_lt_ids (hwf.below c hc), Queue.lt_size_of_lt_ids hwf.cid, by omega,
    ?_, h.acc.others⟩
  · intro d hd d' hd' hne
    rw [Finset.disjoint_left]
    intro c hc hc'
    exact hne (hwf.owner d hd d' hd' c hc hc')
  · rw [hwf.toMasks.cidcount_eq_sum, List.sum_toFinset _ hwf.toLists.used_nodup]
  · intro c
    rw [h.acc.mem_cidmask, History.mem_inFlight]
    simp [Pc.hand]

/-- A small namespace for evaluating runs: 512-byte blocks, 4 KiB pages, 8 blocks per command, and
    commands that do nothing. -/
def sampleEnv : Env where
  ns := ⟨1, 4096, 12, 9, 8⟩
  vemva := 0
  pciVhsaa := 0
  media := ⟨fun _ _ => [], fun _ _ mem disk => (mem, disk)⟩
  inSpace := by decide

/-- A queue of the given size in that environment. -/
def sampleSys (qsize : ℕ) : Sys :=
  Sys.boot qsize ⟨0, 0, 0⟩ (fun _ => 0) (fun _ => 0)

/-- **Command-id accounting.** In every state between calls the records of pending ids agree with
    each other and with the commands in flight, and a poll returns 0 only when all commands of its
    descriptor have completed. -/
theorem cid_accounting {E : Env} {qsize : ℕ} (hq : 2 ≤ qsize) {prplist : Dma} {mem disk : ℕ → ℕ}
    {s : Sys} (hrun : Run E (fun s r => r.Legal s) (Sys.boot qsize prplist mem disk) s) :
    s.Accounted qsize ∧
      ∀ d ∈ s.q.usedDescs, ∀ timeout σ cs s',
        unvmeDoPoll E d timeout (s.withSched σ) = .ok (0, cs) s' →
        ∀ k ∈ (s.q.desc d).cmds, k ∈ s'.dev.hist.reapedSeqs := by
  obtain ⟨h, hsize, -⟩ := hrun.boot (fun _ _ hl => hl) hq
  refine ⟨h.accounted hsize, ?_⟩
  intro d hd timeout σ cs s' hpoll k hk
  obtain ⟨-, n, s₁, hst, hpolls, hres, hs'⟩ :=
    (unvmeDoPoll_spec (G := Guards.any) timeout (h.withSched σ) hd).of_ok hpoll
  have h₁ := hst.inv (h.withSched σ)
  have hd₁ : d ∈ s₁.q.usedDescs := by rw [(hpolls.reaps d).used]; exact hd
  have hcmds : k ∈ (s₁.q.desc d).cmds := by
    rw [(hpolls.reaps d).own, List.length_nil, List.range'_zero, List.append_nil]
    exact hk
  have hdev : s'.dev = s₁.dev := by rw [hs']; split <;> rfl
  rw [hdev]
  generalize hr : ((0 : ℤ), cs).1 = r at hres
  cases hres with
  | done hclean h0 => exact h₁.all_reaped hd₁ h0 k hcmds
  | error m k' e hn hp he =>
      change (0 : ℤ) = _ at hr
      exact absurd hr.symm (by exact_mod_cast he)
  | timeout hclean h0 =>
      change (0 : ℤ) = -1 at hr
      exact absurd hr (by decide)

/-- A request of 20 blocks, three commands, on a queue with room for three. -/
theorem cid_accounting_three : ∃ s, Run sampleEnv (fun s r => r.Legal s) (sampleSys 4) s ∧
    s.q.cidcount = 3 ∧ s.Accounted 4 := by
  have hcall : returns (Call.run sampleEnv (.rw 0 1 0 0 20)) ((sampleSys 4).withSched [])
      (fun _ s => s.q.cidcount == 3) = true := by decide +kernel
  obtain ⟨v, s, hv, hcnt⟩ := returns_iff.1 hcall
  have hrun : Run sampleEnv (fun s r => r.Legal s) (sampleSys 4) s :=
    .round .nil (.call (.rw 0 1 0 0 20) []) trivial ⟨v, hv⟩
  exact ⟨s, hrun, by simpa using hcnt, (cid_accounting (by decide) hrun).1⟩

/-- **The rings are never overrun.** Whether a call returns or stops, at every step up to there at most
    `N - 1` entries are unfetched and at most `N - 1` completions unreaped, the slot at the tail holds
    no unfetched entry, and the controller fetches the entries in the order they were submitted. -/
theorem submission_ring_never_overruns {E : Env} {N : ℕ} (hN : 2 ≤ N) {prplist : Dma}
    {mem disk : ℕ → ℕ} {s : Sys}
    (hrun : Run E (fun s r => r.Legal s) (Sys.boot N prplist mem disk) s) (c : Call)
    (σ : List (List CtlAct)) (hl : Round.Legal s (.call c σ)) :
    let s' := c.after E (s.withSched σ)
    (∀ t ∈ s'.dev.hist.trail, t.Ok N) ∧ s'.dev.counters.Ok N ∧
      s'.dev.hist.fetched <+: s'.dev.hist.subs.map Sub.entry := by
  obtain ⟨h, hsize, -⟩ := hrun.boot (fun _ _ hl => hl) hN
  have hs := h.withSched σ
  obtain ⟨pc, hst⟩ := Call.after_steps (E := E) c hs (Call.allowed_any hl)
  have h' := hst.inv hs
  have hsz : (c.after E (s.withSched σ)).dev.size = N := by
    rw [← h'.size, (hst.sameQueue hs).size]
    exact hsize
  refine ⟨?_, ?_, h'.dev.fetched⟩
  · rw [← hsz]; exact h'.dev.trail
  · rw [← hsz]; exact h'.dev.counters_ok

/-- A request of four commands on a queue with room for three: the last one has to wait for a
    completion. -/
theorem submission_ring_never_overruns_full :
    let s' := Call.after sampleEnv (.rw 0 1 0 0 32) ((sampleSys 4).withSched
      [[], [], [.fetch], [.loadPrps 0, .execute 0], [.post 0 0 0]])
    (∀ t ∈ s'.dev.hist.trail, t.Ok 4) ∧ s'.dev.counters.Ok 4 ∧
      s'.dev.hist.fetched <+: s'.dev.hist.subs.map Sub.entry :=
  submission_ring_never_overruns (E := sampleEnv) (N := 4) (s := sampleSys 4) (by decide) RunBy.nil
    (.rw 0 1 0 0 32) [[], [], [.fetch], [.loadPrps 0, .execute 0], [.post 0 0 0]] trivial

end Unvme.Core
