import Unvme.Core.QueueInit
import Unvme.Core.QueueSafety

set_option autoImplicit false

/-! # The loops of a queue and unexpected completions

The scan for a free command id, the search for the owner of a completed one and the walk of the pending
pointer have no counter. They end because of what the rest of the driver keeps true: `search_loops_end`.
Only on a queue of more than 65537 entries could the ids run out, and such a queue cannot be allocated.
The search is also all that stands between a completion entry and the masks: `completion_contained_iff`
says for which command ids a completion that nobody waits for is caught. -/

namespace Unvme.Core

open Unvme.Lib Unvme.Nvme Unvme.Aurora

/-! ## The loops end -/

/-- What the three loops do on a queue of size `qsize`. -/
structure Queue.LoopsEnd (q : Queue) (qsize : ℕ) : Prop where
  /-- With room for a command the scan stops, from any command id, within `qsize` tests. -/
  scan : q.cidcount + 1 < qsize → ∀ c₀ < min qsize 65536, ∃ c,
    scanCid q.cidmask qsize qsize c₀ = some c ∧ c < qsize ∧ c ∉ q.cidmask.bits
  /-- The search from `descpend` meets the owner of a pending id before it is back at `descpend`. -/
  search : ∀ c ∈ q.cidmask.bits, ∃ p ∈ q.usedDescs, ∃ d ∈ q.usedDescs, q.descpend = some p ∧
    c ∈ (q.desc d).cidmask.bits ∧
    ringFind q.links.next (fun x => (q.desc x).cidmask.test c) p q.usedDescs.length p
      = some (some d)
  /-- Retiring a pending id leaves `descpend` at a descriptor with pending ids, if there is one. -/
  advance : ∀ c ∈ q.cidmask.bits, ∀ err, ∃ q', q.retire c err = .ok q' ∧
    (q'.cidcount ≠ 0 → ∃ p ∈ q'.usedDescs, q'.descpend = some p ∧ 0 < (q'.desc p).cidcount)

section

variable {q : Queue} {used free : List ℕ}

/-- **On a consistent queue the loops end.** -/
theorem Queue.Wf.loopsEnd (h : q.Wf used free) (h16 : q.size ≤ 65537) : q.LoopsEnd q.size := by
  have hs : 0 < q.size := by have := h.two_le; omega
  constructor
  · intro hroom c₀ hc₀
    obtain ⟨x, hx, hfree⟩ := h.toMasks.exists_free (by unfold Queue.ids; omega)
    obtain ⟨c, hc⟩ := Option.ne_none_iff_exists'.1
      (scanCid_ends hc₀ hx hfree (Nat.min_le_left q.size 65536))
    obtain ⟨hlt, htest⟩ := scanCid_some hs _ _ _ hc₀ hc
    exact ⟨c, hc, Queue.lt_size_of_lt_ids hlt, by simp [htest]⟩
  · intro c hc
    rw [h.usedDescs_eq]
    obtain ⟨p, hp, d, hd, hpp, hcd, hfind⟩ := h.search hc
    exact ⟨p, hp, d, hd, hpp, hcd, hfind _ le_rfl⟩
  · intro c hc err
    obtain ⟨d, -, -, p, hret, hwf, -, hpos⟩ := h.retire hc err
    refine ⟨_, hret, ?_⟩
    rw [hwf.usedDescs_eq]
    exact hpos

end

/-- **The search loops end and the assertion never fires**, on every queue that can be initialized. At
    every point of every call the loops end, and a call stops the process only by
    its deadline, on a buffer outside the DMA region, or if the namespace has no blocks per command. -/
theorem search_loops_end {E : Env} {t qsize pageshift : ℕ} {h h' : Heap} {Q : DmaQueue}
    (hq : 2 ≤ qsize) (hinit : unvmeQueueInit E t qsize pageshift h = .ok Q h') {mem disk : ℕ → ℕ}
    {s : Sys} (hrun : Run E Round.Legal ⟨Q.queue, Device.init qsize mem disk⟩ s) :
    (∀ s' pc, Steps E Guards.any (s, .idle) (s', pc) → s'.q.LoopsEnd qsize) ∧
      ∀ c σ e s', Round.Legal s (.call c σ) → c.run E (s.withSched σ) = .error e s' →
        e = .timeout ∨ e = .nonIoRegion ∨ e = .hang ∧ E.ns.maxbpio = 0 := by
  -- the memory of its rings bounds the queue
  have hle := unvmeQueueInit_qsize hinit
  obtain ⟨-, -, prplist, -, -, -, hQ⟩ := unvmeQueueInit_ok hinit
  rw [hQ] at hrun
  obtain ⟨hinv, hsize, -⟩ := hrun.boot (fun _ _ hl => hl) hq
  constructor
  · intro s' pc hst
    have hsize' : s'.q.size = qsize := (hst.sameQueue hinv).size.trans hsize
    have hends := (hst.inv hinv).acc.wf.loopsEnd (by rw [hsize']; omega)
    rw [hsize'] at hends
    exact hends
  · intro c σ e s' hl herr
    have hspec := Call.run_spec (E := E) c (hinv.withSched σ) (Call.allowed_any hl)
    unfold wp at hspec
    rw [herr] at hspec
    rcases hspec.1 with he | he | ⟨he, hbig | hzero⟩
    · exact Or.inl he
    · exact Or.inr (Or.inl he)
    · have hsz : (s.withSched σ).q.size = qsize := hsize
      omega
    · exact Or.inr (Or.inr ⟨he, hzero⟩)

/-- Three commands in flight on a queue of four entries, the first one of a region of two blocks. -/
theorem search_loops_end_four :
    ∃ Q h', unvmeQueueInit mappedEnv 0 4 12 (buddyInit mappedEnv.vemva (2 * maxbytes) Heap.blank)
        = .ok Q h' ∧
      ∃ s, Run mappedEnv Round.Legal ⟨Q.queue, Device.init 4 (fun _ => 0) (fun _ => 0)⟩ s ∧
        s.q.cidcount = 3 ∧ s.q.LoopsEnd 4 := by
  have hret : returns (unvmeQueueInit mappedEnv 0 4 12)
      (buddyInit mappedEnv.vemva (2 * maxbytes) Heap.blank) (fun Q _ =>
        returns (Call.run mappedEnv (.rw 0 1 mappedEnv.vemva 0 20))
          (Sys.withSched ⟨Q.queue, Device.init 4 (fun _ => 0) (fun _ => 0)⟩ [])
          (fun _ s => s.q.cidcount == 3)) = true := by decide +kernel
  obtain ⟨Q, h', hinit, hcall⟩ := returns_iff.1 hret
  obtain ⟨v, s, hv, hcnt⟩ := returns_iff.1 hcall
  have hrun : Run mappedEnv Round.Legal ⟨Q.queue, Device.init 4 (fun _ => 0) (fun _ => 0)⟩ s :=
    .round .nil (.call (.rw 0 1 mappedEnv.vemva 0 20) []) trivial ⟨v, hv⟩
  exact ⟨Q, h', hinit, s, hrun, by simpa using hcnt,
    (search_loops_end (by decide) hinit hrun).1 s .idle (Steps.refl _)⟩

/-! ## Unexpected completions -/

section

variable {q : Queue} {used free : List ℕ}

/-- An id that is not pending is not found, if the search can look at its bit at all. -/
theorem Queue.Wf.retire_unknown (h : q.Wf used free) (hne : used ≠ []) {c : ℕ}
    (hc : c ∉ q.cidmask.bits) (err : ℕ) :
    q.retire c err = if q.masksize >>> 3 ≤ c >>> 6 then .error .outOfBounds
      else .error (.cidNotFound c) := by
  obtain ⟨d, hd⟩ := List.exists_mem_of_ne_nil used hne
  obtain ⟨p, ps, hpp, hring, hmem, hps, hle⟩ := h.toLists.from_pend hd
  have hnone : (p :: ps).find? (fun x => (q.desc x).cidmask.test c) = none := by
    rw [List.find?_eq_none]
    intro x hx htest
    exact hc ((h.bits c).2 ⟨x, (hmem x).1 hx, WordMask.mem_bits.2 htest⟩)
  rw [Queue.retire, hpp]
  simp only [ringFind_eq_find hring (hps.trans_le hle), hnone]

end

/-- The wait loop does not touch the queue's bookkeeping, whatever the device does. -/
theorem waitCompletion_queue (E : Env) (timeout : ℤ) (n : ℕ) (s : Sys) :
    wp (waitCompletion E timeout n) s (fun _ s' => s'.q = s.q) (fun _ _ => False) := by
  have hcheck : ∀ s : Sys, wp (nvmeCheckCompletion E) s (fun _ s' => s'.q = s.q)
      (fun _ _ => False) := by
    intro s
    unfold nvmeCheckCompletion interfere
    simp only [wp_bind, wp_get, wp_modify, wp_ite, wp_pure]
    split
    · trivial
    · trivial
  induction n generalizing s with
  | zero => exact hcheck s
  | succ n ih =>
      rw [waitCompletion]
      refine wp_bind_of (hcheck s) ?_
      intro r s₁ hq
      cases r with
      | some c => exact hq
      | none =>
          simp only [wp_ite]
          split
          · exact hq
          · refine wp_mono (ih s₁) ?_ (fun _ _ hf => hf)
            exact fun _ s₂ hq₂ => hq₂.trans hq

/-- The completion the wait loop has read is retired. -/
theorem unvmeCheckCompletion_of_wait {E : Env} {timeout : ℤ} {s s₁ : Sys} {c : Completion}
    (h : waitCompletion E timeout s.dev.sched.length s = .ok (some c) s₁) :
    unvmeCheckCompletion E timeout s = match s.q.retire c.cid c.stat with
      | .error e => .error e s₁
      | .ok q => .ok ((c.stat : ℤ), some c.cs) { s₁ with q := q } := by
  have hq : s₁.q = s.q := (waitCompletion_queue E timeout _ s).of_ok h
  show EStateM.bind (waitCompletion E timeout s.dev.sched.length) _ s = _
  unfold EStateM.bind
  rw [h, ← hq]
  show (match s₁.q.retire c.cid c.stat with | .error e => _ | .ok q => _ : Drv (ℤ × Option ℕ)) s₁ = _
  cases s₁.q.retire c.cid c.stat with
  | error e => rfl
  | ok q => rfl

/-- What a completion with id `c.cid` may do: retire that id, clearing one bit in the queue and in the
    one descriptor that owns it, or stop the process with the queue as it was. -/
def Sys.Contained (E : Env) (timeout : ℤ) (s : Sys) (c : Completion) : Prop :=
  (∃ d ∈ s.q.usedDescs, ∃ s', (∀ x ∈ s.q.usedDescs, c.cid ∈ (s.q.desc x).cidmask.bits ↔ x = d) ∧
      unvmeCheckCompletion E timeout s = .ok ((c.stat : ℤ), some c.cs) s' ∧
      s'.q.cidmask.bits = s.q.cidmask.bits.erase c.cid ∧
      (s'.q.desc d).cidmask.bits = (s.q.desc d).cidmask.bits.erase c.cid ∧
      (∀ x, x ≠ d → s'.q.desc x = s.q.desc x) ∧
      s'.q.usedDescs = s.q.usedDescs ∧ s'.q.freeDescs = s.q.freeDescs) ∨
    ∃ s', c.cid ∉ s.q.cidmask.bits ∧
      unvmeCheckCompletion E timeout s = .error (.cidNotFound c.cid) s' ∧ s'.q = s.q

/-- **Completions are contained exactly if the masks have a word for their id.** At every point of every
    call with a descriptor in use, and whatever entry a device has posted. -/
theorem completion_contained_iff {E : Env} {qsize : ℕ} (hq : 2 ≤ qsize) {prplist : Dma}
    {mem disk : ℕ → ℕ} {s₀ s : Sys} {pc : Pc}
    (hrun : Run E Round.Legal (Sys.boot qsize prplist mem disk) s₀)
    (hst : Steps E Guards.any (s₀, .idle) (s, pc)) (hused : s.q.usedDescs ≠ []) {dev : Device}
    {timeout : ℤ} {c : Completion} {s₁ : Sys}
    (hwait : waitCompletion E timeout dev.sched.length ⟨s.q, dev⟩ = .ok (some c) s₁) :
    Sys.Contained E timeout ⟨s.q, dev⟩ c ↔ c.cid < 64 * ((qsize + 63) / 64) := by
  obtain ⟨h₀, hsame⟩ := hrun.inv (fun _ _ hl => hl) (Sys.Inv.init hq prplist mem disk)
  have hwf := (hst.inv h₀).acc.wf
  have hmask : s.q.masksize >>> 3 = (qsize + 63) / 64 := by
    rw [(hst.sameQueue h₀).masksize, hsame.masksize]
    exact Queue.setup_words qsize prplist
  have hword : ∀ x, s.q.masksize >>> 3 ≤ x >>> 6 ↔ ¬ x < 64 * ((qsize + 63) / 64) := by
    intro x
    rw [hmask, Nat.shiftRight_eq_div_pow]
    omega
  have hcheck := @unvmeCheckCompletion_of_wait E timeout ⟨s.q, dev⟩ s₁ c hwait
  have hq₁ : s₁.q = s.q := (waitCompletion_queue E timeout _ ⟨s.q, dev⟩).of_ok hwait
  by_cases hc : c.cid ∈ s.q.cidmask.bits
  · -- the id of a command in flight: it is retired, and its word exists
    obtain ⟨d, hd, hcd, p, hret, hwf', hpend, -⟩ := hwf.retire hc c.stat
    have hin : c.cid < 64 * ((qsize + 63) / 64) := by
      have hlt := hwf.toMasks.word_lt (Queue.lt_size_of_lt_ids (hwf.below c.cid hc))
      rw [hmask] at hlt
      omega
    have hlen : c.cid / 64 < s.q.cidmask.length := by
      rw [hwf.maskLen, hmask]
      omega
    rw [hret] at hcheck
    refine ⟨fun _ => hin, fun _ => Or.inl ⟨d, hd, _, ?_, hcheck, ?_, hpend, ?_, hwf'.usedDescs_eq,
      hwf'.freeDescs_eq⟩⟩
    · intro x hx
      constructor
      · exact fun hcx => hwf.owner x hx d hd c.cid hcx hcd
      · rintro rfl
        exact hcd
    · exact WordMask.bits_clear hlen
    · intro x hx
      exact Queue.clearCid_desc_of_ne hx
  · have hret := hwf.retire_unknown hused hc c.stat
    rw [hret] at hcheck
    by_cases hin : c.cid < 64 * ((qsize + 63) / 64)
    · rw [if_neg (by rw [hword]; exact not_not.2 hin)] at hcheck
      exact ⟨fun _ => hin, fun _ => Or.inr ⟨s₁, hc, hcheck, hq₁⟩⟩
    · rw [if_pos ((hword c.cid).2 hin)] at hcheck
      refine ⟨?_, fun h => absurd h hin⟩
      rintro (⟨d, -, s', -, hok, -⟩ | ⟨s', -, herr, -⟩)
      · rw [hcheck] at hok
        cases hok
      · rw [hcheck] at herr
        cases herr

/-- A device that has posted this entry and nothing else. -/
def rogueDevice (qsize : ℕ) (e : CqEntry) : Device :=
  let d := Device.init qsize (fun _ => 0) (fun _ => 0)
  { d with cq := d.cq.post e }

/-- One command in flight on a queue of four entries. -/
def oneInFlight : Sys := final (Call.run sampleEnv (.rw 0 1 0 0 8)) ((sampleSys 4).withSched [])

theorem oneInFlight_run : Run sampleEnv Round.Legal (sampleSys 4) oneInFlight := by
  have hret : returns (Call.run sampleEnv (.rw 0 1 0 0 8)) ((sampleSys 4).withSched [])
      (fun v _ => decide (v = .desc (some 0))) = true := by decide +kernel
  exact .round .nil (.call (.rw 0 1 0 0 8) []) trivial ⟨_, eq_ok_of_returns hret⟩

/-- A completion with the id of no command in flight, and a word in the masks, is caught. -/
theorem completion_contained_stray : ∃ s₁,
    waitCompletion sampleEnv 0 0 ⟨oneInFlight.q, rogueDevice 4 ⟨0, 0, 0, 63, 0⟩⟩
        = .ok (some ⟨63, 0, 0⟩) s₁ ∧
      Sys.Contained sampleEnv 0 ⟨oneInFlight.q, rogueDevice 4 ⟨0, 0, 0, 63, 0⟩⟩ ⟨63, 0, 0⟩ := by
  have hret : returns (waitCompletion sampleEnv 0 0)
      ⟨oneInFlight.q, rogueDevice 4 ⟨0, 0, 0, 63, 0⟩⟩
      (fun c _ => decide (c = some ⟨63, 0, 0⟩)) = true := by decide +kernel
  have hwait := eq_ok_of_returns hret
  refine ⟨_, hwait, ?_⟩
  exact (completion_contained_iff (by decide) oneInFlight_run (Steps.refl _) (by decide +kernel)
    hwait).2 (by decide)

/-- The masks of a queue of four entries have one word; a completion with id 64 is looked up in the
    second one. -/
theorem completion_reads_beyond_mask :
    ¬ ∀ (E : Env) (qsize : ℕ) (prplist : Dma) (mem disk : ℕ → ℕ) (s : Sys) (dev : Device)
        (timeout : ℤ) (c : Completion) (s₁ : Sys), 2 ≤ qsize →
      Run E Round.Legal (Sys.boot qsize prplist mem disk) s → s.q.usedDescs ≠ [] →
      waitCompletion E timeout dev.sched.length ⟨s.q, dev⟩ = .ok (some c) s₁ →
      Sys.Contained E timeout ⟨s.q, dev⟩ c := by
  intro h
  have hret : returns (waitCompletion sampleEnv 0 0)
      ⟨oneInFlight.q, rogueDevice 4 ⟨0, 0, 0, 64, 0⟩⟩
      (fun c _ => decide (c = some ⟨64, 0, 0⟩)) = true := by decide +kernel
  have hwait := eq_ok_of_returns hret
  have hstop : (match unvmeCheckCompletion sampleEnv 0
      ⟨oneInFlight.q, rogueDevice 4 ⟨0, 0, 0, 64, 0⟩⟩ with
    | .error e _ => decide (e = .outOfBounds)
    | .ok _ _ => false) = true := by decide +kernel
  rcases h sampleEnv 4 _ _ _ oneInFlight (rogueDevice 4 ⟨0, 0, 0, 64, 0⟩) 0 _ _ (by decide)
    oneInFlight_run (by decide +kernel) hwait with ⟨d, -, s', -, hok, -⟩ | ⟨s', -, herr, -⟩
  · rw [hok] at hstop
    cases hstop
  · rw [herr] at hstop
    exact absurd (of_decide_eq_true hstop) (by decide)

end Unvme.Core
