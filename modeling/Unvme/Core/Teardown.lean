import Unvme.Core.DescLists
import Unvme.Lib.Reclaim

set_option autoImplicit false

/-! # Cleaning up a queue

`unvme_queue_cleanup` frees the descriptors by walking both lists of the queue and then the memory that
`unvme_queue_init` allocated. The heap of the descriptors is checked (`Lib/Reclaim.lean`), so a use after
free or a loop that does not end would show. After any calls, however the controller behaved, all
descriptors ever allocated are on one of the lists, and the cleanup frees each of them once
(`queue_cleanup_frees_all`). The calls do not poll a released descriptor: that would take another one off
both lists. -/

namespace Unvme.Core

open Unvme.Lib Unvme.Nvme

/-- What belongs to a queue. -/
inductive Owned where
  | desc (d : ℕ)
  | cidmask
  | prplist
  | cqdma
  | sqdma
  deriving DecidableEq, Repr

/-- What has been allocated for the queue. -/
def Queue.Owns (q : Queue) : Owned → Prop
  | .desc d => d < q.nalloc
  | _ => True

/-- Clean up a queue freeing its memory allocation; what has been freed, in order. -/
def unvmeQueueCleanup (q : Queue) : Except Misuse (List Owned) := do
  let (used, links, live) ← reclaim q.nalloc q.desclist q.links (fun d => decide (d < q.nalloc))
  let (free, _, _) ← reclaim q.nalloc q.descfree links live
  pure ((used ++ free).map .desc ++ [.cidmask, .prplist, .cqdma, .sqdma])

section

variable {q : Queue} {used free : List ℕ}

/-- Both loops end, on any queue with well formed lists. -/
theorem Queue.Lists.cleanup (h : q.Lists used free) :
    unvmeQueueCleanup q = .ok ((used ++ free).map .desc ++ [.cidmask, .prplist, .cqdma, .sqdma]) := by
  have hused : ∀ d ∈ used, d < q.nalloc := fun d hd => h.alloc d (Or.inl hd)
  have hfree : ∀ d ∈ free, d < q.nalloc := fun d hd => h.alloc d (Or.inr hd)
  obtain ⟨l, hfirst, hother⟩ := reclaim_ring h.used_length_le h.usedRing
    (fun d hd => decide_eq_true (hused d hd))
  -- the first loop leaves the free list alone, and its descriptors live
  have hring : l.Ring free := hother free h.freeRing h.disj
  have hlive : ∀ d ∈ free, (decide (d < q.nalloc) && decide (d ∉ used)) = true := by
    intro d hd
    rw [Bool.and_eq_true, decide_eq_true_eq, decide_eq_true_eq]
    exact ⟨hfree d hd, fun hu => h.disj d hu hd⟩
  obtain ⟨l', hsecond, -⟩ := reclaim_ring (h.freeRing.length_le hfree) hring hlive
  unfold unvmeQueueCleanup
  rw [h.listHead, h.freeHead, hfirst]
  simp only [bind, Except.bind, hsecond, pure, Except.pure]

theorem Queue.Lists.cleanup_owned (h : q.Lists used free) (hall : q.Covers used free) :
    ∃ freed, unvmeQueueCleanup q = .ok freed ∧ freed.Nodup ∧ ∀ x, x ∈ freed ↔ q.Owns x := by
  refine ⟨_, h.cleanup, ?_, ?_⟩
  · have hnd : (used ++ free).Nodup := by
      refine List.nodup_append.2 ⟨h.usedRing.1, h.freeRing.1, ?_⟩
      rintro d hd e he rfl
      exact h.disj d hd he
    refine List.nodup_append.2 ⟨hnd.map (fun _ _ heq => Owned.desc.inj heq), by decide, ?_⟩
    rintro x hx y hy rfl
    obtain ⟨d, -, rfl⟩ := List.mem_map.1 hx
    simp at hy
  · intro x
    cases x with
    | desc d =>
        simp only [List.mem_append, List.mem_map, Queue.Owns]
        constructor
        · rintro (⟨e, he, heq⟩ | hin)
          · obtain rfl := Owned.desc.inj heq
            exact h.alloc e he
          · simp at hin
        · exact fun hd => Or.inl ⟨d, hall d hd, rfl⟩
    | cidmask => simp [Queue.Owns]
    | prplist => simp [Queue.Owns]
    | cqdma => simp [Queue.Owns]
    | sqdma => simp [Queue.Owns]

end

/-! ## Over runs -/

/-- No descriptor is lost: everything allocated is in use or free. -/
def Queue.AllListed (q : Queue) : Prop := q.Covers q.usedDescs q.freeDescs

section

variable {E : Env} {s s' : Sys}

/-- **No step loses a descriptor.** -/
theorem Step.allListed {G : Guards} {pc pc' : Pc} (h : s.Inv pc) (hstep : Step E G (s, pc) (s', pc'))
    (hall : s.q.AllListed) : s'.q.AllListed := by
  cases hstep with
  | act _ _ a => exact hall
  | sched _ _ σ => exact hall
  | advance _ hp => exact hall
  | ring _ => exact hall
  | reap _ k e q' hp hq =>
      obtain ⟨sub, hs, hc, hnew⟩ := h.dev.next_pending hp
      obtain ⟨d, p, -, -, hret, -⟩ := h.acc.reap hp hs hc hnew
      rw [hq, Except.ok.injEq] at hret
      subst hret
      exact hall
  | take _ d q' f hget hf hs hG =>
      have hlists := h.acc.wf.toLists
      obtain ⟨d', q'', hget', hlists', -, hhead, hn, -⟩ := hlists.descGet
      rw [hget, Prod.mk.injEq] at hget'
      obtain ⟨rfl, rfl⟩ := hget'
      have hcov := hall.get hlists hhead hn
      rw [← hlists'.usedDescs_eq, ← hlists'.freeDescs_eq] at hcov
      exact hcov
  | put _ d hd h0 =>
      have hlists := h.acc.wf.toLists.descPut hd
      have hput : (unvmeDescPut s.q d).Covers (s.q.usedDescs.erase d) (s.q.freeDescs ++ [d]) :=
        hall.put rfl
      rw [← hlists.usedDescs_eq, ← hlists.freeDescs_eq] at hput
      exact hput
  | claim _ d cid q' hd hroom hq =>
      rcases h.acc.claim hd hroom with ⟨herr, -⟩ | ⟨c, hok, -⟩
      · rw [hq] at herr
        cases herr
      · rw [hq, Except.ok.injEq, Prod.mk.injEq] at hok
        obtain ⟨rfl, rfl⟩ := hok
        exact hall
  | map _ d cid buf bufsz addr ha hG => exact hall
  | fill _ d cid buf bufsz addr e hc h1 h2 hG => exact hall
  | submit _ d cid buf bufsz addr e => exact hall

theorem Round.allListed {r : Round} (h : s.Inv .idle) (hl : r.Legal s) (hd : r.Does E s s')
    (hall : s.q.AllListed) : s'.q.AllListed := by
  rcases r.steps h hl.allowed hd with hst | ⟨mem, -, rfl⟩
  · exact (hst.invariant (P := fun s _ => s.q.AllListed) (fun _ _ _ _ h₁ hstep => Step.allListed h₁ hstep)
      h hall).2
  · exact hall

theorem Run.allListed {qsize : ℕ} (hq : 2 ≤ qsize) {prplist : Dma} {mem disk : ℕ → ℕ}
    (hrun : Run E Round.Legal (Sys.boot qsize prplist mem disk) s) : s.q.AllListed := by
  induction hrun with
  | nil =>
      obtain ⟨free, hlists, hall⟩ := Queue.setup_lists qsize prplist
      show Queue.AllListed (Queue.setup qsize prplist)
      unfold Queue.AllListed
      rw [hlists.usedDescs_eq, hlists.freeDescs_eq]
      exact hall
  | round hrun r hl hd ih => exact Round.allListed (Run.boot (fun _ _ hl => hl) hq hrun).1 hl hd ih

/-- **The cleanup of a queue ends and frees what was allocated for it, each once**, after any run whose
    polls are of descriptors in use, also with commands in flight and descriptors never polled. -/
theorem queue_cleanup_frees_all {qsize : ℕ} (hq : 2 ≤ qsize) {prplist : Dma} {mem disk : ℕ → ℕ}
    (hrun : Run E Round.Legal (Sys.boot qsize prplist mem disk) s) :
    ∃ freed, unvmeQueueCleanup s.q = .ok freed ∧ freed.Nodup ∧ ∀ x, x ∈ freed ↔ s.q.Owns x :=
  (hrun.boot (fun _ _ hl => hl) hq).1.acc.wf.toLists.cleanup_owned (hrun.allListed hq)

end

/-- A queue with the three commands of a read in flight, which nobody has polled. -/
theorem queue_cleanup_frees_read : ∃ s freed, Run sampleEnv Round.Legal (sampleSys 4) s ∧
    s.q.cidcount = 3 ∧ s.dev.hist.subs.length = 3 ∧ s.dev.hist.reaped = 0 ∧
    unvmeQueueCleanup s.q = .ok freed ∧ freed.Nodup ∧ .desc 0 ∈ freed := by
  have hread : returns (Call.run sampleEnv (.rw 0 nvmeCmdRead 0 0 20)) ((sampleSys 4).withSched [])
      (fun v s => decide (v = .desc (some 0) ∧ s.q.cidcount = 3 ∧ s.dev.hist.subs.length = 3 ∧
        s.dev.hist.reaped = 0 ∧ 0 < s.q.nalloc)) = true := by decide +kernel
  obtain ⟨v, s, hr, hp⟩ := returns_iff.1 hread
  obtain ⟨-, hcnt, hsubs, hreaped, hpos⟩ := of_decide_eq_true hp
  have hrun : Run sampleEnv Round.Legal (sampleSys 4) s :=
    RunBy.nil.round (.call (.rw 0 nvmeCmdRead 0 0 20) []) trivial ⟨v, hr⟩
  obtain ⟨freed, hfreed, hnd, hmem⟩ := queue_cleanup_frees_all (by decide) hrun
  exact ⟨s, freed, hrun, hcnt, hsubs, hreaped, hfreed, hnd, (hmem _).2 hpos⟩

end Unvme.Core
