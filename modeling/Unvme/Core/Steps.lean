import Unvme.Core.Accounts
import Unvme.Core.Driver

set_option autoImplicit false

/-! # The driver as a transition system

Every driver function is a sequence of a few kinds of steps on queue and device, interleaved with
actions of the controller. `Step` lists them, with the point the driver has reached (`Pc`) as part
of the state, and `Sys.Inv` is the invariant of all of them. That the functions of `Driver.lean`
only take such steps is proved in `Specs.lean`; properties of whole runs are then proved step by
step, without looking at the functions again. -/

namespace Unvme.Core

open Unvme.Lib Unvme.Nvme

/-- Where the driver is: between operations; inside `nvme_check_completion`, with the head moved on
    (`advanced`) and the doorbell written (`rung`); or with a command id in hand, before the PRPs are
    composed (`claimed`), after it (`mapped`), and with the entry filled in (`filled`). -/
inductive Pc where
  | idle
  | advanced
  | rung
  | claimed (d cid : ℕ)
  | mapped (d cid buf bufsz addr : ℕ)
  | filled (d cid buf bufsz addr : ℕ) (e : SqEntry)

/-- Completions consumed and not counted as reaped. -/
def Pc.taken : Pc → ℕ
  | .advanced | .rung => 1
  | _ => 0

/-- Completions acknowledged and not counted as reaped. -/
def Pc.acked : Pc → ℕ
  | .rung => 1
  | _ => 0

/-- The command id in hand and its descriptor. -/
def Pc.hand : Pc → Option (ℕ × ℕ)
  | .claimed d cid | .mapped d cid _ _ _ | .filled d cid _ _ _ _ => some (d, cid)
  | _ => none

/-- The command id in hand and the entry filled in for it. -/
def Pc.entry : Pc → Option (ℕ × SqEntry)
  | .filled _ cid _ _ _ e => some (cid, e)
  | _ => none

/-- What a run may put into descriptors, PRP lists and entries: `take q d x` for a descriptor `d` of
    queue `q` taken into use with fields `x`, `map q d buf bufsz` for a buffer mapped for descriptor
    `d`, and `fill q d e buf bufsz` for an entry of it. -/
structure Guards where
  take : Queue → ℕ → Desc → Prop
  map : Queue → ℕ → ℕ → ℕ → Prop
  fill : Queue → ℕ → SqEntry → ℕ → ℕ → Prop

/-- No restriction. -/
def Guards.any : Guards := ⟨fun _ _ _ => True, fun _ _ _ _ => True, fun _ _ _ _ _ => True⟩

/-- The steps of the controller and of the driver. -/
inductive Step (E : Env) (G : Guards) : Sys × Pc → Sys × Pc → Prop
  | act (s : Sys) (pc : Pc) (a : CtlAct) :
      Step E G (s, pc) ({ s with dev := s.dev.act E.media a }, pc)
  | sched (s : Sys) (pc : Pc) (σ : List (List CtlAct)) :
      Step E G (s, pc) ({ s with dev := { s.dev with sched := σ } }, pc)
  | advance (s : Sys) (hp : s.dev.cq.pending = true) :
      Step E G (s, .idle) ({ s with dev := { s.dev with cq := s.dev.cq.advance } }, .advanced)
  | ring (s : Sys) :
      Step E G (s, .advanced) ({ s with dev := { s.dev with cq := s.dev.cq.ring } }, .rung)
  | reap (s : Sys) (k : ℕ) (e : CqEntry) (q' : Queue)
      (hp : s.dev.hist.posts[s.dev.hist.reaped]? = some (k, e))
      (hq : s.q.retire e.cid e.stat = .ok q') :
      Step E G (s, .rung) (⟨q', s.dev.reap⟩, .idle)
  | take (s : Sys) (d : ℕ) (q' : Queue) (f : Desc → Desc) (hget : unvmeDescGet s.q = (d, q'))
      (hf : ∀ x, Desc.SameIds x (f x)) (hs : (f (q'.desc d)).sentinel = some d)
      (hG : G.take s.q d (f (q'.desc d))) :
      Step E G (s, .idle) ({ s with q := q'.setDesc d f }, .idle)
  | put (s : Sys) (d : ℕ) (hd : d ∈ s.q.usedDescs) (h0 : (s.q.desc d).cidcount = 0) :
      Step E G (s, .idle) ({ s with q := unvmeDescPut s.q d }, .idle)
  | claim (s : Sys) (d cid : ℕ) (q' : Queue) (hd : d ∈ s.q.usedDescs)
      (hroom : s.q.cidcount + 1 < s.q.size) (hq : s.q.claim d = .ok (cid, q')) :
      Step E G (s, .idle) ({ s with q := q' }, .claimed d cid)
  | map (s : Sys) (d cid buf bufsz addr : ℕ) (ha : unvmeMapDma E buf bufsz = .ok addr)
      (hG : G.map s.q d buf bufsz) :
      Step E G (s, .claimed d cid)
        (⟨s.q, s.dev.storePrps
            ⟨cid, buf, bufsz, (composePrps E.ns s.q.prplist cid addr bufsz).2.2⟩⟩,
          .mapped d cid buf bufsz addr)
  | fill (s : Sys) (d cid buf bufsz addr : ℕ) (e : SqEntry) (hc : e.cid = cid)
      (h1 : e.prp1 = (composePrps E.ns s.q.prplist cid addr bufsz).1)
      (h2 : e.prp2 = (composePrps E.ns s.q.prplist cid addr bufsz).2.1)
      (hG : G.fill s.q d e buf bufsz) :
      Step E G (s, .mapped d cid buf bufsz addr)
        ({ s with dev := s.dev.fill e }, .filled d cid buf bufsz addr e)
  | submit (s : Sys) (d cid buf bufsz addr : ℕ) (e : SqEntry) :
      Step E G (s, .filled d cid buf bufsz addr e)
        (⟨s.q.setDesc d (fun x => { x with cmds := x.cmds ++ [s.dev.hist.submitted] }),
          s.dev.submit ⟨e, d, buf, bufsz, s.dev.hist.inFlight⟩⟩, .idle)

/-- Any number of steps. -/
def Steps (E : Env) (G : Guards) : Sys × Pc → Sys × Pc → Prop := Relation.ReflTransGen (Step E G)

/-- The invariant: the accounts agree with the history, the rings are not overrun, and at most
    `size - 1` commands are in flight or in hand. -/
structure Sys.Inv (s : Sys) (pc : Pc) : Prop where
  acc : Accounts s.q s.dev.hist pc.hand
  dev : s.dev.Inv (s.dev.hist.reaped + pc.taken) (s.dev.hist.reaped + pc.acked)
  size : s.q.size = s.dev.size
  filled : ∀ cid e, pc.entry = some (cid, e) → s.dev.sq s.dev.sqTail = e ∧ e.cid = cid

namespace Sys.Inv

variable {s : Sys} {pc : Pc}

theorem init {qsize : ℕ} (hq : 2 ≤ qsize) (prplist : Dma) (mem disk : ℕ → ℕ) :
    Sys.Inv ⟨Queue.setup qsize prplist, Device.init qsize mem disk⟩ .idle := by
  obtain ⟨hsize, hcnt, -, fs, hwf⟩ := Queue.setup_wf hq prplist
  have hnil : (Queue.setup qsize prplist).usedDescs = [] := hwf.usedDescs_eq
  have hpend : ∀ k c, ¬ History.Pending (Device.init qsize mem disk).hist k c := by
    rintro k c ⟨⟨sub, hs, -⟩, -⟩
    simp [Device.init] at hs
  refine ⟨⟨?_, ?_, ?_, ?_, ?_, ?_, ?_, ?_, ?_, ?_, ?_⟩, Device.Inv.init hq mem disk, hsize, ?_⟩
  · show Queue.Wf _ (Queue.setup qsize prplist).usedDescs _
    rw [hnil, hwf.freeDescs_eq]; exact hwf
  · intro d hd; rw [hnil] at hd; exact absurd hd (List.not_mem_nil)
  · intro k c hk; exact absurd hk (hpend k c)
  · intro k k' c hk; exact absurd hk (hpend k c)
  · intro d c hh; exact absurd hh (by simp [Pc.hand])
  · intro d hd; rw [hnil] at hd; exact absurd hd (List.not_mem_nil)
  · show (((Device.init qsize mem disk).hist.subs.length : ℕ) : ℤ) + _ = _ + _
    rw [hcnt]
    rfl
  · intro d hd; rw [hnil] at hd; exact absurd hd (List.not_mem_nil)
  · intro d hd; rw [hnil] at hd; exact absurd hd (List.not_mem_nil)
  · intro sub hs; exact absurd hs (by simp [Device.init])
  · intro d hd; rw [hnil] at hd; exact absurd hd (List.not_mem_nil)
  · intro cid e he
    cases he

/-- The controller and the caller's memory do not concern the accounts. -/
theorem later (h : s.Inv pc) {d' : Device} (hl : s.dev.Later d')
    (hd : d'.Inv (s.dev.hist.reaped + pc.taken) (s.dev.hist.reaped + pc.acked)) :
    Sys.Inv { s with dev := d' } pc := by
  refine ⟨h.acc.same (hl.same h.dev.reaped_le_posted), ?_, h.size.trans hl.size.symm, ?_⟩
  · show d'.Inv (d'.hist.reaped + _) (d'.hist.reaped + _)
    rw [hl.reaped]; exact hd
  · intro cid e he
    obtain ⟨h1, h2⟩ := h.filled cid e he
    refine ⟨?_, h2⟩
    show d'.sq d'.sqTail = e
    rw [hl.sq, hl.sqTail]; exact h1

/-- Composing PRPs, for the id in hand. -/
theorem storePrps {d cid : ℕ} (h : s.Inv (.claimed d cid)) (buf bufsz addr : ℕ) (call : PrpCall) :
    Sys.Inv ⟨s.q, s.dev.storePrps call⟩ (.mapped d cid buf bufsz addr) :=
  ⟨h.acc.same ⟨rfl, rfl, rfl⟩, h.dev.storePrps call, h.size, nofun⟩

end Sys.Inv

/-- **Every step keeps the invariant.** -/
theorem Step.inv {E : Env} {G : Guards} {s s' : Sys} {pc pc' : Pc}
    (hstep : Step E G (s, pc) (s', pc')) (h : s.Inv pc) : s'.Inv pc' := by
  cases hstep with
  | act _ _ a => exact h.later (Device.Later.act _ _ a) (h.dev.act _ a)
  | sched _ _ σ =>
      exact h.later ⟨rfl, rfl, rfl, rfl, rfl, rfl, List.prefix_rfl, rfl⟩ (h.dev.sched σ)
  | advance _ hp =>
      exact ⟨h.acc, h.dev.advance rfl hp, h.size, nofun⟩
  | ring _ => exact ⟨h.acc, h.dev.ring, h.size, nofun⟩
  | reap _ k e q' hp hq =>
      obtain ⟨sub, hs, hc, hnew⟩ := h.dev.next_pending hp
      obtain ⟨d, p, -, -, hret, -, -, hacc⟩ := h.acc.reap hp hs hc hnew
      rw [hq, Except.ok.injEq] at hret
      subst hret
      exact ⟨hacc.same ⟨rfl, rfl, rfl⟩, h.dev.reap rfl, h.size, nofun⟩
  | take _ d q' f hget hf hs hG =>
      obtain ⟨d', q'', hget', -, -, hsame, -, -, -, -, hacc⟩ := h.acc.descGet
      rw [hget, Prod.mk.injEq] at hget'
      obtain ⟨rfl, rfl⟩ := hget'
      exact ⟨hacc f hf hs, h.dev, hsame.size.trans h.size, nofun⟩
  | put _ d hd h0 =>
      exact ⟨(h.acc.descPut hd h0).2.2, h.dev, h.size, nofun⟩
  | claim _ d cid q' hd hroom hq =>
      rcases h.acc.claim hd hroom with ⟨herr, -⟩ | ⟨c, hok, -, -, -, -, hacc⟩
      · rw [hq] at herr; cases herr
      · rw [hq, Except.ok.injEq, Prod.mk.injEq] at hok
        obtain ⟨rfl, rfl⟩ := hok
        exact ⟨hacc, h.dev, h.size, nofun⟩
  | map _ d cid buf bufsz addr ha hG =>
      exact h.storePrps buf bufsz addr _
  | fill _ d cid buf bufsz addr e hc h1 h2 hG =>
      refine ⟨h.acc.same ⟨rfl, rfl, rfl⟩, h.dev.fill e, h.size, ?_⟩
      intro cid' e' he
      cases he
      exact ⟨Function.update_self _ _ _, hc⟩
  | submit _ d cid buf bufsz addr e =>
      obtain ⟨hsq, hc⟩ := h.filled cid e rfl
      have hcount := h.acc.count
      have hbound := h.acc.wf.bound
      have hsize := h.size
      refine ⟨(h.acc.submit rfl hc rfl h.dev.new_not_reaped).same ⟨rfl, rfl, rfl⟩,
        h.dev.submit hsq ?_, h.size, nofun⟩
      simp only [Pc.hand, Option.toList_some, List.length_singleton] at hcount
      push_cast at hcount
      omega

/-- What no step changes. -/
structure Sys.SameQueue (s s' : Sys) : Prop where
  size : s'.q.size = s.q.size
  prplist : s'.q.prplist = s.q.prplist
  masksize : s'.q.masksize = s.q.masksize

theorem Sys.SameQueue.ids {s s' : Sys} (h : s.SameQueue s') : s'.q.ids = s.q.ids := by
  unfold Queue.ids
  rw [h.size]

theorem Step.sameQueue {E : Env} {G : Guards} {s s' : Sys} {pc pc' : Pc}
    (hstep : Step E G (s, pc) (s', pc')) (h : s.Inv pc) : s.SameQueue s' := by
  cases hstep with
  | reap _ k e q' hp hq =>
      obtain ⟨sub, hs, hc, hnew⟩ := h.dev.next_pending hp
      obtain ⟨d, p, -, -, hret, -⟩ := h.acc.reap hp hs hc hnew
      rw [hq, Except.ok.injEq] at hret
      subst hret
      exact ⟨rfl, rfl, rfl⟩
  | take _ d q' f hget hf hs hG =>
      obtain ⟨d', q'', hget', -, -, hsame, hprp, -⟩ := h.acc.descGet
      rw [hget, Prod.mk.injEq] at hget'
      obtain ⟨rfl, rfl⟩ := hget'
      exact ⟨hsame.size, hprp, hsame.masksize⟩
  | claim _ d cid q' hd hroom hq =>
      rcases h.acc.claim hd hroom with ⟨herr, -⟩ | ⟨c, hok, -⟩
      · rw [hq] at herr; cases herr
      · rw [hq, Except.ok.injEq, Prod.mk.injEq] at hok
        obtain ⟨rfl, rfl⟩ := hok
        exact ⟨rfl, rfl, rfl⟩
  | act _ _ a => exact ⟨rfl, rfl, rfl⟩
  | sched _ _ σ => exact ⟨rfl, rfl, rfl⟩
  | advance _ hp => exact ⟨rfl, rfl, rfl⟩
  | ring _ => exact ⟨rfl, rfl, rfl⟩
  | put _ d hd h0 => exact ⟨rfl, rfl, rfl⟩
  | map _ d cid buf bufsz addr ha hG => exact ⟨rfl, rfl, rfl⟩
  | fill _ d cid buf bufsz addr e hc h1 h2 hG => exact ⟨rfl, rfl, rfl⟩
  | submit _ d cid buf bufsz addr e => exact ⟨rfl, rfl, rfl⟩

/-- No step takes back what is recorded. -/
theorem Step.grows {E : Env} {G : Guards} {s s' : Sys} {pc pc' : Pc}
    (hstep : Step E G (s, pc) (s', pc')) : s.dev.hist.Grows s'.dev.hist := by
  cases hstep with
  | act _ _ a => exact (Device.Later.act _ _ a).grows
  | reap _ k e q' hp hq => exact ⟨List.prefix_rfl, List.prefix_rfl, Nat.le_succ _⟩
  | submit _ d cid buf bufsz addr e =>
      exact ⟨List.prefix_append _ _, List.prefix_rfl, le_rfl⟩
  | sched _ _ σ => exact History.Grows.refl _
  | advance _ hp => exact History.Grows.refl _
  | ring _ => exact History.Grows.refl _
  | take _ d q' f hget hf hs hG => exact History.Grows.refl _
  | put _ d hd h0 => exact History.Grows.refl _
  | claim _ d cid q' hd hroom hq => exact History.Grows.refl _
  | map _ d cid buf bufsz addr ha hG => exact History.Grows.storePrps _ _
  | fill _ d cid buf bufsz addr e hc h1 h2 hG => exact ⟨List.prefix_rfl, List.prefix_rfl, le_rfl⟩

/-- An invariant of the steps is one of their sequences; `Sys.Inv` may be used at each of them. -/
theorem Steps.invariant {E : Env} {G : Guards} {P : Sys → Pc → Prop}
    (hP : ∀ s pc s' pc', s.Inv pc → Step E G (s, pc) (s', pc') → P s pc → P s' pc')
    {s s' : Sys} {pc pc' : Pc} (hsteps : Steps E G (s, pc) (s', pc')) (h : s.Inv pc) (hs : P s pc) :
    s'.Inv pc' ∧ P s' pc' := by
  suffices ∀ b, Steps E G (s, pc) b → b.1.Inv b.2 ∧ P b.1 b.2 from this _ hsteps
  intro b hb
  induction hb with
  | refl => exact ⟨h, hs⟩
  | tail _ hstep ih => exact ⟨hstep.inv ih.1, hP _ _ _ _ ih.1 hstep ih.2⟩

theorem Steps.inv {E : Env} {G : Guards} {s s' : Sys} {pc pc' : Pc}
    (hsteps : Steps E G (s, pc) (s', pc')) (h : s.Inv pc) : s'.Inv pc' :=
  (hsteps.invariant (P := fun _ _ => True) (fun _ _ _ _ _ _ _ => trivial) h trivial).1

theorem Steps.sameQueue {E : Env} {G : Guards} {s s' : Sys} {pc pc' : Pc}
    (hsteps : Steps E G (s, pc) (s', pc')) (h : s.Inv pc) : s.SameQueue s' := by
  refine (hsteps.invariant (P := fun s' _ => s.SameQueue s') ?_ h ⟨rfl, rfl, rfl⟩).2
  intro s₁ pc₁ s₂ pc₂ h₁ hstep hs
  have hq := hstep.sameQueue h₁
  exact ⟨hq.size.trans hs.size, hq.prplist.trans hs.prplist, hq.masksize.trans hs.masksize⟩

theorem Steps.grows {E : Env} {G : Guards} {s s' : Sys} {pc pc' : Pc}
    (hsteps : Steps E G (s, pc) (s', pc')) : s.dev.hist.Grows s'.dev.hist := by
  suffices ∀ b, Steps E G (s, pc) b → s.dev.hist.Grows b.1.dev.hist from this _ hsteps
  intro b hb
  induction hb with
  | refl => exact History.Grows.refl _
  | tail _ hstep ih => exact ih.trans hstep.grows

end Unvme.Core
