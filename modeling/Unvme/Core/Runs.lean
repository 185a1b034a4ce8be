import Unvme.Core.Specs

set_option autoImplicit false

/-! # Runs of a queue

A client calls `unvme_do_rw`, `unvme_do_cmd` and `unvme_do_poll` on one queue in any order; the
controller acts during the calls, by the schedule of each call, and between them; and the client
writes to its memory between the calls. `Run E L s₀ s`: state `s` is reached from `s₀` by rounds that
all satisfy `L`. A process that stops inside a call reaches no further state; what is known about the
state it stops in is stated with `Call.after`. -/

namespace Unvme.Core

open Unvme.Lib Unvme.Nvme

/-- A call on the queue. -/
inductive Call where
  | rw (qid : ℤ) (opc buf slba nlb : ℕ)
  | cmd (qid : ℤ) (opc nsid buf bufsz : ℕ) (cdw10_15 : Option (Vector ℕ 6))
  | poll (d : ℕ) (timeout : ℤ)

/-- What a call returns: a descriptor (or NULL), or a status. -/
inductive Ret where
  | desc (d : Option ℕ)
  | status (r : ℤ)
  deriving DecidableEq, Repr

/-- The call on a driver that looks buffers up with `map`. -/
def Call.runBy (E : Env) (map : Lookup) : Call → Drv Ret
  | .rw qid opc buf slba nlb => do
      let d ← unvmeDoRwBy E map qid opc buf slba nlb
      pure (.desc (some d))
  | .cmd qid opc nsid buf bufsz cdw10_15 => do
      let d ← unvmeDoCmdBy E map qid opc nsid buf bufsz cdw10_15
      pure (.desc d)
  | .poll d timeout => do
      let r ← unvmeDoPoll E d timeout
      pure (.status r.1)

abbrev Call.run (E : Env) (c : Call) : Drv Ret := c.runBy E (unvmeMapDma E)

/-- A call with the controller's schedule for it, actions of the controller between calls, or a
    change of the client's memory. -/
inductive Round where
  | call (c : Call) (σ : List (List CtlAct))
  | idle (acts : List CtlAct)
  | store (mem : ℕ → ℕ)

/-- The controller is given a schedule. -/
def Sys.withSched (s : Sys) (σ : List (List CtlAct)) : Sys :=
  { s with dev := { s.dev with sched := σ } }

/-- The effect of a round; a call has to return. -/
def Round.DoesBy (E : Env) (map : Lookup) (s : Sys) : Round → Sys → Prop
  | .call c σ, s' => ∃ v, c.runBy E map (s.withSched σ) = .ok v s'
  | .idle acts, s' => s' = { s with dev := acts.foldl (Device.act E.media) s.dev }
  | .store mem, s' => s' = { s with dev := { s.dev with mem := mem } }

abbrev Round.Does (E : Env) (s : Sys) (r : Round) (s' : Sys) : Prop := r.DoesBy E (unvmeMapDma E) s s'

/-- The states a driver that looks buffers up with `map` can reach. -/
inductive RunBy (E : Env) (map : Lookup) (L : Sys → Round → Prop) (s₀ : Sys) : Sys → Prop
  | nil : RunBy E map L s₀ s₀
  | round {s s' : Sys} (h : RunBy E map L s₀ s) (r : Round) (hl : L s r) (hd : r.DoesBy E map s s') :
      RunBy E map L s₀ s'

/-- Reachable states. -/
abbrev Run (E : Env) (L : Sys → Round → Prop) (s₀ : Sys) : Sys → Prop := RunBy E (unvmeMapDma E) L s₀

/-- A queue as `unvme_queue_init` leaves it, on a new queue pair. -/
def Sys.boot (qsize : ℕ) (prplist : Dma) (mem disk : ℕ → ℕ) : Sys :=
  ⟨Queue.setup qsize prplist, Device.init qsize mem disk⟩

@[simp] theorem Sys.boot_mem (qsize : ℕ) (prplist : Dma) (mem disk : ℕ → ℕ) :
    (Sys.boot qsize prplist mem disk).dev.mem = mem := rfl

/-- Only descriptors that are not released are polled. -/
def Round.Legal (s : Sys) : Round → Prop
  | .call (.poll d _) _ => d ∈ s.q.usedDescs
  | _ => True

/-- The state when a call has returned or the process has stopped in it. -/
def Call.after (E : Env) (c : Call) (s : Sys) : Sys := final (c.run E) s

/-! ## The invariant over runs -/

section

variable {E : Env} {s s' : Sys}

theorem Sys.Inv.withSched (h : s.Inv .idle) (σ : List (List CtlAct)) : (s.withSched σ).Inv .idle :=
  h.later ⟨rfl, rfl, rfl, rfl, rfl, rfl, List.prefix_rfl, rfl⟩ (h.dev.sched σ)

/-- The memory of a queue pair and the medium do not concern its invariant. -/
theorem Sys.Inv.withMemory {pc : Pc} (h : s.Inv pc) (mem disk : ℕ → ℕ) :
    Sys.Inv { s with dev := { s.dev with mem := mem, disk := disk } } pc :=
  h.later ⟨rfl, rfl, rfl, rfl, rfl, rfl, List.prefix_rfl, rfl⟩
    ⟨h.dev.two_le, h.dev.cqSize, h.dev.tail, h.dev.bell, h.dev.head, h.dev.room, h.dev.slot,
      h.dev.fetched, h.dev.seqs, h.dev.entry, h.dev.posts, h.dev.cq, h.dev.reaped_le, h.dev.taken,
      h.dev.trail⟩

/-- The run allows everything a call may do from `s`. -/
def Call.Allowed (E : Env) (G : Guards) (s : Sys) : Call → Prop
  | .rw _ opc buf slba nlb => ∀ d x, Desc.IsRw opc buf slba nlb x → G.take s.q d x ∧
      ∀ c ∈ chunks E nlb buf slba nlb, c.Allowed E G x s.q.prplist d
  | .cmd _ opc nsid buf bufsz cdw10_15 => (∀ d x, G.take s.q d x) ∧ (∀ q d, G.map q d buf bufsz) ∧
      ∀ q d cid prp1 prp2, G.fill q d (vsEntry opc cid nsid prp1 prp2 cdw10_15) buf bufsz
  | .poll d _ => d ∈ s.q.usedDescs

/-- Every call takes steps, whether it returns or stops. -/
theorem Call.run_spec {G : Guards} (c : Call) (h : s.Inv .idle) (ha : c.Allowed E G s) :
    wp (c.run E) s (fun _ s' => Steps E G (s, .idle) (s', .idle))
      (fun e s' => e.Expected E s.q.size ∧ ∃ pc, Steps E G (s, .idle) (s', pc)) := by
  cases c with
  | rw qid opc buf slba nlb =>
      refine wp_bind_of (unvmeDoRw_spec (G := G) h (fun d x hx => (ha d x hx).1)
        (fun d x hx => (ha d x hx).2)) ?_
      exact fun d s' hd => hd.1
  | cmd qid opc nsid buf bufsz cdw10_15 =>
      refine wp_bind_of (unvmeDoCmd_spec (G := G) h ha.1 ha.2.1 ha.2.2) ?_
      exact fun d s' hd => hd.1
  | poll d timeout =>
      refine wp_bind_of (wp_mono (unvmeDoPoll_spec (G := G) timeout h ha)
        (fun _ _ hq => hq) (fun _ _ hf => hf.elim)) ?_
      exact fun r s' hr => hr.1

/-- Without restrictions only the poll has a condition. -/
theorem Call.allowed_any {c : Call} {σ : List (List CtlAct)} (hl : Round.Legal s (.call c σ)) :
    c.Allowed E Guards.any (s.withSched σ) := by
  cases c with
  | rw qid opc buf slba nlb =>
      exact fun d x hx => ⟨trivial, fun c hc => ⟨fun _ _ => trivial, fun _ _ _ _ _ => trivial⟩⟩
  | cmd qid opc nsid buf bufsz cdw10_15 =>
      exact ⟨fun _ _ => trivial, fun _ _ => trivial, fun _ _ _ _ _ => trivial⟩
  | poll d timeout => exact hl

theorem Call.after_steps {G : Guards} (c : Call) (h : s.Inv .idle) (ha : c.Allowed E G s) :
    ∃ pc, Steps E G (s, .idle) (c.after E s, pc) := by
  have hspec := Call.run_spec (E := E) c h ha
  unfold wp at hspec
  unfold Call.after final
  cases hc : c.run E s with
  | ok v s' =>
      rw [hc] at hspec
      exact ⟨.idle, hspec⟩
  | error e s' =>
      rw [hc] at hspec
      exact hspec.2

/-- The run allows a round. -/
def Round.Allowed (E : Env) (G : Guards) (s : Sys) : Round → Prop
  | .call c σ => c.Allowed E G (s.withSched σ)
  | _ => True

theorem Round.Legal.allowed {r : Round} (hl : r.Legal s) : r.Allowed E Guards.any s := by
  cases r with
  | call c σ => exact Call.allowed_any hl
  | idle acts => trivial
  | store mem => trivial

/-- A round is a sequence of steps, apart from the client's writes. -/
theorem Round.steps {G : Guards} {r : Round} (h : s.Inv .idle) (ha : r.Allowed E G s)
    (hd : r.Does E s s') : Steps E G (s, .idle) (s', .idle) ∨
      ∃ mem, r = .store mem ∧ s' = { s with dev := { s.dev with mem := mem } } := by
  cases r with
  | call c σ =>
      obtain ⟨v, hv⟩ := hd
      have hspec := Call.run_spec (E := E) c (h.withSched σ) ha
      exact Or.inl (((Steps.refl _).tail (Step.sched s .idle σ)).trans (hspec.of_ok hv))
  | idle acts =>
      obtain rfl := hd
      clear ha
      left
      suffices ∀ d, Steps E G (⟨s.q, d⟩, .idle)
          (⟨s.q, acts.foldl (Device.act E.media) d⟩, .idle) from this s.dev
      induction acts with
      | nil => exact fun d => Steps.refl _
      | cons a as ih =>
          exact fun d => ((Steps.refl _).tail (Step.act ⟨s.q, d⟩ .idle a)).trans (ih _)
  | store mem => exact Or.inr ⟨mem, rfl, hd⟩

theorem Round.inv {r : Round} (h : s.Inv .idle) (hl : r.Legal s) (hd : r.Does E s s') :
    s'.Inv .idle := by
  rcases r.steps h hl.allowed hd with hst | ⟨mem, -, rfl⟩
  · exact hst.inv h
  · exact h.later ⟨rfl, rfl, rfl, rfl, rfl, rfl, List.prefix_rfl, rfl⟩ (h.dev.mem mem)

theorem Round.sameQueue {r : Round} (h : s.Inv .idle) (hl : r.Legal s) (hd : r.Does E s s') :
    s.SameQueue s' := by
  rcases r.steps h hl.allowed hd with hst | ⟨mem, -, rfl⟩
  · exact hst.sameQueue h
  · exact ⟨rfl, rfl, rfl⟩

/-- **The invariant holds in every state between calls**, and the queue stays the same queue. -/
theorem Run.inv {L : Sys → Round → Prop} (hL : ∀ s r, L s r → r.Legal s) {s₀ : Sys}
    (h₀ : s₀.Inv .idle) (hrun : Run E L s₀ s) : s.Inv .idle ∧ s₀.SameQueue s := by
  induction hrun with
  | nil => exact ⟨h₀, rfl, rfl, rfl⟩
  | round _ r hl hd ih =>
      have hq := Round.sameQueue ih.1 (hL _ r hl) hd
      exact ⟨Round.inv ih.1 (hL _ r hl) hd, hq.size.trans ih.2.size, hq.prplist.trans ih.2.prplist,
        hq.masksize.trans ih.2.masksize⟩

/-- From `unvme_queue_init` on. -/
theorem Run.boot {L : Sys → Round → Prop} (hL : ∀ s r, L s r → r.Legal s) {qsize : ℕ}
    (hq : 2 ≤ qsize) {prplist : Dma} {mem disk : ℕ → ℕ}
    (hrun : Run E L (Sys.boot qsize prplist mem disk) s) :
    s.Inv .idle ∧ s.q.size = qsize ∧ s.q.prplist = prplist := by
  obtain ⟨h, hsame⟩ := hrun.inv hL (Sys.Inv.init hq prplist mem disk)
  obtain ⟨hsize, -, hprp, -⟩ := Queue.setup_wf hq prplist
  exact ⟨h, hsame.size.trans hsize, hsame.prplist.trans hprp⟩

end

end Unvme.Core
