import Unvme.Core.Steps

set_option autoImplicit false

/-! # What the driver functions do

One specification per function of `Driver.lean`, in the form of a weakest precondition from any state
with the invariant: the function only takes steps of `Steps.lean` (so the invariant holds wherever it
returns or stops), and the part of queue and history it changes is described by `Sys.Reaps` (it waits
and reaps completions) or `Sys.Works` (it also submits commands for one descriptor). No specification
looks below the one of a function it calls. -/

namespace Unvme.Core

open Unvme.Lib Unvme.Nvme

variable {E : Env} {G : Guards}

theorem Steps.refl (a : Sys × Pc) : Steps E G a a := Relation.ReflTransGen.refl

theorem Steps.trans {a b c : Sys × Pc} (h : Steps E G a b) (h' : Steps E G b c) : Steps E G a c :=
  Relation.ReflTransGen.trans h h'

theorem Steps.tail {a b c : Sys × Pc} (h : Steps E G a b) (h' : Step E G b c) : Steps E G a c :=
  Relation.ReflTransGen.tail h h'

/-- The ways a driver function may stop the process on a consistent queue of this size: by its
    deadline, on a buffer outside the DMA region, or in a loop that does not end, with more entries than
    there are command ids or with chunks of no blocks. -/
def Stop.Expected (E : Env) (size : ℕ) (e : Stop) : Prop :=
  e = .timeout ∨ e = .nonIoRegion ∨ e = .hang ∧ (65537 < size ∨ E.ns.maxbpio = 0)

/-! ## The controller's turn -/

theorem turn_steps (s : Sys) (pc : Pc) :
    Steps E G (s, pc) ({ s with dev := s.dev.turn E.media }, pc) := by
  unfold Device.turn
  split
  · exact Steps.refl _
  · next acts rest hs =>
      clear hs
      refine (Steps.refl _).tail (Step.sched s pc rest) |>.trans ?_
      generalize { s.dev with sched := rest } = d₀
      induction acts generalizing d₀ with
      | nil => exact Steps.refl _
      | cons a as ih =>
          exact ((Steps.refl _).tail (Step.act ⟨s.q, d₀⟩ pc a)).trans (ih _)

/-! ## What changes -/

/-- `y` is for the same request as `x`: all that differs is the state of its command ids. -/
structure Desc.SameRequest (x y : Desc) : Prop where
  buf : y.buf = x.buf
  slba : y.slba = x.slba
  nlb : y.nlb = x.nlb
  qid : y.qid = x.qid
  opc : y.opc = x.opc
  sentinel : y.sentinel = x.sentinel

theorem Desc.SameRequest.refl (x : Desc) : Desc.SameRequest x x := ⟨rfl, rfl, rfl, rfl, rfl, rfl⟩

theorem Desc.SameRequest.trans {x y z : Desc} (h : Desc.SameRequest x y)
    (h' : Desc.SameRequest y z) : Desc.SameRequest x z :=
  ⟨h'.buf.trans h.buf, h'.slba.trans h.slba, h'.nlb.trans h.nlb, h'.qid.trans h.qid,
    h'.opc.trans h.opc, h'.sentinel.trans h.sentinel⟩

/-- From `s` to `s'` commands `new` are submitted for descriptor `d`, in this order, and `n`
    completions are reaped; the descriptor lists stay. -/
structure Sys.Works (d : ℕ) (s s' : Sys) (new : List Sub) (n : ℕ) : Prop where
  subs : s'.dev.hist.subs = s.dev.hist.subs ++ new
  reaped : s'.dev.hist.reaped = s.dev.hist.reaped + n
  posts : s.dev.hist.posts <+: s'.dev.hist.posts
  used : s'.q.usedDescs = s.q.usedDescs
  free : s'.q.freeDescs = s.q.freeDescs
  size : s'.q.size = s.q.size
  prplist : s'.q.prplist = s.q.prplist
  desc : ∀ x, Desc.SameRequest (s.q.desc x) (s'.q.desc x)
  cmds : ∀ x, x ≠ d → (s'.q.desc x).cmds = (s.q.desc x).cmds
  own : (s'.q.desc d).cmds =
    (s.q.desc d).cmds ++ List.range' s.dev.hist.subs.length new.length

/-- From `s` to `s'` only `n` completions are reaped. -/
def Sys.Reaps (s s' : Sys) (n : ℕ) : Prop := ∀ d, Sys.Works d s s' [] n

namespace Sys.Works

variable {d : ℕ} {s s' s'' : Sys} {new new' : List Sub} {n n' : ℕ}

theorem trans (h : Sys.Works d s s' new n) (h' : Sys.Works d s' s'' new' n') :
    Sys.Works d s s'' (new ++ new') (n + n') where
  subs := by rw [h'.subs, h.subs, List.append_assoc]
  reaped := by rw [h'.reaped, h.reaped, Nat.add_assoc]
  posts := h.posts.trans h'.posts
  used := h'.used.trans h.used
  free := h'.free.trans h.free
  size := h'.size.trans h.size
  prplist := h'.prplist.trans h.prplist
  desc := fun x => (h.desc x).trans (h'.desc x)
  cmds := fun x hx => (h'.cmds x hx).trans (h.cmds x hx)
  own := by
    rw [h'.own, h.own, h.subs, List.length_append, List.length_append, List.append_assoc,
      List.range'_append_1]

/-- The controller's turn changes nothing of the driver's. -/
theorem later {dev : Device} (hl : s.dev.Later dev) : Sys.Works d s { s with dev := dev } [] 0 where
  subs := by simpa using hl.subs
  reaped := hl.reaped
  posts := hl.posts
  used := rfl
  free := rfl
  size := rfl
  prplist := rfl
  desc := fun x => Desc.SameRequest.refl _
  cmds := fun _ _ => rfl
  own := by simp

/-- Submitting a command for `d`. -/
theorem submit (s : Sys) (d : ℕ) (sub : Sub) :
    Sys.Works d s ⟨s.q.setDesc d (fun x => { x with cmds := x.cmds ++ [s.dev.hist.submitted] }),
      s.dev.submit sub⟩ [sub] 0 := by
  refine ⟨rfl, rfl, List.prefix_rfl, rfl, rfl, rfl, rfl, ?_, ?_, ?_⟩
  · intro x
    by_cases hx : x = d
    · subst hx
      rw [Queue.setDesc_self]
      exact ⟨rfl, rfl, rfl, rfl, rfl, rfl⟩
    · rw [Queue.setDesc_of_ne hx]
      exact Desc.SameRequest.refl _
  · intro x hx
    rw [Queue.setDesc_of_ne hx]
  · rw [Queue.setDesc_self]
    rfl

end Sys.Works

namespace Sys.Reaps

variable {s s' s'' : Sys} {n n' : ℕ}

theorem trans (h : s.Reaps s' n) (h' : s'.Reaps s'' n') : s.Reaps s'' (n + n') :=
  fun d => (h d).trans (h' d)

theorem later (hl : s.dev.Later s'.dev) (hq : s'.q = s.q) : s.Reaps s' 0 := by
  obtain ⟨q', d'⟩ := s'
  obtain rfl : q' = s.q := hq
  exact fun d => Sys.Works.later hl

theorem refl (s : Sys) : s.Reaps s 0 := later (Device.Later.refl s.dev) rfl

/-- The ring registers are not part of what is described. -/
theorem cq (s : Sys) (r : CqRing) : s.Reaps { s with dev := { s.dev with cq := r } } 0 := fun _ =>
  ⟨by simp, rfl, List.prefix_rfl, rfl, rfl, rfl, rfl, fun _ => Desc.SameRequest.refl _,
    fun _ _ => rfl, by simp⟩

theorem storePrps (s : Sys) (call : PrpCall) : s.Reaps ⟨s.q, s.dev.storePrps call⟩ 0 := fun _ =>
  ⟨(List.append_nil _).symm, rfl, List.prefix_rfl, rfl, rfl, rfl, rfl,
    fun _ => Desc.SameRequest.refl _, fun _ _ => rfl, (List.append_nil _).symm⟩

theorem fill (s : Sys) (e : SqEntry) : s.Reaps { s with dev := s.dev.fill e } 0 := fun _ =>
  ⟨(List.append_nil _).symm, rfl, List.prefix_rfl, rfl, rfl, rfl, rfl,
    fun _ => Desc.SameRequest.refl _, fun _ _ => rfl, (List.append_nil _).symm⟩

end Sys.Reaps

/-! ## Completion -/

/-- What `nvme_check_completion` and the wait loop around it leave behind: nothing happened, or a
    completion was taken from the ring and is still to be retired. -/
def CheckPost (E : Env) (G : Guards) (s : Sys) (r : Option Completion) (s' : Sys) : Prop :=
  match r with
  | none => Steps E G (s, .idle) (s', .idle) ∧ s.Reaps s' 0 ∧ s'.q = s.q
  | some c => ∃ s₁ k e, Steps E G (s, .idle) (s₁, .rung) ∧ s.Reaps s₁ 0 ∧ s₁.q = s.q ∧
      s₁.dev.hist.posts[s₁.dev.hist.reaped]? = some (k, e) ∧ c = e.completion ∧
      s' = ⟨s₁.q, s₁.dev.reap⟩

theorem interfere_spec (pc : Pc) (s : Sys) {X : Stop → Sys → Prop} :
    wp (interfere E) s
      (fun _ s' => Steps E G (s, pc) (s', pc) ∧ s.dev.Later s'.dev ∧ s'.q = s.q) X :=
  ⟨turn_steps s pc, Device.Later.turn _ _, rfl⟩

/-- The next completion to reap is `e`, for command `k`, and it is in this slot. -/
structure Sys.Next (s : Sys) (slot k : ℕ) (e : CqEntry) : Prop where
  post : s.dev.hist.posts[s.dev.hist.reaped]? = some (k, e)
  slot : slot = s.dev.hist.reaped % s.dev.size

namespace Sys.Next

variable {s s' : Sys} {slot k i j : ℕ} {e : CqEntry}

theorem later (h : s.Next slot k e) (hl : s.dev.Later s'.dev) : s'.Next slot k e := by
  refine ⟨?_, by rw [hl.reaped, hl.size]; exact h.slot⟩
  obtain ⟨more, hmore⟩ := hl.posts
  rw [hl.reaped, ← hmore, List.getElem?_append_left (List.getElem?_eq_some_iff.1 h.post).1]
  exact h.post

/-- The entry stays in its slot while the controller goes on posting. -/
theorem at_slot (h : s.Next slot k e) (hi : s.dev.Inv i j) :
    s.dev.cq.cq slot = e.tagged ((s.dev.hist.reaped / s.dev.size + 1) % 2) := by
  have hroom := hi.cq.room
  have htaken := hi.taken
  have hacked := hi.cq.acked
  rw [List.length_map] at hroom
  have := hi.cq.slot s.dev.hist.reaped e (by rw [List.getElem?_map, h.post]; rfl)
    (by rw [List.length_map]; omega)
  rw [hi.cqSize] at this
  rw [h.slot, this]

theorem statAt (h : s.Next slot k e) (hi : s.dev.Inv i j) : s.dev.cq.statAt slot = e.stat := by
  rw [CqRing.statAt, h.at_slot hi]
  exact CqEntry.tagged_stat e (Nat.mod_lt _ (by omega))

theorem csAt (h : s.Next slot k e) (hi : s.dev.Inv i j) : s.dev.cq.csAt slot = e.cs := by
  rw [CqRing.csAt, h.at_slot hi]; rfl

theorem cidAt (h : s.Next slot k e) (hi : s.dev.Inv i j) : s.dev.cq.cidAt slot = e.cid := by
  rw [CqRing.cidAt, h.at_slot hi]; rfl

theorem pending (h : s.Next slot k e) (hi : s.dev.Inv s.dev.hist.reaped j) : s.dev.cq.pending = true := by
  rw [hi.cq.pending_iff, List.length_map]
  exact (List.getElem?_eq_some_iff.1 h.post).1

end Sys.Next

/-- A completion is there whenever its phase tag shows. -/
theorem Sys.next_of_pending {s : Sys} {j : ℕ} (h : s.dev.Inv s.dev.hist.reaped j)
    (hp : s.dev.cq.pending = true) : ∃ k e, s.Next s.dev.cq.cqHead k e := by
  have hlt := h.cq.pending_iff.1 hp
  rw [List.length_map] at hlt
  refine ⟨_, _, List.getElem?_eq_getElem hlt, ?_⟩
  rw [h.cq.head, h.cqSize]

theorem nvmeCheckCompletion_spec {s : Sys} (h : s.Inv .idle) :
    wp (nvmeCheckCompletion E) s (CheckPost E G s) (fun _ _ => False) := by
  unfold nvmeCheckCompletion
  refine wp_bind_of (interfere_spec (G := G) .idle s) ?_
  rintro - s₁ ⟨hst₁, hl₁, hq₁⟩
  have h₁ := hst₁.inv h
  have hr₁ := Sys.Reaps.later hl₁ hq₁
  rw [wp_bind, wp_get, wp_ite]
  split
  · next hpend =>
      obtain ⟨k, e, hn₁⟩ := Sys.next_of_pending h₁.dev hpend
      generalize s₁.dev.cq.cqHead = slot at hn₁ ⊢
      refine wp_bind_of (interfere_spec (G := G) .idle s₁) ?_
      rintro - s₂ ⟨hst₂, hl₂, hq₂⟩
      have h₂ := hst₂.inv h₁
      have hn₂ := hn₁.later hl₂
      have hr₂ := hr₁.trans (Sys.Reaps.later hl₂ hq₂)
      rw [wp_bind, wp_get, hn₂.statAt h₂.dev, wp_bind, wp_modify]
      -- the head has moved on, the doorbell is still to be written
      have hadv := (hst₁.trans hst₂).tail (Step.advance s₂ (hn₂.pending h₂.dev))
      refine wp_bind_of (interfere_spec (G := G) .advanced _) ?_
      rintro - s₃ ⟨hst₃, hl₃, hq₃⟩
      have h₃ := (hadv.trans hst₃).inv h
      have hn₃ : s₃.Next slot k e :=
        Sys.Next.later (s := { s₂ with dev := { s₂.dev with cq := s₂.dev.cq.advance } })
          ⟨hn₂.post, hn₂.slot⟩ hl₃
      have hr₃ := (hr₂.trans (Sys.Reaps.cq s₂ _)).trans (Sys.Reaps.later hl₃ hq₃)
      rw [wp_bind, wp_get, hn₃.csAt h₃.dev, wp_bind, wp_modify]
      -- the doorbell is written; the controller may post into the slot before this one again
      have hring := (hadv.trans hst₃).tail (Step.ring s₃)
      refine wp_bind_of (interfere_spec (G := G) .rung _) ?_
      rintro - s₄ ⟨hst₄, hl₄, hq₄⟩
      have h₄ := (hring.trans hst₄).inv h
      have hn₄ : s₄.Next slot k e :=
        Sys.Next.later (s := { s₃ with dev := { s₃.dev with cq := s₃.dev.cq.ring } })
          ⟨hn₃.post, hn₃.slot⟩ hl₄
      have hr₄ := (hr₃.trans (Sys.Reaps.cq s₃ _)).trans (Sys.Reaps.later hl₄ hq₄)
      rw [wp_bind, wp_get, hn₄.cidAt h₄.dev, wp_bind, wp_modify, wp_pure]
      exact ⟨s₄, k, e, hring.trans hst₄, hr₄, by rw [hq₄, hq₃, hq₂, hq₁], hn₄.post, rfl, rfl⟩
  · exact ⟨hst₁, hr₁, hq₁⟩

theorem interfere_keeps (s : Sys) {X : Stop → Sys → Prop} :
    wp (interfere E) s
      (fun _ s' => s'.q = s.q ∧ s.dev.Later s'.dev ∧ ∀ k j, s.dev.Inv k j → s'.dev.Inv k j) X :=
  ⟨rfl, Device.Later.turn _ _, fun _ _ h => h.turn _⟩

/-- A completion is read as it was posted, whatever the queue's bookkeeping is. -/
theorem nvmeCheckCompletion_reads {s : Sys}
    (h : s.dev.Inv s.dev.hist.reaped s.dev.hist.reaped) :
    wp (nvmeCheckCompletion E) s
      (fun r s' => ∃ dev, s.dev.hist.Same dev.hist ∧ dev.size = s.dev.size ∧
        match r with
        | none => dev.Inv s.dev.hist.reaped s.dev.hist.reaped ∧
            dev.hist.posts.length = s.dev.hist.reaped ∧ s' = ⟨s.q, dev⟩
        | some comp => dev.Inv (s.dev.hist.reaped + 1) (s.dev.hist.reaped + 1) ∧
            ∃ k e, dev.hist.posts[dev.hist.reaped]? = some (k, e) ∧ comp = e.completion ∧
              s' = ⟨s.q, dev.reap⟩)
      (fun _ _ => False) := by
  unfold nvmeCheckCompletion
  refine wp_bind_of (interfere_keeps s) ?_
  rintro - s₁ ⟨hq₁, hl₁, hinv₁⟩
  have h₁ := hinv₁ _ _ h
  have hsame₁ := hl₁.same h.reaped_le_posted
  rw [wp_bind, wp_get, wp_ite]
  rw [← hl₁.reaped] at h₁
  split
  · next hpend =>
      obtain ⟨k, e, hn₁⟩ := Sys.next_of_pending h₁ hpend
      generalize s₁.dev.cq.cqHead = slot at hn₁ ⊢
      refine wp_bind_of (interfere_keeps s₁) ?_
      rintro - s₂ ⟨hq₂, hl₂, hinv₂⟩
      have h₂ := hinv₂ _ _ h₁
      have hn₂ := hn₁.later hl₂
      rw [← hl₂.reaped] at h₂
      rw [wp_bind, wp_get, hn₂.statAt h₂, wp_bind, wp_modify]
      -- the head has moved on, the doorbell is still to be written
      have hadv := h₂.advance rfl (hn₂.pending h₂)
      refine wp_bind_of (interfere_keeps _) ?_
      rintro - s₃ ⟨hq₃, hl₃, hinv₃⟩
      have h₃ := hinv₃ _ _ hadv
      have hn₃ : s₃.Next slot k e :=
        Sys.Next.later (s := { s₂ with dev := { s₂.dev with cq := s₂.dev.cq.advance } })
          ⟨hn₂.post, hn₂.slot⟩ hl₃
      rw [wp_bind, wp_get, hn₃.csAt h₃, wp_bind, wp_modify]
      refine wp_bind_of (interfere_keeps _) ?_
      rintro - s₄ ⟨hq₄, hl₄, hinv₄⟩
      have h₄ := hinv₄ _ _ h₃.ring
      have hn₄ : s₄.Next slot k e :=
        Sys.Next.later (s := { s₃ with dev := { s₃.dev with cq := s₃.dev.cq.ring } })
          ⟨hn₃.post, hn₃.slot⟩ hl₄
      rw [wp_bind, wp_get, hn₄.cidAt h₄, wp_bind, wp_modify, wp_pure]
      have hsame₂ := hl₂.same h₁.reaped_le_posted
      have hsame₃ := hl₃.same hadv.reaped_le_posted
      have hsame₄ := hl₄.same h₃.reaped_le_posted
      have hsame : s.dev.hist.Same s₄.dev.hist :=
        ((hsame₁.trans hsame₂).trans hsame₃).trans hsame₄
      have hR : s₂.dev.hist.reaped = s.dev.hist.reaped := hl₂.reaped.trans hl₁.reaped
      rw [hR] at h₄
      refine ⟨s₄.dev, hsame, hl₄.size.trans (hl₃.size.trans (hl₂.size.trans hl₁.size)), h₄, k, e,
        hn₄.post, rfl, ?_⟩
      rw [hq₄, hq₃, hq₂, hq₁]
  · next hnone =>
      have hle : s₁.dev.hist.posts.length ≤ s₁.dev.hist.reaped := by
        by_contra hlt
        refine hnone (h₁.cq.pending_iff.2 ?_)
        rw [List.length_map]
        omega
      have hlen := le_antisymm hle h₁.reaped_le_posted
      rw [hl₁.reaped] at h₁ hlen
      exact ⟨s₁.dev, hsame₁, hl₁.size, h₁, hlen, by rw [← hq₁]⟩

theorem CheckPost.after {s s' s'' : Sys} {r : Option Completion}
    (hst : Steps E G (s, .idle) (s', .idle)) (hr : s.Reaps s' 0) (hq : s'.q = s.q)
    (h : CheckPost E G s' r s'') : CheckPost E G s r s'' := by
  cases r with
  | none => exact ⟨hst.trans h.1, hr.trans h.2.1, h.2.2.trans hq⟩
  | some c =>
      obtain ⟨s₁, k, e, hst₁, hr₁, hq₁, hp, hc, hs⟩ := h
      exact ⟨s₁, k, e, hst.trans hst₁, hr.trans hr₁, hq₁.trans hq, hp, hc, hs⟩

theorem waitCompletion_spec (timeout : ℤ) (n : ℕ) {s : Sys} (h : s.Inv .idle) :
    wp (waitCompletion E timeout n) s (CheckPost E G s) (fun _ _ => False) := by
  induction n generalizing s with
  | zero => exact nvmeCheckCompletion_spec h
  | succ n ih =>
      rw [waitCompletion]
      refine wp_bind_of (nvmeCheckCompletion_spec (G := G) h) ?_
      intro r s₁ hr
      cases r with
      | some c => exact hr
      | none =>
          rw [wp_ite]
          split
          · exact hr
          · exact wp_mono (ih (hr.1.inv h)) (fun _ _ => CheckPost.after hr.1 hr.2.1 hr.2.2)
              (fun _ _ hf => hf)

/-- One completion, `e` of command `k`, is reaped and retired for the descriptor `d` of that
    command. -/
structure Sys.ReapsOne (s s' : Sys) (k : ℕ) (e : CqEntry) (d : ℕ) : Prop where
  reaps : s.Reaps s' 1
  post : s'.dev.hist.posts[s.dev.hist.reaped]? = some (k, e)
  used : d ∈ s.q.usedDescs
  cmd : k ∈ (s.q.desc d).cmds
  retired : ∃ p, s'.q = { s.q.clearCid d e.cid e.stat with descpend := p }

theorem Sys.ReapsOne.cidcount {s s' : Sys} {k : ℕ} {e : CqEntry} {d : ℕ}
    (h : s.ReapsOne s' k e d) : s'.q.cidcount = s.q.cidcount - 1 := by
  obtain ⟨p, hp⟩ := h.retired
  rw [hp]; rfl

theorem Queue.clearCid_sameRequest (q : Queue) (d cid err x : ℕ) :
    Desc.SameRequest (q.desc x) ((q.clearCid d cid err).desc x) := by
  by_cases hx : x = d
  · subst hx
    rw [Queue.clearCid_desc_self]
    exact ⟨rfl, rfl, rfl, rfl, rfl, rfl⟩
  · rw [Queue.clearCid_desc_of_ne hx]
    exact Desc.SameRequest.refl _

theorem Queue.setCid_sameRequest (q : Queue) (d cid x : ℕ) :
    Desc.SameRequest (q.desc x) ((q.setCid d cid).desc x) := by
  by_cases hx : x = d
  · subst hx
    rw [Queue.setCid_desc_self]
    exact ⟨rfl, rfl, rfl, rfl, rfl, rfl⟩
  · rw [Queue.setCid_desc_of_ne hx]
    exact Desc.SameRequest.refl _

theorem unvmeCheckCompletion_spec (timeout : ℤ) {s : Sys} (h : s.Inv .idle) :
    wp (unvmeCheckCompletion E timeout) s
      (fun r s' => Steps E G (s, .idle) (s', .idle) ∧
        (r = (-1, none) ∧ s.Reaps s' 0 ∧ s'.q = s.q ∨
          ∃ k e d, r = ((e.stat : ℤ), some e.cs) ∧ s.ReapsOne s' k e d))
      (fun _ _ => False) := by
  unfold unvmeCheckCompletion
  rw [wp_bind, wp_get]
  refine wp_bind_of (waitCompletion_spec (G := G) timeout _ h) ?_
  intro r s₁ hr
  cases r with
  | none => exact ⟨hr.1, Or.inl ⟨rfl, hr.2⟩⟩
  | some c =>
      obtain ⟨s₂, k, e, hst, hreaps, hq, hp, rfl, rfl⟩ := hr
      have h₂ := hst.inv h
      obtain ⟨sub, hs, hc, hnew⟩ := h₂.dev.next_pending hp
      obtain ⟨d, p, hd, hk, hret, hused, hfree, -⟩ := h₂.acc.reap hp hs hc hnew
      have hstep := hst.tail (Step.reap s₂ k e _ hp hret)
      simp only [CqEntry.completion, wp_bind, wp_get, hret, wp_set, wp_pure]
      have hR : s₂.dev.hist.reaped = s.dev.hist.reaped := (hreaps 0).reaped
      refine ⟨hstep, Or.inr ⟨k, e, d, rfl, ?_, ?_, ?_, ?_, p, by rw [hq]⟩⟩
      · refine Sys.Reaps.trans hreaps (fun x => ?_ : s₂.Reaps _ 1)
        exact ⟨(List.append_nil _).symm, rfl, List.prefix_rfl, hused, hfree, rfl, rfl,
          Queue.clearCid_sameRequest s₂.q d e.cid e.stat,
          fun y _ => Queue.clearCid_cmds s₂.q d e.cid e.stat y,
          (Queue.clearCid_cmds s₂.q d e.cid e.stat x).trans (List.append_nil _).symm⟩
      · rw [← hR]; exact hp
      · rw [← hq]; exact hd
      · rw [← hq]; exact hk

/-! ## Submission -/

/-- A command id is taken for descriptor `d`. -/
theorem claimCid_spec {d : ℕ} {s : Sys} (h : s.Inv .idle) (hd : d ∈ s.q.usedDescs)
    (hroom : s.q.cidcount + 1 < s.q.size) :
    wp (claimCid d) s
      (fun cid s' => Step E G (s, .idle) (s', .claimed d cid) ∧ s.Reaps s' 0)
      (fun e s' => e = .hang ∧ 65537 < s.q.size ∧ s' = s) := by
  unfold claimCid
  rw [wp_bind, wp_get]
  rcases h.acc.claim hd hroom with ⟨herr, hbig⟩ | ⟨c, hok, -, -, hused, hfree, -⟩
  · rw [herr]
    exact ⟨rfl, by omega, rfl⟩
  · simp only [hok, wp_bind, wp_set, wp_pure]
    refine ⟨Step.claim s d c _ hd hroom hok, fun x => ?_⟩
    exact ⟨(List.append_nil _).symm, rfl, List.prefix_rfl, hused, hfree, rfl, rfl,
      Queue.setCid_sameRequest s.q d c, fun y _ => Queue.setCid_cmds s.q d c y,
      (Queue.setCid_cmds s.q d c x).trans (List.append_nil _).symm⟩

/-- The completions to be reaped before `n` more commands fit into the queue. -/
def Queue.forced (q : Queue) (n : ℕ) : ℕ := (q.cidcount + n - (q.size - 1)).toNat

theorem unvmeGetCid_spec {d : ℕ} {s : Sys} (h : s.Inv .idle) (hd : d ∈ s.q.usedDescs) :
    wp (unvmeGetCid E d) s
      (fun cid s' => Steps E G (s, .idle) (s', .claimed d cid) ∧ s.Reaps s' (s.q.forced 1))
      (fun e s' => e.Expected E s.q.size ∧ ∃ pc, Steps E G (s, .idle) (s', pc)) := by
  unfold unvmeGetCid
  rw [wp_bind, wp_get, wp_ite]
  have hbound := h.acc.wf.bound
  split
  · next hfull =>
      have hforced : s.q.forced 1 = 1 := by unfold Queue.forced; omega
      refine wp_bind_of (wp_mono (unvmeCheckCompletion_spec (G := G) unvmeTimeout h)
        (fun _ _ hq => hq) (fun _ _ hf => hf.elim)) ?_
      rintro r s₁ ⟨hst, ⟨rfl, -, -⟩ | ⟨k, e, d', rfl, hone⟩⟩
      · rw [if_pos rfl]
        exact ⟨Or.inl rfl, .idle, hst⟩
      · have h₁ := hst.inv h
        have hne : ((e.stat : ℤ)) ≠ -1 := by omega
        rw [if_neg hne]
        have hroom : s₁.q.cidcount + 1 < s₁.q.size := by
          rw [hone.cidcount, (hone.reaps 0).size]
          omega
        have hd₁ : d ∈ s₁.q.usedDescs := by rw [(hone.reaps 0).used]; exact hd
        refine wp_mono (claimCid_spec (E := E) (G := G) h₁ hd₁ hroom) ?_ ?_
        · rintro cid s₂ ⟨hstep, hr⟩
          rw [hforced]
          exact ⟨hst.tail hstep, hone.reaps.trans hr⟩
        · rintro e s₂ ⟨rfl, hbig, rfl⟩
          rw [(hone.reaps 0).size] at hbig
          exact ⟨Or.inr (Or.inr ⟨rfl, Or.inl hbig⟩), .idle, hst⟩
  · next hfull =>
      have hroom : s.q.cidcount + 1 < s.q.size := by omega
      have hforced : s.q.forced 1 = 0 := by unfold Queue.forced; omega
      refine wp_mono (claimCid_spec (E := E) (G := G) h hd hroom) ?_ ?_
      · rintro cid s₂ ⟨hstep, hr⟩
        rw [hforced]
        exact ⟨(Steps.refl _).tail hstep, hr⟩
      · rintro e s₂ ⟨rfl, hbig, rfl⟩
        exact ⟨Or.inr (Or.inr ⟨rfl, Or.inl hbig⟩), .idle, Steps.refl _⟩

/-- A buffer resolves to a DMA address, or it lies outside the region and the process stops. -/
theorem unvmeMapDma_cases (E : Env) (buf bufsz : ℕ) :
    unvmeMapDma E buf bufsz = .error .nonIoRegion ∨
      ∃ addr, unvmeMapDma E buf bufsz = .ok addr ∧ addr ≠ 2 ^ 64 - 1 := by
  unfold unvmeMapDma auroraResolveAddr
  split
  · exact Or.inl rfl
  · refine Or.inr ⟨_, rfl, ?_⟩
    have := E.inSpace
    omega

theorem unvmeMapPrps_spec {d cid : ℕ} (buf bufsz : ℕ) {s : Sys} (hG : G.map s.q d buf bufsz) :
    wp (unvmeMapPrps E cid buf bufsz) s
      (fun r s' => ∃ addr, unvmeMapDma E buf bufsz = .ok addr ∧
        r = some ((composePrps E.ns s.q.prplist cid addr bufsz).1,
          (composePrps E.ns s.q.prplist cid addr bufsz).2.1) ∧
        Steps E G (s, .claimed d cid) (s', .mapped d cid buf bufsz addr) ∧ s.Reaps s' 0 ∧
        s'.q = s.q)
      (fun e s' => e = .nonIoRegion ∧ unvmeMapDma E buf bufsz = .error .nonIoRegion ∧ s' = s) := by
  unfold unvmeMapPrps unvmeMapPrpsBy
  rcases unvmeMapDma_cases E buf bufsz with ha | ⟨addr, ha, hne⟩
  · rw [ha]
    exact ⟨rfl, rfl, rfl⟩
  · rw [ha]
    simp only [if_neg hne]
    refine wp_bind_of (interfere_spec (G := G) (.claimed d cid) s) ?_
    rintro - s₁ ⟨hst, hl, hq⟩
    simp only [wp_bind, wp_get, wp_set, wp_pure]
    exact ⟨addr, rfl, by rw [hq], hst.tail (Step.map s₁ d cid buf bufsz addr ha (by rw [hq]; exact hG)),
      (Sys.Reaps.later hl hq).trans (Sys.Reaps.storePrps s₁ _), hq⟩

/-- The command in hand is submitted. -/
theorem nvmeCmd_spec {d buf bufsz : ℕ} (cid addr : ℕ) {e : SqEntry} {s : Sys} (hc : e.cid = cid)
    (h1 : e.prp1 = (composePrps E.ns s.q.prplist cid addr bufsz).1)
    (h2 : e.prp2 = (composePrps E.ns s.q.prplist cid addr bufsz).2.1)
    (hG : G.fill s.q d e buf bufsz) {X : Stop → Sys → Prop} :
    wp (nvmeCmd E e d buf bufsz) s
      (fun r s' => r = 0 ∧ Steps E G (s, .mapped d cid buf bufsz addr) (s', .idle) ∧
        ∃ others, Sys.Works d s s' [⟨e, d, buf, bufsz, others⟩] 0) X := by
  unfold nvmeCmd nvmeSubmitCmd
  refine wp_bind_of (interfere_spec (G := G) (.mapped d cid buf bufsz addr) s) ?_
  rintro - s₁ ⟨hst₁, hl₁, hq₁⟩
  rw [wp_bind, wp_modify]
  have hfill := hst₁.tail (Step.fill s₁ d cid buf bufsz addr e hc (by rw [hq₁]; exact h1)
    (by rw [hq₁]; exact h2) (by rw [hq₁]; exact hG))
  refine wp_bind_of (interfere_spec (G := G) (.filled d cid buf bufsz addr e) _) ?_
  rintro - s₂ ⟨hst₂, hl₂, hq₂⟩
  rw [wp_bind, wp_modify, wp_pure]
  have hr := ((Sys.Reaps.later hl₁ hq₁).trans (Sys.Reaps.fill s₁ e)).trans
    (Sys.Reaps.later hl₂ hq₂)
  exact ⟨rfl, (hfill.trans hst₂).tail (Step.submit s₂ d cid buf bufsz addr e),
    s₂.dev.hist.inFlight, (hr d).trans (Sys.Works.submit s₂ d _)⟩

/-! ## Polling -/

/-- A poll of `d` has reaped `n` completions, each while a command of `d` was pending, and all but
    the last had status 0. -/
structure Sys.Polls (d : ℕ) (s s' : Sys) (n : ℕ) : Prop where
  reaps : s.Reaps s' n
  waiting : ∀ i < n, s'.dev.hist.WaitingAt (s.q.desc d).cmds (s.dev.hist.reaped + i)
  clean : ∀ i k e, i + 1 < n →
    s'.dev.hist.posts[s.dev.hist.reaped + i]? = some (k, e) → e.stat = 0

/-- The value `r` of a poll that has reaped `n` completions. -/
inductive Sys.PollResult (d : ℕ) (s s' : Sys) (n : ℕ) : ℤ → Prop
  | done (hclean : ∀ i k e, i < n →
        s'.dev.hist.posts[s.dev.hist.reaped + i]? = some (k, e) → e.stat = 0)
      (h0 : (s'.q.desc d).cidcount = 0) : PollResult d s s' n 0
  | error (m k : ℕ) (e : CqEntry) (hn : n = m + 1)
      (hp : s'.dev.hist.posts[s.dev.hist.reaped + m]? = some (k, e)) (he : e.stat ≠ 0) :
      PollResult d s s' n (e.stat : ℤ)
  | timeout (hclean : ∀ i k e, i < n →
        s'.dev.hist.posts[s.dev.hist.reaped + i]? = some (k, e) → e.stat = 0)
      (h0 : (s'.q.desc d).cidcount ≠ 0) : PollResult d s s' n (-1)

/-- A descriptor with pending ids has a command that is not reaped. -/
theorem Sys.Inv.unreaped {s : Sys} (h : s.Inv .idle) {d : ℕ} (hd : d ∈ s.q.usedDescs)
    (h0 : (s.q.desc d).cidcount ≠ 0) :
    ∃ k ∈ (s.q.desc d).cmds, k ∉ s.dev.hist.reapedSeqs := by
  have hne : s.q.pending d ≠ ∅ := fun he => h0 ((h.acc.wf.toMasks.pending_eq_empty_iff hd).2 he)
  obtain ⟨c, hc⟩ := Finset.nonempty_iff_ne_empty.2 hne
  rcases (h.acc.bits d hd c).1 hc with ⟨k, hk, hp⟩ | hh
  · exact ⟨k, hk, hp.2⟩
  · exact absurd hh (by simp [Pc.hand])

/-- A descriptor without pending ids has all its commands reaped. -/
theorem Sys.Inv.all_reaped {s : Sys} (h : s.Inv .idle) {d : ℕ} (hd : d ∈ s.q.usedDescs)
    (h0 : (s.q.desc d).cidcount = 0) : ∀ k ∈ (s.q.desc d).cmds, k ∈ s.dev.hist.reapedSeqs := by
  intro k hk
  by_contra hn
  obtain ⟨sub, hs, -⟩ := h.acc.cmds d hd k hk
  have hc := (h.acc.bits d hd sub.entry.cid).2 (Or.inl ⟨k, hk, ⟨sub, hs, rfl⟩, hn⟩)
  rw [(h.acc.wf.toMasks.pending_eq_empty_iff hd).1 h0] at hc
  exact Finset.notMem_empty _ hc

/-- A poll goes on after a completion with status 0. -/
theorem Sys.Polls.cons {d : ℕ} {s s₁ s' : Sys} {k : ℕ} {e : CqEntry} {d' n : ℕ}
    (h : s.Inv .idle) (hwait : ∃ k ∈ (s.q.desc d).cmds, k ∉ s.dev.hist.reapedSeqs)
    (hone : s.ReapsOne s₁ k e d') (he : n ≠ 0 → e.stat = 0) (hrest : Sys.Polls d s₁ s' n) :
    Sys.Polls d s s' (n + 1) := by
  have hpre := (hrest.reaps d).posts
  have hR : s₁.dev.hist.reaped = s.dev.hist.reaped + 1 := (hone.reaps d).reaped
  refine ⟨?_, ?_, ?_⟩
  · rw [Nat.add_comm]; exact hone.reaps.trans hrest.reaps
  · intro i hi
    cases i with
    | zero =>
        obtain ⟨k', hk', hn'⟩ := hwait
        obtain ⟨more, hmore⟩ := (hone.reaps d).posts.trans hpre
        refine ⟨k', hk', ?_⟩
        rw [Nat.add_zero, ← hmore, List.take_append_of_le_length h.dev.reaped_le_posted]
        exact hn'
    | succ i =>
        obtain ⟨k', hk', hn'⟩ := hrest.waiting i (by omega)
        rw [(hone.reaps d).own, List.length_nil, List.range'_zero, List.append_nil] at hk'
        refine ⟨k', hk', ?_⟩
        rwa [hR, Nat.add_assoc, Nat.add_comm 1 i] at hn'
  · intro i k' e' hi hp
    cases i with
    | zero =>
        obtain ⟨more, hmore⟩ := hpre
        rw [Nat.add_zero, ← hmore,
          List.getElem?_append_left (List.getElem?_eq_some_iff.1 hone.post).1, hone.post] at hp
        cases hp
        exact he (by omega)
    | succ i =>
        refine hrest.clean i k' e' (by omega) ?_
        rwa [hR, Nat.add_assoc, Nat.add_comm 1 i]

theorem Sys.PollResult.cons {d : ℕ} {s s₁ s' : Sys} {k : ℕ} {e : CqEntry} {d' n : ℕ} {r : ℤ}
    (hone : s.ReapsOne s₁ k e d') (he : e.stat = 0) (hpre : s₁.dev.hist.posts <+: s'.dev.hist.posts)
    (h : Sys.PollResult d s₁ s' n r) : Sys.PollResult d s s' (n + 1) r := by
  have hR : s₁.dev.hist.reaped = s.dev.hist.reaped + 1 := (hone.reaps d).reaped
  have hclean : (∀ i k e, i < n →
      s'.dev.hist.posts[s₁.dev.hist.reaped + i]? = some (k, e) → e.stat = 0) →
      ∀ i k e, i < n + 1 → s'.dev.hist.posts[s.dev.hist.reaped + i]? = some (k, e) → e.stat = 0 := by
    intro hc i k' e' hi hp
    cases i with
    | zero =>
        obtain ⟨more, hmore⟩ := hpre
        rw [Nat.add_zero, ← hmore,
          List.getElem?_append_left (List.getElem?_eq_some_iff.1 hone.post).1, hone.post] at hp
        cases hp
        exact he
    | succ i =>
        refine hc i k' e' (by omega) ?_
        rwa [hR, Nat.add_assoc, Nat.add_comm 1 i]
  cases h with
  | done hc h0 => exact .done (hclean hc) h0
  | timeout hc h0 => exact .timeout (hclean hc) h0
  | error m k' e' hn hp he' =>
      refine .error (m + 1) k' e' (by rw [hn]) ?_ he'
      rwa [hR, Nat.add_assoc, Nat.add_comm 1 m] at hp

theorem Sys.Polls.nil (d : ℕ) {s s' : Sys} (h : s.Reaps s' 0) : Sys.Polls d s s' 0 :=
  ⟨h, fun i hi => absurd hi (Nat.not_lt_zero i), fun _ _ _ hi => absurd hi (Nat.not_lt_zero _)⟩

theorem pollLoop_spec {d : ℕ} (timeout : ℤ) (fuel : ℕ) (cs : Option ℕ) {s : Sys} (h : s.Inv .idle)
    (hd : d ∈ s.q.usedDescs) (hfuel : s.q.cidcount < fuel) :
    wp (pollLoop E d timeout fuel cs) s
      (fun r s' => Steps E G (s, .idle) (s', .idle) ∧
        ∃ n, Sys.Polls d s s' n ∧ Sys.PollResult d s s' n r.1)
      (fun _ _ => False) := by
  induction fuel generalizing s cs with
  | zero =>
      have := h.acc.wf.cidcount
      omega
  | succ fuel ih =>
      rw [pollLoop, wp_bind, wp_get, wp_ite]
      split
      · next h0 =>
          exact ⟨Steps.refl _, 0, Sys.Polls.nil d (Sys.Reaps.refl s),
            .done (fun i _ _ hi => absurd hi (Nat.not_lt_zero i)) h0⟩
      · next h0 =>
          refine wp_bind_of (unvmeCheckCompletion_spec (G := G) timeout h) ?_
          rintro r s₁ ⟨hst, ⟨rfl, hr, hq⟩ | ⟨k, e, d', rfl, hone⟩⟩
          · simp only [wp_ite]
            rw [if_pos (by decide)]
            refine ⟨hst, 0, Sys.Polls.nil d hr,
              .timeout (fun i _ _ hi => absurd hi (Nat.not_lt_zero i)) ?_⟩
            rw [hq]; exact h0
          · have hwait := h.unreaped hd h0
            have hposts : s₁.dev.hist.posts[s.dev.hist.reaped + 0]? = some (k, e) := hone.post
            simp only [wp_ite]
            split
            · next hne =>
                have hst0 : e.stat ≠ 0 := by
                  intro he
                  exact hne (by rw [he]; rfl)
                exact ⟨hst, 1, Sys.Polls.cons h hwait hone (fun hn => absurd rfl hn)
                  (Sys.Polls.nil d (Sys.Reaps.refl s₁)), .error 0 k e rfl hposts hst0⟩
            · next hne =>
                have hst0 : e.stat = 0 := by
                  have := not_not.1 hne
                  exact_mod_cast this
                have h₁ := hst.inv h
                have hd₁ : d ∈ s₁.q.usedDescs := by rw [(hone.reaps d).used]; exact hd
                refine wp_mono (ih _ h₁ hd₁ (by rw [hone.cidcount]; omega)) ?_ (fun _ _ hf => hf)
                rintro r s₂ ⟨hst₂, n, hpolls, hres⟩
                exact ⟨hst.trans hst₂, n + 1, Sys.Polls.cons h hwait hone (fun _ => hst0) hpolls,
                  hres.cons hone hst0 (hpolls.reaps d).posts⟩

/-- Every reaped completion lowers the queue's count, so the fuel of the loop is never used up. -/
theorem Queue.Wf.cidcount_lt_pollFuel {q : Queue} {used free : List ℕ} (h : q.Wf used free) {d : ℕ}
    (hd : d ∈ used) : q.cidcount < q.pollFuel := by
  have h1 := h.bound
  have h2 := h.words
  have hn : 1 ≤ q.nalloc := by
    have := h.toLists.used_lt hd
    omega
  have h3 : 64 * (q.masksize >>> 3) ≤ 8 * q.masksize := by
    rw [Nat.shiftRight_eq_div_pow]
    omega
  have h4 : 8 * q.masksize ≤ 8 * q.masksize * q.nalloc := Nat.le_mul_of_pos_right _ hn
  show q.cidcount < ((8 * q.masksize * q.nalloc + 1 : ℕ) : ℤ)
  omega

/-- **`unvme_do_poll` of a descriptor in use.** -/
theorem unvmeDoPoll_spec {d : ℕ} (timeout : ℤ) {s : Sys} (h : s.Inv .idle)
    (hd : d ∈ s.q.usedDescs) :
    wp (unvmeDoPoll E d timeout) s
      (fun r s' => Steps E G (s, .idle) (s', .idle) ∧
        ∃ n s₁, Steps E G (s, .idle) (s₁, .idle) ∧ Sys.Polls d s s₁ n ∧
          Sys.PollResult d s s₁ n r.1 ∧
          s' = if (s₁.q.desc d).cidcount = 0 then { s₁ with q := unvmeDescPut s₁.q d } else s₁)
      (fun _ _ => False) := by
  unfold unvmeDoPoll
  rw [wp_bind, wp_get, wp_ite, if_neg (not_not.2 (h.acc.sentinel d hd))]
  refine wp_bind_of (pollLoop_spec (G := G) timeout _ none h hd
    (h.acc.wf.cidcount_lt_pollFuel hd)) ?_
  rintro r s₁ ⟨hst, n, hpolls, hres⟩
  rw [wp_bind, wp_get, wp_ite]
  split
  · next h0 =>
      rw [wp_bind, wp_set, wp_pure]
      have hd₁ : d ∈ s₁.q.usedDescs := by rw [(hpolls.reaps d).used]; exact hd
      exact ⟨hst.tail (Step.put s₁ d hd₁ h0), n, s₁, hst, hpolls, hres, by rw [if_pos h0]⟩
  · next h0 => exact ⟨hst, n, s₁, hst, hpolls, hres, by rw [if_neg h0]⟩

/-! ## Requests -/

/-- A chunk of a request: buffer, first block, number of blocks. -/
structure Chunk where
  buf : ℕ
  slba : ℕ
  nlb : ℕ
  deriving DecidableEq, Repr

/-- The chunks of a request, in the order the loop of `unvme_do_rw` submits them. -/
def chunks (E : Env) : ℕ → ℕ → ℕ → ℕ → List Chunk
  | _, _, _, 0 => []
  | 0, _, _, _ + 1 => []
  | fuel + 1, buf, slba, rest + 1 =>
      let n := if rest + 1 < E.ns.maxbpio then rest + 1 else E.ns.maxbpio
      ⟨buf, slba, n⟩ ::
        chunks E fuel (buf + n <<< E.ns.blockshift) ((slba + n) % 2 ^ 64) (rest + 1 - n)

/-- The entry submitted for a chunk with command id `cid`. -/
def Chunk.entry (E : Env) (prplist : Dma) (opc cid addr : ℕ) (c : Chunk) : SqEntry :=
  rwEntry opc cid E.ns.id c.slba c.nlb (composePrps E.ns prplist cid addr (E.ns.bufsz c.nlb)).1
    (composePrps E.ns prplist cid addr (E.ns.bufsz c.nlb)).2.1

theorem Chunk.entry_cid (E : Env) (prplist : Dma) (opc cid addr : ℕ) (c : Chunk) :
    (c.entry E prplist opc cid addr).cid = cid := by
  unfold Chunk.entry
  rw [rwEntry_cid]

theorem Chunk.entry_prp1 (E : Env) (prplist : Dma) (opc cid addr : ℕ) (c : Chunk) :
    (c.entry E prplist opc cid addr).prp1
      = (composePrps E.ns prplist cid addr (E.ns.bufsz c.nlb)).1 := by
  unfold Chunk.entry
  rw [rwEntry_prp1]

theorem Chunk.entry_prp2 (E : Env) (prplist : Dma) (opc cid addr : ℕ) (c : Chunk) :
    (c.entry E prplist opc cid addr).prp2
      = (composePrps E.ns prplist cid addr (E.ns.bufsz c.nlb)).2.1 := by
  unfold Chunk.entry
  rw [rwEntry_prp2]

/-- `sub` is the submission of chunk `c` for descriptor `d`. -/
structure Chunk.IsSub (E : Env) (prplist : Dma) (d opc : ℕ) (c : Chunk) (sub : Sub) : Prop where
  desc : sub.desc = d
  buf : sub.buf = c.buf
  bufsz : sub.bufsz = E.ns.bufsz c.nlb
  entry : ∃ addr, unvmeMapDma E c.buf (E.ns.bufsz c.nlb) = .ok addr ∧
    sub.entry = c.entry E prplist opc sub.entry.cid addr

/-- The run allows the buffer and the entry of a chunk of descriptor `d`, whose request fields are
    those of `x`. -/
structure Chunk.Allowed (E : Env) (G : Guards) (x : Desc) (prplist : Dma) (d : ℕ) (c : Chunk) :
    Prop where
  map : ∀ q : Queue, Desc.SameRequest x (q.desc d) → G.map q d c.buf (E.ns.bufsz c.nlb)
  fill : ∀ (q : Queue) cid addr, Desc.SameRequest x (q.desc d) →
    unvmeMapDma E c.buf (E.ns.bufsz c.nlb) = .ok addr →
    G.fill q d (c.entry E prplist x.opc cid addr) c.buf (E.ns.bufsz c.nlb)

theorem unvmeSubmitIo_spec {d : ℕ} {c : Chunk} {s : Sys} (h : s.Inv .idle)
    (hd : d ∈ s.q.usedDescs) (hc : c.Allowed E G (s.q.desc d) s.q.prplist d) :
    wp (unvmeSubmitIo E d c.buf c.slba c.nlb) s
      (fun r s' => 0 ≤ r ∧ Steps E G (s, .idle) (s', .idle) ∧
        ∃ sub, Sys.Works d s s' [sub] (s.q.forced 1) ∧ c.IsSub E s.q.prplist d (s.q.desc d).opc sub)
      (fun e s' => e.Expected E s.q.size ∧ ∃ pc, Steps E G (s, .idle) (s', pc)) := by
  unfold unvmeSubmitIo unvmeSubmitIoBy
  refine wp_bind_of (unvmeGetCid_spec (G := G) h hd) ?_
  rintro cid s₁ ⟨hst₁, hr₁⟩
  refine wp_bind_of (wp_mono (unvmeMapPrps_spec (G := G) (d := d) c.buf _
    (hc.map s₁.q ((hr₁ d).desc d))) (fun _ _ hq => hq) ?_) ?_
  · rintro e s₂ ⟨rfl, -, rfl⟩
    exact ⟨Or.inr (Or.inl rfl), _, hst₁⟩
  rintro r s₂ ⟨addr, ha, rfl, hst₂, hr₂, hq₂⟩
  rw [wp_bind, wp_get]
  have hprp : s₂.q.prplist = s.q.prplist := by rw [hq₂, (hr₁ d).prplist]
  have hprp₁ : s₁.q.prplist = s.q.prplist := (hr₁ d).prplist
  have hreq : Desc.SameRequest (s.q.desc d) (s₂.q.desc d) := ((hr₁ d).desc d).trans ((hr₂ d).desc d)
  rw [hprp₁, hreq.opc, nvmeCmdRw, ← Chunk.entry]
  refine wp_bind_of (nvmeCmd_spec (G := G) cid addr ?_ ?_ ?_ ?_) ?_
  · exact c.entry_cid E _ _ _ _
  · rw [hprp]; exact c.entry_prp1 E _ _ _ _
  · rw [hprp]; exact c.entry_prp2 E _ _ _ _
  · exact hc.fill s₂.q cid addr hreq ha
  · rintro r s₃ ⟨rfl, hst₃, others, hw⟩
    rw [if_neg (by decide), wp_pure]
    refine ⟨Int.natCast_nonneg _, (hst₁.trans hst₂).trans hst₃, _,
      ((hr₁ d).trans (hr₂ d)).trans hw, rfl, rfl, rfl, addr, ha, ?_⟩
    rw [c.entry_cid]

theorem Chunk.Allowed.later {x y : Desc} {prplist : Dma} {d : ℕ} {c : Chunk}
    (h : c.Allowed E G x prplist d) (hxy : Desc.SameRequest x y) : c.Allowed E G y prplist d := by
  constructor
  · exact fun q hq => h.map q (hxy.trans hq)
  · intro q cid addr hq ha
    rw [hxy.opc]
    exact h.fill q cid addr (hxy.trans hq) ha

/-- Between operations the queue's count is the number of commands in flight. -/
theorem Sys.Inv.cidcount_eq {s : Sys} (h : s.Inv .idle) :
    (s.dev.hist.subs.length : ℤ) = s.dev.hist.reaped + s.q.cidcount := by
  simpa [Pc.hand] using h.acc.count

/-- The completions to wait for, one command after the other or all at once. -/
theorem Sys.Works.forced_succ {d : ℕ} {s s' : Sys} {sub : Sub} (h : s.Inv .idle)
    (h' : s'.Inv .idle) (hw : Sys.Works d s s' [sub] (s.q.forced 1)) (n : ℕ) :
    s.q.forced 1 + s'.q.forced n = s.q.forced (n + 1) := by
  have hcount := h.cidcount_eq
  have hcount' := h'.cidcount_eq
  have hbound := h.acc.wf.bound
  have hnonneg := h.acc.wf.cidcount
  rw [hw.subs, hw.reaped, List.length_append, List.length_singleton] at hcount'
  have hsize := hw.size
  unfold Queue.forced at hcount' ⊢
  rw [hsize]
  push_cast at hcount' ⊢
  omega

/-- **The chunk loop submits one command per chunk, in order.** -/
theorem rwLoop_spec {d : ℕ} (fuel buf slba nlb : ℕ) {s : Sys} (h : s.Inv .idle)
    (hd : d ∈ s.q.usedDescs) (hfuel : nlb ≤ fuel ∨ E.ns.maxbpio = 0)
    (hc : ∀ c ∈ chunks E fuel buf slba nlb, c.Allowed E G (s.q.desc d) s.q.prplist d) :
    wp (rwLoop E d fuel buf slba nlb) s
      (fun _ s' => Steps E G (s, .idle) (s', .idle) ∧
        ∃ new, Sys.Works d s s' new (s.q.forced new.length) ∧
          List.Forall₂ (Chunk.IsSub E s.q.prplist d (s.q.desc d).opc)
            (chunks E fuel buf slba nlb) new)
      (fun e s' => e.Expected E s.q.size ∧ ∃ pc, Steps E G (s, .idle) (s', pc)) := by
  have hnone : s.q.forced ([] : List Sub).length = 0 := by
    have := h.acc.wf.bound
    simp only [Queue.forced, List.length_nil]
    omega
  induction fuel generalizing buf slba nlb s with
  | zero =>
      cases nlb with
      | zero =>
          rw [rwLoop, rwLoopBy]
          exact ⟨Steps.refl _, [], hnone ▸ Sys.Reaps.refl s d, by rw [chunks]; exact .nil⟩
      | succ nlb =>
          rw [rwLoop, rwLoopBy]
          exact ⟨Or.inr (Or.inr ⟨rfl, Or.inr (by omega)⟩), .idle, Steps.refl _⟩
  | succ fuel ih =>
      cases nlb with
      | zero =>
          rw [rwLoop, rwLoopBy]
          exact ⟨Steps.refl _, [], hnone ▸ Sys.Reaps.refl s d, by rw [chunks]; exact .nil⟩
      | succ rest =>
          rw [rwLoop, rwLoopBy]
          rw [chunks] at hc ⊢
          generalize hn : (if rest + 1 < E.ns.maxbpio then rest + 1 else E.ns.maxbpio) = n at hc ⊢
          -- a chunk of at least one block shortens the request
          have hfuel' : rest + 1 - n ≤ fuel ∨ E.ns.maxbpio = 0 := by split at hn <;> omega
          have hfirst := hc ⟨buf, slba, n⟩ (List.mem_cons_self ..)
          refine wp_bind_of (unvmeSubmitIo_spec (c := ⟨buf, slba, n⟩) h hd hfirst) ?_
          rintro r s₁ ⟨hr, hst, sub, hw, hsub⟩
          rw [wp_ite, if_neg (by omega)]
          have h₁ := hst.inv h
          have hd₁ : d ∈ s₁.q.usedDescs := by rw [hw.used]; exact hd
          have hcount := Sys.Works.forced_succ h h₁ hw
          refine wp_mono (ih _ _ _ h₁ hd₁ hfuel' ?_ ?_) ?_ ?_
          · intro c hcm
            rw [hw.prplist]
            exact (hc c (List.mem_cons_of_mem _ hcm)).later (hw.desc d)
          · have := h₁.acc.wf.bound
            simp only [Queue.forced, List.length_nil]
            omega
          · rintro - s₂ ⟨hst₂, new, hw₂, hall⟩
            rw [hw.prplist, (hw.desc d).opc] at hall
            exact ⟨hst.trans hst₂, sub :: new, hcount new.length ▸ hw.trans hw₂, .cons hsub hall⟩
          · rintro e s₂ ⟨he, pc, hst₂⟩
            rw [hw.size] at he
            exact ⟨he, pc, hst.trans hst₂⟩

/-- Descriptor `d` is taken into use; the device is not touched. -/
structure Sys.Takes (d : ℕ) (s s' : Sys) : Prop where
  get : d = (unvmeDescGet s.q).1
  dev : s'.dev = s.dev
  fresh : d ∉ s.q.usedDescs
  used : s'.q.usedDescs = s.q.usedDescs ++ [d]
  size : s'.q.size = s.q.size
  prplist : s'.q.prplist = s.q.prplist
  cidcount : s'.q.cidcount = s.q.cidcount
  desc : ∀ x, x ≠ d → s'.q.desc x = s.q.desc x
  cmds : (s'.q.desc d).cmds = []
  error : (s'.q.desc d).error = 0

theorem Sys.Takes.ids {d : ℕ} {s s' : Sys} (h : Sys.Takes d s s') : s'.q.ids = s.q.ids := by
  unfold Queue.ids
  rw [h.size]

theorem Sys.Takes.forced {d : ℕ} {s s' : Sys} (h : Sys.Takes d s s') (n : ℕ) :
    s'.q.forced n = s.q.forced n := by
  unfold Queue.forced
  rw [h.cidcount, h.size]

/-- Taking a descriptor and setting its request fields. -/
theorem Sys.Inv.takes {s : Sys} (h : s.Inv .idle) :
    ∃ d q', unvmeDescGet s.q = (d, q') ∧ ∀ f : Desc → Desc, (∀ x, Desc.SameIds x (f x)) →
      (f (q'.desc d)).sentinel = some d → G.take s.q d (f (q'.desc d)) →
      ∃ s', s' = { s with q := q'.setDesc d f } ∧ Step E G (s, .idle) (s', .idle) ∧
        Sys.Takes d s s' ∧ s'.q.desc d = f (q'.desc d) := by
  obtain ⟨d, q', hget, hd, hused, hsame, hprp, hother, hcmds, herr, -⟩ := h.acc.descGet
  refine ⟨d, q', hget, fun f hf hs hG => ⟨_, rfl, Step.take s d q' f hget hf hs hG,
    ⟨by rw [hget], rfl, hd, hused, hsame.size, hprp, hsame.cidcount, ?_, ?_, ?_⟩,
    Queue.setDesc_self q' d f⟩⟩
  · intro x hx
    show (q'.setDesc d f).desc x = _
    rw [Queue.setDesc_of_ne hx, hother x hx]
  · show ((q'.setDesc d f).desc d).cmds = _
    rw [Queue.setDesc_self, (hf _).cmds, hcmds]
  · show ((q'.setDesc d f).desc d).error = _
    rw [Queue.setDesc_self, (hf _).error, herr]

/-- The request fields of a read or write. -/
structure Desc.IsRw (opc buf slba nlb : ℕ) (x : Desc) : Prop where
  opc : x.opc = opc
  buf : x.buf = buf
  slba : x.slba = slba
  nlb : x.nlb = nlb

/-- **`unvme_do_rw`.** -/
theorem unvmeDoRw_spec {qid : ℤ} {opc buf slba nlb : ℕ} {s : Sys} (h : s.Inv .idle)
    (htake : ∀ d x, Desc.IsRw opc buf slba nlb x → G.take s.q d x)
    (hc : ∀ d x, Desc.IsRw opc buf slba nlb x →
      ∀ c ∈ chunks E nlb buf slba nlb, c.Allowed E G x s.q.prplist d) :
    wp (unvmeDoRw E qid opc buf slba nlb) s
      (fun d s' => Steps E G (s, .idle) (s', .idle) ∧
        ∃ s₁ new, Steps E G (s, .idle) (s₁, .idle) ∧ Sys.Takes d s s₁ ∧
          Desc.IsRw opc buf slba nlb (s₁.q.desc d) ∧
          Sys.Works d s₁ s' new (s.q.forced new.length) ∧
          List.Forall₂ (Chunk.IsSub E s.q.prplist d opc) (chunks E nlb buf slba nlb) new)
      (fun e s' => e.Expected E s.q.size ∧ ∃ pc, Steps E G (s, .idle) (s', pc)) := by
  unfold unvmeDoRw unvmeDoRwBy
  obtain ⟨d, q', hget, htakes⟩ := h.takes (E := E) (G := G)
  obtain ⟨s₁, hs₁, hstep, ht, hdesc⟩ := htakes (fun x =>
      { x with opc := opc, buf := buf, qid := qid, slba := slba, nlb := nlb, sentinel := some d })
    (fun x => ⟨rfl, rfl, rfl, rfl⟩) rfl (htake d _ ⟨rfl, rfl, rfl, rfl⟩)
  have hrw : Desc.IsRw opc buf slba nlb (s₁.q.desc d) := by
    rw [hdesc]; exact ⟨rfl, rfl, rfl, rfl⟩
  rw [wp_bind, wp_get]
  simp only [hget, wp_bind, wp_set]
  rw [← hs₁]
  have hst := (Steps.refl (E := E) (G := G) (s, .idle)).tail hstep
  have hd : d ∈ s₁.q.usedDescs := by rw [ht.used]; simp
  refine wp_mono (rwLoop_spec (G := G) nlb buf slba nlb (hst.inv h) hd (Or.inl le_rfl) ?_) ?_ ?_
  · intro c hcm
    rw [ht.prplist]
    exact hc d _ hrw c hcm
  · rintro - s₂ ⟨hst₂, new, hw, hall⟩
    rw [ht.prplist, hrw.opc] at hall
    rw [ht.forced] at hw
    exact ⟨hst.trans hst₂, s₁, new, hst, ht, hrw, hw, hall⟩
  · rintro e s₂ ⟨he, pc, hst₂⟩
    rw [ht.size] at he
    exact ⟨he, pc, hst.trans hst₂⟩

/-- **`unvme_do_cmd`.** -/
theorem unvmeDoCmd_spec {qid : ℤ} {opc nsid buf bufsz : ℕ} {cdw10_15 : Option (Vector ℕ 6)} {s : Sys}
    (h : s.Inv .idle) (htake : ∀ d x, G.take s.q d x) (hmap : ∀ q d, G.map q d buf bufsz)
    (hfill : ∀ q d cid prp1 prp2, G.fill q d (vsEntry opc cid nsid prp1 prp2 cdw10_15) buf bufsz) :
    wp (unvmeDoCmd E qid opc nsid buf bufsz cdw10_15) s
      (fun r s' => Steps E G (s, .idle) (s', .idle) ∧
        ∃ d s₁ sub, r = some d ∧ Steps E G (s, .idle) (s₁, .idle) ∧ Sys.Takes d s s₁ ∧
          Sys.Works d s₁ s' [sub] (s.q.forced 1) ∧ sub.buf = buf ∧ sub.bufsz = bufsz)
      (fun e s' => e.Expected E s.q.size ∧ ∃ pc, Steps E G (s, .idle) (s', pc)) := by
  unfold unvmeDoCmd unvmeDoCmdBy
  obtain ⟨d, q', hget, htakes⟩ := h.takes (E := E) (G := G)
  obtain ⟨s₁, hs₁, hstep, ht, -⟩ := htakes (fun x =>
      { x with opc := opc, buf := buf, qid := qid, sentinel := some d })
    (fun x => ⟨rfl, rfl, rfl, rfl⟩) rfl (htake d _)
  rw [wp_bind, wp_get]
  simp only [hget, wp_bind, wp_set]
  rw [← hs₁]
  have hst := (Steps.refl (E := E) (G := G) (s, .idle)).tail hstep
  have hd : d ∈ s₁.q.usedDescs := by rw [ht.used]; simp
  refine wp_mono (unvmeGetCid_spec (G := G) (hst.inv h) hd) ?_ ?_
  · rintro cid s₂ ⟨hst₂, hr₂⟩
    rw [ht.forced] at hr₂
    have hst₁₂ := hst.trans hst₂
    refine wp_mono (unvmeMapPrps_spec (G := G) (d := d) buf bufsz (hmap _ _)) ?_ ?_
    · rintro r s₃ ⟨addr, ha, rfl, hst₃, hr₃, hq₃⟩
      rw [wp_bind, nvmeCmdVs]
      refine wp_mono (nvmeCmd_spec (G := G) cid addr (X := fun _ _ => False)
        ?_ ?_ ?_ (hfill _ _ _ _ _)) ?_ (fun _ _ hf => hf.elim)
      · rw [vsEntry_cid]
      · rw [vsEntry_prp1, hq₃]
      · rw [vsEntry_prp2, hq₃]
      · rintro r s₄ ⟨rfl, hst₄, others, hw⟩
        rw [if_neg (by decide), wp_pure]
        exact ⟨(hst₁₂.trans hst₃).trans hst₄, d, s₁, _, rfl, hst, ht,
          ((hr₂ d).trans (hr₃ d)).trans hw, rfl, rfl⟩
    · rintro e s₃ ⟨rfl, -, rfl⟩
      exact ⟨Or.inr (Or.inl rfl), _, hst₁₂⟩
  · rintro e s₂ ⟨he, pc, hst₂⟩
    rw [ht.size] at he
    exact ⟨he, pc, hst.trans hst₂⟩

end Unvme.Core
