import Unvme.Core.QueueSafety

set_option autoImplicit false

/-! # Descriptor lists

The life of the descriptors of a queue, over an explicit heap: `unvme_desc_get` and `unvme_desc_put` in
any order keep two disjoint circular lists of all descriptors ever allocated (`desc_lists_wellformed`).
Nothing marks a released descriptor, so a second poll of it goes through: `released_poll_stops_iff`. -/

namespace Unvme.Core

open Unvme.Lib Unvme.Nvme

/-! ## Get and put -/

/-- An operation on the lists, or a change of the other fields of a descriptor in between. -/
inductive DescOp where
  | get
  | put (d : ℕ)
  | touch (d : ℕ) (x : Desc)

def DescOp.apply (q : Queue) : DescOp → Queue
  | .get => (unvmeDescGet q).2
  | .put d => unvmeDescPut q d
  | .touch d x => q.setDesc d (fun _ => x)

/-- Only descriptors in use are put back. -/
def DescOp.Legal (q : Queue) : DescOp → Prop
  | .put d => d ∈ q.usedDescs
  | _ => True

/-- The queues reached from `unvme_queue_init`. -/
inductive DescRun (qsize : ℕ) (prplist : Dma) : Queue → Prop
  | init : DescRun qsize prplist (Queue.setup qsize prplist)
  | step {q : Queue} (h : DescRun qsize prplist q) (op : DescOp) (hl : op.Legal q) :
      DescRun qsize prplist (op.apply q)

/-- The two lists of a queue. -/
structure Queue.TwoLists (q : Queue) : Prop where
  used : q.links.Circular q.desclist q.usedDescs
  free : q.links.Circular q.descfree q.freeDescs
  disjoint : ∀ d ∈ q.usedDescs, d ∉ q.freeDescs
  all : ∀ d, d < q.nalloc ↔ d ∈ q.usedDescs ∨ d ∈ q.freeDescs
  desccount : q.desccount = q.usedDescs.length
  descpend : q.usedDescs ≠ [] → ∃ p ∈ q.usedDescs, q.descpend = some p

section

variable {q q' : Queue} {used free : List ℕ}

/-- Every descriptor ever allocated is on one of the lists. -/
def Queue.Covers (q : Queue) (used free : List ℕ) : Prop := ∀ d < q.nalloc, d ∈ used ∨ d ∈ free

theorem Queue.Lists.twoLists (h : q.Lists used free) (hall : q.Covers used free) : q.TwoLists := by
  have hu := h.usedDescs_eq
  have hf := h.freeDescs_eq
  constructor
  · rw [hu]; exact h.usedRing.circular h.listHead
  · rw [hf]; exact h.freeRing.circular h.freeHead
  · rw [hu, hf]; exact h.disj
  · rw [hu, hf]; exact fun d => ⟨hall d, h.alloc d⟩
  · rw [hu]; exact h.count
  · rw [hu]; exact h.pend

theorem Queue.Covers.get {d : ℕ} (hall : q.Covers used free) (h : q.Lists used free)
    (hhead : free.head?.getD q.nalloc = d) (hn : q'.nalloc = max q.nalloc (d + 1)) :
    q'.Covers (used ++ [d]) free.tail := by
  intro x hx
  rw [hn] at hx
  rw [List.mem_append, List.mem_singleton]
  cases free with
  | nil =>
      rw [List.head?_nil, Option.getD_none] at hhead
      subst hhead
      rcases Nat.lt_succ_iff_lt_or_eq.1 (show x < q.nalloc + 1 by omega) with hx | hx
      · rcases hall x hx with hx | hx
        · exact Or.inl (Or.inl hx)
        · cases hx
      · exact Or.inl (Or.inr hx)
  | cons y ys =>
      rw [List.head?_cons, Option.getD_some] at hhead
      subst hhead
      by_cases hxy : x = y
      · exact Or.inl (Or.inr hxy)
      · have hy : y < q.nalloc := h.alloc y (by simp)
        rcases hall x (by omega) with hx | hx
        · exact Or.inl (Or.inl hx)
        · exact Or.inr (by simpa [hxy] using hx)

theorem Queue.Covers.put {d : ℕ} (hall : q.Covers used free) (hn : q'.nalloc = q.nalloc) :
    q'.Covers (used.erase d) (free ++ [d]) := by
  intro x hx
  rw [hn] at hx
  rw [List.mem_append, List.mem_singleton]
  by_cases hxd : x = d
  · exact Or.inr (Or.inr hxd)
  · rcases hall x hx with hx | hx
    · exact Or.inl ((List.mem_erase_of_ne hxd).2 hx)
    · exact Or.inr (Or.inl hx)

/-- Descriptors taken from an empty free list are allocated one after the other. -/
theorem Queue.Lists.get_iterate (h : q.Lists used []) (hall : q.Covers used []) (n : ℕ) :
    ∃ used', ((fun q => (unvmeDescGet q).2)^[n] q).Lists used' [] ∧
      ((fun q => (unvmeDescGet q).2)^[n] q).Covers used' [] := by
  induction n with
  | zero => exact ⟨used, h, hall⟩
  | succ n ih =>
      obtain ⟨us, hlists, hcov⟩ := ih
      obtain ⟨d, q', hget, hlists', -, hhead, hn, -⟩ := hlists.descGet
      rw [Function.iterate_succ_apply', hget]
      exact ⟨_, hlists', hcov.get hlists hhead hn⟩

/-- `unvme_queue_init` leaves all descriptors on the free list. -/
theorem Queue.setup_lists (qsize : ℕ) (prplist : Dma) :
    ∃ free, (Queue.setup qsize prplist).Lists [] free ∧
      (Queue.setup qsize prplist).Covers [] free := by
  have hempty : (Queue.zeroed qsize prplist).Lists [] [] :=
    ⟨rfl, rfl, by simp, by simp, by simp, by simp, rfl, by simp⟩
  obtain ⟨us, h, hall⟩ := hempty.get_iterate (fun d hd => absurd hd (Nat.not_lt_zero d)) 16
  rw [Queue.setup]
  generalize (fun q => (unvmeDescGet q).2)^[16] (Queue.zeroed qsize prplist) = q at h hall ⊢
  refine ⟨us, ⟨rfl, h.listHead, Links.ring_nil _, h.usedRing, ?_, ?_, rfl, ?_⟩, ?_⟩
  · intro d hd
    cases hd
  · intro d hd
    exact h.alloc d (by simpa using hd)
  · intro hne
    exact absurd rfl hne
  · intro d hd
    exact Or.inr (by simpa using hall d hd)

/-- **Every operation keeps the lists.** -/
theorem DescOp.lists (h : q.Lists used free) (hall : q.Covers used free) {op : DescOp}
    (hl : op.Legal q) :
    ∃ used' free', (op.apply q).Lists used' free' ∧ (op.apply q).Covers used' free' := by
  cases op with
  | get =>
      obtain ⟨d, q', hget, hlists, -, hhead, hn, -⟩ := h.descGet
      refine ⟨used ++ [d], free.tail, ?_⟩
      rw [DescOp.apply, hget]
      exact ⟨hlists, hall.get h hhead hn⟩
  | put d =>
      have hd : d ∈ used := by rw [← h.usedDescs_eq]; exact hl
      exact ⟨used.erase d, free ++ [d], h.descPut hd, hall.put rfl⟩
  | touch d x =>
      exact ⟨used, free, ⟨h.listHead, h.freeHead, h.usedRing, h.freeRing, h.disj, h.alloc, h.count,
        h.pend⟩, hall⟩

theorem DescRun.lists {qsize : ℕ} {prplist : Dma} (hrun : DescRun qsize prplist q) :
    ∃ used free, q.Lists used free ∧ q.Covers used free := by
  induction hrun with
  | init =>
      obtain ⟨free, h, hall⟩ := Queue.setup_lists qsize prplist
      exact ⟨[], free, h, hall⟩
  | step _ op hl ih =>
      obtain ⟨used, free, h, hall⟩ := ih
      exact DescOp.lists h hall hl

end

/-- `LIST_ADD` appends at the tail and `LIST_DEL` removes its node, on every circular list and wherever
    the node is, and neither touches another list. -/
structure ListMacros : Prop where
  add : ∀ (l : Links ℕ) (xs : List ℕ) (node : ℕ), l.Ring xs → node ∉ xs →
    (listAdd xs.head? node l).2.Circular (listAdd xs.head? node l).1 (xs ++ [node])
  addFrame : ∀ (l : Links ℕ) (xs ys : List ℕ) (node : ℕ), l.Ring xs → l.Ring ys → node ∉ ys →
    (∀ a ∈ xs, a ∉ ys) → (listAdd xs.head? node l).2.Ring ys
  del : ∀ (l : Links ℕ) (xs : List ℕ) (node : ℕ), l.Ring xs → node ∈ xs →
    (listDel xs.head? node l).2.Circular (listDel xs.head? node l).1 (xs.erase node)
  delFrame : ∀ (l : Links ℕ) (xs ys : List ℕ) (node : ℕ), l.Ring xs → node ∈ xs → l.Ring ys →
    (∀ a ∈ xs, a ∉ ys) → (listDel xs.head? node l).2.Ring ys

theorem listMacros : ListMacros := by
  constructor
  · intro l xs node hr hx
    obtain ⟨hhead, hring⟩ := listAdd_ring hr rfl hx
    exact hring.circular hhead
  · intro l xs ys node hr hy hny hdisj
    exact listAdd_frame hr rfl hy hny hdisj
  · intro l xs node hr hx
    obtain ⟨as, bs, rfl⟩ := List.append_of_mem hx
    have hnot : node ∉ as := by
      intro ha
      exact (List.nodup_append.1 hr.1).2.2 node ha node (by simp) rfl
    obtain ⟨hhead, hring⟩ := listDel_ring hr rfl
    rw [List.erase_append_right _ hnot, List.erase_cons_head]
    exact hring.circular hhead
  · intro l xs ys node hr hx hy hdisj
    obtain ⟨as, bs, rfl⟩ := List.append_of_mem hx
    exact listDel_frame hr hy hdisj

/-- **The descriptor lists are well formed** after any sequence of `unvme_desc_get` and
    `unvme_desc_put`, whatever the descriptors hold, and the two functions do what they say. -/
theorem desc_lists_wellformed {qsize : ℕ} {prplist : Dma} {q : Queue}
    (hrun : DescRun qsize prplist q) :
    q.TwoLists ∧ ListMacros ∧
      (∃ d q', unvmeDescGet q = (d, q') ∧ q.freeDescs.head?.getD q.nalloc = d ∧
        q'.usedDescs = q.usedDescs ++ [d] ∧ q'.freeDescs = q.freeDescs.tail ∧
        (q'.desc d).error = 0 ∧ (q'.desc d).cidcount = 0 ∧
        (q'.desc d).cidmask = WordMask.zeros (q.masksize >>> 3) ∧
        ∀ x, x ≠ d → q'.desc x = q.desc x) ∧
      ∀ d ∈ q.usedDescs, (unvmeDescPut q d).usedDescs = q.usedDescs.erase d ∧
        (unvmeDescPut q d).freeDescs = q.freeDescs ++ [d] := by
  obtain ⟨used, free, h, hall⟩ := hrun.lists
  have hu := h.usedDescs_eq
  have hf := h.freeDescs_eq
  refine ⟨h.twoLists hall, listMacros, ?_, ?_⟩
  · obtain ⟨d, q', hget, hlists, -, hhead, -, -, -, hother, hreset⟩ := h.descGet
    rw [hu, hf]
    exact ⟨d, q', hget, hhead, hlists.usedDescs_eq, hlists.freeDescs_eq, hreset.error,
      hreset.cidcount, hreset.cidmask, hother⟩
  · rw [hu, hf]
    intro d hd
    exact ⟨(h.descPut hd).usedDescs_eq, (h.descPut hd).freeDescs_eq⟩

/-- Three descriptors are taken and the middle one, then the first one put back. -/
theorem desc_lists_three : ∃ q, DescRun 4 ⟨0, 0, 0⟩ q ∧ q.TwoLists ∧
    q.usedDescs = [2] ∧ q.freeDescs.drop 13 = [1, 0] := by
  have hrun : DescRun 4 ⟨0, 0, 0⟩ (Queue.setup 4 ⟨0, 0, 0⟩) := .init
  have hrun := hrun.step .get trivial
  have hrun := hrun.step .get trivial
  have hrun := hrun.step .get trivial
  have hrun := hrun.step (.put 1) (by unfold DescOp.Legal; decide +kernel)
  have hrun := hrun.step (.put 0) (by unfold DescOp.Legal; decide +kernel)
  exact ⟨_, hrun, (desc_lists_wellformed hrun).1, by decide +kernel, by decide +kernel⟩

/-! ## Released descriptors -/

/-- The descriptor a call hands out. -/
def Ret.handed : Ret → List ℕ
  | .desc (some d) => [d]
  | _ => []

/-- `s` is reached from `s₀` by calls that have handed out the descriptors `handed`. -/
inductive HandedRun (E : Env) (s₀ : Sys) : List ℕ → Sys → Prop
  | nil : HandedRun E s₀ [] s₀
  | call {handed : List ℕ} {s s' : Sys} (h : HandedRun E s₀ handed s) (c : Call)
      (σ : List (List CtlAct)) (v : Ret) (hl : Round.Legal s (.call c σ))
      (hr : c.run E (s.withSched σ) = .ok v s') : HandedRun E s₀ (handed ++ v.handed) s'
  | idle {handed : List ℕ} {s s' : Sys} (h : HandedRun E s₀ handed s) (acts : List CtlAct)
      (hr : (Round.idle acts).Does E s s') : HandedRun E s₀ handed s'
  | store {handed : List ℕ} {s s' : Sys} (h : HandedRun E s₀ handed s) (mem : ℕ → ℕ)
      (hr : (Round.store mem).Does E s s') : HandedRun E s₀ handed s'

section

variable {E : Env} {s s' : Sys}

theorem HandedRun.run {s₀ : Sys} {handed : List ℕ} (h : HandedRun E s₀ handed s) :
    Run E Round.Legal s₀ s := by
  induction h with
  | nil => exact .nil
  | call _ c σ v hl hr ih => exact ih.round (.call c σ) hl ⟨v, hr⟩
  | idle _ acts hr ih => exact ih.round (.idle acts) trivial hr
  | store _ mem hr ih => exact ih.round (.store mem) trivial hr

/-- A call marks the descriptor it hands out, and no other. -/
theorem Call.sentinel {c : Call} {v : Ret} (h : s.Inv .idle) (ha : c.Allowed E Guards.any s)
    (hr : c.run E s = .ok v s') (x : ℕ) :
    (s'.q.desc x).sentinel = some x ↔ (s.q.desc x).sentinel = some x ∨ x ∈ v.handed := by
  -- taking a descriptor and submitting commands for it
  have hwork : ∀ {d : ℕ} {s₁ : Sys} {new : List Sub} {n : ℕ}, s'.Inv .idle → Sys.Takes d s s₁ →
      Sys.Works d s₁ s' new n →
      ((s'.q.desc x).sentinel = some x ↔ (s.q.desc x).sentinel = some x ∨ x ∈ [d]) := by
    intro d s₁ new n h' ht hw
    rw [List.mem_singleton]
    by_cases hx : x = d
    · subst hx
      have hused : x ∈ s'.q.usedDescs := by rw [hw.used, ht.used]; simp
      exact ⟨fun _ => Or.inr rfl, fun _ => h'.acc.sentinel x hused⟩
    · rw [(hw.desc x).sentinel, ht.desc x hx]
      exact ⟨Or.inl, fun hor => hor.resolve_right hx⟩
  cases c with
  | rw qid opc buf slba nlb =>
      obtain ⟨d, s₁, hdo, hret⟩ := bind_eq_ok hr
      cases hret
      obtain ⟨hst, s₂, new, -, ht, -, hw, -⟩ := (unvmeDoRw_spec (E := E) (G := Guards.any) h
        (fun d x hx => (ha d x hx).1) (fun d x hx => (ha d x hx).2)).of_ok hdo
      exact hwork (hst.inv h) ht hw
  | cmd qid opc nsid buf bufsz cdw10_15 =>
      obtain ⟨r, s₁, hdo, hret⟩ := bind_eq_ok hr
      cases hret
      obtain ⟨hst, d, s₂, sub, rfl, -, ht, hw, -⟩ :=
        (unvmeDoCmd_spec (E := E) (G := Guards.any) h ha.1 ha.2.1 ha.2.2).of_ok hdo
      exact hwork (hst.inv h) ht hw
  | poll d timeout =>
      obtain ⟨r, s₁, hdo, hret⟩ := bind_eq_ok hr
      cases hret
      obtain ⟨-, n, s₂, -, hpolls, -, hs'⟩ :=
        (unvmeDoPoll_spec (E := E) (G := Guards.any) timeout h ha).of_ok hdo
      have hdesc : s'.q.desc = s₂.q.desc := by rw [hs']; split <;> rfl
      rw [hdesc, ((hpolls.reaps d).desc x).sentinel]
      exact ⟨Or.inl, fun hor => hor.resolve_right nofun⟩

/-- New descriptors are not marked. -/
theorem Queue.setup_sentinel (qsize : ℕ) (prplist : Dma) (x : ℕ) :
    ((Queue.setup qsize prplist).desc x).sentinel = none := by
  have hget : ∀ q : Queue, (∀ x, (q.desc x).sentinel = none) →
      ∀ x, ((unvmeDescGet q).2.desc x).sentinel = none := by
    intro q hq x
    unfold unvmeDescGet
    cases q.descfree with
    | none =>
        rw [Queue.addUsed_desc]
        by_cases hx : x = q.nalloc
        · subst hx
          rw [Queue.setDesc_self]
          rfl
        · rw [Queue.setDesc_of_ne hx]
          exact hq x
    | some d =>
        rw [Queue.addUsed_desc]
        by_cases hx : x = d
        · subst hx
          rw [Queue.setDesc_self]
          exact hq x
        · rw [Queue.setDesc_of_ne hx]
          exact hq x
  exact Queue.setup_induct (P := fun q => ∀ x, (q.desc x).sentinel = none) (fun _ => rfl) hget
    (fun _ hq => hq) x

/-- The marked descriptors are those handed out so far. -/
theorem HandedRun.sentinel {qsize : ℕ} (hq : 2 ≤ qsize) {prplist : Dma} {mem disk : ℕ → ℕ}
    {handed : List ℕ} (h : HandedRun E (Sys.boot qsize prplist mem disk) handed s) (x : ℕ) :
    (s.q.desc x).sentinel = some x ↔ x ∈ handed := by
  induction h with
  | nil =>
      have hnone := Queue.setup_sentinel qsize prplist x
      have hboot : ((Sys.boot qsize prplist mem disk).q.desc x).sentinel = none := hnone
      rw [hboot]
      exact ⟨nofun, nofun⟩
  | call h c σ v hl hr ih =>
      have hinv := (h.run.boot (fun _ _ hl => hl) hq).1
      rw [Call.sentinel (hinv.withSched σ) (Call.allowed_any hl) hr, List.mem_append, ← ih]
      rfl
  | idle _ acts hr ih =>
      rw [hr]
      exact ih
  | store _ mem hr ih =>
      rw [hr]
      exact ih

/-- **A poll of a free descriptor stops exactly if the descriptor was never handed out.** -/
theorem released_poll_stops_iff {qsize : ℕ} (hq : 2 ≤ qsize) {prplist : Dma} {mem disk : ℕ → ℕ}
    {handed : List ℕ} (hrun : HandedRun E (Sys.boot qsize prplist mem disk) handed s) {d : ℕ}
    (hd : d ∈ s.q.freeDescs) (timeout : ℤ) (σ : List (List CtlAct)) :
    unvmeDoPoll E d timeout (s.withSched σ) = .error .badDescriptor (s.withSched σ) ↔
      d ∉ handed := by
  have hinv := (hrun.run.boot (fun _ _ hl => hl) hq).1
  have hwf := hinv.acc.wf
  have hcount : (s.q.desc d).cidcount = 0 := by
    rw [hwf.descCount d (Or.inr hd), hwf.freeBits d hd]
    rfl
  rw [← hrun.sentinel hq d]
  constructor
  · intro hstop hsent
    have hret : wp (unvmeDoPoll E d timeout) (s.withSched σ) (fun _ _ => True) (fun _ _ => False) := by
      have hmark : ((s.withSched σ).q.desc d).sentinel = some d := hsent
      have hzero : ((s.withSched σ).q.desc d).cidcount = 0 := hcount
      unfold unvmeDoPoll Queue.pollFuel
      rw [wp_bind, wp_get, wp_ite, if_neg (not_not.2 hmark), pollLoop]
      simp only [wp_bind, wp_get, wp_ite, if_pos hzero, wp_pure, wp_set]
    unfold wp at hret
    rw [hstop] at hret
    exact hret
  · intro hsent
    have hmark : ((s.withSched σ).q.desc d).sentinel ≠ some d := hsent
    unfold unvmeDoPoll
    show EStateM.bind get _ (s.withSched σ) = _
    unfold EStateM.bind
    show (if ((s.withSched σ).q.desc d).sentinel ≠ some d then throw Stop.badDescriptor else _ :
      Drv (ℤ × Option ℕ)) (s.withSched σ) = _
    rw [if_pos hmark]
    rfl

end

/-- The head of the free list of a new queue. -/
theorem released_poll_stops_new :
    0 ∈ (sampleSys 4).q.freeDescs ∧
      unvmeDoPoll sampleEnv 0 0 ((sampleSys 4).withSched [])
        = .error .badDescriptor ((sampleSys 4).withSched []) := by
  have hfree : 0 ∈ (sampleSys 4).q.freeDescs := by decide +kernel
  exact ⟨hfree, (released_poll_stops_iff (by decide) .nil hfree 0 []).2 nofun⟩

/-- A descriptor is released by a poll that returns 0; polled again, it is released once more, and the
    count of descriptors in use is -1. -/
theorem released_poll_returns :
    ¬ ∀ (E : Env) (qsize : ℕ) (prplist : Dma) (mem disk : ℕ → ℕ) (handed : List ℕ) (s : Sys) (d : ℕ)
        (timeout : ℤ) (σ : List (List CtlAct)), 2 ≤ qsize →
      HandedRun E (Sys.boot qsize prplist mem disk) handed s → d ∈ s.q.freeDescs →
      unvmeDoPoll E d timeout (s.withSched σ) = .error .badDescriptor (s.withSched σ) := by
  intro h
  have hread : returns (Call.run sampleEnv (.rw 0 1 0 0 0)) ((sampleSys 4).withSched [])
      (fun v _ => decide (v = .desc (some 0))) = true := by decide +kernel
  have hrun := HandedRun.nil.call (.rw 0 1 0 0 0) [] _ trivial (eq_ok_of_returns hread)
  have hpoll : returns (Call.run sampleEnv (.poll 0 0))
      ((final (Call.run sampleEnv (.rw 0 1 0 0 0)) ((sampleSys 4).withSched [])).withSched [])
      (fun v _ => decide (v = .status 0)) = true := by decide +kernel
  have hrun := hrun.call (.poll 0 0) [] _ (by unfold Round.Legal; decide +kernel)
    (eq_ok_of_returns hpoll)
  have hagain : returns (unvmeDoPoll sampleEnv 0 0)
      ((final (Call.run sampleEnv (.poll 0 0)) ((final (Call.run sampleEnv (.rw 0 1 0 0 0))
        ((sampleSys 4).withSched [])).withSched [])).withSched [])
      (fun r s' => decide (r.1 = 0 ∧ s'.q.desccount = -1)) = true := by decide +kernel
  obtain ⟨r, s', hr, -⟩ := returns_iff.1 hagain
  have hstop := h sampleEnv 4 _ _ _ _ _ 0 0 [] (by decide) hrun (by decide +kernel)
  rw [hstop] at hr
  cases hr

end Unvme.Core
