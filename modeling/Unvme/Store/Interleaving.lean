import Unvme.Core.Alike
import Unvme.Store.Queues

set_option autoImplicit false

/-! # Interleaved calls

`unvme_do_rw` and `unvme_do_poll` are programs that run from their start to their end. The thread that makes
such a call may be stopped between any two of its steps, while other threads are in calls of their own, the
controller serves them and the client writes to memory: `BlockDevice.Weaves` is a call into which the steps of
others are woven. The call goes on as it would have alone (`Weaves.alike`), the others never keep it from
its end (`Weaves.finish`), and together they are a run of the device (`Weaves.trace`). So calls are runs of
the device, however they are interleaved (`Refines.rw_woven`, `Refines.poll_woven`). -/

namespace Unvme.Store

open Unvme.Lib Unvme.Nvme Unvme.Core

section

variable {E : Env} (D : BlockDevice E)

/-- The thread of queue `i` makes steps that alone would lead from `a` to `b`. In between others make steps
    that are not on its queue. -/
inductive BlockDevice.Weaves (i : Fin D.qcount) (a : Sys × Pc) (S : Queues D.qcount) :
    Sys × Pc → List (Event ℕ) → Queues D.qcount → Prop
  | nil : Weaves i a S a [] S
  | own {b c : Sys × Pc} {log : List (Event ℕ)} {S' : Queues D.qcount} {u : Sys}
      (h : Weaves i a S b log S') (hstep : QuietStep (D.ioqs i) b c)
      (hown : Step E (D.ioqs i).guards (S'.view i, S'.pc i) (u, c.2)) (hu : Sys.Alike c.1 u) :
      Weaves i a S c log (S'.put i u c.2)
  | other {b : Sys × Pc} {log : List (Event ℕ)} {S' S'' : Queues D.qcount} {o : Option (Event ℕ)}
      (h : Weaves i a S b log S') (hact : D.Act S' o S'') (hsys : S''.sys i = S'.sys i)
      (hpc : S''.pc i = S'.pc i) : Weaves i a S b (log ++ o.toList) S''

end

section

variable {E : Env} {D : BlockDevice E} {S S' : Queues D.qcount} {t : Flat ℕ} {log : List (Event ℕ)}
  {i : Fin D.qcount} {a b c : Sys × Pc}

theorem Sys.Alike.on {s u : Sys} (h : Sys.Alike s u) (mem disk : ℕ → ℕ) :
    Sys.Alike s (Sys.on u mem disk) := by
  obtain ⟨hq, mem', disk', inflight, hin, hdev⟩ := h
  refine ⟨hq, mem, disk, inflight, hin, ?_⟩
  show { u.dev with mem := mem, disk := disk } = _
  rw [hdev]

theorem Queues.view_of_sys {n : ℕ} {S S' : Queues n} {i : Fin n} (h : S'.sys i = S.sys i) :
    S'.view i = Sys.on (S.view i) S'.mem S'.disk := by
  unfold Queues.view
  rw [h]
  rfl

/-- **The call goes on as it would have alone.** -/
theorem BlockDevice.Weaves.alike (h : D.Weaves i a S b log S') (ha : Sys.Alike a.1 (S.view i))
    (hpc : S.pc i = a.2) : Sys.Alike b.1 (S'.view i) ∧ S'.pc i = b.2 := by
  induction h with
  | nil => exact ⟨ha, hpc⟩
  | own h hstep hown hu ih =>
      rw [Queues.view_put_self, Queues.pc_put_self]
      exact ⟨hu, rfl⟩
  | other h hact hsys hpc' ih =>
      rw [Queues.view_of_sys hsys]
      exact ⟨Sys.Alike.on ih.1 _ _, hpc'.trans ih.2⟩

/-- **A call into which others are woven is a run of the device.** -/
theorem BlockDevice.Weaves.trace (h : D.Weaves i a S b log S') (ha : Sys.Alike a.1 (S.view i))
    (hpc : S.pc i = a.2) : Trace D.Act S log S' := by
  induction h with
  | nil => exact Trace.nil
  | @own b c log S' u h hstep hown hu ih =>
      obtain ⟨hb, -⟩ := h.alike ha hpc
      have hused : u.q.usedDescs = (S'.view i).q.usedDescs := by
        rw [hu.q, hb.q]
        exact hstep.2
      have htrace := ih.step (BlockDevice.Act.work i hown hused)
      rwa [Option.toList_none, List.append_nil] at htrace
  | other h hact hsys hpc' ih => exact ih.step hact

/-- Whatever the others have done, the thread can make its next step. -/
theorem BlockDevice.Weaves.next (h : D.Weaves i a S b log S') (ha : Sys.Alike a.1 (S.view i))
    (hpc : S.pc i = a.2) (hstep : QuietStep (D.ioqs i) b c) : ∃ S'', D.Weaves i a S c log S'' := by
  obtain ⟨hb, hpc'⟩ := h.alike ha hpc
  obtain ⟨u, hown, hu⟩ := Step.alike hb hstep.1
  refine ⟨_, h.own hstep ?_ hu⟩
  rw [hpc']
  exact hown

/-- **It can make all the steps that are left.** -/
theorem BlockDevice.Weaves.finish (h : D.Weaves i a S b log S') (ha : Sys.Alike a.1 (S.view i))
    (hpc : S.pc i = a.2) (hst : Relation.ReflTransGen (QuietStep (D.ioqs i)) b c) :
    ∃ S'', D.Weaves i a S c log S'' := by
  induction hst with
  | refl => exact ⟨S', h⟩
  | tail _ hstep ih =>
      obtain ⟨S'', h''⟩ := ih
      exact h''.next ha hpc hstep

/-- No one else does anything. -/
theorem BlockDevice.weaves_alone (S : Queues D.qcount)
    (hst : Relation.ReflTransGen (QuietStep (D.ioqs i)) a b) :
    D.Weaves i a (S.put i a.1 a.2) b [] (S.put i b.1 b.2) := by
  induction hst with
  | refl => exact .nil
  | @tail b c _ hstep ih =>
      have hown : Step E (D.ioqs i).guards ((S.put i b.1 b.2).view i, (S.put i b.1 b.2).pc i) (c.1, c.2) := by
        rw [Queues.view_put_self, Queues.pc_put_self]
        exact hstep.1
      have h := ih.own hstep hown (.refl _)
      rwa [Queues.put_put] at h

/-! ## Calls -/

/-- The schedule of the controller for queue `i` is set. -/
theorem BlockDevice.trace_sched (S : Queues D.qcount) {i : Fin D.qcount} (hpc : S.pc i = .idle)
    (σ : List (List CtlAct)) : Trace D.Act S [] (S.put i ((S.view i).withSched σ) .idle) := by
  have hstep : Step E (D.ioqs i).guards (S.view i, S.pc i) ((S.view i).withSched σ, .idle) := by
    rw [hpc]
    exact Step.sched _ _ σ
  exact Trace.nil.step (BlockDevice.Act.work i hstep rfl)

theorem BlockDevice.Submitted.of_alike {s : Sys} {d : ℕ} (hd : d ∈ s.q.usedDescs)
    (hc : Sys.Covered E.ns s d (transfer E.ns (s.q.desc d))) (h : Sys.Alike s (S.view i)) :
    D.Submitted S i d := by
  refine ⟨by rwa [h.q], ?_⟩
  rw [h.q]
  exact hc.congr (by rw [h.q]) (by rw [h.dev.hist])

/-- **`unvme_do_rw` is a run of these steps**, whatever others do in the middle of it, after which the whole
    request has been submitted. -/
theorem BlockDevice.Refines.rw_woven (h : D.Refines S t) {qid : ℤ} {opc buf slba nlb d : ℕ}
    {σ : List (List CtlAct)} {s' : Sys} (hpc : S.pc i = .idle) (hl : D.Fit S opc buf slba nlb)
    (hr : unvmeDoRw E qid opc buf slba nlb ((S.view i).withSched σ) = .ok d s') :
    ∃ s₁, Trace D.Act S [.submitted (handle i d) (request E.ns opc buf slba nlb)] (S.put i s₁ .idle) ∧
      Relation.ReflTransGen (QuietStep (D.ioqs i)) (s₁, .idle) (s', .idle) ∧
      ∀ log S', D.Weaves i (s₁, .idle) (S.put i s₁ .idle) (s', .idle) log S' →
        Trace D.Act (S.put i s₁ .idle) log S' ∧ S'.pc i = .idle ∧ D.Submitted S' i d := by
  have hinv := h.inv i
  rw [hpc] at hinv
  have hlocal : (D.ioqs i).Fit ((S.view i).withSched σ) opc buf slba nlb :=
    ⟨hl.readWrite, hl.buffer, hl.range i, hl.clear i, hl.apart i⟩
  obtain ⟨s₁, new, hget, h₁, ht, hrw, hst, hw, hall⟩ := unvmeDoRw_issues (G := (D.ioqs i).guards)
    (hinv.withSched σ) (fun _ _ hx => hlocal.allowed _ hx) hr
  refine ⟨s₁, ?_, Steps.quiet h₁ hst hw.used, ?_⟩
  · generalize hS : S.put i ((S.view i).withSched σ) .idle = S₁
    have hview : S₁.view i = (S.view i).withSched σ := by rw [← hS, Queues.view_put_self]
    have hpc₁ : S₁.pc i = .idle := by rw [← hS, Queues.pc_put_self]
    have hl₁ : D.Fit S₁ opc buf slba nlb := by
      refine ⟨hl.readWrite, hl.buffer, hl.range, hl.clear, ?_⟩
      intro j d hd
      have hq : (S₁.sys j).q = (S.sys j).q := by
        rw [← hS]
        by_cases hji : j = i
        · subst hji
          simp [Queues.put, Queues.view, Sys.on, Sys.withSched]
        · simp [Queues.put, hji]
      rw [hq] at hd ⊢
      exact hl.apart j d hd
    have hsched := D.trace_sched S hpc σ
    rw [hS] at hsched
    rw [← hview] at hget
    have htake := hsched.step (BlockDevice.Act.take i qid hpc₁ hl₁ hget)
    rwa [← hS, Queues.put_put, List.nil_append] at htake
  · intro log S' hweaves
    have hstart : Sys.Alike s₁ ((S.put i s₁ .idle).view i) := by
      rw [Queues.view_put_self]
      exact .refl s₁
    obtain ⟨hlike, hpc'⟩ := hweaves.alike hstart (Queues.pc_put_self S i s₁ .idle)
    refine ⟨hweaves.trace hstart (Queues.pc_put_self S i s₁ .idle), hpc', .of_alike ?_ ?_ hlike⟩
    · rw [hw.used, ht.used]
      exact List.mem_append_right _ (List.mem_singleton_self _)
    · rw [transfer_congr (hw.desc d), transfer, hrw.opc, hrw.buf, hrw.slba, hrw.nlb]
      exact hlocal.covered ht hw hall

/-- **`unvme_do_poll` of a request that has been submitted is a run of these steps**, whatever others do in
    the middle of it, and the request can be released if nothing of it is pending any more. -/
theorem BlockDevice.Refines.poll_woven (h : D.Refines S t) {d : ℕ} {timeout r : ℤ} {cs : Option ℕ}
    {σ : List (List CtlAct)} {s' : Sys} (hpc : S.pc i = .idle) (hsub : D.Submitted S i d)
    (hr : unvmeDoPoll E d timeout ((S.view i).withSched σ) = .ok (r, cs) s') :
    ∃ s₁, s' = (if (s₁.q.desc d).cidcount = 0 then { s₁ with q := unvmeDescPut s₁.q d } else s₁) ∧
      Relation.ReflTransGen (QuietStep (D.ioqs i)) ((S.view i).withSched σ, .idle) (s₁, .idle) ∧
      ∀ log S', D.Weaves i ((S.view i).withSched σ, .idle) (S.put i ((S.view i).withSched σ) .idle)
          (s₁, .idle) log S' →
        Trace D.Act S log S' ∧ S'.pc i = .idle ∧ (S'.view i).q = s₁.q ∧
          ((s₁.q.desc d).cidcount = 0 →
            D.Act S' (some (.polled (handle i d) r ((s₁.q.desc d).error == 0)))
              (S'.put i { S'.view i with q := unvmeDescPut s₁.q d } .idle)) := by
  obtain ⟨hd, hc⟩ := hsub
  have hinv := h.inv i
  rw [hpc] at hinv
  obtain ⟨-, n, s₁, hst, hpolls, hres, hs'⟩ :=
    (unvmeDoPoll_spec (G := (D.ioqs i).guards) timeout (hinv.withSched σ) hd).of_ok hr
  have hreaps := hpolls.reaps d
  have hused : s₁.q.usedDescs = (S.view i).q.usedDescs := hreaps.used
  refine ⟨s₁, hs', Steps.quiet (hinv.withSched σ) hst hused, ?_⟩
  intro log S' hweaves
  have hstart : Sys.Alike ((S.view i).withSched σ) ((S.put i ((S.view i).withSched σ) .idle).view i) := by
    rw [Queues.view_put_self]
    exact .refl _
  obtain ⟨hlike, hpc'⟩ := hweaves.alike hstart (Queues.pc_put_self S i _ .idle)
  have hrun := (D.trace_sched S hpc σ).append (hweaves.trace hstart (Queues.pc_put_self S i _ .idle))
  refine ⟨hrun, hpc', hlike.q, ?_⟩
  intro h0
  have hd₁ : d ∈ s₁.q.usedDescs := by rwa [hused]
  have hcov : Sys.Covered E.ns s₁ d (transfer E.ns (s₁.q.desc d)) := by
    rw [transfer_congr (hreaps.desc d)]
    refine hc.congr ?_ ?_
    · rw [hreaps.own, List.length_nil, List.range'_zero, List.append_nil]
      rfl
    · rw [hreaps.subs]
      exact List.prefix_append _ _
  have hzero : (s₁.q.desc d).error = 0 → r = 0 := by
    dsimp only at hres
    exact fun herr => pollResult_zero (hst.inv (hinv.withSched σ)) hd₁ hpolls hres h0 herr
  obtain ⟨hd', hc'⟩ := BlockDevice.Submitted.of_alike (D := D) hd₁ hcov hlike
  have hq : (S'.view i).q = s₁.q := hlike.q
  rw [← hq] at h0 hzero ⊢
  exact BlockDevice.Act.release i d r hpc' hd' h0 hc' hzero

end

end Unvme.Store
