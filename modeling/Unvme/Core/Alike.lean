import Unvme.Core.Steps

set_option autoImplicit false

/-! # What the steps do not look at

No step of the driver and no action of the controller depends on what is in memory or on the medium: what
the controller does with them it does for its commands, and the queue goes on in the same way. So when others
have written to memory in the middle of a call, the call goes on as it would have (`Step.alike`). -/

namespace Unvme.Nvme

/-- A fetched command, but for the PRP list entries that were read for it. -/
def Cmd.shape (c : Cmd) : ℕ × SqEntry × Bool × Bool := (c.seq, c.entry, c.prps.isSome, c.done)

/-- The same queue pair on other memory and medium, so that other PRP list entries may have been read. -/
def Device.Alike (d e : Device) : Prop :=
  ∃ mem disk inflight, inflight.map Cmd.shape = d.inflight.map Cmd.shape ∧
    e = { d with mem := mem, disk := disk, inflight := inflight }

section

variable {d e : Device} {l l' : List Cmd}

theorem shape_getElem? (h : l.map Cmd.shape = l'.map Cmd.shape) (i : ℕ) :
    l[i]?.map Cmd.shape = l'[i]?.map Cmd.shape := by
  rw [← List.getElem?_map, ← List.getElem?_map, h]

/-- What becomes of a command shows in its shape only. -/
theorem shape_modify {f g : Cmd → Cmd} (h : l.map Cmd.shape = l'.map Cmd.shape)
    (hf : ∀ c c', c.shape = c'.shape → (f c).shape = (g c').shape) (i : ℕ) :
    (l.modify i f).map Cmd.shape = (l'.modify i g).map Cmd.shape := by
  refine List.ext_getElem? (fun j => ?_)
  have hj := shape_getElem? h j
  rw [List.getElem?_map, List.getElem?_map, List.getElem?_modify, List.getElem?_modify]
  cases hc : l[j]? with
  | none =>
      rw [hc] at hj
      rw [Option.map_eq_none_iff.1 hj.symm]
      rfl
  | some c =>
      rw [hc] at hj
      obtain ⟨c', hc', heq⟩ := Option.map_eq_some_iff.1 hj.symm
      rw [hc']
      by_cases hij : i = j
      · simp [hij, hf c c' heq.symm]
      · simp [hij, heq]

theorem Device.Alike.refl (d : Device) : d.Alike d := ⟨_, _, _, rfl, rfl⟩

theorem Device.Alike.hist (h : d.Alike e) : e.hist = d.hist := by
  obtain ⟨mem, disk, inflight, -, rfl⟩ := h
  rfl

/-- **What the controller does to the queue pair does not depend on memory and medium.** -/
theorem Device.Alike.act (h : d.Alike e) (M : Media) (a : CtlAct) : (d.act M a).Alike (e.act M a) := by
  obtain ⟨mem, disk, inflight, hin, rfl⟩ := h
  cases a with
  | fetch =>
      simp only [Device.act, Device.fetch]
      split
      · exact ⟨mem, disk, inflight, hin, rfl⟩
      · refine ⟨mem, disk, _, ?_, rfl⟩
        simp only [Device.note, List.map_append, hin]
  | loadPrps i =>
      refine ⟨mem, disk, _, shape_modify hin ?_ i, rfl⟩
      intro c c' hc
      simp only [Cmd.shape, Prod.mk.injEq] at hc ⊢
      exact ⟨hc.1, hc.2.1, rfl, hc.2.2.2⟩
  | execute i =>
      have hi := shape_getElem? hin i
      simp only [Device.act, Device.execute]
      rcases hc : d.inflight[i]? with - | ⟨seq, entry, ps, done⟩
      · rw [hc, Option.map_none, Option.map_eq_none_iff] at hi
        rw [hi]
        exact ⟨mem, disk, inflight, hin, rfl⟩
      · rw [hc] at hi
        obtain ⟨⟨seq', entry', ps', done'⟩, hc', heq⟩ := Option.map_eq_some_iff.1 hi
        simp only [Cmd.shape, Prod.mk.injEq] at heq
        obtain ⟨-, rfl, hsome, -⟩ := heq
        rw [hc']
        -- both have read the list, or neither has
        cases ps with
        | none =>
            cases ps' with
            | none => exact ⟨mem, disk, inflight, hin, rfl⟩
            | some ps' => cases hsome
        | some ps =>
            cases ps' with
            | none => cases hsome
            | some ps' =>
                refine ⟨_, _, _, shape_modify hin ?_ i, rfl⟩
                intro c c' hc
                simp only [Cmd.shape, Prod.mk.injEq] at hc ⊢
                exact ⟨hc.1, hc.2.1, hc.2.2.1, trivial⟩
  | post i cs psf =>
      have hi := shape_getElem? hin i
      simp only [Device.act, Device.post]
      rcases hc : d.inflight[i]? with - | ⟨seq, entry, ps, done⟩
      · rw [hc, Option.map_none, Option.map_eq_none_iff] at hi
        rw [hi]
        exact ⟨mem, disk, inflight, hin, rfl⟩
      · rw [hc] at hi
        obtain ⟨⟨seq', entry', ps', done'⟩, hc', heq⟩ := Option.map_eq_some_iff.1 hi
        simp only [Cmd.shape, Prod.mk.injEq] at heq
        obtain ⟨rfl, rfl, -, rfl⟩ := heq
        rw [hc']
        dsimp only
        split
        · refine ⟨mem, disk, _, ?_, rfl⟩
          show (inflight.eraseIdx i).map Cmd.shape = (d.inflight.eraseIdx i).map Cmd.shape
          rw [← List.eraseIdx_map, ← List.eraseIdx_map, hin]
        · exact ⟨mem, disk, inflight, hin, rfl⟩

end

end Unvme.Nvme

namespace Unvme.Core

open Unvme.Nvme

/-- The same queue and controller on other memory and medium. -/
structure Sys.Alike (s u : Sys) : Prop where
  q : u.q = s.q
  dev : s.dev.Alike u.dev

theorem Sys.Alike.refl (s : Sys) : Sys.Alike s s := ⟨rfl, .refl _⟩

/-- Words are stored for a command. -/
theorem Sys.Alike.storePrps {s u : Sys} (h : Sys.Alike s u) (call : PrpCall) :
    Sys.Alike ⟨s.q, s.dev.storePrps call⟩ ⟨s.q, u.dev.storePrps call⟩ := by
  obtain ⟨-, mem, disk, inflight, hin, heq⟩ := h
  rw [heq]
  exact ⟨rfl, _, disk, inflight, hin, rfl⟩

/-- **A step can be taken on other memory, with the same effect on the queue.** -/
theorem Step.alike {E : Env} {G : Guards} {s s' u : Sys} {pc pc' : Pc} (h : Sys.Alike s u)
    (hstep : Step E G (s, pc) (s', pc')) : ∃ u', Step E G (u, pc) (u', pc') ∧ Sys.Alike s' u' := by
  obtain ⟨q, dev⟩ := u
  obtain rfl : q = s.q := h.q
  cases hstep with
  | act _ _ a => exact ⟨_, .act _ _ a, rfl, h.dev.act E.media a⟩
  | map _ d cid buf bufsz addr ha hmap =>
      exact ⟨_, .map ⟨s.q, dev⟩ d cid buf bufsz addr ha hmap, h.storePrps _⟩
  | take _ d q' f hget hf hs hG => exact ⟨_, .take ⟨s.q, dev⟩ d q' f hget hf hs hG, rfl, h.dev⟩
  | put _ d hd h0 => exact ⟨_, .put ⟨s.q, dev⟩ d hd h0, rfl, h.dev⟩
  | claim _ d cid q' hd hroom hq => exact ⟨_, .claim ⟨s.q, dev⟩ d cid q' hd hroom hq, rfl, h.dev⟩
  | sched _ _ σ =>
      obtain ⟨-, mem, disk, inflight, hin, rfl⟩ := h
      exact ⟨_, .sched _ _ σ, rfl, mem, disk, inflight, hin, rfl⟩
  | advance _ hp =>
      obtain ⟨-, mem, disk, inflight, hin, rfl⟩ := h
      exact ⟨_, .advance ⟨s.q, _⟩ hp, rfl, mem, disk, inflight, hin, rfl⟩
  | ring _ =>
      obtain ⟨-, mem, disk, inflight, hin, rfl⟩ := h
      exact ⟨_, .ring _, rfl, mem, disk, inflight, hin, rfl⟩
  | reap _ k e q' hp hq =>
      obtain ⟨-, mem, disk, inflight, hin, rfl⟩ := h
      exact ⟨_, .reap ⟨s.q, _⟩ k e q' hp hq, rfl, mem, disk, inflight, hin, rfl⟩
  | fill _ d cid buf bufsz addr e hc h1 h2 hG =>
      obtain ⟨-, mem, disk, inflight, hin, rfl⟩ := h
      exact ⟨_, .fill ⟨s.q, _⟩ d cid buf bufsz addr e hc h1 h2 hG, rfl, mem, disk, inflight, hin, rfl⟩
  | submit _ d cid buf bufsz addr e =>
      obtain ⟨-, mem, disk, inflight, hin, rfl⟩ := h
      exact ⟨_, .submit ⟨s.q, _⟩ d cid buf bufsz addr e, rfl, mem, disk, inflight, hin, rfl⟩

end Unvme.Core
