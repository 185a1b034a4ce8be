import Unvme.Store.Transfers

set_option autoImplicit false

/-! # From a submission to its completion

Every step that a call takes after its descriptor has been taken, and every action of the controller, keeps
`BlockQueue.Holds`: nothing a step does is seen in the flat block store. -/

namespace Unvme.Store

open Unvme.Lib Unvme.Nvme Unvme.Core

section

variable {E : Env} {Q : BlockQueue E} {t : Flat ℕ} {s s' : Sys} {pc pc' : Pc}

/-- The pages of the queue's command ids are in the lists. -/
theorem BlockQueue.logIn_of_slots (hprp : s.q.prplist = Q.prplist) (hsize : s.q.size = Q.qsize)
    (h : s.LogSlots E Q.guards) : s.LogIn Q.InList := by
  intro call hcall st hst
  obtain ⟨hcid, -, -, hslot⟩ := h call hcall
  have hin := hslot st hst
  rw [hprp] at hin
  have hlt := Queue.lt_size_of_lt_ids hcid
  rw [hsize] at hlt
  exact Q.inList_of_slot hlt hin

/-! ## The driver -/

/-- Words are written to the lists only. -/
theorem BlockQueue.Data.storePrps (h : Q.Data t s) {cid buf bufsz : ℕ} {words : List (ℕ × ℕ)}
    (hlog : Sys.LogIn Q.InList ⟨s.q, s.dev.storePrps ⟨cid, buf, bufsz, words⟩⟩) :
    Q.Data t ⟨s.q, s.dev.storePrps ⟨cid, buf, bufsz, words⟩⟩ := by
  obtain ⟨-, hin⟩ := logIn_storePrps hlog
  have hmem : ∀ a, ¬ Q.InList a →
      (s.dev.storePrps ⟨cid, buf, bufsz, words⟩).mem a = s.dev.mem a := by
    intro a ha
    refine mem_storePrps ?_
    intro st hst heq
    exact ha (heq ▸ hin st hst)
  refine ⟨h.pending, h.apart, h.clear, h.issued, h.loaded, ?_, h.disk, ?_⟩
  · intro d x hx k hk sub hsub he i hlt
    have hmoved := h.done d x hx k hk sub hsub he i hlt
    obtain ⟨off, hle, hbuf, -⟩ := (h.issued d x hx k hk sub hsub).piece.part
    have hclear := h.clear d x hx (sub.buf + i) ⟨by omega, by omega⟩
    exact hmoved.trans (hmem _ hclear).symm
  · intro a ha hl
    exact (hmem a ha).trans (h.mem a ha hl)

/-- An executed command has been submitted. -/
theorem Executed.lt {i j k : ℕ} (h : Executed s.dev k) (hi : s.dev.Inv i j) :
    k < s.dev.hist.subs.length := by
  rcases h with ⟨c, hc, rfl, -⟩ | ⟨e, he, -⟩
  · obtain ⟨sub, hsub, -⟩ := hi.entry c hc
    exact (List.getElem?_eq_some_iff.1 hsub).1
  · obtain ⟨sub, hsub, -⟩ := hi.posts _ he
    exact (List.getElem?_eq_some_iff.1 hsub).1

theorem transfer_congr {x y : Desc} (h : Desc.SameRequest x y) : transfer E.ns y = transfer E.ns x := by
  unfold transfer
  rw [h.buf, h.slba, h.nlb, h.opc]

/-- A command is submitted for a request under way. -/
theorem BlockQueue.Data.submit (h : Q.Data t s) (hi : s.Inv pc) {d : ℕ} {sub : Sub}
    (hnew : Q.Issued (transfer E.ns (s.q.desc d)) sub) :
    Q.Data t ⟨s.q.setDesc d (fun x => { x with cmds := x.cmds ++ [s.dev.hist.submitted] }),
      s.dev.submit sub⟩ := by
  have hw := Sys.Works.submit s d sub
  generalize hq : s.q.setDesc d (fun x => { x with cmds := x.cmds ++ [s.dev.hist.submitted] }) = q'
    at hw ⊢
  have htrans : ∀ x, transfer E.ns (q'.desc x) = transfer E.ns (s.q.desc x) :=
    fun x => transfer_congr (hw.desc x)
  have hsubs : (s.dev.submit sub).hist.subs = s.dev.hist.subs ++ [sub] := hw.subs
  -- an earlier command is one of the same descriptor as before
  have hold : ∀ d' x', t.pending d' = some x' → ∀ k ∈ (q'.desc d').cmds, k < s.dev.hist.subs.length →
      k ∈ (s.q.desc d').cmds := by
    intro d' x' _ k hk hlt
    by_cases hd : d' = d
    · subst hd
      have hown : (q'.desc d').cmds
          = (s.q.desc d').cmds ++ List.range' s.dev.hist.subs.length 1 := hw.own
      rw [hown] at hk
      rcases List.mem_append.1 hk with hk | hk
      · exact hk
      · rw [List.range'_one, List.mem_singleton] at hk
        omega
    · rw [← hw.cmds d' hd]
      exact hk
  have hcase : ∀ k sub', (s.dev.submit sub).hist.subs[k]? = some sub' →
      k < s.dev.hist.subs.length ∧ s.dev.hist.subs[k]? = some sub' ∨
        k = s.dev.hist.subs.length ∧ sub' = sub := by
    intro k sub' hsub'
    rw [hsubs] at hsub'
    have hlen := (List.getElem?_eq_some_iff.1 hsub').1
    rw [List.length_append, List.length_singleton] at hlen
    rcases Nat.lt_or_ge k s.dev.hist.subs.length with hlt | hge
    · rw [List.getElem?_append_left hlt] at hsub'
      exact Or.inl ⟨hlt, hsub'⟩
    · obtain rfl : k = s.dev.hist.subs.length := by omega
      rw [List.getElem?_concat_length, Option.some.injEq] at hsub'
      exact Or.inr ⟨rfl, hsub'.symm⟩
  constructor
  · intro d' x'
    have hp := h.pending d' x'
    rw [← htrans] at hp
    rw [show Queue.usedDescs q' = s.q.usedDescs from hw.used]
    exact hp
  · exact h.apart
  · exact h.clear
  · intro d' x' hx' k hk sub' hsub'
    rcases hcase k sub' hsub' with ⟨hlt, hsub'⟩ | ⟨rfl, rfl⟩
    · exact h.issued d' x' hx' k (hold d' x' hx' k hk hlt) sub' hsub'
    · -- the new command is one of descriptor `d` only
      obtain ⟨hd', rfl⟩ := (h.pending d' x').1 hx'
      by_cases hd : d' = d
      · subst hd
        exact hnew
      · have hcmds : (q'.desc d').cmds = (s.q.desc d').cmds := hw.cmds d' hd
        rw [hcmds] at hk
        obtain ⟨sub'', hsub'', -⟩ := hi.acc.cmds d' hd' _ hk
        exact absurd (List.getElem?_eq_some_iff.1 hsub'').1 (Nat.lt_irrefl _)
  · intro c hc pages hp sub' hsub'
    obtain ⟨sub'', hsub'', -⟩ := hi.dev.entry c hc
    have hlt := (List.getElem?_eq_some_iff.1 hsub'').1
    rcases hcase _ _ hsub' with ⟨-, hsub'⟩ | ⟨heq, -⟩
    · exact h.loaded c hc pages hp sub' hsub'
    · omega
  · intro d' x' hx' k hk sub' hsub' he
    have hexec : Executed s.dev k := he
    have hlt := hexec.lt hi.dev
    rcases hcase k sub' hsub' with ⟨-, hsub'⟩ | ⟨heq, -⟩
    · exact h.done d' x' hx' k (hold d' x' hx' k hk hlt) sub' hsub' hexec
    · omega
  · exact h.disk
  · exact h.mem

/-- What every step does to the data, until a descriptor is released. -/
theorem BlockQueue.Holds.data_step (h : Q.Holds t s pc) (hi : s.Inv pc)
    (hstep : Step E Q.guards (s, pc) (s', pc')) (hused : s'.q.usedDescs = s.q.usedDescs)
    (hlog : s'.LogIn Q.InList) : Q.Data t s' := by
  cases hstep with
  | act _ _ a => exact (h.act hi a).1
  | sched _ _ σ =>
      exact h.data.congr rfl (fun _ => Desc.SameRequest.refl _) (fun _ => rfl) rfl rfl rfl
        (fun c hc _ hp => ⟨c, hc, rfl, hp⟩) (fun _ he => he)
  | advance _ hp =>
      exact h.data.congr rfl (fun _ => Desc.SameRequest.refl _) (fun _ => rfl) rfl rfl rfl
        (fun c hc _ hp => ⟨c, hc, rfl, hp⟩) (fun _ he => he)
  | ring _ =>
      exact h.data.congr rfl (fun _ => Desc.SameRequest.refl _) (fun _ => rfl) rfl rfl rfl
        (fun c hc _ hp => ⟨c, hc, rfl, hp⟩) (fun _ he => he)
  | reap _ k e q' hp hq =>
      obtain ⟨sub, hs, hc, hnew⟩ := hi.dev.next_pending hp
      obtain ⟨d, p, -, -, hret, -⟩ := hi.acc.reap hp hs hc hnew
      rw [hq, Except.ok.injEq] at hret
      subst hret
      exact h.data.congr hused (Queue.clearCid_sameRequest s.q d e.cid e.stat)
        (Queue.clearCid_cmds s.q d e.cid e.stat) rfl rfl rfl
        (fun c hc _ hp => ⟨c, hc, rfl, hp⟩) (fun _ he => he)
  | take _ d q' f hget hf hs hG => exact False.elim hG
  | put _ d hd h0 =>
      obtain ⟨herase, -, -⟩ := hi.acc.descPut hd h0
      have hlen := List.length_erase_of_mem hd
      have hpos := List.length_pos_of_mem hd
      rw [← herase] at hlen
      rw [show (unvmeDescPut s.q d).usedDescs = s.q.usedDescs from hused] at hlen
      omega
  | claim _ d cid q' hd hroom hq =>
      rcases hi.acc.claim hd hroom with ⟨herr, -⟩ | ⟨c, hok, -⟩
      · rw [hq] at herr
        cases herr
      · rw [hq, Except.ok.injEq, Prod.mk.injEq] at hok
        obtain ⟨rfl, rfl⟩ := hok
        exact h.data.congr hused (Queue.setCid_sameRequest s.q d cid) (Queue.setCid_cmds s.q d cid)
          rfl rfl rfl (fun c hc _ hp => ⟨c, hc, rfl, hp⟩) (fun _ he => he)
  | map _ d cid buf bufsz addr ha hmap => exact h.data.storePrps hlog
  | fill _ d cid buf bufsz addr e hc h1 h2 hG =>
      exact h.data.congr rfl (fun _ => Desc.SameRequest.refl _) (fun _ => rfl) rfl rfl rfl
        (fun c hc _ hp => ⟨c, hc, rfl, hp⟩) (fun _ he => he)
  | submit _ d cid buf bufsz addr e =>
      have hissued : Q.Issued (transfer E.ns (s.q.desc d)) ⟨e, d, buf, bufsz, []⟩ := h.hand
      have hnew : Q.Issued (transfer E.ns (s.q.desc d)) ⟨e, d, buf, bufsz, s.dev.hist.inFlight⟩ :=
        ⟨hissued.piece, hissued.describes, hissued.cid, hissued.cid16, hissued.prp1, hissued.prp2⟩
      exact h.data.submit hi hnew

/-- The command in hand after a step. -/
theorem BlockQueue.Holds.hand_step (h : Q.Holds t s pc) (hi : s.Inv pc)
    (hstep : Step E Q.guards (s, pc) (s', pc')) : Q.Hand s' pc' := by
  cases hstep with
  | act _ _ a => exact h.hand
  | sched _ _ σ => exact h.hand
  | advance _ hp => trivial
  | ring _ => trivial
  | reap _ k e q' hp hq => trivial
  | take _ d q' f hget hf hs hG => trivial
  | put _ d hd h0 => trivial
  | claim _ d cid q' hd hroom hq => trivial
  | map _ d cid buf bufsz addr ha hmap =>
      rw [hmap.dma, Except.ok.injEq] at ha
      exact ⟨hmap, ha.symm⟩
  | fill _ d cid buf bufsz addr e hc h1 h2 hG =>
      obtain ⟨hdescribes, rfl⟩ := h.hand
      have hid := hi.hand_lt rfl
      have hlt := Queue.lt_size_of_lt_ids hid
      have h16 := Queue.lt_two_pow_of_lt_ids hid
      rw [h.size, ← hc] at hlt
      rw [← hc] at h16
      rw [h.prplist, ← hc] at h1 h2
      exact ⟨hG, hdescribes, hlt, h16, h1, h2⟩
  | submit _ d cid buf bufsz addr e => trivial

/-- **No step between submission and completion is seen in the store.** -/
theorem BlockQueue.Holds.step (h : Q.Holds t s pc) (hi : s.Inv pc)
    (hstep : Step E Q.guards (s, pc) (s', pc')) (hused : s'.q.usedDescs = s.q.usedDescs) :
    Q.Holds t s' pc' := by
  have hsame := hstep.sameQueue hi
  have hprp := hsame.prplist.trans h.prplist
  have hsize := hsame.size.trans h.size
  have hfit : ∀ q d buf bufsz, Q.guards.map q d buf bufsz → E.ns.FitsList bufsz :=
    fun _ _ _ _ hmap => hmap.fits
  have hslots := hstep.logSlots hfit hi h.log
  have hlog := BlockQueue.logIn_of_slots hprp hsize hslots
  exact ⟨hprp, hsize, h.data_step hi hstep hused hlog, hslots,
    hstep.listsKept (fun a x hx => (h.act hi a).2 x hx) hfit hi (fun _ => h.lists) hlog,
    h.hand_step hi hstep⟩

/-- A step takes no descriptor into use. -/
theorem Step.used_length_le (hi : s.Inv pc) (hstep : Step E Q.guards (s, pc) (s', pc')) :
    s'.q.usedDescs = s.q.usedDescs ∨ s'.q.usedDescs.length < s.q.usedDescs.length := by
  cases hstep with
  | reap _ k e q' hp hq =>
      obtain ⟨sub, hs, hc, hnew⟩ := hi.dev.next_pending hp
      obtain ⟨d, p, -, -, hret, hused, -⟩ := hi.acc.reap hp hs hc hnew
      rw [hq, Except.ok.injEq] at hret
      subst hret
      exact Or.inl hused
  | take _ d q' f hget hf hs hG => exact False.elim hG
  | put _ d hd h0 =>
      right
      obtain ⟨herase, -, -⟩ := hi.acc.descPut hd h0
      have hpos := List.length_pos_of_mem hd
      show (unvmeDescPut s.q d).usedDescs.length < _
      rw [herase, List.length_erase_of_mem hd]
      omega
  | claim _ d cid q' hd hroom hq =>
      rcases hi.acc.claim hd hroom with ⟨herr, -⟩ | ⟨c, hok, -, -, hused, -⟩
      · rw [hq] at herr
        cases herr
      · rw [hq, Except.ok.injEq, Prod.mk.injEq] at hok
        obtain ⟨rfl, rfl⟩ := hok
        exact Or.inl hused
  | act _ _ a => exact Or.inl rfl
  | sched _ _ σ => exact Or.inl rfl
  | advance _ hp => exact Or.inl rfl
  | ring _ => exact Or.inl rfl
  | map _ d cid buf bufsz addr ha hmap => exact Or.inl rfl
  | fill _ d cid buf bufsz addr e hc h1 h2 hG => exact Or.inl rfl
  | submit _ d cid buf bufsz addr e => exact Or.inl rfl

/-- What the driver knows of a request stays when it goes on: the descriptor is in use for it, and commands
    have been submitted for it. -/
structure Sys.Keeps (d : ℕ) (s s' : Sys) : Prop where
  used : d ∈ s.q.usedDescs → d ∈ s'.q.usedDescs
  desc : Desc.SameRequest (s.q.desc d) (s'.q.desc d)
  cmds : (s.q.desc d).cmds ⊆ (s'.q.desc d).cmds
  subs : s.dev.hist.subs <+: s'.dev.hist.subs

/-- Another queue has written to memory or medium. -/
theorem Sys.Keeps.of_queue {d : ℕ} (hq : s'.q = s.q) (hs : s'.dev.hist.subs = s.dev.hist.subs) :
    Sys.Keeps d s s' :=
  ⟨fun hd => hq ▸ hd, hq ▸ Desc.SameRequest.refl _, fun _ hk => hq ▸ hk, hs ▸ List.prefix_rfl⟩

/-- **A step that releases nothing keeps every request.** -/
theorem Step.keeps (hi : s.Inv pc) (hstep : Step E Q.guards (s, pc) (s', pc'))
    (hused : s'.q.usedDescs = s.q.usedDescs) (d : ℕ) : Sys.Keeps d s s' := by
  cases hstep with
  | act _ _ a => exact Sys.Keeps.of_queue rfl (Device.Later.act s.dev E.media a).subs
  | sched _ _ σ => exact Sys.Keeps.of_queue rfl rfl
  | advance _ hp => exact Sys.Keeps.of_queue rfl rfl
  | ring _ => exact Sys.Keeps.of_queue rfl rfl
  | reap _ k e q' hp hq =>
      obtain ⟨sub, hs, hc, hnew⟩ := hi.dev.next_pending hp
      obtain ⟨x, p, -, -, hret, -⟩ := hi.acc.reap hp hs hc hnew
      rw [hq, Except.ok.injEq] at hret
      subst hret
      refine ⟨fun hd => hused.symm ▸ hd, Queue.clearCid_sameRequest s.q x e.cid e.stat d, ?_, List.prefix_rfl⟩
      rw [Queue.clearCid_cmds]
      exact List.Subset.refl _
  | take _ x q' f hget hf hs hG => exact False.elim hG
  | put _ x hx h0 =>
      exact ⟨fun hd => hused.symm ▸ hd, Desc.SameRequest.refl _, List.Subset.refl _, List.prefix_rfl⟩
  | claim _ x cid q' hx hroom hq =>
      rcases hi.acc.claim hx hroom with ⟨herr, -⟩ | ⟨c, hok, -⟩
      · rw [hq] at herr
        cases herr
      · rw [hq, Except.ok.injEq, Prod.mk.injEq] at hok
        obtain ⟨rfl, rfl⟩ := hok
        refine ⟨fun hd => hused.symm ▸ hd, Queue.setCid_sameRequest s.q x cid d, ?_, List.prefix_rfl⟩
        rw [Queue.setCid_cmds]
        exact List.Subset.refl _
  | map _ x cid buf bufsz addr ha hmap => exact Sys.Keeps.of_queue rfl (storePrps_subs _ _)
  | fill _ x cid buf bufsz addr e hc h1 h2 hG => exact Sys.Keeps.of_queue rfl rfl
  | submit _ x cid buf bufsz addr e =>
      have hw := Sys.Works.submit s x ⟨e, x, buf, bufsz, s.dev.hist.inFlight⟩
      refine ⟨fun hd => hused.symm ▸ hd, hw.desc d, ?_, hw.subs ▸ List.prefix_append _ _⟩
      by_cases hd : d = x
      · subst hd
        rw [hw.own]
        exact List.subset_append_left _ _
      · rw [hw.cmds d hd]
        exact List.Subset.refl _

theorem Steps.used_length_le (hi : s.Inv pc) (hsteps : Steps E Q.guards (s, pc) (s', pc')) :
    s'.q.usedDescs = s.q.usedDescs ∨ s'.q.usedDescs.length < s.q.usedDescs.length := by
  refine (hsteps.invariant (P := fun s' _ => s'.q.usedDescs = s.q.usedDescs ∨
    s'.q.usedDescs.length < s.q.usedDescs.length) ?_ hi (Or.inl rfl)).2
  intro s₁ pc₁ s₂ pc₂ hi₁ hstep hs₁
  rcases Step.used_length_le hi₁ hstep with heq | hlt
  · rwa [heq]
  · rcases hs₁ with heq₁ | hlt₁
    · rw [heq₁] at hlt
      exact Or.inr hlt
    · exact Or.inr (hlt.trans hlt₁)

/-- A step that releases no request. -/
def QuietStep (Q : BlockQueue E) (b c : Sys × Pc) : Prop :=
  Step E Q.guards b c ∧ c.1.q.usedDescs = b.1.q.usedDescs

/-- Steps after which the same descriptors are in use have released none. -/
theorem Steps.quiet (hi : s.Inv pc) (hsteps : Steps E Q.guards (s, pc) (s', pc'))
    (hused : s'.q.usedDescs = s.q.usedDescs) : Relation.ReflTransGen (QuietStep Q) (s, pc) (s', pc') := by
  suffices ∀ b, Steps E Q.guards (s, pc) b → b.1.q.usedDescs = s.q.usedDescs →
      Relation.ReflTransGen (QuietStep Q) (s, pc) b from this _ hsteps hused
  intro b hb
  induction hb with
  | refl => exact fun _ => .refl
  | @tail b c hb hstep ih =>
      intro hc
      -- no descriptor is taken into use, so none has been released
      have hsame : c.1.q.usedDescs = b.1.q.usedDescs := by
        rcases Step.used_length_le (Steps.inv hb hi) hstep with heq | hlt
        · exact heq
        · rw [hc] at hlt
          rcases Steps.used_length_le hi hb with heq | hle
          · rw [heq] at hlt
            exact absurd hlt (Nat.lt_irrefl _)
          · exact absurd (hlt.trans hle) (Nat.lt_irrefl _)
      exact (ih (hsame.symm.trans hc)).tail ⟨hstep, hsame⟩

theorem BlockQueue.Holds.steps (h : Q.Holds t s pc) (hi : s.Inv pc)
    (hsteps : Steps E Q.guards (s, pc) (s', pc')) (hused : s'.q.usedDescs = s.q.usedDescs) :
    Q.Holds t s' pc' := by
  suffices ∀ b, Relation.ReflTransGen (QuietStep Q) (s, pc) b → b.1.Inv b.2 ∧ Q.Holds t b.1 b.2 from
    (this _ (Steps.quiet hi hsteps hused)).2
  intro b hb
  induction hb with
  | refl => exact ⟨hi, h⟩
  | tail _ hstep ih => exact ⟨hstep.1.inv ih.1, ih.2.step ih.1 hstep.1 hstep.2⟩

end

end Unvme.Store
