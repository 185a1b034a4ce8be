import Unvme.Core.QueueInv
import Unvme.Nvme.DeviceInv

set_option autoImplicit false

/-! # Pending command ids against the history

`Queue.Wf` says that the records of a queue agree with each other; `Accounts q h hand` says that
they agree with what happened: the pending ids of a descriptor are the ids of its commands submitted
and not yet reaped, plus the id in hand while one has been taken and not yet submitted. One lemma
per change of the queue or the history. -/

namespace Unvme.Core

open Unvme.Lib Unvme.Nvme

variable {q : Queue} {h : History} {hand : Option (ℕ × ℕ)}

/-- The records of `q` agree with the history `h`; `hand` is a descriptor and the command id taken
    for it that is not submitted yet. -/
structure Accounts (q : Queue) (h : History) (hand : Option (ℕ × ℕ)) : Prop where
  wf : q.Wf q.usedDescs q.freeDescs
  bits : ∀ d ∈ q.usedDescs, ∀ c, c ∈ q.pending d ↔
    (∃ k ∈ (q.desc d).cmds, h.Pending k c) ∨ hand = some (d, c)
  owned : ∀ k c, h.Pending k c → ∃ d ∈ q.usedDescs, k ∈ (q.desc d).cmds
  inj : ∀ k k' c, h.Pending k c → h.Pending k' c → k = k'
  inHand : ∀ d c, hand = some (d, c) → d ∈ q.usedDescs ∧ ∀ k, ¬ h.Pending k c
  cmds : ∀ d ∈ q.usedDescs, ∀ k ∈ (q.desc d).cmds, ∃ sub, h.subs[k]? = some sub ∧ sub.desc = d
  count : (h.subs.length : ℤ) + hand.toList.length = h.reaped + q.cidcount
  noError : ∀ d ∈ q.usedDescs, (q.desc d).error = 0 →
    ∀ k ∈ (q.desc d).cmds, ∀ e, h.Reaped k e → e.stat = 0
  error : ∀ d ∈ q.usedDescs, (q.desc d).error ≠ 0 →
    ∃ k ∈ (q.desc d).cmds, ∃ e, h.Reaped k e ∧ e.stat = (q.desc d).error
  others : ∀ sub ∈ h.subs, sub.entry.cid ∉ sub.others
  sentinel : ∀ d ∈ q.usedDescs, (q.desc d).sentinel = some d

namespace Accounts

/-- The command ids set in the queue are those in flight and the one in hand. -/
theorem mem_cidmask (a : Accounts q h hand) (c : ℕ) :
    c ∈ q.cidmask.bits ↔ (∃ k, h.Pending k c) ∨ ∃ d, hand = some (d, c) := by
  rw [a.wf.bits]
  constructor
  · rintro ⟨d, hd, hc⟩
    rcases (a.bits d hd c).1 hc with ⟨k, -, hk⟩ | hh
    · exact Or.inl ⟨k, hk⟩
    · exact Or.inr ⟨d, hh⟩
  · rintro (⟨k, hk⟩ | ⟨d, hh⟩)
    · obtain ⟨d, hd, hkd⟩ := a.owned k c hk
      exact ⟨d, hd, (a.bits d hd c).2 (Or.inl ⟨k, hkd, hk⟩)⟩
    · obtain ⟨hd, -⟩ := a.inHand d c hh
      exact ⟨d, hd, (a.bits d hd c).2 (Or.inr hh)⟩

/-- Only submissions and reaped completions matter. -/
theorem same (a : Accounts q h hand) {h' : History} (hs : h.Same h') : Accounts q h' hand where
  wf := a.wf
  bits := by simpa only [hs.pending_iff] using a.bits
  owned := by simpa only [hs.pending_iff] using a.owned
  inj := by simpa only [hs.pending_iff] using a.inj
  inHand := by simpa only [hs.pending_iff] using a.inHand
  cmds := by simpa only [hs.subs] using a.cmds
  count := by simpa only [hs.subs, hs.reaped] using a.count
  noError := by simpa only [hs.reaped_iff] using a.noError
  error := by simpa only [hs.reaped_iff] using a.error
  others := by simpa only [hs.subs] using a.others
  sentinel := a.sentinel

end Accounts

/-- `y` is `x` as far as the accounting is concerned. -/
structure Desc.SameIds (x y : Desc) : Prop where
  error : y.error = x.error
  cidcount : y.cidcount = x.cidcount
  cidmask : y.cidmask = x.cidmask
  cmds : y.cmds = x.cmds

namespace Accounts

/-! ## Descriptors -/

/-- A descriptor taken into use, its other fields set, owns nothing. -/
theorem descGet (a : Accounts q h none) :
    ∃ d q', unvmeDescGet q = (d, q') ∧ d ∉ q.usedDescs ∧ q'.usedDescs = q.usedDescs ++ [d] ∧
      q.SameMasks q' ∧ q'.prplist = q.prplist ∧ (∀ x, x ≠ d → q'.desc x = q.desc x) ∧
      (q'.desc d).cmds = [] ∧ (q'.desc d).error = 0 ∧
      ∀ f : Desc → Desc, (∀ x, Desc.SameIds x (f x)) → (f (q'.desc d)).sentinel = some d →
        Accounts (q'.setDesc d f) h none := by
  obtain ⟨d, q', hget, hwf, hd, hsame, hprp, hother, hpend, herr, hcmds⟩ := a.wf.descGet
  refine ⟨d, q', hget, hd, hwf.usedDescs_eq, hsame, hprp, hother, hcmds, herr, ?_⟩
  intro f hf hsent
  have hwf' : (q'.setDesc d f).Wf (q.usedDescs ++ [d]) q.freeDescs.tail :=
    hwf.setDesc d (hf _).cidmask (hf _).cidcount
  have hused : (q'.setDesc d f).usedDescs = q.usedDescs ++ [d] := hwf'.usedDescs_eq
  have hne : ∀ x ∈ q.usedDescs, x ≠ d := fun x hx he => hd (he ▸ hx)
  have hold : ∀ x ∈ q.usedDescs, (q'.setDesc d f).desc x = q.desc x := fun x hx => by
    rw [Queue.setDesc_of_ne (hne x hx), hother x (hne x hx)]
  have hnewc : ((q'.setDesc d f).desc d).cmds = [] := by
    rw [Queue.setDesc_self, (hf _).cmds, hcmds]
  have hnewp : (q'.setDesc d f).pending d = ∅ := by
    rw [Queue.pending, Queue.setDesc_self, (hf _).cidmask]
    exact hpend
  -- every descriptor in use is an old one or the new one, which has no commands
  have hcase : ∀ x ∈ (q'.setDesc d f).usedDescs, x ∈ q.usedDescs ∨ x = d := by
    intro x hx
    rw [hused] at hx
    simpa using hx
  refine ⟨?_, ?_, ?_, a.inj, by simp, ?_, ?_, ?_, ?_, a.others, ?_⟩
  · rw [hused, hwf'.freeDescs_eq]; exact hwf'
  · intro x hx c
    rcases hcase x hx with hx | rfl
    · rw [Queue.pending, hold x hx]
      exact a.bits x hx c
    · rw [hnewp, hnewc]
      simp
  · intro k c hk
    obtain ⟨x, hx, hkx⟩ := a.owned k c hk
    exact ⟨x, by rw [hused]; exact List.mem_append_left _ hx, by rw [hold x hx]; exact hkx⟩
  · intro x hx k hk
    rcases hcase x hx with hx | rfl
    · rw [hold x hx] at hk
      exact a.cmds x hx k hk
    · rw [hnewc] at hk
      exact absurd hk (List.not_mem_nil)
  · show _ = (h.reaped : ℤ) + q'.cidcount
    rw [hsame.cidcount]; exact a.count
  · intro x hx h0 k hk
    rcases hcase x hx with hx | rfl
    · rw [hold x hx] at h0 hk
      exact a.noError x hx h0 k hk
    · rw [hnewc] at hk
      exact absurd hk (List.not_mem_nil)
  · intro x hx h0
    rcases hcase x hx with hx | rfl
    · rw [hold x hx] at h0 ⊢
      exact a.error x hx h0
    · rw [Queue.setDesc_self, (hf _).error, herr] at h0
      exact absurd rfl h0
  · intro x hx
    rcases hcase x hx with hx | rfl
    · rw [hold x hx]; exact a.sentinel x hx
    · rw [Queue.setDesc_self]; exact hsent

/-- Releasing a descriptor without pending ids. -/
theorem descPut (a : Accounts q h none) {d : ℕ} (hd : d ∈ q.usedDescs)
    (h0 : (q.desc d).cidcount = 0) :
    (unvmeDescPut q d).usedDescs = q.usedDescs.erase d ∧
      (unvmeDescPut q d).freeDescs = q.freeDescs ++ [d] ∧ Accounts (unvmeDescPut q d) h none := by
  have hwf := a.wf.descPut hd h0
  have hused : (unvmeDescPut q d).usedDescs = q.usedDescs.erase d := hwf.usedDescs_eq
  have hempty := (a.wf.toMasks.pending_eq_empty_iff hd).1 h0
  have hsub : ∀ x ∈ (unvmeDescPut q d).usedDescs, x ∈ q.usedDescs := fun x hx => by
    rw [hused] at hx; exact List.mem_of_mem_erase hx
  refine ⟨hused, hwf.freeDescs_eq, ⟨?_, ?_, ?_, a.inj, by simp, ?_, a.count, ?_, ?_, a.others,
    fun x hx => a.sentinel x (hsub x hx)⟩⟩
  · rw [hused, hwf.freeDescs_eq]; exact hwf
  · intro x hx c
    exact a.bits x (hsub x hx) c
  · intro k c hk
    obtain ⟨x, hx, hkx⟩ := a.owned k c hk
    have hxd : x ≠ d := by
      rintro rfl
      have hc := (a.bits x hx c).2 (Or.inl ⟨k, hkx, hk⟩)
      rw [hempty] at hc
      exact Finset.notMem_empty c hc
    exact ⟨x, by rw [hused]; exact (List.mem_erase_of_ne hxd).2 hx, hkx⟩
  · intro x hx k hk
    exact a.cmds x (hsub x hx) k hk
  · intro x hx
    exact a.noError x (hsub x hx)
  · intro x hx
    exact a.error x (hsub x hx)

/-! ## Command ids -/

/-- **A command id is claimed only if no command in flight has it.** -/
theorem claim (a : Accounts q h none) {d : ℕ} (hd : d ∈ q.usedDescs)
    (hroom : q.cidcount + 1 < q.size) :
    (q.claim d = .error .hang ∧ 65536 ≤ q.cidcount) ∨
    ∃ c, q.claim d = .ok (c, q.setCid d c) ∧ c < q.size ∧ (∀ k, ¬ h.Pending k c) ∧
      (q.setCid d c).usedDescs = q.usedDescs ∧ (q.setCid d c).freeDescs = q.freeDescs ∧
      Accounts (q.setCid d c) h (some (d, c)) := by
  rcases a.wf.claim hd hroom with hhang | ⟨c, hok, hwf, hc, hfresh, hpend⟩
  · exact Or.inl hhang
  · have hnone : ∀ k, ¬ h.Pending k c := fun k hk =>
      hfresh ((a.mem_cidmask c).2 (Or.inl ⟨k, hk⟩))
    have hcmds := Queue.setCid_cmds q d c
    have herr : ∀ x, ((q.setCid d c).desc x).error = (q.desc x).error := by
      intro x
      by_cases hxd : x = d
      · subst hxd; rw [Queue.setCid_desc_self]
      · rw [Queue.setCid_desc_of_ne hxd]
    refine Or.inr ⟨c, hok, hc, hnone, hwf.usedDescs_eq, hwf.freeDescs_eq, ?_⟩
    refine ⟨?_, ?_, ?_, a.inj, ?_, ?_, ?_, ?_, ?_, a.others, ?_⟩
    · rw [hwf.usedDescs_eq, hwf.freeDescs_eq]; exact hwf
    · intro x hx c'
      rw [hwf.usedDescs_eq] at hx
      rw [hcmds]
      by_cases hxd : x = d
      · subst hxd
        have := a.bits x hx c'
        simp only [reduceCtorEq, or_false] at this
        rw [hpend, Finset.mem_insert, this, Option.some.injEq, Prod.mk.injEq, or_comm,
          eq_comm (a := c'), and_iff_right rfl]
      · have := a.bits x hx c'
        simp only [reduceCtorEq, or_false] at this
        rw [Queue.pending, Queue.setCid_desc_of_ne hxd, ← Queue.pending, this, Option.some.injEq,
          Prod.mk.injEq]
        simp [Ne.symm hxd]
    · intro k c' hk
      obtain ⟨x, hx, hkx⟩ := a.owned k c' hk
      exact ⟨x, by rw [hwf.usedDescs_eq]; exact hx, by rw [hcmds]; exact hkx⟩
    · intro d' c' he
      simp only [Option.some.injEq, Prod.mk.injEq] at he
      obtain ⟨rfl, rfl⟩ := he
      exact ⟨by rw [hwf.usedDescs_eq]; exact hd, hnone⟩
    · intro x hx k hk
      rw [hwf.usedDescs_eq] at hx
      rw [hcmds] at hk
      exact a.cmds x hx k hk
    · have := a.count
      simp only [Option.toList_none, List.length_nil] at this
      simp only [Option.toList_some, List.length_singleton]
      show (h.subs.length : ℤ) + ((1 : ℕ) : ℤ) = h.reaped + (q.cidcount + 1)
      push_cast
      push_cast at this
      omega
    · intro x hx h0 k hk
      rw [hwf.usedDescs_eq] at hx
      rw [herr] at h0
      rw [hcmds] at hk
      exact a.noError x hx h0 k hk
    · intro x hx h0
      rw [hwf.usedDescs_eq] at hx
      rw [herr] at h0 ⊢
      rw [hcmds]
      exact a.error x hx h0
    · intro x hx
      rw [hwf.usedDescs_eq] at hx
      rw [Queue.setCid_sentinel]
      exact a.sentinel x hx

/-! ## Submitting and reaping -/

/-- The id in hand becomes the id of a command in flight. -/
theorem submit {d c : ℕ} (a : Accounts q h (some (d, c))) {sub : Sub} (hdesc : sub.desc = d)
    (hcid : sub.entry.cid = c) (hothers : sub.others = h.inFlight)
    (hnew : h.subs.length ∉ h.reapedSeqs) :
    Accounts (q.setDesc d (fun x => { x with cmds := x.cmds ++ [h.subs.length] }))
      { h with subs := h.subs ++ [sub] } none := by
  obtain ⟨hd, hfree⟩ := a.inHand d c rfl
  have hwf : (q.setDesc d (fun x => { x with cmds := x.cmds ++ [h.subs.length] })).Wf
      q.usedDescs q.freeDescs := a.wf.setDesc d rfl rfl
  have hpend : ∀ {k c' : ℕ}, History.Pending { h with subs := h.subs ++ [sub] } k c' ↔
      h.Pending k c' ∨ k = h.subs.length ∧ sub.entry.cid = c' := History.pending_submit hnew
  have hmask : ∀ x, (q.setDesc d (fun x => { x with cmds := x.cmds ++ [h.subs.length] })).pending x
      = q.pending x := by
    intro x
    rw [Queue.pending]
    by_cases hxd : x = d
    · subst hxd; rw [Queue.setDesc_self]; rfl
    · rw [Queue.setDesc_of_ne hxd]; rfl
  have herr : ∀ x, ((q.setDesc d (fun x => { x with cmds := x.cmds ++ [h.subs.length] })).desc x).error
      = (q.desc x).error := by
    intro x
    by_cases hxd : x = d
    · subst hxd; rw [Queue.setDesc_self]
    · rw [Queue.setDesc_of_ne hxd]
  have hself : ((q.setDesc d (fun x => { x with cmds := x.cmds ++ [h.subs.length] })).desc d).cmds
      = (q.desc d).cmds ++ [h.subs.length] := by rw [Queue.setDesc_self]
  have hother : ∀ x, x ≠ d →
      (q.setDesc d (fun x => { x with cmds := x.cmds ++ [h.subs.length] })).desc x = q.desc x :=
    fun x hx => Queue.setDesc_of_ne hx
  have hlt : ∀ x ∈ q.usedDescs, ∀ k ∈ (q.desc x).cmds, k < h.subs.length := by
    intro x hx k hk
    obtain ⟨y, hy, -⟩ := a.cmds x hx k hk
    exact (List.getElem?_eq_some_iff.1 hy).1
  -- the new command is not reaped, so the reaped commands of a descriptor are its old ones
  have hreap : ∀ x ∈ q.usedDescs, ∀ k e,
      k ∈ ((q.setDesc d (fun x => { x with cmds := x.cmds ++ [h.subs.length] })).desc x).cmds →
      h.Reaped k e → k ∈ (q.desc x).cmds := by
    intro x hx k e hk he
    by_cases hxd : x = d
    · subst hxd
      rw [hself] at hk
      rcases List.mem_append.1 hk with hk | hk
      · exact hk
      · rw [List.mem_singleton.1 hk] at he
        exact absurd (History.mem_reapedSeqs.2 ⟨e, he⟩) hnew
    · rw [hother x hxd] at hk; exact hk
  refine ⟨?_, ?_, ?_, ?_, by simp, ?_, ?_, ?_, ?_, ?_, ?_⟩
  · rw [hwf.usedDescs_eq, hwf.freeDescs_eq]; exact hwf
  · intro x hx c'
    rw [hwf.usedDescs_eq] at hx
    rw [hmask, a.bits x hx c']
    simp only [hpend, Option.some.injEq, Prod.mk.injEq, reduceCtorEq, or_false]
    by_cases hxd : x = d
    · subst hxd
      rw [hself]
      constructor
      · rintro (⟨k, hk, hkp⟩ | ⟨-, rfl⟩)
        · exact ⟨k, List.mem_append_left _ hk, Or.inl hkp⟩
        · exact ⟨_, List.mem_append_right _ (List.mem_singleton.2 rfl), Or.inr ⟨rfl, hcid⟩⟩
      · rintro ⟨k, hk, hkp⟩
        rcases hkp with hkp | ⟨rfl, hc'⟩
        · rcases List.mem_append.1 hk with hk | hk
          · exact Or.inl ⟨k, hk, hkp⟩
          · rw [List.mem_singleton.1 hk] at hkp
            obtain ⟨⟨y, hy, -⟩, -⟩ := hkp
            rw [List.getElem?_eq_none le_rfl] at hy
            exact absurd hy (by simp)
        · exact Or.inr ⟨rfl, hcid.symm.trans hc'⟩
    · rw [hother x hxd]
      constructor
      · rintro (⟨k, hk, hkp⟩ | ⟨rfl, -⟩)
        · exact ⟨k, hk, Or.inl hkp⟩
        · exact absurd rfl hxd
      · rintro ⟨k, hk, hkp | ⟨rfl, -⟩⟩
        · exact Or.inl ⟨k, hk, hkp⟩
        · exact absurd (hlt x hx _ hk) (lt_irrefl _)
  · intro k c' hk
    rw [hwf.usedDescs_eq]
    rcases hpend.1 hk with hk | ⟨rfl, -⟩
    · obtain ⟨x, hx, hkx⟩ := a.owned k c' hk
      refine ⟨x, hx, ?_⟩
      by_cases hxd : x = d
      · subst hxd; rw [hself]; exact List.mem_append_left _ hkx
      · rw [hother x hxd]; exact hkx
    · exact ⟨d, hd, by rw [hself]; simp⟩
  · intro k k' c' hk hk'
    rcases hpend.1 hk with hk | ⟨rfl, hc1⟩
    · rcases hpend.1 hk' with hk' | ⟨rfl, hc2⟩
      · exact a.inj k k' c' hk hk'
      · rw [← hc2, hcid] at hk
        exact absurd hk (hfree k)
    · rcases hpend.1 hk' with hk' | ⟨rfl, -⟩
      · rw [← hc1, hcid] at hk'
        exact absurd hk' (hfree k')
      · rfl
  · intro x hx k hk
    rw [hwf.usedDescs_eq] at hx
    have hkeep : ∀ k : ℕ, (∃ y : Sub, h.subs[k]? = some y ∧ y.desc = x) →
        ∃ y : Sub, (h.subs ++ [sub])[k]? = some y ∧ y.desc = x := by
      rintro k ⟨y, hy, hyd⟩
      exact ⟨y, by rw [List.getElem?_append_left (List.getElem?_eq_some_iff.1 hy).1]; exact hy, hyd⟩
    by_cases hxd : x = d
    · subst hxd
      rw [hself] at hk
      rcases List.mem_append.1 hk with hk | hk
      · exact hkeep k (a.cmds x hx k hk)
      · rw [List.mem_singleton.1 hk]
        exact ⟨sub, by simp, hdesc⟩
    · rw [hother x hxd] at hk
      exact hkeep k (a.cmds x hx k hk)
  · have := a.count
    simp only [Option.toList_some, List.length_singleton] at this
    simp only [Option.toList_none, List.length_nil, List.length_append, List.length_singleton]
    show _ = (h.reaped : ℤ) + q.cidcount
    push_cast at this ⊢
    omega
  · intro x hx h0 k hk e he
    rw [hwf.usedDescs_eq] at hx
    rw [herr] at h0
    exact a.noError x hx h0 k (hreap x hx k e hk he) e he
  · intro x hx h0
    rw [hwf.usedDescs_eq] at hx
    rw [herr] at h0 ⊢
    obtain ⟨k, hk, e, he, hst⟩ := a.error x hx h0
    refine ⟨k, ?_, e, he, hst⟩
    by_cases hxd : x = d
    · subst hxd; rw [hself]; exact List.mem_append_left _ hk
    · rw [hother x hxd]; exact hk
  · intro y hy
    rcases List.mem_append.1 hy with hy | hy
    · exact a.others y hy
    · rw [List.mem_singleton.1 hy, hothers, History.mem_inFlight, hcid]
      rintro ⟨k, hk⟩
      exact hfree k hk
  · intro x hx
    rw [hwf.usedDescs_eq] at hx
    by_cases hxd : x = d
    · subst hxd; rw [Queue.setDesc_self]; exact a.sentinel x hx
    · rw [hother x hxd]; exact a.sentinel x hx

/-- **Reaping a completion clears the id of its command, in the descriptor it was issued for.** -/
theorem reap (a : Accounts q h none) {k : ℕ} {e : CqEntry} {sub : Sub}
    (hp : h.posts[h.reaped]? = some (k, e)) (hsub : h.subs[k]? = some sub)
    (hcid : e.cid = sub.entry.cid) (hnew : k ∉ h.reapedSeqs) :
    ∃ d p, d ∈ q.usedDescs ∧ k ∈ (q.desc d).cmds ∧
      q.retire e.cid e.stat = .ok { q.clearCid d e.cid e.stat with descpend := p } ∧
      Queue.usedDescs { q.clearCid d e.cid e.stat with descpend := p } = q.usedDescs ∧
      Queue.freeDescs { q.clearCid d e.cid e.stat with descpend := p } = q.freeDescs ∧
      Accounts { q.clearCid d e.cid e.stat with descpend := p }
        { h with reaped := h.reaped + 1 } none := by
  have hk : h.Pending k e.cid := ⟨⟨sub, hsub, hcid.symm⟩, hnew⟩
  obtain ⟨d, hd, hcd, p, hret, hwf, hpend, -⟩ :=
    a.wf.retire ((a.mem_cidmask e.cid).2 (Or.inl ⟨k, hk⟩)) e.stat
  have hbits : ∀ x ∈ q.usedDescs, ∀ c, c ∈ q.pending x ↔ ∃ k ∈ (q.desc x).cmds, h.Pending k c := by
    intro x hx c
    simpa using a.bits x hx c
  -- the descriptor found is the one the command was issued for
  have hkd : k ∈ (q.desc d).cmds := by
    obtain ⟨k', hk', hpk'⟩ := (hbits d hd e.cid).1 hcd
    rwa [a.inj k k' e.cid hk hpk']
  have hused := hwf.usedDescs_eq
  have hcmds := Queue.clearCid_cmds q d e.cid e.stat
  have howner : ∀ x ∈ q.usedDescs, k ∈ (q.desc x).cmds → x = d := by
    intro x hx hkx
    obtain ⟨y, hy, hyx⟩ := a.cmds x hx k hkx
    obtain ⟨z, hz, hzd⟩ := a.cmds d hd k hkd
    rw [hy, Option.some.injEq] at hz
    rw [← hyx, hz, hzd]
  refine ⟨d, p, hd, hkd, hret, hused, hwf.freeDescs_eq, ?_, ?_, ?_, ?_, by simp, ?_, ?_, ?_, ?_,
    a.others, ?_⟩
  · rw [hused, hwf.freeDescs_eq]; exact hwf
  · intro x hx c
    rw [hused] at hx
    show c ∈ (q.clearCid d e.cid e.stat).pending x ↔
      (∃ k' ∈ ((q.clearCid d e.cid e.stat).desc x).cmds, _) ∨ _
    simp only [hcmds, History.pending_reap hp, reduceCtorEq, or_false]
    by_cases hxd : x = d
    · subst hxd
      rw [hpend, Finset.mem_erase, hbits x hx]
      constructor
      · rintro ⟨hne, k', hk', hpk'⟩
        refine ⟨k', hk', hpk', ?_⟩
        rintro rfl
        obtain ⟨⟨y, hy, hyc⟩, -⟩ := hpk'
        rw [hsub, Option.some.injEq] at hy
        exact hne (by rw [← hyc, ← hy, hcid])
      · rintro ⟨k', hk', hpk', hne⟩
        refine ⟨?_, k', hk', hpk'⟩
        rintro rfl
        exact hne (a.inj k' k e.cid hpk' hk)
    · rw [Queue.pending, Queue.clearCid_desc_of_ne hxd, ← Queue.pending, hbits x hx]
      constructor
      · rintro ⟨k', hk', hpk'⟩
        refine ⟨k', hk', hpk', ?_⟩
        rintro rfl
        exact hxd (howner x hx hk')
      · rintro ⟨k', hk', hpk', -⟩
        exact ⟨k', hk', hpk'⟩
  · intro k' c hk'
    obtain ⟨x, hx, hkx⟩ := a.owned k' c ((History.pending_reap hp).1 hk').1
    refine ⟨x, by rw [hused]; exact hx, ?_⟩
    show k' ∈ ((q.clearCid d e.cid e.stat).desc x).cmds
    rw [hcmds]; exact hkx
  · intro k1 k2 c h1 h2
    exact a.inj k1 k2 c ((History.pending_reap hp).1 h1).1 ((History.pending_reap hp).1 h2).1
  · intro x hx k' hk'
    rw [hused] at hx
    change k' ∈ ((q.clearCid d e.cid e.stat).desc x).cmds at hk'
    rw [hcmds] at hk'
    exact a.cmds x hx k' hk'
  · have := a.count
    show (h.subs.length : ℤ) + _ = ((h.reaped + 1 : ℕ) : ℤ) + (q.cidcount - 1)
    push_cast at this ⊢
    omega
  · intro x hx h0 k' hk' e' he'
    rw [hused] at hx
    change ((q.clearCid d e.cid e.stat).desc x).error = 0 at h0
    change k' ∈ ((q.clearCid d e.cid e.stat).desc x).cmds at hk'
    rw [hcmds] at hk'
    have hx0 : (q.desc x).error = 0 ∧ (x = d → e.stat = 0) := by
      by_cases hxd : x = d
      · subst hxd
        rw [Queue.clearCid_desc_self] at h0
        by_cases hst : e.stat = 0
        · exact ⟨by simpa [hst] using h0, fun _ => hst⟩
        · simp [hst] at h0
      · rw [Queue.clearCid_desc_of_ne hxd] at h0
        exact ⟨h0, fun he => absurd he hxd⟩
    rcases (History.reaped_succ hp).1 he' with he' | ⟨rfl, rfl⟩
    · exact a.noError x hx hx0.1 k' hk' e' he'
    · exact hx0.2 (howner x hx hk')
  · intro x hx h0
    rw [hused] at hx
    change ((q.clearCid d e.cid e.stat).desc x).error ≠ 0 at h0
    show ∃ k' ∈ ((q.clearCid d e.cid e.stat).desc x).cmds, ∃ e' : CqEntry, _ ∧
      e'.stat = ((q.clearCid d e.cid e.stat).desc x).error
    rw [hcmds]
    by_cases hxd : x = d
    · subst hxd
      rw [Queue.clearCid_desc_self] at h0 ⊢
      by_cases hst : e.stat = 0
      · have h0' : (q.desc x).error ≠ 0 := by simpa [hst] using h0
        obtain ⟨k', hk', e', he', hst'⟩ := a.error x hx h0'
        exact ⟨k', hk', e', (History.reaped_succ hp).2 (Or.inl he'), by simpa [hst] using hst'⟩
      · exact ⟨k, hkd, e, (History.reaped_succ hp).2 (Or.inr ⟨rfl, rfl⟩), by simp [hst]⟩
    · rw [Queue.clearCid_desc_of_ne hxd] at h0 ⊢
      obtain ⟨k', hk', e', he', hst'⟩ := a.error x hx h0
      exact ⟨k', hk', e', (History.reaped_succ hp).2 (Or.inl he'), hst'⟩
  · intro x hx
    rw [hused] at hx
    exact (Queue.clearCid_sentinel q d e.cid e.stat x).trans (a.sentinel x hx)

/-- A command without a descriptor has been submitted and reaped while nothing else was in flight. -/
theorem synced (a : Accounts q h none) (hquiet : h.inFlight = []) {h' : History} {sub : Sub}
    {e : CqEntry} (hsubs : h'.subs = h.subs ++ [sub]) (hothers : sub.others = [])
    (hR : h'.reaped = h.reaped + 1) (hp : h'.posts[h.reaped]? = some (h.subs.length, e))
    (hposts : h'.posts.take h.reaped = h.posts.take h.reaped) : Accounts q h' none := by
  have hreaped : ∀ k x, h'.Reaped k x ↔ h.Reaped k x ∨ k = h.subs.length ∧ x = e := by
    intro k x
    rw [History.Reaped, hR, List.take_add_one, hp, hposts]
    simp [History.Reaped]
  have hnone : ∀ k c, ¬ h.Pending k c := by
    intro k c hk
    have hmem := History.mem_inFlight.2 ⟨k, hk⟩
    rw [hquiet] at hmem
    exact absurd hmem List.not_mem_nil
  have hseqs : ∀ k, k ∈ h.reapedSeqs ∨ k = h.subs.length → k ∈ h'.reapedSeqs := by
    rintro k (hk | rfl)
    · obtain ⟨x, hx⟩ := History.mem_reapedSeqs.1 hk
      exact History.mem_reapedSeqs.2 ⟨x, (hreaped k x).2 (Or.inl hx)⟩
    · exact History.mem_reapedSeqs.2 ⟨e, (hreaped _ e).2 (Or.inr ⟨rfl, rfl⟩)⟩
  have hnone' : ∀ k c, ¬ h'.Pending k c := by
    rintro k c ⟨⟨x, hx, hc⟩, hn⟩
    rw [hsubs] at hx
    rcases Nat.lt_or_ge k h.subs.length with hlt | hge
    · rw [List.getElem?_append_left hlt] at hx
      exact hnone k c ⟨⟨x, hx, hc⟩, fun hk => hn (hseqs k (Or.inl hk))⟩
    · have hlt := (List.getElem?_eq_some_iff.1 hx).1
      rw [List.length_append, List.length_singleton] at hlt
      exact hn (hseqs k (Or.inr (by omega)))
  have hold : ∀ d ∈ q.usedDescs, ∀ k ∈ (q.desc d).cmds, k < h.subs.length := by
    intro d hd k hk
    obtain ⟨x, hx, -⟩ := a.cmds d hd k hk
    exact (List.getElem?_eq_some_iff.1 hx).1
  refine ⟨a.wf, ?_, ?_, ?_, ?_, ?_, ?_, ?_, ?_, ?_, a.sentinel⟩
  · intro d hd c
    rw [a.bits d hd c]
    simp only [reduceCtorEq, or_false]
    constructor
    · rintro ⟨k, -, hk⟩
      exact absurd hk (hnone k c)
    · rintro ⟨k, -, hk⟩
      exact absurd hk (hnone' k c)
  · exact fun k c hk => absurd hk (hnone' k c)
  · exact fun k k' c hk => absurd hk (hnone' k c)
  · intro d c hh
    cases hh
  · intro d hd k hk
    obtain ⟨x, hx, hxd⟩ := a.cmds d hd k hk
    exact ⟨x, by rw [hsubs, List.getElem?_append_left (hold d hd k hk)]; exact hx, hxd⟩
  · have hcount := a.count
    rw [hsubs, hR, List.length_append, List.length_singleton]
    push_cast at hcount ⊢
    omega
  · intro d hd h0 k hk x hx
    rcases (hreaped k x).1 hx with hx | ⟨rfl, -⟩
    · exact a.noError d hd h0 k hk x hx
    · exact absurd (hold d hd _ hk) (Nat.lt_irrefl _)
  · intro d hd h0
    obtain ⟨k, hk, x, hx, hstat⟩ := a.error d hd h0
    exact ⟨k, hk, x, (hreaped k x).2 (Or.inl hx), hstat⟩
  · intro x hx
    rw [hsubs] at hx
    rcases List.mem_append.1 hx with hx | hx
    · exact a.others x hx
    · rw [List.mem_singleton.1 hx, hothers]
      exact List.not_mem_nil

end Accounts

end Unvme.Core
