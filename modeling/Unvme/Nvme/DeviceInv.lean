import Mathlib.Data.List.Perm.Subperm
import Unvme.Nvme.Device

set_option autoImplicit false

/-! # The rings of a queue pair over whole runs

`Device.Inv d k j` relates the ring indexes, which live modulo the queue size, to the history: how
many entries were submitted (`S`), fetched (`F`), how many completions were posted (`P`) and reaped
(`R`). The one fact the driver has to contribute is `S < R + size`; everything else follows from
what the controller may do, and in particular `P ≤ F ≤ S`. `k` and `j` are the completions the
driver has consumed and acknowledged, which run at most one ahead of `R` inside a call of
`nvme_check_completion`. -/

namespace Unvme.Nvme

open Unvme.Lib

/-- At no moment is a ring overrun: at most `N - 1` entries unfetched and at most `N - 1` completions
    unreaped, and the slot at the tail is not one of the unfetched entries. -/
structure Counters.Ok (N : ℕ) (t : Counters) : Prop where
  fetched_le : t.fetched ≤ t.submitted
  unfetched : t.submitted ≤ t.fetched + (N - 1)
  posted_le : t.posted ≤ t.fetched
  reaped_le : t.reaped ≤ t.posted
  unreaped : t.posted ≤ t.reaped + (N - 1)
  tail_free : ∀ i, t.fetched ≤ i → i < t.submitted → i % N ≠ t.sqTail

structure Device.Inv (d : Device) (k j : ℕ) : Prop where
  two_le : 2 ≤ d.size
  cqSize : d.cq.size = d.size
  tail : d.sqTail = d.hist.subs.length % d.size
  bell : d.sqDoorbell = d.hist.subs.length % d.size
  head : d.sqHead = d.hist.fetched.length % d.size
  room : d.hist.subs.length < d.hist.reaped + d.size
  slot : ∀ i sub, d.hist.fetched.length ≤ i → d.hist.subs[i]? = some sub →
    d.sq (i % d.size) = sub.entry
  fetched : d.hist.fetched <+: d.hist.subs.map Sub.entry
  seqs : (d.inflight.map Cmd.seq ++ d.hist.posts.map Prod.fst).Perm
    (List.range d.hist.fetched.length)
  entry : ∀ c ∈ d.inflight, ∃ sub, d.hist.subs[c.seq]? = some sub ∧ c.entry = sub.entry
  posts : ∀ p ∈ d.hist.posts, ∃ sub, d.hist.subs[p.1]? = some sub ∧ p.2.cid = sub.entry.cid
  cq : d.cq.Inv (d.hist.posts.map Prod.snd) k j
  reaped_le : d.hist.reaped ≤ j
  taken : k ≤ d.hist.reaped + 1
  trail : ∀ t ∈ d.hist.trail, t.Ok d.size

/-- What the controller leaves alone. -/
structure Device.Later (d d' : Device) : Prop where
  size : d'.size = d.size
  sq : d'.sq = d.sq
  sqTail : d'.sqTail = d.sqTail
  subs : d'.hist.subs = d.hist.subs
  reaped : d'.hist.reaped = d.hist.reaped
  prpCalls : d'.hist.prpCalls = d.hist.prpCalls
  posts : d.hist.posts <+: d'.hist.posts
  cqHead : d'.cq.cqHead = d.cq.cqHead

theorem Device.Later.refl (d : Device) : d.Later d :=
  ⟨rfl, rfl, rfl, rfl, rfl, rfl, List.prefix_rfl, rfl⟩

theorem Device.Later.trans {d d' d'' : Device} (h : d.Later d') (h' : d'.Later d'') :
    d.Later d'' :=
  ⟨h'.size.trans h.size, h'.sq.trans h.sq, h'.sqTail.trans h.sqTail, h'.subs.trans h.subs,
    h'.reaped.trans h.reaped, h'.prpCalls.trans h.prpCalls, h.posts.trans h'.posts,
    h'.cqHead.trans h.cqHead⟩

namespace Device.Inv

variable {d : Device} {k j : ℕ}

theorem init {size : ℕ} (h : 2 ≤ size) (mem disk : ℕ → ℕ) : (Device.init size mem disk).Inv 0 0 where
  two_le := h
  cqSize := rfl
  tail := by simp [Device.init]
  bell := by simp [Device.init]
  head := by simp [Device.init]
  room := by simp [Device.init]; omega
  slot := by simp [Device.init]
  fetched := by simp [Device.init]
  seqs := by simp [Device.init]
  entry := by simp [Device.init]
  posts := by simp [Device.init]
  cq := CqRing.Inv.init h
  reaped_le := le_rfl
  taken := by simp [Device.init]
  trail := by simp [Device.init]

/-! ## The counters -/

theorem fetched_le (h : d.Inv k j) : d.hist.fetched.length ≤ d.hist.subs.length := by
  simpa using h.fetched.length_le

theorem posted_le (h : d.Inv k j) : d.hist.posts.length ≤ d.hist.fetched.length := by
  have := h.seqs.length_eq
  simp only [List.length_append, List.length_map, List.length_range] at this
  omega

theorem reaped_le_posted (h : d.Inv k j) : d.hist.reaped ≤ d.hist.posts.length := by
  have h1 := h.reaped_le
  have h2 := h.cq.acked
  have h3 := h.cq.consumed
  rw [List.length_map] at h3
  omega

theorem counters_ok (h : d.Inv k j) : d.counters.Ok d.size := by
  have hF := h.fetched_le
  have hP := h.posted_le
  have hR := h.reaped_le_posted
  have hS := h.room
  refine ⟨hF, ?_, hP, hR, ?_, ?_⟩
  · simp only [Device.counters]; omega
  · simp only [Device.counters]; omega
  · intro i hi hi'
    simp only [Device.counters] at hi hi' ⊢
    rw [h.tail]
    exact mod_ne_of_lt hi' (by omega)

theorem note (h : d.Inv k j) : d.note.Inv k j :=
  { h with
    trail := by
      intro t ht
      rcases List.mem_append.1 ht with ht | ht
      · exact h.trail t ht
      · rw [List.mem_singleton.1 ht]
        exact h.counters_ok }

theorem posts_nodup (h : d.Inv k j) : (d.hist.posts.map Prod.fst).Nodup :=
  (List.nodup_append.1 (h.seqs.nodup_iff.2 List.nodup_range)).2.1

/-! ## The controller's actions -/

theorem fetch (h : d.Inv k j) : d.fetch.Inv k j := by
  unfold Device.fetch
  split
  · exact h
  · next hne =>
      have hN : 0 < d.size := by have := h.two_le; omega
      have hlt : d.hist.fetched.length < d.hist.subs.length := by
        have := h.fetched_le
        rcases Nat.lt_or_ge d.hist.fetched.length d.hist.subs.length with hlt | hge
        · exact hlt
        · exact absurd (by rw [h.head, h.bell, show d.hist.fetched.length = d.hist.subs.length by omega]) hne
      have hsub := List.getElem?_eq_getElem hlt
      have hentry : d.sq d.sqHead = d.hist.subs[d.hist.fetched.length].entry := by
        rw [h.head]
        exact h.slot _ _ le_rfl hsub
      refine ⟨h.two_le, h.cqSize, h.tail, h.bell, ?_, h.room, ?_, ?_, ?_, ?_, h.posts, h.cq,
        h.reaped_le, h.taken, h.trail⟩
      · rw [List.length_append, List.length_singleton, ← wrapSucc_mod hN, h.head]
      · intro i sub hi hs
        rw [List.length_append, List.length_singleton] at hi
        exact h.slot i sub (by omega) hs
      · have htake := List.prefix_iff_eq_take.1 h.fetched
        rw [List.prefix_iff_eq_take, List.length_append, List.length_singleton,
          List.take_add_one, ← htake, List.getElem?_map, hsub, hentry]
        rfl
      · rw [List.length_append, List.length_singleton, List.range_succ, List.map_append,
          List.append_assoc]
        exact (List.perm_append_comm_assoc _ _ _).trans
          ((List.perm_append_comm).trans (h.seqs.append_right _))
      · intro c hc
        rcases List.mem_append.1 hc with hc | hc
        · exact h.entry c hc
        · rw [List.mem_singleton.1 hc]
          exact ⟨_, hsub, hentry⟩

/-- Marking progress on a fetched command. -/
theorem modify (h : d.Inv k j) (i : ℕ) (f : Cmd → Cmd) (hseq : ∀ c, (f c).seq = c.seq)
    (hent : ∀ c, (f c).entry = c.entry) (mem disk : ℕ → ℕ) :
    Device.Inv { d with inflight := d.inflight.modify i f, mem := mem, disk := disk } k j := by
  have hmap : (d.inflight.modify i f).map Cmd.seq = d.inflight.map Cmd.seq := by
    apply List.ext_getElem?
    intro n
    rw [List.getElem?_map, List.getElem?_map, List.getElem?_modify]
    cases d.inflight[n]? with
    | none => rfl
    | some c =>
        simp only [Option.map_eq_map, Option.map_some, Option.some.injEq]
        split
        · exact hseq c
        · rfl
  refine ⟨h.two_le, h.cqSize, h.tail, h.bell, h.head, h.room, h.slot, h.fetched, ?_, ?_, h.posts,
    h.cq, h.reaped_le, h.taken, h.trail⟩
  · show (List.map Cmd.seq (d.inflight.modify i f) ++ _).Perm _
    rw [hmap]
    exact h.seqs
  · intro c hc
    obtain ⟨n, hn⟩ := List.mem_iff_getElem?.1 hc
    rw [List.getElem?_modify] at hn
    obtain ⟨c', hc', hcc⟩ := Option.map_eq_some_iff.1 hn
    obtain ⟨sub, hsub, hsube⟩ := h.entry c' (List.mem_of_getElem? hc')
    refine ⟨sub, ?_, ?_⟩
    · rw [← hcc]; split
      · rw [hseq]; exact hsub
      · exact hsub
    · rw [← hcc]; split
      · rw [hent]; exact hsube
      · exact hsube

theorem loadPrps (h : d.Inv k j) (M : Media) (i : ℕ) : (d.loadPrps M i).Inv k j :=
  h.modify i (fun c => { c with prps := some (M.prps c.entry d.mem) }) (fun _ => rfl)
    (fun _ => rfl) d.mem d.disk

theorem execute (h : d.Inv k j) (M : Media) (i : ℕ) : (d.execute M i).Inv k j := by
  unfold Device.execute
  split
  · exact h.modify i (fun c => { c with done := true }) (fun _ => rfl) (fun _ => rfl) _ _
  · exact h

theorem post (h : d.Inv k j) (i cs psf : ℕ) : (d.post i cs psf).Inv k j := by
  unfold Device.post
  split
  · next c hc =>
      dsimp only
      split
      · next hcan =>
          simp only [Bool.and_eq_true] at hcan
          have hmem : c ∈ d.inflight := List.mem_of_getElem? hc
          obtain ⟨hi, hget⟩ := List.getElem?_eq_some_iff.1 hc
          have hperm : (d.inflight.map Cmd.seq).Perm
              (c.seq :: (d.inflight.eraseIdx i).map Cmd.seq) := by
            rw [← List.map_cons, ← hget]
            exact ((List.getElem_cons_eraseIdx_perm hi).symm.map Cmd.seq)
          refine ⟨h.two_le, h.cqSize, h.tail, h.bell, h.head, h.room, h.slot, h.fetched, ?_, ?_, ?_, ?_,
            h.reaped_le, h.taken, h.trail⟩
          · rw [List.map_append, ← List.append_assoc]
            refine List.Perm.trans ?_ h.seqs
            refine (List.perm_append_comm).trans ?_
            rw [List.map_cons, List.map_nil, List.singleton_append, ← List.cons_append]
            exact hperm.symm.append_right _
          · intro c' hc'
            exact h.entry c' (List.mem_of_mem_eraseIdx hc')
          · intro p hp
            rcases List.mem_append.1 hp with hp | hp
            · exact h.posts p hp
            · rw [List.mem_singleton.1 hp]
              obtain ⟨sub, hsub, hent⟩ := h.entry c hmem
              exact ⟨sub, hsub, by rw [← hent]⟩
          · rw [List.map_append]
            exact h.cq.post hcan.1 _
      · exact h
  · exact h

theorem act (h : d.Inv k j) (M : Media) (a : CtlAct) : (d.act M a).Inv k j := by
  cases a with
  | fetch => exact h.fetch.note
  | loadPrps i => exact h.loadPrps M i
  | execute i => exact h.execute M i
  | post i cs psf => exact (h.post i cs psf).note

end Device.Inv

theorem Device.Later.act (d : Device) (M : Media) (a : CtlAct) : d.Later (d.act M a) := by
  cases a with
  | fetch =>
      simp only [Device.act, Device.fetch]
      split <;> exact ⟨rfl, rfl, rfl, rfl, rfl, rfl, List.prefix_rfl, rfl⟩
  | loadPrps i => exact ⟨rfl, rfl, rfl, rfl, rfl, rfl, List.prefix_rfl, rfl⟩
  | execute i =>
      simp only [Device.act, Device.execute]
      split <;> exact ⟨rfl, rfl, rfl, rfl, rfl, rfl, List.prefix_rfl, rfl⟩
  | post i cs psf =>
      simp only [Device.act, Device.post]
      split
      · split
        · exact ⟨rfl, rfl, rfl, rfl, rfl, rfl, List.prefix_append _ _, rfl⟩
        · exact ⟨rfl, rfl, rfl, rfl, rfl, rfl, List.prefix_rfl, rfl⟩
      · exact ⟨rfl, rfl, rfl, rfl, rfl, rfl, List.prefix_rfl, rfl⟩

/-! ## The driver's accesses -/

namespace Device.Inv

variable {d : Device} {k j : ℕ}

theorem sched (h : d.Inv k j) (σ : List (List CtlAct)) : Device.Inv { d with sched := σ } k j :=
  ⟨h.two_le, h.cqSize, h.tail, h.bell, h.head, h.room, h.slot, h.fetched, h.seqs, h.entry, h.posts,
    h.cq, h.reaped_le, h.taken, h.trail⟩

theorem mem (h : d.Inv k j) (m : ℕ → ℕ) : Device.Inv { d with mem := m } k j :=
  ⟨h.two_le, h.cqSize, h.tail, h.bell, h.head, h.room, h.slot, h.fetched, h.seqs, h.entry, h.posts,
    h.cq, h.reaped_le, h.taken, h.trail⟩

theorem storePrps (h : d.Inv k j) (call : PrpCall) : (d.storePrps call).Inv k j :=
  ⟨h.two_le, h.cqSize, h.tail, h.bell, h.head, h.room, h.slot, h.fetched, h.seqs, h.entry, h.posts,
    h.cq, h.reaped_le, h.taken, h.trail⟩

/-- The slot being filled holds no entry that is still to be fetched. -/
theorem fill (h : d.Inv k j) (e : SqEntry) : (d.fill e).Inv k j := by
  refine Device.Inv.note (d := { d with sq := Function.update d.sq d.sqTail e })
    ⟨h.two_le, h.cqSize, h.tail, h.bell, h.head, h.room, ?_, h.fetched, h.seqs, h.entry, h.posts,
      h.cq, h.reaped_le, h.taken, h.trail⟩
  intro i sub hi hs
  have hlt := (List.getElem?_eq_some_iff.1 hs).1
  have hne : i % d.size ≠ d.sqTail := h.counters_ok.tail_free i hi hlt
  show Function.update d.sq d.sqTail e (i % d.size) = sub.entry
  rw [Function.update_of_ne hne]
  exact h.slot i sub hi hs

/-- Submitting where the count of unreaped commands leaves room. -/
theorem submit (h : d.Inv k j) {sub : Sub} (hfill : d.sq d.sqTail = sub.entry)
    (hroom : d.hist.subs.length + 1 < d.hist.reaped + d.size) : (d.submit sub).Inv k j := by
  have hN : 0 < d.size := by have := h.two_le; omega
  have hmod : wrapSucc d.size d.sqTail = (d.hist.subs ++ [sub]).length % d.size := by
    rw [h.tail, wrapSucc_mod hN, List.length_append, List.length_singleton]
  have hold : ∀ (i : ℕ) (x : Sub), d.hist.subs[i]? = some x →
      (d.hist.subs ++ [sub])[i]? = some x := by
    intro i x hx
    rw [List.getElem?_append_left (List.getElem?_eq_some_iff.1 hx).1]
    exact hx
  refine Device.Inv.note (d := { d with
      sqTail := wrapSucc d.size d.sqTail, sqDoorbell := wrapSucc d.size d.sqTail
      hist := { d.hist with subs := d.hist.subs ++ [sub] } })
    ⟨h.two_le, h.cqSize, hmod, hmod, h.head, ?_, ?_, ?_, h.seqs, ?_, ?_, h.cq, h.reaped_le, h.taken,
      h.trail⟩
  · show (d.hist.subs ++ [sub]).length < _
    rw [List.length_append, List.length_singleton]
    exact hroom
  · intro i x hi hx
    change (d.hist.subs ++ [sub])[i]? = some x at hx
    rcases Nat.lt_trichotomy i d.hist.subs.length with hlt | heq | hgt
    · rw [List.getElem?_append_left hlt] at hx
      exact h.slot i x hi hx
    · subst heq
      simp only [List.getElem?_concat_length, Option.some.injEq] at hx
      subst hx
      show d.sq (_ % d.size) = _
      rw [← h.tail]
      exact hfill
    · rw [List.getElem?_eq_none (by simp; omega)] at hx
      exact absurd hx (by simp)
  · show d.hist.fetched <+: (d.hist.subs ++ [sub]).map Sub.entry
    rw [List.map_append]
    exact h.fetched.trans (List.prefix_append _ _)
  · intro c hc
    obtain ⟨x, hx, hxe⟩ := h.entry c hc
    exact ⟨x, hold _ _ hx, hxe⟩
  · intro p hp
    obtain ⟨x, hx, hxe⟩ := h.posts p hp
    exact ⟨x, hold _ _ hx, hxe⟩

/-- Consuming the pending entry. -/
theorem advance (h : d.Inv k j) (hk : k = d.hist.reaped) (hp : d.cq.pending = true) :
    Device.Inv { d with cq := d.cq.advance } (k + 1) j := by
  have hlt := h.cq.pending_iff.1 hp
  have hcq := h.cq.advance hlt
  have hsz : d.cq.advance.size = d.cq.size := by unfold CqRing.advance; split <;> rfl
  exact ⟨h.two_le, hsz.trans h.cqSize, h.tail, h.bell, h.head, h.room, h.slot, h.fetched, h.seqs,
    h.entry, h.posts, hcq, h.reaped_le, by show k + 1 ≤ d.hist.reaped + 1; omega, h.trail⟩

theorem ring (h : d.Inv k j) : Device.Inv { d with cq := d.cq.ring } k k :=
  ⟨h.two_le, h.cqSize, h.tail, h.bell, h.head, h.room, h.slot, h.fetched, h.seqs, h.entry, h.posts,
    h.cq.ring, by have := h.reaped_le; have := h.cq.acked; show d.hist.reaped ≤ k; omega, h.taken,
    h.trail⟩

theorem reap (h : d.Inv k k) (hk : k = d.hist.reaped + 1) : d.reap.Inv k k := by
  refine Device.Inv.note (d := { d with hist := { d.hist with reaped := d.hist.reaped + 1 } })
    ⟨h.two_le, h.cqSize, h.tail, h.bell, h.head, ?_, h.slot, h.fetched, h.seqs, h.entry, h.posts,
      h.cq, ?_, ?_, h.trail⟩
  · have := h.room
    show d.hist.subs.length < d.hist.reaped + 1 + d.size
    omega
  · show d.hist.reaped + 1 ≤ k; omega
  · show k ≤ d.hist.reaped + 1 + 1; omega

end Device.Inv

/-! ## Pending and reaped commands -/

/-- Command `k` has been submitted with command id `c` and is not reaped. -/
def History.Pending (h : History) (k c : ℕ) : Prop :=
  (∃ sub, h.subs[k]? = some sub ∧ sub.entry.cid = c) ∧ k ∉ h.reapedSeqs

/-- The completion `e` of command `k` has been reaped. -/
def History.Reaped (h : History) (k : ℕ) (e : CqEntry) : Prop := (k, e) ∈ h.posts.take h.reaped

/-- When completion number `i` is posted, one of the commands `cmds` is still to be completed. -/
def History.WaitingAt (h : History) (cmds : List ℕ) (i : ℕ) : Prop :=
  ∃ k ∈ cmds, k ∉ (h.posts.take i).map Prod.fst

theorem History.mem_reapedSeqs {h : History} {k : ℕ} :
    k ∈ h.reapedSeqs ↔ ∃ e, h.Reaped k e := by
  simp only [History.reapedSeqs, History.Reaped, List.mem_map, Prod.exists, exists_and_right,
    exists_eq_right]

theorem History.mem_inFlight {h : History} {c : ℕ} :
    c ∈ h.inFlight ↔ ∃ k, h.Pending k c := by
  simp only [History.inFlight, List.mem_filterMap, List.mem_filter, List.mem_range,
    decide_eq_true_eq, Option.map_eq_some_iff, History.Pending]
  constructor
  · rintro ⟨k, ⟨-, hk⟩, sub, hs, hc⟩
    exact ⟨k, ⟨sub, hs, hc⟩, hk⟩
  · rintro ⟨k, ⟨sub, hs, hc⟩, hk⟩
    exact ⟨k, ⟨(List.getElem?_eq_some_iff.1 hs).1, hk⟩, sub, hs, hc⟩

/-- With nothing in flight every command is reaped. -/
theorem History.reaped_of_quiet {h : History} (hq : h.inFlight = []) {k : ℕ}
    (hk : k < h.subs.length) : k ∈ h.reapedSeqs := by
  by_contra hn
  have hmem : (h.subs[k]).entry.cid ∈ h.inFlight :=
    History.mem_inFlight.2 ⟨k, ⟨_, List.getElem?_eq_getElem hk, rfl⟩, hn⟩
  rw [hq] at hmem
  exact absurd hmem List.not_mem_nil

/-- No more submissions than distinct reaped commands. -/
theorem History.submitted_le_reaped {h : History} (hq : h.inFlight = []) :
    h.subs.length ≤ h.reaped := by
  have hsub : List.range h.subs.length ⊆ h.reapedSeqs :=
    fun k hk => History.reaped_of_quiet hq (List.mem_range.1 hk)
  have hle := (List.Nodup.subperm List.nodup_range hsub).length_le
  rw [List.length_range, History.reapedSeqs, List.length_map, List.length_take] at hle
  omega

/-- The same submissions and the same reaped completions. -/
structure History.Same (h h' : History) : Prop where
  subs : h'.subs = h.subs
  reaped : h'.reaped = h.reaped
  posts : h'.posts.take h'.reaped = h.posts.take h.reaped

theorem History.Same.trans {h h' h'' : History} (hs : h.Same h') (hs' : h'.Same h'') : h.Same h'' :=
  ⟨hs'.subs.trans hs.subs, hs'.reaped.trans hs.reaped, hs'.posts.trans hs.posts⟩

theorem Device.Later.same {d d' : Device} (h : d.Later d')
    (hle : d.hist.reaped ≤ d.hist.posts.length) : d.hist.Same d'.hist := by
  refine ⟨h.subs, h.reaped, ?_⟩
  obtain ⟨more, hmore⟩ := h.posts
  rw [h.reaped, ← hmore, List.take_append_of_le_length hle]

theorem Device.Later.reapedSeqs {d d' : Device} (h : d.Later d')
    (hle : d.hist.reaped ≤ d.hist.posts.length) : d'.hist.reapedSeqs = d.hist.reapedSeqs := by
  rw [History.reapedSeqs, (h.same hle).posts]
  rfl

theorem Device.Later.inFlight {d d' : Device} (h : d.Later d')
    (hle : d.hist.reaped ≤ d.hist.posts.length) : d'.hist.inFlight = d.hist.inFlight := by
  rw [History.inFlight, h.reapedSeqs hle, h.subs, History.inFlight]

theorem History.Same.reaped_iff {h h' : History} (hs : h.Same h') {k : ℕ} {e : CqEntry} :
    h'.Reaped k e ↔ h.Reaped k e := by
  rw [History.Reaped, hs.posts, History.Reaped]

theorem History.Same.pending_iff {h h' : History} (hs : h.Same h') {k c : ℕ} :
    h'.Pending k c ↔ h.Pending k c := by
  simp only [History.Pending, History.mem_reapedSeqs, hs.subs, hs.reaped_iff]

/-- What the controller's actions leave alone. -/
theorem Device.Later.acts (d : Device) (M : Media) (as : List CtlAct) :
    d.Later (as.foldl (Device.act M) d) := by
  induction as generalizing d with
  | nil => exact Device.Later.refl d
  | cons a as ih => exact (Device.Later.act d M a).trans (ih _)

theorem Device.Later.turn (d : Device) (M : Media) : d.Later (d.turn M) := by
  unfold Device.turn
  split
  · exact Device.Later.refl d
  · next acts rest hs =>
      have hstart : d.Later { d with sched := rest } :=
        ⟨rfl, rfl, rfl, rfl, rfl, rfl, List.prefix_rfl, rfl⟩
      exact hstart.trans (Device.Later.acts _ M acts)

/-- Nothing recorded is lost. -/
structure History.Grows (h h' : History) : Prop where
  subs : h.subs <+: h'.subs
  posts : h.posts <+: h'.posts
  reaped : h.reaped ≤ h'.reaped

theorem History.Grows.refl (h : History) : h.Grows h := ⟨List.prefix_rfl, List.prefix_rfl, le_rfl⟩

theorem History.Grows.trans {h h' h'' : History} (hg : h.Grows h') (hg' : h'.Grows h'') :
    h.Grows h'' :=
  ⟨hg.subs.trans hg'.subs, hg.posts.trans hg'.posts, hg.reaped.trans hg'.reaped⟩

theorem History.Grows.storePrps (d : Device) (call : PrpCall) : d.hist.Grows (d.storePrps call).hist :=
  ⟨List.prefix_rfl, List.prefix_rfl, le_rfl⟩

theorem Device.Later.grows {d d' : Device} (h : d.Later d') : d.hist.Grows d'.hist :=
  ⟨by simp only [h.subs, List.prefix_rfl], h.posts, h.reaped.ge⟩

/-! ## Submitting and reaping -/

theorem History.pending_submit {h : History} {sub : Sub} (hnew : h.subs.length ∉ h.reapedSeqs)
    {k c : ℕ} : History.Pending { h with subs := h.subs ++ [sub] } k c ↔
      h.Pending k c ∨ k = h.subs.length ∧ sub.entry.cid = c := by
  have hseqs : History.reapedSeqs { h with subs := h.subs ++ [sub] } = h.reapedSeqs := rfl
  simp only [History.Pending, hseqs]
  constructor
  · rintro ⟨⟨x, hx, hc⟩, hk⟩
    rcases Nat.lt_or_ge k h.subs.length with hlt | hge
    · rw [List.getElem?_append_left hlt] at hx
      exact Or.inl ⟨⟨x, hx, hc⟩, hk⟩
    · have hk' : k = h.subs.length := by
        have := (List.getElem?_eq_some_iff.1 hx).1
        simp only [List.length_append, List.length_singleton] at this
        omega
      subst hk'
      simp only [List.getElem?_concat_length, Option.some.injEq] at hx
      subst hx
      exact Or.inr ⟨rfl, hc⟩
  · rintro (⟨⟨x, hx, hc⟩, hk⟩ | ⟨rfl, hc⟩)
    · exact ⟨⟨x, by rw [List.getElem?_append_left (List.getElem?_eq_some_iff.1 hx).1]; exact hx, hc⟩,
        hk⟩
    · exact ⟨⟨sub, by simp, hc⟩, hnew⟩

theorem History.reaped_succ {h : History} {k : ℕ} {e : CqEntry}
    (hp : h.posts[h.reaped]? = some (k, e)) {k' : ℕ} {e' : CqEntry} :
    History.Reaped { h with reaped := h.reaped + 1 } k' e' ↔
      h.Reaped k' e' ∨ k' = k ∧ e' = e := by
  simp only [History.Reaped, List.take_add_one, hp, Option.toList_some, List.mem_append,
    List.mem_singleton, Prod.mk.injEq]

theorem History.pending_reap {h : History} {k : ℕ} {e : CqEntry}
    (hp : h.posts[h.reaped]? = some (k, e)) {k' c : ℕ} :
    History.Pending { h with reaped := h.reaped + 1 } k' c ↔ h.Pending k' c ∧ k' ≠ k := by
  simp only [History.Pending, History.mem_reapedSeqs, History.reaped_succ hp]
  constructor
  · rintro ⟨hs, hn⟩
    exact ⟨⟨hs, fun ⟨e', he'⟩ => hn ⟨e', Or.inl he'⟩⟩, fun he => hn ⟨e, Or.inr ⟨he, rfl⟩⟩⟩
  · rintro ⟨⟨hs, hn⟩, hne⟩
    refine ⟨hs, ?_⟩
    rintro ⟨e', he' | ⟨he', -⟩⟩
    · exact hn ⟨e', he'⟩
    · exact hne he'

namespace Device.Inv

variable {d : Device} {k j : ℕ}

theorem acts (h : d.Inv k j) (M : Media) (as : List CtlAct) :
    (as.foldl (Device.act M) d).Inv k j := by
  induction as generalizing d with
  | nil => exact h
  | cons a as ih => exact ih (h.act M a)

theorem turn (h : d.Inv k j) (M : Media) : (d.turn M).Inv k j := by
  unfold Device.turn
  split
  · exact h
  · next acts rest hs => exact (h.sched rest).acts M acts

/-- A position that is not submitted yet is not among the reaped commands. -/
theorem new_not_reaped (h : d.Inv k j) : d.hist.subs.length ∉ d.hist.reapedSeqs := by
  rw [History.mem_reapedSeqs]
  rintro ⟨e, he⟩
  obtain ⟨sub, hs, -⟩ := h.posts _ (List.mem_of_mem_take he)
  rw [List.getElem?_eq_none le_rfl] at hs
  exact absurd hs (by simp)

/-- The completion about to be reaped is one of a pending command. -/
theorem next_pending (h : d.Inv k j) {i : ℕ} {e : CqEntry}
    (hp : d.hist.posts[d.hist.reaped]? = some (i, e)) :
    ∃ sub, d.hist.subs[i]? = some sub ∧ e.cid = sub.entry.cid ∧ i ∉ d.hist.reapedSeqs := by
  obtain ⟨sub, hs, hc⟩ := h.posts _ (List.mem_of_getElem? hp)
  refine ⟨sub, hs, hc, ?_⟩
  intro hmem
  obtain ⟨e', he'⟩ := History.mem_reapedSeqs.1 hmem
  -- every command is completed once, so position `reaped` is not an earlier one
  have hlt : d.hist.reaped < d.hist.posts.length := (List.getElem?_eq_some_iff.1 hp).1
  have hget : d.hist.posts[d.hist.reaped] = (i, e) := (List.getElem?_eq_some_iff.1 hp).2
  have hnd := h.posts_nodup
  rw [← List.take_append_drop d.hist.reaped d.hist.posts, List.map_append,
    List.nodup_append] at hnd
  refine hnd.2.2 i (List.mem_map.2 ⟨_, he', rfl⟩) i (List.mem_map.2 ⟨(i, e), ?_, rfl⟩) rfl
  rw [List.drop_eq_getElem_cons hlt, hget]
  exact List.mem_cons_self ..

/-- Every command is completed once. -/
theorem post_inj (h : d.Inv k j) {i i' seq : ℕ} {e e' : CqEntry}
    (hp : d.hist.posts[i]? = some (seq, e)) (hp' : d.hist.posts[i']? = some (seq, e')) : i = i' := by
  have hi := (List.getElem?_eq_some_iff.1 hp).1
  refine (List.getElem?_inj (by rw [List.length_map]; exact hi) h.posts_nodup).1 ?_
  rw [List.getElem?_map, List.getElem?_map, hp, hp']
  rfl

/-- As many completions reaped as commands submitted: nothing is in flight. -/
theorem inFlight_nil (h : d.Inv k j) (hle : d.hist.subs.length ≤ d.hist.reaped) :
    d.hist.inFlight = [] := by
  rw [List.eq_nil_iff_forall_not_mem]
  intro c hc
  obtain ⟨i, ⟨sub, hs, -⟩, hn⟩ := History.mem_inFlight.1 hc
  have hi := (List.getElem?_eq_some_iff.1 hs).1
  have hP := h.posted_le
  have hF := h.fetched_le
  have hR := h.reaped_le_posted
  -- every command has been completed, and all completions are reaped
  have hmem : i ∈ d.inflight.map Cmd.seq ++ d.hist.posts.map Prod.fst :=
    h.seqs.symm.subset (List.mem_range.2 (by omega))
  have hlen := h.seqs.length_eq
  rw [List.length_append, List.length_map, List.length_map, List.length_range] at hlen
  have hnone : d.inflight = [] := List.eq_nil_of_length_eq_zero (by omega)
  rw [hnone, List.map_nil, List.nil_append] at hmem
  refine hn ?_
  rw [History.reapedSeqs, List.take_of_length_le (by omega)]
  exact hmem

/-- The entry last reaped is still in its slot if nothing was posted after it. -/
theorem csAt_last (h : d.Inv k j) {i seq : ℕ} {e : CqEntry}
    (hp : d.hist.posts[i]? = some (seq, e)) (hlen : d.hist.posts.length = i + 1) :
    d.cq.csAt (i % d.size) = e.cs := by
  have hslot := h.cq.slot i e (by rw [List.getElem?_map, hp]; rfl)
    (by rw [List.length_map, hlen, h.cqSize]; have := h.two_le; omega)
  rw [h.cqSize] at hslot
  rw [CqRing.csAt, hslot]
  rfl

/-- A fetched command is one in flight. -/
theorem pending_of_inflight {i j : ℕ} (h : d.Inv i j) {c : Cmd} (hc : c ∈ d.inflight) :
    ∃ sub, d.hist.subs[c.seq]? = some sub ∧ c.entry = sub.entry ∧
      d.hist.Pending c.seq sub.entry.cid := by
  obtain ⟨sub, hsub, hentry⟩ := h.entry c hc
  refine ⟨sub, hsub, hentry, ⟨sub, hsub, rfl⟩, ?_⟩
  intro hreaped
  obtain ⟨e, he⟩ := History.mem_reapedSeqs.1 hreaped
  have hnd := h.seqs.nodup_iff.2 List.nodup_range
  exact (List.nodup_append.1 hnd).2.2 c.seq (List.mem_map_of_mem hc) c.seq
    (List.mem_map.2 ⟨_, List.mem_of_mem_take he, rfl⟩) rfl

end Device.Inv

/-! ## The commands in the controller -/

/-- A member of a list with one place changed. -/
theorem mem_modify {l : List Cmd} {i : ℕ} {f : Cmd → Cmd} {c' : Cmd} (h : c' ∈ l.modify i f) :
    c' ∈ l ∨ ∃ c, l[i]? = some c ∧ c' = f c := by
  obtain ⟨n, hn⟩ := List.mem_iff_getElem?.1 h
  rw [List.getElem?_modify] at hn
  obtain ⟨c, hc, rfl⟩ := Option.map_eq_some_iff.1 hn
  by_cases hi : i = n
  · subst hi
    rw [if_pos rfl]
    exact Or.inr ⟨c, hc, rfl⟩
  · rw [if_neg hi]
    exact Or.inl (List.mem_of_getElem? hc)

/-- What the controller has read for a command is what it read before, or what it reads now. -/
theorem Device.act_loaded {M : Media} {d : Device} (a : CtlAct) {c' : Cmd}
    (hc : c' ∈ (d.act M a).inflight) {pages : List ℕ} (hp : c'.prps = some pages) :
    ∃ c ∈ d.inflight, c.seq = c'.seq ∧ (c.prps = some pages ∨ pages = M.prps c.entry d.mem) := by
  cases a with
  | fetch =>
      simp only [Device.act, Device.fetch] at hc
      split at hc
      · exact ⟨c', hc, rfl, Or.inl hp⟩
      · rcases List.mem_append.1 hc with hc | hc
        · exact ⟨c', hc, rfl, Or.inl hp⟩
        · rw [List.mem_singleton.1 hc] at hp
          cases hp
  | loadPrps i =>
      rcases mem_modify hc with hold | ⟨c, hat, rfl⟩
      · exact ⟨c', hold, rfl, Or.inl hp⟩
      · exact ⟨c, List.mem_of_getElem? hat, rfl, Or.inr (Option.some.inj hp).symm⟩
  | execute i =>
      simp only [Device.act, Device.execute] at hc
      split at hc
      · rcases mem_modify hc with hold | ⟨c, hat, rfl⟩
        · exact ⟨c', hold, rfl, Or.inl hp⟩
        · exact ⟨c, List.mem_of_getElem? hat, rfl, Or.inl hp⟩
      · exact ⟨c', hc, rfl, Or.inl hp⟩
  | post i cs psf =>
      simp only [Device.act, Device.post] at hc
      split at hc
      · split at hc
        · exact ⟨c', List.mem_of_mem_eraseIdx hc, rfl, Or.inl hp⟩
        · exact ⟨c', hc, rfl, Or.inl hp⟩
      · exact ⟨c', hc, rfl, Or.inl hp⟩

/-- The controller writes where the command it executes moves data. -/
theorem Device.act_mem {M : Media} {d : Device} (act : CtlAct) {a : ℕ}
    (h : ∀ c ∈ d.inflight, ∀ pages, c.prps = some pages →
      (M.exec c.entry pages d.mem d.disk).1 a = d.mem a) : (d.act M act).mem a = d.mem a := by
  cases act with
  | fetch =>
      simp only [Device.act, Device.fetch]
      split <;> rfl
  | loadPrps i => rfl
  | execute i =>
      simp only [Device.act, Device.execute]
      split
      · next hc => exact h _ (List.mem_of_getElem? hc) _ rfl
      · rfl
  | post i cs psf =>
      simp only [Device.act, Device.post]
      split
      · split <;> rfl
      · rfl

end Unvme.Nvme
