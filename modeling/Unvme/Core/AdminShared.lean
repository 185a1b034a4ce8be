import Unvme.Core.AdminRuns

set_option autoImplicit false

/-! # The two users of the admin queue

`unvme_get_cid` and the tail of the submission queue hand out command ids without knowing of each other,
and `unvme_check_completion` and `nvme_wait_completion` take the next completion whoever it is for. The
two users stay out of each other's way as long as they take turns: a synchronous command is issued with
nothing in flight, and the client calls only when every synchronous command has been reaped
(`AdminRound.Apart`).

Nothing serialises the calls themselves: both users write the entry at the tail and then move the tail. An
`AdminEvent` is a thread that enters a call or returns from one, so calls may overlap; what overlapping
calls make of the queue is left open, any state can be the result. `AdminEvent.Apart` says that they do not
overlap, and `AdminRun` is what is left then. -/

namespace Unvme.Core

open Unvme.Lib Unvme.Nvme

/-- The size of the admin queue. -/
def adminQsize : ℕ := 64

/-- What the users do: `unvme_acmd` and `unvme_apoll` of a descriptor not released, and synchronous
    commands. -/
def AdminRound.Legal (a : AdminState) : AdminRound → Prop
  | .call (.cmd ..) _ => True
  | .call (.poll d _) _ => d ∈ a.sys.q.usedDescs
  | .call (.rw ..) _ => False
  | .sync c _ => c.sync = true
  | .idle _ | .store _ => True

theorem AdminRound.Legal.round {a : AdminState} {c : Call} {σ : List (List CtlAct)}
    (h : AdminRound.Legal a (.call c σ)) : Round.Legal a.sys (.call c σ) := by
  cases c with
  | rw => exact h.elim
  | cmd => trivial
  | poll d timeout => exact h

/-- They take turns. -/
def AdminRound.Apart (a : AdminState) : AdminRound → Prop
  | .call _ _ => ∀ k ∈ a.syncs, k ∈ a.sys.dev.hist.reapedSeqs
  | .sync _ _ => a.sys.dev.hist.inFlight = []
  | .idle _ | .store _ => True

/-- Neither user has disturbed the other. -/
structure AdminState.Undisturbed (a : AdminState) : Prop where
  /-- The ids of the commands in flight are distinct. -/
  distinct : ∀ k k' c, a.sys.dev.hist.Pending k c → a.sys.dev.hist.Pending k' c → k = k'
  /-- `nvme_wait_completion` has taken completions of synchronous commands only, ... -/
  wait : ∀ (i k : ℕ) (e : CqEntry), a.sys.dev.hist.posts[i]? = some (k, e) →
    a.takers[i]? = some Taker.wait → k ∈ a.syncs
  /-- ... and `unvme_check_completion` none of them. -/
  check : ∀ (i k : ℕ) (e : CqEntry), a.sys.dev.hist.posts[i]? = some (k, e) →
    a.takers[i]? = some Taker.check → k ∉ a.syncs
  /-- A synchronous command completed with status 0 when it returned was reported as successful. -/
  reported : ∀ p ∈ a.results, ∀ e, (p.seq, e) ∈ p.hist.posts → e.stat = 0 → p.ret = 0

/-- The completions reaped so far have each been taken by the user who issued the command. -/
structure AdminState.Taken (a : AdminState) : Prop where
  length : a.takers.length = a.sys.dev.hist.reaped
  taker : ∀ (i k : ℕ) (e : CqEntry), a.sys.dev.hist.posts[i]? = some (k, e) → i < a.sys.dev.hist.reaped →
    (a.takers[i]? = some Taker.wait ↔ k ∈ a.syncs)
  submitted : ∀ k ∈ a.syncs, k < a.sys.dev.hist.subs.length

/-- A synchronous command was not completed in time; it is the only one in flight. -/
structure AdminState.Overdue (a : AdminState) : Prop where
  dev : a.sys.dev.Inv a.sys.dev.hist.reaped a.sys.dev.hist.reaped
  only : ∃ k ∈ a.syncs, k ∉ a.sys.dev.hist.reapedSeqs ∧
    ∀ i < a.sys.dev.hist.subs.length, i ≠ k → i ∈ a.sys.dev.hist.reapedSeqs

/-- The invariant of runs in which the users take turns. -/
structure AdminState.Inv (a : AdminState) : Prop where
  state : a.sys.Inv .idle ∧ a.sys.q.size ≤ 65536 ∨ a.Overdue
  taken : a.Taken
  reported : ∀ p ∈ a.results, ∀ e, (p.seq, e) ∈ p.hist.posts → e.stat = 0 → p.ret = 0

namespace AdminState.Inv

variable {a : AdminState}

theorem dev (h : a.Inv) : a.sys.dev.Inv a.sys.dev.hist.reaped a.sys.dev.hist.reaped := by
  rcases h.state with ⟨hs, -⟩ | ho
  · exact hs.dev
  · exact ho.dev

/-- The invariant gives what the users expect. -/
theorem undisturbed (h : a.Inv) : a.Undisturbed := by
  have hlt : ∀ i t, a.takers[i]? = some t → i < a.sys.dev.hist.reaped := by
    intro i t ht
    rw [← h.taken.length]
    exact (List.getElem?_eq_some_iff.1 ht).1
  refine ⟨?_, ?_, ?_, h.reported⟩
  · rcases h.state with ⟨hs, -⟩ | ho
    · exact hs.acc.inj
    · obtain ⟨k₀, -, -, honly⟩ := ho.only
      have hk : ∀ k c, a.sys.dev.hist.Pending k c → k = k₀ := by
        rintro k c ⟨⟨sub, hs, -⟩, hn⟩
        by_contra hne
        exact hn (honly k (List.getElem?_eq_some_iff.1 hs).1 hne)
      intro k k' c hp hp'
      rw [hk k c hp, hk k' c hp']
  · intro i k e hp ht
    exact (h.taken.taker i k e hp (hlt i _ ht)).1 ht
  · intro i k e hp ht hk
    have hw := (h.taken.taker i k e hp (hlt i _ ht)).2 hk
    rw [ht] at hw
    cases hw

/-- The controller and the client's memory. -/
theorem later (h : a.Inv) {dev : Device} (hl : a.sys.dev.Later dev)
    (hdev : ∀ k j, a.sys.dev.Inv k j → dev.Inv k j) :
    AdminState.Inv { a with sys := { a.sys with dev := dev } } := by
  have hseqs := hl.reapedSeqs h.dev.reaped_le_posted
  refine ⟨?_, ⟨h.taken.length.trans hl.reaped.symm, ?_, ?_⟩, h.reported⟩
  · rcases h.state with ⟨hs, hsize⟩ | ho
    · exact Or.inl ⟨hs.later hl (hdev _ _ hs.dev), hsize⟩
    · refine Or.inr ⟨?_, ?_⟩
      · show dev.Inv dev.hist.reaped dev.hist.reaped
        rw [hl.reaped]
        exact hdev _ _ ho.dev
      · show ∃ k ∈ a.syncs, k ∉ dev.hist.reapedSeqs ∧
          ∀ i < dev.hist.subs.length, i ≠ k → i ∈ dev.hist.reapedSeqs
        rw [hseqs, hl.subs]
        exact ho.only
  · intro i k e hp hi
    change i < dev.hist.reaped at hi
    rw [hl.reaped] at hi
    refine h.taken.taker i k e ?_ hi
    obtain ⟨more, hmore⟩ := hl.posts
    change dev.hist.posts[i]? = _ at hp
    rwa [← hmore, List.getElem?_append_left
      (lt_of_lt_of_le hi h.dev.reaped_le_posted)] at hp
  · intro k hk
    show k < dev.hist.subs.length
    rw [hl.subs]
    exact h.taken.submitted k hk

/-- With all synchronous commands reaped the queue is as the client expects it. -/
theorem idle_of_reaped (h : a.Inv) (hr : ∀ k ∈ a.syncs, k ∈ a.sys.dev.hist.reapedSeqs) :
    a.sys.Inv .idle ∧ a.sys.q.size ≤ 65536 := by
  rcases h.state with hs | ho
  · exact hs
  · obtain ⟨k, hk, hn, -⟩ := ho.only
    exact absurd (hr k hk) hn

/-- With nothing in flight likewise. -/
theorem idle_of_quiet (h : a.Inv) (hq : a.sys.dev.hist.inFlight = []) :
    a.sys.Inv .idle ∧ a.sys.q.size ≤ 65536 := by
  exact h.idle_of_reaped (fun k hk => History.reaped_of_quiet hq (h.taken.submitted k hk))

/-- A call of the client takes no completion of a synchronous command: all of those are reaped. -/
theorem call {E : Env} (h : a.Inv) {c : Call} {σ : List (List CtlAct)}
    (hl : AdminRound.Legal a (.call c σ)) (ha : AdminRound.Apart a (.call c σ)) {v : Ret} {s' : Sys}
    (hv : c.run E (a.sys.withSched σ) = .ok v s') :
    AdminState.Inv { a with
      sys := s', takers := a.takers ++ List.replicate (a.sys.reapCount s') .check } := by
  obtain ⟨hs, hsize⟩ := h.idle_of_reaped ha
  have hst := (Call.run_spec (E := E) c (hs.withSched σ) (Call.allowed_any hl.round)).of_ok hv
  have hs' := hst.inv (hs.withSched σ)
  have hq := hst.sameQueue (hs.withSched σ)
  have hg : a.sys.dev.hist.Grows s'.dev.hist := hst.grows
  have hlen := h.taken.length
  have hR := hg.reaped
  refine ⟨Or.inl ⟨hs', by rw [show s'.q.size = a.sys.q.size from hq.size]; exact hsize⟩,
    ⟨?_, ?_, ?_⟩, h.reported⟩
  · rw [List.length_append, List.length_replicate, hlen, Sys.reapCount]
    show a.sys.dev.hist.reaped + (s'.dev.hist.reaped - a.sys.dev.hist.reaped) = s'.dev.hist.reaped
    omega
  · intro i k e hp hi
    change s'.dev.hist.posts[i]? = _ at hp
    change i < s'.dev.hist.reaped at hi
    obtain ⟨more, hmore⟩ := hg.posts
    rcases Nat.lt_or_ge i a.sys.dev.hist.reaped with hlt | hge
    · rw [List.getElem?_append_left (by omega)]
      refine h.taken.taker i k e ?_ hlt
      rwa [← hmore, List.getElem?_append_left (lt_of_lt_of_le hlt h.dev.reaped_le_posted)] at hp
    · rw [List.getElem?_append_right (by omega), List.getElem?_replicate, hlen,
        if_pos (by rw [Sys.reapCount]; omega)]
      refine ⟨nofun, fun hk => ?_⟩
      -- this command was completed before the call, and is completed once
      obtain ⟨e', he'⟩ := History.mem_reapedSeqs.1 (ha k hk)
      rw [History.Reaped, List.mem_take_iff_getElem] at he'
      obtain ⟨j, hj, hget⟩ := he'
      have hp' : s'.dev.hist.posts[j]? = some (k, e') := by
        rw [← hmore, List.getElem?_append_left (by omega)]
        exact List.getElem?_eq_some_iff.2 ⟨by omega, hget⟩
      have hij := hs'.dev.post_inj hp hp'
      omega
  · intro k hk
    exact lt_of_lt_of_le (h.taken.submitted k hk) hg.subs.length_le

end AdminState.Inv

namespace Sys.Synced

variable {c : Command} {s s' : Sys} {r : ℤ × ℕ}

/-- The completions reaped before are where they were. -/
theorem post_of_lt (h : s.Synced c s' r) {i : ℕ} (hi : i < s.dev.hist.reaped) :
    s'.dev.hist.posts[i]? = s.dev.hist.posts[i]? := by
  have hget := congrArg (fun l => l[i]?) h.posts
  simp only [List.getElem?_take_of_lt hi] at hget
  exact hget

/-- A synchronous command that was completed brings the queue back as it was. -/
theorem inv (h : s.Synced c s' r) (hs : s.Inv .idle) (hq : s.dev.hist.inFlight = [])
    (hR : s'.dev.hist.reaped = s.dev.hist.reaped + 1) {e : CqEntry}
    (hp : s'.dev.hist.posts[s.dev.hist.reaped]? = some (s.dev.hist.submitted, e)) :
    s'.Inv .idle := by
  obtain ⟨sub, hsubs, hothers⟩ := h.subs
  refine ⟨?_, h.dev, ?_, nofun⟩
  · rw [h.q]
    exact hs.acc.synced hq hsubs hothers hR hp h.posts
  · rw [h.q, h.size]
    exact hs.size

/-- A completion with status 0 is reported as success if the tail fits into a command id. -/
theorem success (h : s.Synced c s' r) (hs : s.dev.Inv s.dev.hist.reaped s.dev.hist.reaped)
    (hsize : s.dev.size ≤ 65536) {e : CqEntry}
    (hp : (s.dev.hist.submitted, e) ∈ s'.dev.hist.posts) (he : e.stat = 0) : r.1 = 0 := by
  obtain ⟨i, hi⟩ := List.getElem?_of_mem hp
  rcases h.done with ⟨-, hR, hlen⟩ | ⟨hR, e', hpost, hcid, hret, -⟩
  · -- everything posted was reaped before the command was submitted
    have hlt := (List.getElem?_eq_some_iff.1 hi).1
    rw [h.post_of_lt (by omega)] at hi
    obtain ⟨sub, hsub, -⟩ := hs.posts _ (List.mem_of_getElem? hi)
    exact absurd (List.getElem?_eq_some_iff.1 hsub).1 (Nat.lt_irrefl _)
  · obtain rfl := h.dev.post_inj hi hpost
    rw [hi, Option.some.injEq, Prod.mk.injEq] at hpost
    obtain ⟨-, rfl⟩ := hpost
    have htail : s.dev.sqTail < 65536 := by
      rw [hs.tail]
      exact lt_of_lt_of_le (Nat.mod_lt _ (by have := hs.two_le; omega)) hsize
    have hown : e.completion.cid = s.dev.sqTail := by
      show e.cid = _
      rw [hcid]
      omega
    rw [hret, waitStatus, if_pos ⟨hown, he⟩]

end Sys.Synced

namespace AdminState.Inv

variable {a : AdminState}

/-- A synchronous command takes its own completion, or none. -/
theorem sync {E : Env} (h : a.Inv) {c : Command} (hc : c.sync = true)
    (hquiet : a.sys.dev.hist.inFlight = []) {σ : List (List CtlAct)} {r : ℤ × ℕ} {s' : Sys}
    (hr : nvmeAcmd E c (a.sys.withSched σ) = .ok r s') :
    AdminState.Inv
      { sys := s'
        syncs := a.syncs ++ [a.sys.dev.hist.submitted]
        takers := a.takers ++ List.replicate (a.sys.reapCount s') .wait
        results := a.results ++ [⟨a.sys.dev.hist.submitted, c, r.1, r.2, s'.dev.hist⟩] } := by
  obtain ⟨hs, hsize⟩ := h.idle_of_quiet hquiet
  have hy : Sys.Synced c a.sys s' r := by
    obtain ⟨hq, hsz, hdev, hsubs, hposts, hdone⟩ :=
      (nvmeAcmd_spec hc (hs.withSched σ).dev hquiet).of_ok hr
    exact ⟨hq, hsz, hdev, hsubs, hposts, hdone⟩
  have hlen := h.taken.length
  obtain ⟨sub, hsubs, hothers⟩ := hy.subs
  have hS : s'.dev.hist.subs.length = a.sys.dev.hist.subs.length + 1 := by
    rw [hsubs, List.length_append, List.length_singleton]
  have hold : ∀ i k e, s'.dev.hist.posts[i]? = some (k, e) → i < a.sys.dev.hist.reaped →
      a.sys.dev.hist.posts[i]? = some (k, e) ∧ k < a.sys.dev.hist.subs.length := by
    intro i k e hp hi
    rw [hy.post_of_lt hi] at hp
    obtain ⟨x, hx, -⟩ := hs.dev.posts _ (List.mem_of_getElem? hp)
    exact ⟨hp, (List.getElem?_eq_some_iff.1 hx).1⟩
  have hmem : ∀ k < a.sys.dev.hist.subs.length,
      (k ∈ a.syncs ++ [a.sys.dev.hist.submitted] ↔ k ∈ a.syncs) := by
    intro k hk
    rw [List.mem_append, List.mem_singleton]
    refine ⟨fun hor => hor.resolve_right ?_, Or.inl⟩
    exact fun he => absurd hk (by rw [he]; exact Nat.lt_irrefl _)
  have hsub' : ∀ k ∈ a.syncs ++ [a.sys.dev.hist.submitted], k < s'.dev.hist.subs.length := by
    intro k hk
    rcases List.mem_append.1 hk with hk | hk
    · exact lt_of_lt_of_le (h.taken.submitted k hk) (by omega)
    · rw [List.mem_singleton.1 hk, hS]
      exact Nat.lt_succ_self _
  have hreported : ∀ p ∈ a.results ++ [⟨a.sys.dev.hist.submitted, c, r.1, r.2, s'.dev.hist⟩],
      ∀ e, (p.seq, e) ∈ p.hist.posts → e.stat = 0 → p.ret = 0 := by
    intro p hp e he h0
    rcases List.mem_append.1 hp with hp | hp
    · exact h.reported p hp e he h0
    · rw [List.mem_singleton.1 hp] at he ⊢
      exact hy.success hs.dev (by rw [← hs.size]; exact hsize) he h0
  rcases hy.done with ⟨-, hR, hplen⟩ | ⟨hR, e, hpost, -⟩
  · have hcount : a.sys.reapCount s' = 0 := by rw [Sys.reapCount, hR, Nat.sub_self]
    rw [hcount, List.replicate_zero, List.append_nil]
    have hseqs : s'.dev.hist.reapedSeqs = a.sys.dev.hist.reapedSeqs := by
      rw [History.reapedSeqs, hR, hy.posts]
      rfl
    refine ⟨Or.inr ⟨hy.dev, a.sys.dev.hist.submitted,
      List.mem_append_right _ (List.mem_singleton_self _), ?_, ?_⟩, ⟨hlen.trans hR.symm, ?_, hsub'⟩,
      hreported⟩
    · rw [hseqs]
      exact hs.dev.new_not_reaped
    · intro i hi hne
      change i ∈ s'.dev.hist.reapedSeqs
      change i < s'.dev.hist.subs.length at hi
      change i ≠ a.sys.dev.hist.subs.length at hne
      rw [hseqs]
      exact History.reaped_of_quiet hquiet (by omega)
    · intro i k e hp hi
      obtain ⟨hp', hk⟩ := hold i k e hp (by rw [← hR]; exact hi)
      rw [hmem k hk]
      exact h.taken.taker i k e hp' (by rw [← hR]; exact hi)
  · have hcount : a.sys.reapCount s' = 1 := by
      rw [Sys.reapCount, hR]
      omega
    have hsz : s'.q.size ≤ 65536 := by rw [hy.q]; exact hsize
    rw [hcount]
    refine ⟨Or.inl ⟨hy.inv hs hquiet hR hpost, hsz⟩, ⟨?_, ?_, hsub'⟩, hreported⟩
    · rw [List.length_append, hlen]
      exact hR.symm
    · intro i k e' hp hi
      change i < s'.dev.hist.reaped at hi
      rcases Nat.lt_or_ge i a.sys.dev.hist.reaped with hlt | hge
      · obtain ⟨hp', hk⟩ := hold i k e' hp hlt
        rw [hmem k hk, List.getElem?_append_left (by omega)]
        exact h.taken.taker i k e' hp' hlt
      · -- the completion of the command itself
        obtain rfl : i = a.sys.dev.hist.reaped := by omega
        change s'.dev.hist.posts[a.sys.dev.hist.reaped]? = _ at hp
        rw [hpost, Option.some.injEq, Prod.mk.injEq] at hp
        rw [List.getElem?_append_right hlen.le, hlen, Nat.sub_self]
        exact ⟨fun _ => List.mem_append_right _ (by rw [hp.1]; exact List.mem_singleton_self _),
          fun _ => rfl⟩

end AdminState.Inv

variable {E : Env}

namespace AdminState.Inv

/-- The queue when it has been set up. -/
theorem boot {qsize : ℕ} (hq : 2 ≤ qsize) (hsize : qsize ≤ 65536) (prplist : Dma) (mem disk : ℕ → ℕ) :
    (AdminState.boot qsize prplist mem disk).Inv := by
  have hs := Sys.Inv.init hq prplist mem disk
  obtain ⟨hqs, -⟩ := Queue.setup_wf hq prplist
  refine ⟨Or.inl ⟨hs, ?_⟩, ⟨rfl, ?_, fun k hk => absurd hk List.not_mem_nil⟩,
    fun p hp => absurd hp List.not_mem_nil⟩
  · show (Queue.setup qsize prplist).size ≤ 65536
    rw [hqs]
    exact hsize
  · exact fun i k e _ hi => absurd hi (Nat.not_lt_zero i)

/-- **One round keeps the invariant.** -/
theorem round {a a' : AdminState} (h : a.Inv) {r : AdminRound} (hl : r.Legal a) (ha : r.Apart a)
    (hd : r.Does E a a') : a'.Inv := by
  cases hd with
  | call c σ v s' hv => exact h.call hl ha hv
  | sync c σ r s' hr => exact h.sync hl ha hr
  | idle acts => exact h.later (Device.Later.acts _ _ _) (fun _ _ h => h.acts _ _)
  | store mem =>
      exact h.later ⟨rfl, rfl, rfl, rfl, rfl, rfl, List.prefix_rfl, rfl⟩ (fun _ _ h => h.mem mem)

end AdminState.Inv

/-! ## Calls that may overlap -/

/-- A call of the client, or a synchronous command. -/
inductive AdminUse where
  | call (c : Call)
  | sync (c : Command)

/-- The whole of it, with the controller's schedule. -/
def AdminUse.round (σ : List (List CtlAct)) : AdminUse → AdminRound
  | .call c => .call c σ
  | .sync c => .sync c σ

/-- The admin queue, the calls that threads are in, and whether two calls have overlapped. -/
structure AdminThreads where
  admin : AdminState
  inside : List AdminUse
  overlapped : Bool

def AdminThreads.boot (qsize : ℕ) (prplist : Dma) (mem disk : ℕ → ℕ) : AdminThreads :=
  ⟨AdminState.boot qsize prplist mem disk, [], false⟩

/-- A thread enters a call, or returns from it with the controller's schedule for it; actions of the
    controller, or a change of the client's memory. -/
inductive AdminEvent where
  | enter (u : AdminUse)
  | leave (u : AdminUse) (σ : List (List CtlAct))
  | idle (acts : List CtlAct)
  | store (mem : ℕ → ℕ)

/-- The effect of an event. Alone on the queue a call has the effect of its round when it returns; once
    calls have overlapped nothing is said about the state. -/
inductive AdminEvent.Happens (E : Env) (a : AdminThreads) : AdminEvent → AdminThreads → Prop
  | enter (u : AdminUse) :
      Happens E a (.enter u)
        { a with inside := u :: a.inside, overlapped := a.overlapped || !a.inside.isEmpty }
  | leave (u : AdminUse) (σ : List (List CtlAct)) (inside : List AdminUse) (admin : AdminState)
      (hin : a.inside.Perm (u :: inside))
      (hd : a.overlapped = false → (u.round σ).Does E a.admin admin) :
      Happens E a (.leave u σ) { a with admin := admin, inside := inside }
  | idle (acts : List CtlAct) (admin : AdminState) (hd : (AdminRound.idle acts).Does E a.admin admin) :
      Happens E a (.idle acts) { a with admin := admin }
  | store (mem : ℕ → ℕ) (admin : AdminState) (hd : (AdminRound.store mem).Does E a.admin admin) :
      Happens E a (.store mem) { a with admin := admin }

/-- Reachable states. -/
inductive AdminTrace (E : Env) (L : AdminThreads → AdminEvent → Prop) (a₀ : AdminThreads) :
    AdminThreads → Prop
  | nil : AdminTrace E L a₀ a₀
  | event {a a' : AdminThreads} (h : AdminTrace E L a₀ a) (e : AdminEvent) (hl : L a e)
      (hh : e.Happens E a a') : AdminTrace E L a₀ a'

/-- What the users do. -/
def AdminEvent.Legal (a : AdminThreads) : AdminEvent → Prop
  | .enter u => (u.round []).Legal a.admin
  | .leave _ _ | .idle _ | .store _ => True

/-- Calls do not overlap, and the users take turns. -/
def AdminEvent.Apart (a : AdminThreads) : AdminEvent → Prop
  | .enter u => a.inside = [] ∧ (u.round []).Apart a.admin
  | .leave _ _ | .idle _ | .store _ => True

namespace AdminUse

variable {u : AdminUse} {a a' : AdminState} {σ : List (List CtlAct)}

/-- The conditions on a call do not depend on the controller. -/
theorem allowed_round (hl : (u.round []).Legal a) (ha : (u.round []).Apart a) :
    (u.round σ).Legal a ∧ (u.round σ).Apart a := by
  cases u with
  | call c => cases c <;> exact ⟨hl, ha⟩
  | sync c => exact ⟨hl, ha⟩

/-- Nor do they on what happens between entry and return. -/
theorem allowed_later {dev : Device} (hdev : a.sys.dev.Inv a.sys.dev.hist.reaped a.sys.dev.hist.reaped)
    (hlater : a.sys.dev.Later dev) (hl : (u.round []).Legal a) (ha : (u.round []).Apart a) :
    (u.round []).Legal { a with sys := { a.sys with dev := dev } } ∧
      (u.round []).Apart { a with sys := { a.sys with dev := dev } } := by
  have hseqs := hlater.reapedSeqs hdev.reaped_le_posted
  have hquiet := hlater.inFlight hdev.reaped_le_posted
  cases u with
  | call c =>
      have ha' : ∀ k ∈ a.syncs, k ∈ dev.hist.reapedSeqs := by
        rw [hseqs]
        exact ha
      cases c with
      | rw => exact hl.elim
      | cmd => exact ⟨trivial, ha'⟩
      | poll d timeout => exact ⟨hl, ha'⟩
  | sync c =>
      have ha' : dev.hist.inFlight = [] := by
        rw [hquiet]
        exact ha
      exact ⟨hl, ha'⟩

end AdminUse

/-- The invariant of the events: no thread is in a call, or one that may be. -/
structure AdminThreads.Inv (a : AdminThreads) : Prop where
  admin : a.admin.Inv
  overlapped : a.overlapped = false
  inside : a.inside = [] ∨
    ∃ u, a.inside = [u] ∧ (u.round []).Legal a.admin ∧ (u.round []).Apart a.admin

namespace AdminThreads.Inv

variable {a a' : AdminThreads}

/-- The controller, or the client's memory. -/
theorem later (h : a.Inv) {dev : Device} (hl : a.admin.sys.dev.Later dev)
    (hdev : ∀ k j, a.admin.sys.dev.Inv k j → dev.Inv k j) :
    AdminThreads.Inv { a with admin := { a.admin with sys := { a.admin.sys with dev := dev } } } := by
  refine ⟨h.admin.later hl hdev, h.overlapped, ?_⟩
  rcases h.inside with hnil | ⟨u, hu, hlegal, hapart⟩
  · exact Or.inl hnil
  · exact Or.inr ⟨u, hu, AdminUse.allowed_later h.admin.dev hl hlegal hapart⟩

/-- **One event keeps the invariant.** -/
theorem happens (h : a.Inv) {e : AdminEvent} (hl : e.Legal a) (ha : e.Apart a)
    (hh : e.Happens E a a') : a'.Inv := by
  cases hh with
  | enter u =>
      refine ⟨h.admin, ?_, Or.inr ⟨u, ?_, hl, ha.2⟩⟩
      · show (a.overlapped || !a.inside.isEmpty) = false
        rw [h.overlapped, ha.1]
        rfl
      · show u :: a.inside = [u]
        rw [ha.1]
  | leave u σ inside admin hin hd =>
      obtain ⟨u', hu', hlegal, hapart⟩ : ∃ u, a.inside = [u] ∧ (u.round []).Legal a.admin ∧
          (u.round []).Apart a.admin := by
        refine h.inside.resolve_left fun hnil => ?_
        rw [hnil] at hin
        exact absurd hin.length_eq (by simp)
      rw [hu', List.singleton_perm] at hin
      obtain ⟨rfl, rfl⟩ := List.cons.inj hin
      obtain ⟨hlegal', hapart'⟩ := AdminUse.allowed_round (σ := σ) hlegal hapart
      exact ⟨h.admin.round hlegal' hapart' (hd h.overlapped), h.overlapped, Or.inl rfl⟩
  | idle acts admin hd =>
      cases hd
      exact h.later (Device.Later.acts _ _ _) (fun _ _ h => h.acts _ _)
  | store mem admin hd =>
      cases hd
      exact h.later ⟨rfl, rfl, rfl, rfl, rfl, rfl, List.prefix_rfl, rfl⟩ (fun _ _ h => h.mem mem)

end AdminThreads.Inv

/-- The invariant holds in every interleaving in which calls do not overlap and the users take turns. -/
theorem AdminTrace.inv {qsize : ℕ} (hq : 2 ≤ qsize) (hsize : qsize ≤ 65536) {prplist : Dma}
    {mem disk : ℕ → ℕ} {a : AdminThreads}
    (hrun : AdminTrace E (fun a e => e.Legal a ∧ e.Apart a) (AdminThreads.boot qsize prplist mem disk)
      a) : a.Inv := by
  induction hrun with
  | nil => exact ⟨AdminState.Inv.boot hq hsize prplist mem disk, rfl, Or.inl rfl⟩
  | event _ e hl hh ih => exact ih.happens hl.1 hl.2 hh

/-- **Users of the admin queue whose calls do not overlap and who take turns do not disturb each other.**
    And a call of the client never stops on a completion that it does not know. -/
theorem admin_users_undisturbed {prplist : Dma} {mem disk : ℕ → ℕ} {a : AdminThreads}
    (hrun : AdminTrace E (fun a e => e.Legal a ∧ e.Apart a)
      (AdminThreads.boot adminQsize prplist mem disk) a) :
    a.admin.Undisturbed ∧ ∀ c σ, AdminUse.call c ∈ a.inside →
      ∀ s' cid, c.run E (a.admin.sys.withSched σ) ≠ .error (.cidNotFound cid) s' := by
  have h := hrun.inv (by decide) (by decide)
  refine ⟨h.admin.undisturbed, ?_⟩
  intro c σ hc s' cid hstop
  rcases h.inside with hnil | ⟨u, hu, hl, ha⟩
  · rw [hnil] at hc
    cases hc
  · rw [hu, List.mem_singleton] at hc
    subst hc
    obtain ⟨hs, -⟩ := h.admin.idle_of_reaped ha
    have hspec := Call.run_spec (E := E) c (hs.withSched σ)
      (Call.allowed_any (AdminUse.allowed_round hl ha).1.round)
    unfold wp at hspec
    rw [hstop] at hspec
    rcases hspec.1 with he | he | ⟨he, -⟩ <;> cases he

/-- The state after a call of the client. -/
def AdminState.afterCall (a : AdminState) (c : Call) (σ : List (List CtlAct)) : AdminState :=
  let s := c.after sampleEnv (a.sys.withSched σ)
  { a with sys := s, takers := a.takers ++ List.replicate (a.sys.reapCount s) .check }

/-- A thread enters a call and returns from it, alone on the queue. -/
theorem AdminTrace.alone {L : AdminThreads → AdminEvent → Prop} {a₀ : AdminThreads} {a a' : AdminState}
    (h : AdminTrace sampleEnv L a₀ ⟨a, [], false⟩) (u : AdminUse) (σ : List (List CtlAct))
    (hl : L ⟨a, [], false⟩ (.enter u)) (hl' : L ⟨a, [u], false⟩ (.leave u σ))
    (hd : (u.round σ).Does sampleEnv a a') : AdminTrace sampleEnv L a₀ ⟨a', [], false⟩ :=
  (h.event (.enter u) hl (.enter u)).event (.leave u σ) hl'
    (.leave u σ [] a' (List.Perm.refl _) (fun _ => hd))

theorem AdminTrace.call {L : AdminThreads → AdminEvent → Prop} {a₀ : AdminThreads} {a : AdminState}
    (h : AdminTrace sampleEnv L a₀ ⟨a, [], false⟩) (c : Call) (σ : List (List CtlAct)) (v : Ret)
    (hl : L ⟨a, [], false⟩ (.enter (.call c))) (hl' : L ⟨a, [.call c], false⟩ (.leave (.call c) σ))
    (hv : returns (c.run sampleEnv) (a.sys.withSched σ) (fun x _ => decide (x = v)) = true) :
    AdminTrace sampleEnv L a₀ ⟨a.afterCall c σ, [], false⟩ :=
  h.alone (.call c) σ hl hl' (.call c σ v _ (eq_ok_of_returns hv))

theorem AdminTrace.sync {L : AdminThreads → AdminEvent → Prop} {a₀ : AdminThreads} {a : AdminState}
    (h : AdminTrace sampleEnv L a₀ ⟨a, [], false⟩) (c : Command) (σ : List (List CtlAct)) (r : ℤ × ℕ)
    (hl : L ⟨a, [], false⟩ (.enter (.sync c))) (hl' : L ⟨a, [.sync c], false⟩ (.leave (.sync c) σ))
    (hr : returns (nvmeAcmd sampleEnv c) (a.sys.withSched σ) (fun x _ => decide (x = r)) = true) :
    AdminTrace sampleEnv L a₀ ⟨a.afterSync c σ r, [], false⟩ :=
  h.alone (.sync c) σ hl hl' (.sync c σ r _ (eq_ok_of_returns hr))

/-- The admin queue when the device is opened. -/
def newAdmin : AdminState := AdminState.boot adminQsize ⟨0, 0, 0⟩ (fun _ => 0) (fun _ => 0)

/-- The driver has identified the controller. -/
def identified : AdminState := newAdmin.afterSync (.identify 0 0 0)
  [[], [], [.fetch, .loadPrps 0, .execute 0, .post 0 0 0]] (0, 2 ^ 32 - 1)

theorem identified_run : AdminTrace sampleEnv (fun a e => e.Legal a ∧ e.Apart a) ⟨newAdmin, [], false⟩
    ⟨identified, [], false⟩ := by
  have hquiet : newAdmin.sys.dev.hist.inFlight = [] := by decide +kernel
  exact AdminTrace.nil.sync _ _ _ ⟨rfl, rfl, hquiet⟩ ⟨trivial, trivial⟩ (by decide +kernel)

/-- Then the client issues a command and polls it. -/
theorem admin_users_undisturbed_turns :
    let a := (identified.afterCall (.cmd (-1) 0xC1 1 0 512 none) []).afterCall
      (.poll 0 unvmeTimeout) [[.fetch, .loadPrps 0, .execute 0, .post 0 0 0]]
    a.takers = [.wait, .check] ∧ a.Undisturbed := by
  intro a
  have hsyncs : ∀ k ∈ identified.syncs, k ∈ identified.sys.dev.hist.reapedSeqs := by decide +kernel
  have hcmd := identified_run.call (.cmd (-1) 0xC1 1 0 512 none) [] (.desc (some 0))
    ⟨trivial, rfl, hsyncs⟩ ⟨trivial, trivial⟩ (by decide +kernel)
  have hused : 0 ∈ (identified.afterCall (.cmd (-1) 0xC1 1 0 512 none) []).sys.q.usedDescs := by
    decide +kernel
  have hsyncs' : ∀ k ∈ identified.syncs,
      k ∈ (identified.afterCall (.cmd (-1) 0xC1 1 0 512 none) []).sys.dev.hist.reapedSeqs := by
    decide +kernel
  have hpoll := hcmd.call (.poll 0 unvmeTimeout) [[.fetch, .loadPrps 0, .execute 0, .post 0 0 0]]
    (.status 0) ⟨hused, rfl, hsyncs'⟩ ⟨trivial, trivial⟩ (by decide +kernel)
  exact ⟨by decide +kernel, (admin_users_undisturbed hpoll).1⟩

/-- The driver identifies a namespace while a command of the client is in flight, after the call that
    issued it. The client's command completes first: its completion is taken by the driver, which reports
    its own command as failed although the controller has completed it with status 0. -/
theorem admin_users_disturbed :
    let a := (newAdmin.afterCall (.cmd (-1) 0xC1 1 0 512 none) []).afterSync (.identify 1 0 0)
      [[], [], [.fetch, .fetch, .loadPrps 0, .execute 0, .loadPrps 1, .execute 1, .post 0 0 0,
        .post 0 0 0]] (-1, 2 ^ 32 - 1)
    AdminTrace sampleEnv (fun a e => e.Legal a) ⟨newAdmin, [], false⟩ ⟨a, [], false⟩ ∧
      (∃ e, (1, e) ∈ a.sys.dev.hist.posts ∧ e.stat = 0) ∧ ¬ a.Undisturbed := by
  intro a
  have hcmd : AdminTrace sampleEnv (fun a e => e.Legal a) ⟨newAdmin, [], false⟩ _ :=
    AdminTrace.nil.call (.cmd (-1) 0xC1 1 0 512 none) [] (.desc (some 0)) trivial trivial
      (by decide +kernel)
  have hrun := hcmd.sync (.identify 1 0 0)
      [[], [], [.fetch, .fetch, .loadPrps 0, .execute 0, .loadPrps 1, .execute 1, .post 0 0 0,
        .post 0 0 0]] (-1, 2 ^ 32 - 1) rfl trivial (by decide +kernel)
  have hposts : a.sys.dev.hist.posts[0]? = some (0, ⟨0, 2, 0, 0, 0⟩) ∧
      a.sys.dev.hist.posts[1]? = some (1, ⟨0, 2, 0, 1, 0⟩) := by decide +kernel
  refine ⟨hrun, ⟨_, List.mem_of_getElem? hposts.2, rfl⟩, ?_⟩
  intro h
  have hmem : 0 ∈ [1] := h.wait 0 0 _ hposts.1 (by decide +kernel)
  exact absurd hmem (by decide)

end Unvme.Core
