import Unvme.Lib.Wp
import Mathlib.Data.Int.Init
import Mathlib.Data.List.Count
import Mathlib.Data.List.Nodup
import Mathlib.Data.List.Perm.Subperm
import Mathlib.Logic.Function.Basic

set_option autoImplicit false

/-! # The engine for fio (`unvme_fio.c`)

Fio hands its units to `queue`, which starts a request, and asks `getevents` for completed ones. This polls
the requests of all units in turn, without waiting, until it has collected enough.

Every unit that was queued is reported once, in any order of calls and whatever the polls answer
(`units_reported_once`). The loop of `getevents` ends when `max` units are collected, or with at least `min` of
them when a request is found that is not completed. If fewer than `max` are under way and all of them
complete, it is neither: the call never returns (`getevents_returns_iff`). -/

namespace Unvme.Fio

open Unvme.Lib

/-! ## The engine -/

inductive Ddir where
  | read
  | write
  | other
  deriving DecidableEq, Repr

/-- A unit of fio (`struct io_u`); `flight` is its flag `IO_U_F_FLIGHT`. -/
structure IoU where
  ddir : Ddir
  offset : ℕ
  buf : ℕ
  engineData : Option ℕ
  flight : Bool
  deriving DecidableEq, Repr

/-- A call of the driver's asynchronous functions. -/
inductive DriverCall where
  | aread (q buf slba nlb : ℕ)
  | awrite (q buf slba nlb : ℕ)
  | apoll (iod : ℕ)
  deriving DecidableEq, Repr

/-- The units of a thread, those collected by `getevents`, and the calls of the driver so far. What the
    driver returns from a call depends on its number: a handle, or the status of a poll. -/
structure Engine where
  ioU : ℕ → IoU
  iocq : List ℕ
  calls : List DriverCall
  handle : ℕ → Option ℕ
  status : ℕ → ℤ

/-- How the process ends. -/
inductive Abort where
  | submit
  | apoll (stat : ℤ)
  deriving DecidableEq, Repr

abbrev FioM := EStateM Abort Engine

def Engine.call (s : Engine) (c : DriverCall) : Engine := { s with calls := s.calls ++ [c] }

def Engine.setEngineData (s : Engine) (i : ℕ) (x : Option ℕ) : Engine :=
  { s with ioU := Function.update s.ioU i { s.ioU i with engineData := x } }

def submit (c : DriverCall) : FioM (Option ℕ) := do
  let s ← get
  set (s.call c)
  pure (s.handle s.calls.length)

def unvmeApoll (iod : ℕ) : FioM ℤ := do
  let s ← get
  set (s.call (.apoll iod))
  pure (s.status s.calls.length)

/-- What the engine has found out about the device and the thread. -/
structure FioSetup where
  threadNumber : ℕ
  blockshift : ℕ
  nlb : ℕ

/-- The request has been submitted. -/
def queued (i : ℕ) : Option ℕ → FioM Bool
  | some iod => do
      modify fun s => s.setEngineData i (some iod)
      pure true
  | none => throw .submit

/-- Initiate io on a unit. Returns whether it is queued; otherwise it is completed at once. -/
def fioUnvmeQueue (F : FioSetup) (i : ℕ) : FioM Bool := do
  let s ← get
  let u := s.ioU i
  let q := F.threadNumber - 1
  let slba := u.offset >>> F.blockshift
  match u.ddir with
  | .read => do
      let iod ← submit (.aread q u.buf slba F.nlb)
      queued i iod
  | .write => do
      let iod ← submit (.awrite q u.buf slba F.nlb)
      queued i iod
  | .other => pure false

/-- The request of a unit, if `getevents` polls it. -/
def IoU.polled (u : IoU) : Option ℕ := if u.flight then u.engineData else none

/-- One turn over the units. Returns whether the call is finished. -/
def scan (min max : ℕ) : List ℕ → FioM Bool
  | [] => pure false
  | i :: is => do
      let s ← get
      match (s.ioU i).polled with
      | none => scan min max is
      | some iod => do
          let stat ← unvmeApoll iod
          if stat = 0 then do
            modify fun s => { s.setEngineData i none with iocq := s.iocq ++ [i] }
            let s ← get
            if s.iocq.length = max then pure true else scan min max is
          else if stat = -1 then do
            let s ← get
            if min ≤ s.iocq.length then pure true else scan min max is
          else throw (.apoll stat)

/-- Up to `n` turns. Returns the number of collected units, or nothing if the call goes on. -/
def turns (units : List ℕ) (min max : ℕ) : ℕ → FioM (Option ℕ)
  | 0 => pure none
  | n + 1 => do
      if ← scan min max units then
        let s ← get
        pure (some s.iocq.length)
      else turns units min max n

/-- Reap completion events, in up to `n` turns over the units. -/
def fioUnvmeGetevents (units : List ℕ) (min max n : ℕ) : FioM (Option ℕ) := do
  modify fun s => { s with iocq := [] }
  turns units min max n

/-- The unit of an event. -/
def fioUnvmeEvent (event : ℕ) : FioM (Option ℕ) := do
  let s ← get
  pure s.iocq[event]?

/-! ## One call of `getevents` -/

section

variable {s₀ s s' : Engine} {min max i iod : ℕ} {is units : List ℕ}

/-- The units in `iocq` are of `units` and have completed since `s₀`, the others are as they were. -/
structure Engine.Collected (units : List ℕ) (s₀ s : Engine) : Prop where
  nodup : s.iocq.Nodup
  sub : ∀ i ∈ s.iocq, i ∈ units
  taken : ∀ i ∈ s.iocq, (s.ioU i).engineData = none ∧ ∃ iod n, (s₀.ioU i).polled = some iod ∧
    s.calls[n]? = some (.apoll iod) ∧ s.status n = 0
  rest : ∀ i, i ∉ s.iocq → s.ioU i = s₀.ioU i
  status : s.status = s₀.status

theorem Engine.Collected.start (s : Engine) : s.Collected units { s with iocq := [] } :=
  ⟨List.nodup_nil, fun _ hi => absurd hi List.not_mem_nil, fun _ hi => absurd hi List.not_mem_nil,
    fun _ _ => rfl, rfl⟩

/-- There is room for them in an array of one entry a unit. -/
theorem Engine.Collected.length_le (h : s₀.Collected units s) : s.iocq.length ≤ units.length :=
  (List.Nodup.subperm h.nodup h.sub).length_le

/-- A poll is a call. -/
theorem Engine.Collected.call (h : s₀.Collected units s) (c : DriverCall) : s₀.Collected units (s.call c) := by
  refine ⟨h.nodup, h.sub, ?_, h.rest, h.status⟩
  intro i hi
  obtain ⟨hnone, iod, n, hp, hc, hn⟩ := h.taken i hi
  refine ⟨hnone, iod, n, hp, ?_, hn⟩
  show (s.calls ++ [c])[n]? = _
  rw [List.getElem?_append_left (List.getElem?_eq_some_iff.1 hc).1]
  exact hc

/-- The state after a poll that has found the request of unit `i` completed. -/
def Engine.collect (s : Engine) (i iod : ℕ) : Engine :=
  { (s.call (.apoll iod)).setEngineData i none with iocq := s.iocq ++ [i] }

@[simp] theorem Engine.collect_iocq_length : (s.collect i iod).iocq.length = s.iocq.length + 1 :=
  List.length_append

@[simp] theorem Engine.collect_ioU_self :
    (s.collect i iod).ioU i = { s.ioU i with engineData := none } := Function.update_self ..

@[simp] theorem Engine.collect_ioU_of_ne {j : ℕ} (h : j ≠ i) : (s.collect i iod).ioU j = s.ioU j :=
  Function.update_of_ne h ..

/-- A unit that is polled is not in the queue yet. -/
theorem Engine.Collected.not_mem (h : s₀.Collected units s) (hp : (s.ioU i).polled = some iod) :
    i ∉ s.iocq := by
  intro hi
  unfold IoU.polled at hp
  rw [(h.taken i hi).1, ite_self] at hp
  cases hp

/-- A unit is collected. -/
theorem Engine.Collected.collect (h : s₀.Collected units s) (hi : i ∈ units)
    (hp : (s.ioU i).polled = some iod) (h0 : s.status s.calls.length = 0) :
    s₀.Collected units (s.collect i iod) := by
  have hnot := h.not_mem hp
  have hcall := h.call (.apoll iod)
  refine ⟨?_, ?_, ?_, ?_, h.status⟩
  · show (s.iocq ++ [i]).Nodup
    rw [List.nodup_append]
    exact ⟨h.nodup, List.nodup_singleton i, fun a ha b hb hab => hnot (List.mem_singleton.1 hb ▸ hab ▸ ha)⟩
  · intro j hj
    rcases List.mem_append.1 hj with hj | hj
    · exact h.sub j hj
    · rw [List.mem_singleton.1 hj]
      exact hi
  · intro j hj
    by_cases hji : j = i
    · subst hji
      refine ⟨?_, iod, s.calls.length, ?_, ?_, h0⟩
      · rw [collect_ioU_self]
      · rw [← h.rest j hnot]
        exact hp
      · exact List.getElem?_concat_length
    · have hj' : j ∈ s.iocq := (List.mem_append.1 hj).resolve_right (fun hin => hji (List.mem_singleton.1 hin))
      rw [collect_ioU_of_ne hji]
      exact hcall.taken j hj'
  · intro j hj
    change j ∉ s.iocq ++ [i] at hj
    rw [List.mem_append, List.mem_singleton, not_or] at hj
    rw [collect_ioU_of_ne hj.2]
    exact h.rest j hj.1

theorem scan_spec (h : s₀.Collected units s) (hsub : ∀ i ∈ is, i ∈ units) (hlt : s.iocq.length < max) :
    wp (scan min max is) s
      (fun stop s' => s₀.Collected units s' ∧ s'.iocq.length ≤ max ∧
        if stop then min ≤ s'.iocq.length ∨ s'.iocq.length = max else s'.iocq.length < max)
      (fun e s' => s₀.Collected units s' ∧ ∃ stat, e = .apoll stat ∧ stat ≠ 0 ∧ stat ≠ -1) := by
  induction is generalizing s with
  | nil => exact ⟨h, Nat.le_of_lt hlt, hlt⟩
  | cons i is ih =>
      have hsub' : ∀ j ∈ is, j ∈ units := fun j hj => hsub j (List.mem_cons_of_mem i hj)
      rw [scan, wp_bind, wp_get]
      cases hp : (s.ioU i).polled with
      | none => exact ih h hsub' hlt
      | some iod =>
          simp only [unvmeApoll, wp_bind, wp_get, wp_set, wp_pure, wp_ite, wp_modify, wp_throw,
            if_true]
          by_cases h0 : s.status s.calls.length = 0
          · rw [if_pos h0]
            have hcollect := h.collect (hsub i List.mem_cons_self) hp h0
            have hlen : (s.collect i iod).iocq.length = s.iocq.length + 1 := Engine.collect_iocq_length
            split
            · next hmax => exact ⟨hcollect, Nat.le_of_eq hmax, Or.inr hmax⟩
            · next hmax =>
                change ¬ (s.collect i iod).iocq.length = max at hmax
                exact ih (s := s.collect i iod) hcollect hsub' (by omega)
          · rw [if_neg h0]
            by_cases h1 : s.status s.calls.length = -1
            · rw [if_pos h1]
              split
              · next hmin => exact ⟨h.call _, Nat.le_of_lt hlt, Or.inl hmin⟩
              · exact ih (h.call _) hsub' hlt
            · rw [if_neg h1]
              exact ⟨h.call _, _, rfl, h0, h1⟩

theorem turns_spec {n : ℕ} (h : s₀.Collected units s) (hlt : s.iocq.length < max) :
    wp (turns units min max n) s
      (fun r s' => s₀.Collected units s' ∧
        ∀ ec, r = some ec → ec = s'.iocq.length ∧ ec ≤ max ∧ (min ≤ ec ∨ ec = max))
      (fun e s' => s₀.Collected units s' ∧ ∃ stat, e = .apoll stat ∧ stat ≠ 0 ∧ stat ≠ -1) := by
  induction n generalizing s with
  | zero => exact ⟨h, fun _ hr => absurd hr (by simp)⟩
  | succ n ih =>
      rw [turns]
      refine wp_bind_of (scan_spec h (fun _ hi => hi) hlt) ?_
      rintro (_ | _) s' ⟨h', hle, hstop⟩
      · exact ih h' hstop
      · refine ⟨h', fun ec hr => ?_⟩
        cases hr
        exact ⟨rfl, hle, hstop⟩

/-- What `getevents` reports: units whose request a poll has found completed, each once, and no more than
    there is room for. -/
theorem fioUnvmeGetevents_spec {n : ℕ} (hmax : 0 < max) :
    wp (fioUnvmeGetevents units min max n) s
      (fun r s' => s.Collected units s' ∧ ∀ ec, r = some ec →
        ec = s'.iocq.length ∧ ec ≤ units.length ∧ ec ≤ max ∧ (min ≤ ec ∨ ec = max))
      (fun e s' => s.Collected units s' ∧ ∃ stat, e = .apoll stat ∧ stat ≠ 0 ∧ stat ≠ -1) := by
  unfold fioUnvmeGetevents
  rw [wp_bind, wp_modify]
  refine wp_mono (turns_spec (Engine.Collected.start s) hmax) ?_ (fun _ _ he => he)
  rintro r s' ⟨h, hret⟩
  refine ⟨h, fun ec hr => ?_⟩
  obtain ⟨rfl, hle, hmin⟩ := hret ec hr
  exact ⟨rfl, h.length_le, hle, hmin⟩

/-! ## When the loop ends -/

/-- How many of the units have a request under way. -/
def Engine.underWay (s : Engine) (units : List ℕ) : ℕ :=
  units.countP (fun i => (s.ioU i).polled.isSome)

theorem Engine.collect_underWay (hi : i ∉ is) : (s.collect i iod).underWay is = s.underWay is := by
  refine List.countP_congr (fun j hj => ?_)
  have hji : j ≠ i := fun hji => hi (hji ▸ hj)
  rw [collect_ioU_of_ne hji]

theorem Engine.collect_polled_self : ((s.collect i iod).ioU i).polled = none := by
  rw [collect_ioU_self]
  exact ite_self _

theorem Engine.collect_polled {j : ℕ} (hj : (s.ioU j).polled = none) :
    ((s.collect i iod).ioU j).polled = none := by
  by_cases hji : j = i
  · subst hji
    exact collect_polled_self
  · rw [collect_ioU_of_ne hji]
    exact hj

/-- A turn with nothing to poll. -/
theorem scan_idle (h : ∀ i ∈ is, (s.ioU i).polled = none) : scan min max is s = .ok false s := by
  induction is with
  | nil => rfl
  | cons i is ih =>
      have hrest := ih (fun j hj => h j (List.mem_cons_of_mem i hj))
      have hi := h i List.mem_cons_self
      show (match (s.ioU i).polled with
        | none => scan min max is
        | some iod => _) s = _
      rw [hi]
      exact hrest

theorem turns_idle (h : ∀ i ∈ units, (s.ioU i).polled = none) (n : ℕ) :
    turns units min max n s = .ok none s := by
  induction n with
  | zero => rfl
  | succ n ih =>
      rw [turns]
      show EStateM.bind (scan min max units) _ s = _
      unfold EStateM.bind
      rw [scan_idle h]
      exact ih

/-- A turn in which every poll finds its request completed. -/
theorem scan_completed (hall : ∀ n, s.status n = 0) (hnodup : is.Nodup) (hlt : s.iocq.length < max) :
    wp (scan min max is) s
      (fun stop s' => (stop = true ↔ max ≤ s.iocq.length + s.underWay is) ∧
        (stop = false → (∀ i ∈ is, (s'.ioU i).polled = none) ∧
          ∀ i, (s.ioU i).polled = none → (s'.ioU i).polled = none))
      (fun _ _ => False) := by
  induction is generalizing s with
  | nil =>
      refine ⟨⟨fun h => Bool.noConfusion h, fun h => ?_⟩, fun _ => ⟨fun _ h => absurd h List.not_mem_nil,
        fun _ h => h⟩⟩
      change max ≤ s.iocq.length + 0 at h
      omega
  | cons i is ih =>
      obtain ⟨hi, hnodup⟩ := List.nodup_cons.1 hnodup
      rw [scan, wp_bind, wp_get]
      cases hp : (s.ioU i).polled with
      | none =>
          have hcount : s.underWay (i :: is) = s.underWay is :=
            List.countP_cons_of_neg (by rw [hp]; decide)
          rw [hcount]
          refine wp_mono (ih hall hnodup hlt) ?_ (fun _ _ hf => hf)
          rintro stop s' ⟨hstop, hrest⟩
          refine ⟨hstop, fun hf => ?_⟩
          obtain ⟨his, hkeep⟩ := hrest hf
          refine ⟨fun j hj => ?_, hkeep⟩
          rcases List.mem_cons.1 hj with rfl | hj
          · exact hkeep j hp
          · exact his j hj
      | some iod =>
          have hcount : s.underWay (i :: is) = s.underWay is + 1 :=
            List.countP_cons_of_pos (by rw [hp]; rfl)
          simp only [unvmeApoll, wp_bind, wp_get, wp_set, wp_pure, wp_ite, wp_modify, wp_throw, hall,
            if_true]
          have hlen : (s.collect i iod).iocq.length = s.iocq.length + 1 := Engine.collect_iocq_length
          split
          · next hmax =>
              change (s.collect i iod).iocq.length = max at hmax
              exact ⟨⟨fun _ => by omega, fun _ => trivial⟩, fun h => Bool.noConfusion h⟩
          · next hmax =>
              change ¬ (s.collect i iod).iocq.length = max at hmax
              refine wp_mono (ih (s := s.collect i iod) hall hnodup (by omega)) ?_ (fun _ _ hf => hf)
              rintro stop s' ⟨hstop, hrest⟩
              rw [hlen, Engine.collect_underWay hi] at hstop
              refine ⟨hstop.trans (by rw [hcount]; omega), fun hf => ?_⟩
              obtain ⟨his, hkeep⟩ := hrest hf
              refine ⟨fun j hj => ?_, fun j hj => hkeep j (Engine.collect_polled hj)⟩
              rcases List.mem_cons.1 hj with rfl | hj
              · exact hkeep j Engine.collect_polled_self
              · exact his j hj

/-- **When the device is fast, a call returns only if `max` units are under way.** If every poll finds its
    request completed, `getevents` returns, after any number of turns, exactly if at least `max` of the
    units have a request; `min` does not matter. -/
theorem getevents_returns_iff (hall : ∀ n, s.status n = 0) (hnodup : units.Nodup) (hmax : 0 < max) :
    (∃ n ec s', fioUnvmeGetevents units min max n s = .ok (some ec) s') ↔ max ≤ s.underWay units := by
  have hspec : wp (scan min max units) { s with iocq := [] } _ _ := scan_completed hall hnodup hmax
  obtain ⟨stop, s₁, hscan, hstop, hidle⟩ := hspec.exists_ok
  have hrun : ∀ n, fioUnvmeGetevents units min max (n + 1) s =
      (if stop then .ok (some s₁.iocq.length) s₁ else turns units min max n s₁) := by
    intro n
    show EStateM.bind (scan min max units) _ { s with iocq := [] } = _
    unfold EStateM.bind
    rw [hscan]
    cases stop <;> rfl
  rw [show s.underWay units = [].length + ({ s with iocq := [] } : Engine).underWay units from
    (Nat.zero_add _).symm, ← hstop]
  constructor
  · rintro ⟨n, ec, s', hret⟩
    cases n with
    | zero => cases hret
    | succ n =>
        by_contra hnot
        rw [hrun, if_neg hnot, turns_idle (hidle (Bool.eq_false_iff.2 hnot)).1] at hret
        cases hret
  · intro ht
    refine ⟨1, s₁.iocq.length, s₁, ?_⟩
    rw [hrun, if_pos ht]

/-! ## Runs -/

/-- Initiating io changes the unit's request only, or nothing. -/
theorem fioUnvmeQueue_spec (F : FioSetup) (i : ℕ) (s : Engine) :
    wp (fioUnvmeQueue F i) s
      (fun ok s' => if ok then ∃ iod, s'.ioU = (s.setEngineData i (some iod)).ioU else s'.ioU = s.ioU)
      (fun e _ => e = .submit) := by
  have hsubmit : ∀ c : DriverCall, wp (do
      let iod ← submit c
      queued i iod) s
      (fun ok s' => if ok then ∃ iod, s'.ioU = (s.setEngineData i (some iod)).ioU else s'.ioU = s.ioU)
      (fun e _ => e = .submit) := by
    intro c
    simp only [submit, wp_bind, wp_get, wp_set, wp_pure]
    cases s.handle s.calls.length with
    | none => exact rfl
    | some iod =>
        simp only [queued, wp_bind, wp_modify, wp_pure]
        exact ⟨iod, rfl⟩
  unfold fioUnvmeQueue
  rw [wp_bind, wp_get]
  dsimp only
  cases (s.ioU i).ddir with
  | read => exact hsubmit (.aread (F.threadNumber - 1) (s.ioU i).buf ((s.ioU i).offset >>> F.blockshift) F.nlb)
  | write => exact hsubmit (.awrite (F.threadNumber - 1) (s.ioU i).buf ((s.ioU i).offset >>> F.blockshift) F.nlb)
  | other => exact rfl

end

/-- A run of fio on a thread: the units that `queue` has queued and those reported as events. Fio queues no
    unit that is under way, retrieves the events of every call of `getevents`, and does with its units what
    it wants in between, as long as it leaves `engine_data` alone. -/
inductive Run (F : FioSetup) (units : List ℕ) (s₀ : Engine) : List ℕ → List ℕ → Engine → Prop
  | nil : Run F units s₀ [] [] s₀
  | queue {qs rs : List ℕ} {s s' : Engine} (h : Run F units s₀ qs rs s) (i : ℕ) (ok : Bool)
      (hfree : (s.ioU i).engineData = none) (hq : fioUnvmeQueue F i s = .ok ok s') :
      Run F units s₀ (if ok then qs ++ [i] else qs) rs s'
  | getevents {qs rs : List ℕ} {s s' : Engine} (h : Run F units s₀ qs rs s) {min max n ec : ℕ}
      (hmax : 0 < max) (hg : fioUnvmeGetevents units min max n s = .ok (some ec) s') {events : List ℕ}
      (hlen : events.length = ec) (hev : ∀ k < ec, fioUnvmeEvent k s' = .ok events[k]? s') :
      Run F units s₀ qs (rs ++ events) s'
  | fio {qs rs : List ℕ} {s : Engine} (h : Run F units s₀ qs rs s) (u : ℕ → IoU)
      (hsame : ∀ i, (u i).engineData = (s.ioU i).engineData) : Run F units s₀ qs rs { s with ioU := u }

section

variable {F : FioSetup} {units qs rs : List ℕ} {s₀ s s' : Engine}

/-- One if the unit has a request. -/
def Engine.pending (s : Engine) (i : ℕ) : ℕ := if (s.ioU i).engineData.isSome then 1 else 0

theorem Engine.pending_congr {i : ℕ} (h : (s'.ioU i).engineData = (s.ioU i).engineData) :
    s'.pending i = s.pending i := by
  unfold Engine.pending
  rw [h]

/-- The collected units are those that are not pending any more. -/
theorem Engine.Collected.count (h : s.Collected units s') (i : ℕ) :
    s.pending i = s'.iocq.count i + s'.pending i := by
  by_cases hi : i ∈ s'.iocq
  · obtain ⟨hnone, iod, n, hp, -⟩ := h.taken i hi
    have hsome : (s.ioU i).engineData = some iod := by
      unfold IoU.polled at hp
      split at hp
      · exact hp
      · cases hp
    rw [List.count_eq_one_of_mem h.nodup hi]
    unfold Engine.pending
    rw [hsome, hnone]
    rfl
  · rw [List.count_eq_zero_of_not_mem hi, Nat.zero_add]
    exact (pending_congr (congrArg IoU.engineData (h.rest i hi))).symm

/-- **Every queued unit is reported once.** In every run, whatever the driver returns, a unit has been queued
    as often as it has been reported, and once more while its request is under way. -/
theorem units_reported_once (hrun : Run F units s₀ qs rs s) (h₀ : ∀ i, (s₀.ioU i).engineData = none)
    (i : ℕ) : qs.count i = rs.count i + s.pending i := by
  induction hrun with
  | nil =>
      unfold Engine.pending
      rw [h₀]
      rfl
  | @queue qs rs s s' _ j ok hfree hq ih =>
      have hspec := (fioUnvmeQueue_spec F j s).of_ok hq
      cases ok with
      | false =>
          change s'.ioU = s.ioU at hspec
          have hsame : s'.pending i = s.pending i := Engine.pending_congr (by rw [hspec])
          rw [hsame]
          exact ih
      | true =>
          obtain ⟨iod, hu⟩ := hspec
          change s'.ioU = Function.update s.ioU j _ at hu
          by_cases hij : i = j
          · subst hij
            have hold : s.pending i = 0 := by
              unfold Engine.pending
              rw [hfree]
              rfl
            have hnew : s'.pending i = 1 := by
              unfold Engine.pending
              rw [hu, Function.update_self]
              rfl
            rw [if_pos rfl, List.count_append, List.count_singleton_self, ih, hold, hnew]
          · have hsame : s'.pending i = s.pending i := by
              refine Engine.pending_congr ?_
              rw [hu, Function.update_of_ne hij]
            have hnot : i ∉ [j] := fun hin => hij (List.mem_singleton.1 hin)
            rw [if_pos rfl, List.count_append, List.count_eq_zero_of_not_mem hnot, ih, hsame]
            rfl
  | @getevents qs rs s s' _ min max n ec hmax hg events hlen hev ih =>
      obtain ⟨hcollected, hec⟩ := (fioUnvmeGetevents_spec hmax).of_ok hg
      obtain ⟨hec, -⟩ := hec ec rfl
      have hevents : events = s'.iocq := by
        refine List.ext_getElem? (fun k => ?_)
        by_cases hk : k < ec
        · have hcall : (EStateM.Result.ok s'.iocq[k]? s' : EStateM.Result Abort Engine (Option ℕ))
              = .ok events[k]? s' := hev k hk
          injection hcall with heq
          exact heq.symm
        · rw [List.getElem?_eq_none (by omega), List.getElem?_eq_none (by omega)]
      rw [hevents, List.count_append, ih, hcollected.count i]
      omega
  | fio _ u hsame ih =>
      rw [ih]
      exact congrArg _ (Engine.pending_congr (hsame i)).symm

end

/-- Four units, two of which fio has queued; the device completes at once. -/
def sampleEngine : Engine where
  ioU := fun i => ⟨.read, 0x1000 * i, 0x2000 * i, if i < 2 then some (0x8000 + i) else none, i < 2⟩
  iocq := []
  calls := []
  handle := fun n => some (0x9000 + n)
  status := fun _ => 0

/-- Fio asks for one to four events: the call does not return. -/
theorem getevents_hangs : ¬ ∃ n ec s', fioUnvmeGetevents [0, 1, 2, 3] 1 4 n sampleEngine = .ok (some ec) s' := by
  intro h
  have hiff : (∃ n ec s', fioUnvmeGetevents [0, 1, 2, 3] 1 4 n sampleEngine = .ok (some ec) s') ↔ _ :=
    getevents_returns_iff (fun _ => rfl) (by decide) (by decide)
  exact absurd (hiff.1 h) (by decide)

/-- A thread that has queued nothing. -/
def newEngine : Engine := { sampleEngine with ioU := fun i => ⟨.write, 0x1000 * i, 0x2000 * i, none, true⟩ }

/-- Unit 1 is queued and reported. -/
theorem units_reported_once_one : ∃ s, Run ⟨1, 9, 8⟩ [0, 1] newEngine [1] [1] s ∧
    [1].count 1 = [1].count 1 + s.pending 1 := by
  have hqueue : fioUnvmeQueue ⟨1, 9, 8⟩ 1 newEngine = .ok true (final (fioUnvmeQueue ⟨1, 9, 8⟩ 1) newEngine) :=
    eq_ok_of_returns (by decide +kernel)
  have hget := eq_ok_of_returns (m := fioUnvmeGetevents [0, 1] 1 1 1) (v := some 1)
    (s := final (fioUnvmeQueue ⟨1, 9, 8⟩ 1) newEngine) (by decide +kernel)
  have hrun : Run ⟨1, 9, 8⟩ [0, 1] newEngine [1] [1] _ :=
    (Run.nil.queue 1 true rfl hqueue).getevents (by decide) hget (show [1].length = 1 from rfl) (by
      intro k hk
      obtain rfl : k = 0 := by omega
      rfl)
  exact ⟨_, hrun, units_reported_once hrun (fun _ => rfl) 1⟩

end Unvme.Fio
