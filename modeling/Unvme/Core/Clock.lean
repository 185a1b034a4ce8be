import Unvme.Core.Driver

set_option autoImplicit false

/-! # Deadlines (`rdtsc.h` and the wait loops)

The two wait loops of the driver, with the clock they read. A raw counter is the sequence of the
64-bit values that successive loads of it give; `rdtsc` scales one of them in wrapping arithmetic.
The loops are programs over any monad in which a completion can be looked for, so that one
definition serves a check that finds nothing (`Id`) and the driver's own (`Drv`). They are run with
fuel: `none` is a loop that has not been left yet. -/

namespace Unvme.Core

open Unvme.Lib Unvme.Nvme

/-- Read tsc: `((uint64_t)1000 * ret) / 800` of the raw counter. -/
def rdtsc (ret : ℕ) : ℕ := 1000 * ret % 2 ^ 64 / 800

/-- `rdtsc() + timeout * rdtsec` in 64-bit arithmetic. -/
def deadline (ret timeout rdtsec : ℕ) : ℕ := (rdtsc ret + timeout * rdtsec % 2 ^ 64) % 2 ^ 64

section Loops

variable {m : Type → Type} [Monad m] {α : Type}

/-- The loop both waits run: check, take the deadline from the counter the first time nothing is
    found, and go on while the counter is before it. `i` counts the readings taken so far. -/
def waitLoop (check : m (Option α)) (raw : ℕ → ℕ) (timeout rdtsec : ℕ) :
    ℕ → ℕ → ℕ → m (Option (Option α))
  | 0, _, _ => pure none
  | fuel + 1, i, endtsc => do
      match ← check with
      | some c => pure (some (some c))
      | none =>
          if endtsc = 0 then
            if rdtsc (raw (i + 1)) < deadline (raw i) timeout rdtsec then
              waitLoop check raw timeout rdtsec fuel (i + 2) (deadline (raw i) timeout rdtsec)
            else pure (some none)
          else
            if rdtsc (raw i) < endtsc then waitLoop check raw timeout rdtsec fuel (i + 1) endtsc
            else pure (some none)

/-- The wait loop of `unvme_check_completion`: a timeout of 0 checks once. -/
def unvmeWait (check : m (Option α)) (raw : ℕ → ℕ) (timeout rdtsec fuel : ℕ) :
    m (Option (Option α)) :=
  if timeout = 0 then do
    let r ← check
    pure (some r)
  else waitLoop check raw timeout rdtsec fuel 0 0

/-- Wait for a given command completion until timeout. Returns the completion status (0 if ok). -/
def nvmeWaitCompletion (check : m (Option Completion)) (raw : ℕ → ℕ) (cid timeout rdtsec fuel : ℕ) :
    m (Option ℤ) := do
  match ← waitLoop check raw timeout rdtsec fuel 0 0 with
  | none => pure none
  | some none => pure (some (-1))
  | some (some c) =>
      if c.cid = cid then pure (some (c.stat : ℤ)) else pure (some (-1))

end Loops

/-- A check while no completion arrives. -/
def nothing : Id (Option Completion) := pure none

/-- What is expected of a raw counter: `rdtsc` does not go back on it, and without a completion both
    waits are left by the first reading that is `timeout * rdtsec` ticks of `rdtsc` after the one
    the deadline was taken from. -/
def TimeoutsWork (raw : ℕ → ℕ) : Prop :=
  Monotone (fun i => rdtsc (raw i)) ∧
    ∀ timeout rdtsec k fuel cid : ℕ, 0 < timeout → 0 < k → k ≤ fuel →
      800 * (timeout * rdtsec) ≤ 1000 * (raw k - raw 0) →
      unvmeWait nothing raw timeout rdtsec fuel = some none ∧
        nvmeWaitCompletion nothing raw cid timeout rdtsec fuel = some (-1)

/-! ## The scaled counter

The product wraps once in `2^64 / 1000` ticks. Readings are compared as they should be as long as the product
has wrapped equally often for all of them: they lie in one window of that many ticks. -/

/-- How often the product has wrapped. -/
def window (ret : ℕ) : ℕ := 1000 * ret / 2 ^ 64

theorem window_eq_zero {ret : ℕ} : window ret = 0 ↔ 1000 * ret < 2 ^ 64 := by
  unfold window
  omega

theorem window_mono {a b : ℕ} (hab : a ≤ b) : window a ≤ window b :=
  Nat.div_le_div_right (Nat.mul_le_mul_left 1000 hab)

/-- Within a window the scaling keeps the order. -/
theorem rdtsc_le {a b : ℕ} (hab : a ≤ b) (hw : window a = window b) : rdtsc a ≤ rdtsc b := by
  unfold window at hw
  refine Nat.div_le_div_right ?_
  omega

/-- Within a window a reading that many ticks later is at or past the deadline. -/
theorem deadline_le {a b timeout rdtsec : ℕ} (hab : a ≤ b) (hw : window a = window b)
    (ht : 800 * (timeout * rdtsec) ≤ 1000 * (b - a)) : deadline a timeout rdtsec ≤ rdtsc b := by
  have hsum : deadline a timeout rdtsec ≤ rdtsc a + timeout * rdtsec := by
    calc deadline a timeout rdtsec
        ≤ rdtsc a + timeout * rdtsec % 2 ^ 64 := Nat.mod_le _ _
      _ ≤ rdtsc a + timeout * rdtsec := Nat.add_le_add_left (Nat.mod_le _ _) _
  have hfloor : rdtsc a + timeout * rdtsec ≤ rdtsc b := by
    unfold window at hw
    unfold rdtsc
    generalize timeout * rdtsec = ticks at ht
    omega
  exact hsum.trans hfloor

/-- Where a window begins, the scaled counter falls back. -/
theorem rdtsc_back {w b : ℕ} (hb : 1000 * (b - 1) < (w + 1) * 2 ^ 64) (hb' : (w + 1) * 2 ^ 64 ≤ 1000 * b) :
    rdtsc b < rdtsc (b - 1) := by
  have hwb : 1000 * b / 2 ^ 64 = w + 1 := by omega
  have hwb' : 1000 * (b - 1) / 2 ^ 64 = w := by omega
  have hnew : 1000 * b % 2 ^ 64 < 1000 := by omega
  have hold : 2 ^ 64 - 1000 ≤ 1000 * (b - 1) % 2 ^ 64 := by omega
  unfold rdtsc
  omega

/-- Between readings of different windows one window begins. -/
theorem exists_back {A U : ℕ} (hAU : A ≤ U) (hw : window A ≠ window U) :
    ∃ b, A < b ∧ b ≤ U ∧ rdtsc b < rdtsc (b - 1) := by
  have hlt : window A < window U := lt_of_le_of_ne (window_mono hAU) hw
  have hA : 1000 * A < (window A + 1) * 2 ^ 64 := by
    unfold window
    omega
  have hU : (window A + 1) * 2 ^ 64 ≤ 1000 * U := by
    unfold window at hlt ⊢
    omega
  generalize window A = w at hA hU
  refine ⟨((w + 1) * 2 ^ 64 + 999) / 1000, ?_, ?_, rdtsc_back (w := w) ?_ ?_⟩
  · omega
  · omega
  · omega
  · omega

/-! ## Leaving the loop -/

/-- Once the deadline is set, the loop is left at the latest by a reading that reaches it. -/
theorem waitLoop_left {raw : ℕ → ℕ} {timeout rdtsec endtsc k : ℕ} (hne : endtsc ≠ 0)
    (hd : endtsc ≤ rdtsc (raw k)) : ∀ {fuel i : ℕ}, i ≤ k → k < i + fuel →
      waitLoop nothing raw timeout rdtsec fuel i endtsc = some none
  | 0, i, hik, hk => by omega
  | fuel + 1, i, hik, hk => by
      by_cases hi : rdtsc (raw i) < endtsc
      · have hik' : i + 1 ≤ k := by
          rcases Nat.lt_or_ge i k with h | h
          · exact h
          · rw [Nat.le_antisymm hik h] at hi
            omega
        have ih : waitLoop nothing raw timeout rdtsec fuel (i + 1) endtsc = some none :=
          waitLoop_left hne hd hik' (by omega)
        simpa [waitLoop, nothing, hne, hi] using ih
      · simp only [waitLoop, nothing, pure_bind, hne, hi, if_false]
        rfl

/-- The whole wait is left at the latest by a reading that reaches the deadline taken from the first
    one. -/
theorem waitLoop_left_start {raw : ℕ → ℕ} {timeout rdtsec k fuel : ℕ} (hk : 0 < k)
    (hfuel : k ≤ fuel) (hd : deadline (raw 0) timeout rdtsec ≤ rdtsc (raw k)) :
    waitLoop nothing raw timeout rdtsec fuel 0 0 = some none := by
  obtain ⟨fuel, rfl⟩ : ∃ n, fuel = n + 1 := ⟨fuel - 1, by omega⟩
  by_cases h1 : rdtsc (raw 1) < deadline (raw 0) timeout rdtsec
  · have hk1 : k ≠ 1 := by
      rintro rfl
      omega
    have ih : waitLoop nothing raw timeout rdtsec fuel 2 (deadline (raw 0) timeout rdtsec) =
        some none := waitLoop_left (by omega) hd (by omega) (by omega)
    simpa [waitLoop, nothing, h1] using ih
  · simp only [waitLoop, nothing, pure_bind, if_true, Nat.zero_add, h1, if_false]
    rfl

/-- A loop whose readings all stay before the deadline is never left. -/
theorem waitLoop_stays {raw : ℕ → ℕ} {timeout rdtsec endtsc : ℕ} (hne : endtsc ≠ 0) :
    ∀ {fuel i : ℕ}, (∀ k, i ≤ k → rdtsc (raw k) < endtsc) →
      waitLoop nothing raw timeout rdtsec fuel i endtsc = none
  | 0, _, _ => rfl
  | fuel + 1, i, hd => by
      have ih : waitLoop nothing raw timeout rdtsec fuel (i + 1) endtsc = none :=
        waitLoop_stays hne (fun k hk => hd k (by omega))
      simpa [waitLoop, nothing, hne, hd i le_rfl] using ih

/-- A counter that starts on the last value `rdtsc` scales without wrapping, with room for over a
    thousand seconds. -/
def wrapClock (i : ℕ) : ℕ := 18446744073709551 + min i (10 ^ 12)

/-- **Within a window timeouts work.** -/
theorem timeoutsWork_of_window {raw : ℕ → ℕ} (hmono : Monotone raw)
    (hw : ∀ i, window (raw i) = window (raw 0)) : TimeoutsWork raw := by
  have hsame : ∀ i j, window (raw i) = window (raw j) := fun i j => (hw i).trans (hw j).symm
  refine ⟨fun i j hij => rdtsc_le (hmono hij) (hsame i j), ?_⟩
  intro timeout rdtsec k fuel cid htimeout hk hfuel hticks
  have hleft : waitLoop nothing raw timeout rdtsec fuel 0 0 = some none :=
    waitLoop_left_start hk hfuel (deadline_le (hmono (Nat.zero_le k)) (hsame 0 k) hticks)
  constructor
  · rw [unvmeWait, if_neg (by omega), hleft]
  · rw [nvmeWaitCompletion, hleft]
    rfl

/-- The counter goes from `b - 1` to `b` in one step and stays there. -/
def stepClock (b i : ℕ) : ℕ := if i = 0 then b - 1 else b

theorem stepClock_monotone (b : ℕ) : Monotone (stepClock b) := by
  intro i j hij
  unfold stepClock
  split <;> split <;> omega

/-- **When a wait works**: for the readings of a wait that lie from `A` to `U`, timeouts work exactly when
    both are in one window. -/
theorem timeouts_work_between_iff {A U : ℕ} (hAU : A ≤ U) (hU : U < 2 ^ 64) :
    (∀ raw : ℕ → ℕ, (∀ i, raw i < 2 ^ 64) → Monotone raw → (∀ i, A ≤ raw i ∧ raw i ≤ U) →
      TimeoutsWork raw) ↔ window A = window U := by
  constructor
  · intro h
    by_contra hw
    obtain ⟨b, hA, hb, hback⟩ := exists_back hAU hw
    have hrange : ∀ i, A ≤ stepClock b i ∧ stepClock b i ≤ U := by
      intro i
      unfold stepClock
      split <;> omega
    have hclock : TimeoutsWork (stepClock b) :=
      h _ (fun i => (hrange i).2.trans_lt hU) (stepClock_monotone b) hrange
    exact absurd (hclock.1 (Nat.zero_le 1)) (Nat.not_le_of_lt hback)
  · intro hw raw _ hmono hrange
    have hA : ∀ i, window (raw i) = window A := by
      intro i
      refine Nat.le_antisymm ?_ (window_mono (hrange i).1)
      rw [hw]
      exact window_mono (hrange i).2
    exact timeoutsWork_of_window hmono (fun i => (hA i).trans (hA 0).symm)

/-- **Timeouts work up to a counter value exactly when that value is scaled without wrapping**: on
    every non-decreasing sequence of 64-bit readings that stays at or below `U`, `rdtsc` is
    non-decreasing and both waits end in time, if and only if `1000 * U` fits 64 bits. -/
theorem timeouts_work_iff (U : ℕ) :
    (∀ raw : ℕ → ℕ, (∀ i, raw i < 2 ^ 64) → Monotone raw → (∀ i, raw i ≤ U) → TimeoutsWork raw) ↔
      1000 * U < 2 ^ 64 := by
  constructor
  · intro h
    by_contra hU
    -- readings up to `U` that fit 64 bits leave the first window
    have hwork := (timeouts_work_between_iff (Nat.zero_le (min U (2 ^ 64 - 1))) (by omega)).1
      (fun raw hraw hmono hle => h raw hraw hmono (fun i => (hle i).2.trans (min_le_left _ _)))
    have hzero := window_eq_zero.1 (hwork.symm.trans (window_eq_zero.2 (by omega)))
    omega
  · intro hU raw _ hmono hle
    have hlt : ∀ i, window (raw i) = 0 := fun i => window_eq_zero.2 (by
      have := hle i
      omega)
    exact timeoutsWork_of_window hmono (fun i => (hlt i).trans (hlt 0).symm)

/-- With the counter on its way over the wrap, a 60 second wait on a clock of 10^9 ticks a second is
    still not left when over 1000 seconds have passed, however long it is run. -/
theorem timeout_never_left :
    (∀ i, wrapClock i < 2 ^ 64) ∧ Monotone wrapClock ∧
      800 * (60 * 10 ^ 9) ≤ 1000 * (wrapClock (10 ^ 12) - wrapClock 0) ∧
      ¬ TimeoutsWork wrapClock ∧
      ∀ fuel cid, unvmeWait nothing wrapClock 60 (10 ^ 9) fuel = none ∧
        nvmeWaitCompletion nothing wrapClock cid 60 (10 ^ 9) fuel = none := by
  have hbefore : ∀ k, 1 ≤ k → rdtsc (wrapClock k) < deadline (wrapClock 0) 60 (10 ^ 9) := by
    intro k hk
    have hdeadline : deadline (wrapClock 0) 60 (10 ^ 9) = 23058490092136938 := by decide
    rw [hdeadline, rdtsc, wrapClock]
    omega
  have hstays : ∀ fuel, waitLoop nothing wrapClock 60 (10 ^ 9) fuel 0 0 = none := by
    intro fuel
    cases fuel with
    | zero => rfl
    | succ fuel =>
      have ih : waitLoop nothing wrapClock 60 (10 ^ 9) fuel 2 (deadline (wrapClock 0) 60 (10 ^ 9)) =
          none := waitLoop_stays (by decide) (fun k hk => hbefore k (by omega))
      have h1 := hbefore 1 le_rfl
      simpa only [waitLoop, nothing, pure_bind, if_true, Nat.zero_add, h1] using ih
  refine ⟨?_, ?_, by decide, ?_, ?_⟩
  · intro i
    rw [wrapClock]
    omega
  · intro i j hij
    exact Nat.add_le_add_left (min_le_min_right _ hij) _
  · intro hwork
    have hback : rdtsc (wrapClock 0) ≤ rdtsc (wrapClock 1) := hwork.1 (Nat.zero_le 1)
    revert hback
    decide
  · intro fuel cid
    constructor
    · rw [unvmeWait, if_neg (by decide), hstays]
    · rw [nvmeWaitCompletion, hstays]
      rfl

/-! ## The driver's wait

The driver model gives up after a number of further checks. A clock that lets the loop end fixes
that number: with it the clocked wait is the driver's. -/

/-- Where an iteration that finds nothing goes on, if it does: the next reading and the deadline. -/
def waitNext (raw : ℕ → ℕ) (timeout rdtsec i endtsc : ℕ) : Option (ℕ × ℕ) :=
  if endtsc = 0 then
    if rdtsc (raw (i + 1)) < deadline (raw i) timeout rdtsec then
      some (i + 2, deadline (raw i) timeout rdtsec)
    else none
  else if rdtsc (raw i) < endtsc then some (i + 1, endtsc)
  else none

theorem waitLoop_succ {m : Type → Type} [Monad m] {α : Type} (check : m (Option α)) (raw : ℕ → ℕ)
    (timeout rdtsec fuel i endtsc : ℕ) :
    waitLoop check raw timeout rdtsec (fuel + 1) i endtsc = check >>= fun r =>
      r.elim ((waitNext raw timeout rdtsec i endtsc).elim (pure (some none))
        (fun p => waitLoop check raw timeout rdtsec fuel p.1 p.2)) (fun c => pure (some (some c))) := by
  rw [waitLoop]
  congr 1
  funext r
  cases r with
  | some c => rfl
  | none =>
      simp only [waitNext, Option.elim]
      split_ifs <;> rfl

/-- With the clock's readings fixed, the driver's check runs in the loop as `waitCompletion` does for
    some number of checks. -/
theorem waitLoop_driver (E : Env) {raw : ℕ → ℕ} {timeout rdtsec : ℕ} (ht : timeout ≠ 0) :
    ∀ {fuel i endtsc : ℕ}, waitLoop nothing raw timeout rdtsec fuel i endtsc = some none →
      ∃ n < fuel, waitLoop (nvmeCheckCompletion E) raw timeout rdtsec fuel i endtsc =
        some <$> waitCompletion E timeout n
  | 0, _, _, h => by cases h
  | fuel + 1, i, endtsc, h => by
      rw [waitLoop_succ] at h ⊢
      cases hnext : waitNext raw timeout rdtsec i endtsc with
      | none =>
          refine ⟨0, by omega, ?_⟩
          rw [waitCompletion, map_eq_pure_bind]
          congr 1
          funext r
          cases r <;> rfl
      | some p =>
          rw [hnext] at h
          have h' : waitLoop nothing raw timeout rdtsec fuel p.1 p.2 = some none := h
          obtain ⟨n, hn, heq⟩ := waitLoop_driver E ht h'
          refine ⟨n + 1, by omega, ?_⟩
          rw [waitCompletion, map_bind]
          congr 1
          funext r
          cases r with
          | none => simpa [ht] using heq
          | some c => simp

/-- **The clocked wait of `unvme_check_completion` is the wait of the driver model**, for the number
    of checks the clock allows. -/
theorem unvmeWait_driver (E : Env) {raw : ℕ → ℕ} {timeout rdtsec fuel : ℕ}
    (h : unvmeWait nothing raw timeout rdtsec fuel = some none) :
    ∃ n, unvmeWait (nvmeCheckCompletion E) raw timeout rdtsec fuel =
      some <$> waitCompletion E timeout n := by
  rw [unvmeWait] at h ⊢
  by_cases ht : timeout = 0
  · refine ⟨0, ?_⟩
    rw [if_pos ht, waitCompletion, map_eq_pure_bind]
  · rw [if_neg ht] at h ⊢
    obtain ⟨n, _, heq⟩ := waitLoop_driver E ht h
    exact ⟨n, heq⟩

end Unvme.Core
