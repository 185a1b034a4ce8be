import Mathlib.Init

set_option autoImplicit false

/-! # Weakest preconditions for stateful programs that may stop

Programs are `EStateM ε σ α`: they return a value in a new state or stop with a reason `ε`, the
state at that moment being kept. `wp m s Q E` says that `m`, run from `s`, either returns a result
with `Q` or stops with `E`; it is total, so a bound on the reasons in `E` excludes every other way
to stop. One lemma per construct, all `@[simp]`, and monotonicity (`wp_mono`), which is how the
specification of a called function is used. -/

namespace Unvme.Lib

variable {ε σ α β : Type}

/-- `m` run from `s` returns with `Q` or stops with `E`. -/
def wp (m : EStateM ε σ α) (s : σ) (Q : α → σ → Prop) (E : ε → σ → Prop) : Prop :=
  match m s with
  | .ok a s' => Q a s'
  | .error e s' => E e s'

variable {Q : α → σ → Prop} {E : ε → σ → Prop} {s : σ}

@[simp] theorem wp_pure (a : α) : wp (pure a : EStateM ε σ α) s Q E ↔ Q a s := Iff.rfl

@[simp] theorem wp_throw (e : ε) : wp (throw e : EStateM ε σ α) s Q E ↔ E e s := Iff.rfl

@[simp] theorem wp_get {Q : σ → σ → Prop} : wp (get : EStateM ε σ σ) s Q E ↔ Q s s := Iff.rfl

@[simp] theorem wp_set {Q : PUnit → σ → Prop} (s' : σ) :
    wp (set s' : EStateM ε σ PUnit) s Q E ↔ Q ⟨⟩ s' := Iff.rfl

@[simp] theorem wp_modify {Q : PUnit → σ → Prop} (f : σ → σ) :
    wp (modify f : EStateM ε σ PUnit) s Q E ↔ Q ⟨⟩ (f s) := Iff.rfl

@[simp] theorem wp_bind {Q : β → σ → Prop} (m : EStateM ε σ α) (f : α → EStateM ε σ β) :
    wp (m >>= f) s Q E ↔ wp m s (fun a s' => wp (f a) s' Q E) E := by
  show wp (EStateM.bind m f) s Q E ↔ _
  unfold wp EStateM.bind
  cases m s <;> rfl

@[simp] theorem wp_ite {c : Prop} [Decidable c] (m m' : EStateM ε σ α) :
    wp (if c then m else m') s Q E ↔ if c then wp m s Q E else wp m' s Q E := by
  split <;> rfl

/-- Weaken both postconditions. -/
theorem wp_mono {m : EStateM ε σ α} {Q' : α → σ → Prop} {E' : ε → σ → Prop}
    (h : wp m s Q E) (hQ : ∀ a s', Q a s' → Q' a s') (hE : ∀ e s', E e s' → E' e s') :
    wp m s Q' E' := by
  unfold wp at h ⊢
  cases hm : m s with
  | ok a s' => rw [hm] at h; exact hQ a s' h
  | error e s' => rw [hm] at h; exact hE e s' h

/-- Sequence after a specified program. -/
theorem wp_bind_of {Q : β → σ → Prop} {m : EStateM ε σ α} {f : α → EStateM ε σ β}
    {R : α → σ → Prop} (h : wp m s R E) (hf : ∀ a s', R a s' → wp (f a) s' Q E) :
    wp (m >>= f) s Q E :=
  (wp_bind m f).2 (wp_mono h hf (fun _ _ he => he))

/-- A specification at a run that returned. -/
theorem wp.of_ok {m : EStateM ε σ α} {a : α} {s' : σ} (h : wp m s Q E)
    (hm : m s = .ok a s') : Q a s' := by
  unfold wp at h
  rwa [hm] at h

/-- A program that cannot stop returns. -/
theorem wp.exists_ok {m : EStateM ε σ α} (h : wp m s Q (fun _ _ => False)) :
    ∃ a s', m s = .ok a s' ∧ Q a s' := by
  unfold wp at h
  cases hm : m s with
  | ok a s' => rw [hm] at h; exact ⟨a, s', rfl, h⟩
  | error e s' => rw [hm] at h; exact h.elim

/-- A program whose errors are renamed. -/
theorem wp_adaptExcept {ε' : Type} {m : EStateM ε σ α} {f : ε → ε'} {E' : ε' → σ → Prop} :
    wp (EStateM.adaptExcept f m) s Q E' ↔ wp m s Q (fun e s' => E' (f e) s') := by
  unfold wp EStateM.adaptExcept
  cases m s <;> rfl

/-- A sequence returns if both parts do. -/
theorem bind_eq_ok {m : EStateM ε σ α} {f : α → EStateM ε σ β} {b : β} {s' : σ}
    (h : (m >>= f) s = .ok b s') : ∃ a s₁, m s = .ok a s₁ ∧ f a s₁ = .ok b s' := by
  change EStateM.bind m f s = _ at h
  unfold EStateM.bind at h
  cases hm : m s with
  | ok a s₁ => rw [hm] at h; exact ⟨a, s₁, rfl, h⟩
  | error e s₁ => rw [hm] at h; cases h

/-- `m` run from `s` returns with a result that passes the test `p`. -/
def returns (m : EStateM ε σ α) (s : σ) (p : α → σ → Bool) : Bool :=
  match m s with
  | .ok a s' => p a s'
  | .error _ _ => false

theorem returns_iff {m : EStateM ε σ α} {p : α → σ → Bool} :
    returns m s p = true ↔ ∃ a s', m s = .ok a s' ∧ p a s' = true := by
  unfold returns
  cases hm : m s with
  | ok a s' =>
      constructor
      · intro hp
        exact ⟨a, s', rfl, hp⟩
      · rintro ⟨a', s'', heq, hp⟩
        cases heq
        exact hp
  | error e s' => simp

/-- The state in which `m` run from `s` returns or stops. -/
def final (m : EStateM ε σ α) (s : σ) : σ :=
  match m s with
  | .ok _ s' => s'
  | .error _ s' => s'

theorem eq_ok_of_returns [DecidableEq α] {m : EStateM ε σ α} {v : α}
    (h : returns m s (fun a _ => decide (a = v)) = true) : m s = .ok v (final m s) := by
  obtain ⟨a, s', hm, ha⟩ := returns_iff.1 h
  rw [decide_eq_true_eq] at ha
  rw [final, hm, ha]

end Unvme.Lib
