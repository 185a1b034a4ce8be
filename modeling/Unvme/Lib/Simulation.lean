import Mathlib.Init

set_option autoImplicit false

/-! # Runs with a log, and forward simulation

A transition system whose steps may log an event, and an abstract one that is driven by events. `Trace`
and `Follows` are their runs. `Simulates` is the obligation for a single step: a step that logs nothing is
matched by standing still, a step that logs an event by the abstract step for it. `Simulates.trace` carries
it over to runs. -/

namespace Unvme.Lib

variable {σ τ ε : Type}

/-- Runs of a system and the events they log. -/
inductive Trace (step : σ → Option ε → σ → Prop) (s : σ) : List ε → σ → Prop
  | nil : Trace step s [] s
  | step {log : List ε} {s' s'' : σ} {o : Option ε} (h : Trace step s log s') (hs : step s' o s'') :
      Trace step s (log ++ o.toList) s''

/-- Runs of a system driven by a list of events. -/
inductive Follows (next : τ → ε → τ → Prop) (t : τ) : List ε → τ → Prop
  | nil : Follows next t [] t
  | snoc {log : List ε} {t' t'' : τ} {e : ε} (h : Follows next t log t') (hn : next t' e t'') :
      Follows next t (log ++ [e]) t''

/-- Related states stay related, the abstract system taking the step for the event logged. -/
def Simulates (step : σ → Option ε → σ → Prop) (next : τ → ε → τ → Prop) (R : σ → τ → Prop) : Prop :=
  ∀ s t o s', R s t → step s o s' →
    match o with
    | none => R s' t
    | some e => ∃ t', next t e t' ∧ R s' t'

section

variable {step : σ → Option ε → σ → Prop} {next : τ → ε → τ → Prop} {R : σ → τ → Prop}
  {s s' s'' : σ} {t t' : τ} {log log' : List ε}

/-- **A simulation carries runs over**, with the same log. -/
theorem Simulates.trace (h : Simulates step next R) (hst : R s t) (hrun : Trace step s log s') :
    ∃ t', Follows next t log t' ∧ R s' t' := by
  induction hrun with
  | nil => exact ⟨t, Follows.nil, hst⟩
  | @step log s₁ s₂ o _ hs ih =>
      obtain ⟨t₁, hfollow, hR⟩ := ih
      have hnext := h s₁ t₁ o s₂ hR hs
      cases o with
      | none =>
          rw [Option.toList_none, List.append_nil]
          exact ⟨t₁, hfollow, hnext⟩
      | some e =>
          obtain ⟨t₂, hstep, hR'⟩ := hnext
          exact ⟨t₂, hfollow.snoc hstep, hR'⟩

/-- A run may be continued. -/
theorem Trace.append (h : Trace step s log s') (h' : Trace step s' log' s'') :
    Trace step s (log ++ log') s'' := by
  induction h' with
  | nil =>
      rw [List.append_nil]
      exact h
  | step _ hs ih =>
      rw [← List.append_assoc]
      exact ih.step hs

/-- A relation that every step keeps with the first state. -/
theorem Follows.invariant {P : τ → Prop} (hP : ∀ t e t', e ∈ log → P t → next t e t' → P t') (ht : P t)
    (hrun : Follows next t log t') : P t' := by
  induction hrun with
  | nil => exact ht
  | @snoc log t₁ t₂ e _ hn ih =>
      refine hP _ e _ (List.mem_append_right _ (List.mem_singleton_self e)) (ih ?_) hn
      exact fun t e t' he => hP t e t' (List.mem_append_left _ he)

end

end Unvme.Lib
