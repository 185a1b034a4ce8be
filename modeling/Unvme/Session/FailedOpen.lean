import Unvme.Session.Exclusive

set_option autoImplicit false

/-! # Opens that fail

`unvme_openq` turns some arguments away itself. All other calls go through `unvme_do_open`, which takes
the writer lock first; its returns of NULL do not release it. -/

namespace Unvme.Session

open Unvme.Lib

/-- What the caller of a library function sees. -/
inductive Outcome where
  | opened (r : Option ℕ)
  | closed (r : ℤ)
  | halted (e : Halt)
  deriving DecidableEq, Repr

/-- One call, and the state after it. -/
def Op.outcome (H : Host) (w : World) : Op → Outcome × World
  | .openq pciname qcount qsize =>
      match unvmeOpenq H pciname qcount qsize w with
      | .ok r w' => (.opened r, w')
      | .error e w' => (.halted e, w')
  | .close x =>
      match unvmeClose x w with
      | .ok r w' => (.closed r, w')
      | .error e w' => (.halted e, w')

/-- What the callers of these calls see, one after the other. -/
def outcomes (H : Host) (w : World) : List Op → List Outcome
  | [] => []
  | op :: ops => (op.outcome H w).1 :: outcomes H (op.outcome H w).2 ops

/-- A call that changed `w` to `w'` had no effect: sessions, reference counts and lock are the same, and
    all later calls proceed as without it. -/
structure NoEffect (H : Host) (w w' : World) : Prop where
  sessions : w'.sessions = w.sessions
  refcount : ∀ d, (w'.device d).refcount = (w.device d).refcount
  lock : w'.lock = w.lock
  later : ∀ ops, outcomes H w' ops = outcomes H w ops

/-- The arguments that `unvme_openq` turns away itself. -/
def Malformed (pciname : String) (qcount qsize : ℤ) : Prop :=
  qcount < 0 ∨ qsize < 0 ∨ qsize = 1 ∨ parsePciName pciname = none

section

variable {H : Host} {w w' : World}

theorem NoEffect.refl (H : Host) (w : World) : NoEffect H w w :=
  ⟨rfl, fun _ => rfl, rfl, fun _ => rfl⟩

theorem openLog_lock (H : Host) (w : World) :
    wp (openLog H) w (fun _ w' => w'.lock = w.lock) (fun _ _ => True) := by
  unfold openLog logOpen
  simp only [wp_bind, wp_get, wp_ite]
  split
  · split
    · rfl
    · trivial
  · rfl

/-- Only a lock that is free can be taken. -/
theorem lock_eq_zero_of_lockw {u : Unit} (hr : unvmeLockw w = .ok u w') : w.lock = 0 := by
  by_contra hne
  have hwp : wp unvmeLockw w (fun _ _ => False) (fun _ _ => True) := by
    unfold unvmeLockw
    simp only [wp_bind, wp_get, wp_ite, if_neg hne, wp_throw]
  exact hwp.of_ok hr

theorem lock_eq_zero_of_open {pci nsid qcount qsize : ℤ} {r : Option ℕ}
    (hr : unvmeDoOpen H pci nsid qcount qsize w = .ok r w') : w.lock = 0 := by
  obtain ⟨u, w₁, hl, -⟩ := bind_eq_ok hr
  exact lock_eq_zero_of_lockw hl

theorem lock_eq_zero_of_close {x : ℕ} (hr : unvmeDoClose x w = .ok 0 w') : w.lock = 0 := by
  obtain ⟨w₁, w₂, hget, hr⟩ := bind_eq_ok hr
  cases hget
  dsimp only at hr
  split at hr
  · cases hr
  · obtain ⟨u, w₃, hl, -⟩ := bind_eq_ok hr
    exact lock_eq_zero_of_lockw hl

/-- **Every return of NULL by `unvme_do_open` leaves the writer lock taken.** -/
theorem unvmeDoOpen_null {pci nsid qcount qsize : ℤ}
    (hr : unvmeDoOpen H pci nsid qcount qsize w = .ok none w') :
    w.lock = 0 ∧ w'.lock = unvmeLockwbit := by
  have hlock := lock_eq_zero_of_open hr
  refine ⟨hlock, ?_⟩
  have hwp : wp (unvmeDoOpen H pci nsid qcount qsize) w
      (fun r w' => r = none → w'.lock = unvmeLockwbit) (fun _ _ => True) := by
    unfold unvmeDoOpen unvmeLockw
    simp only [wp_bind, wp_get, wp_ite, if_pos hlock, wp_set]
    refine wp_mono (openLog_lock H _) ?_ (fun _ _ ht => ht)
    intro _ w₂ hw₂
    -- the returns of a session come after `unvme_unlockw`, and are not NULL
    have hsome : ∀ (c : Ctlr) (dev : ℕ) (w₃ : World), wp (addSession c dev nsid) w₃
        (fun ses w₄ => wp unvmeUnlockw w₄
          (fun _ w₅ => some ses = none → w₅.lock = unvmeLockwbit) (fun _ _ => True))
        (fun _ _ => True) := by
      intro c dev w₃
      unfold addSession unvmeNsInit
      simp only [wp_bind, wp_get, wp_set]
      cases c.identify (toU32 nsid) with
      | none => trivial
      | some idns =>
          intro hnull
          cases hnull
    cases w₂.findPci pci with
    | none => trivial
    | some found =>
        cases found with
        | some x =>
            simp only [wp_ite, wp_bind, wp_pure]
            split
            · exact fun _ => hw₂
            · split
              · exact fun _ => hw₂
              · exact hsome _ _ _
        | none =>
            unfold vfioCreate
            simp only [wp_ite, wp_bind, wp_modify, wp_pure, wp_throw]
            split
            · trivial
            · split
              · exact fun _ => hw₂
              · refine wp_mono (Q := fun _ _ => True) (E := fun _ _ => True) ?_
                  (fun dev w₃ _ => hsome _ _ w₃) (fun _ _ ht => ht)
                unfold wp
                split <;> trivial
  exact hwp.of_ok hr rfl

/-- **A failed open has no effect exactly if `unvme_openq` turned the arguments away itself.** -/
theorem failed_open_no_effect_iff {H : Host} {w w' : World} {pciname : String} {qcount qsize : ℤ}
    (hr : unvmeOpenq H pciname qcount qsize w = .ok none w') :
    NoEffect H w w' ↔ Malformed pciname qcount qsize := by
  constructor
  · intro hno
    rcases unvmeOpenq_cases hr with ⟨-, -, hbad⟩ | ⟨pci, nsid, -, hdo⟩
    · exact hbad
    · obtain ⟨h0, h1⟩ := unvmeDoOpen_null hdo
      have hlock := hno.lock
      rw [h0, h1] at hlock
      exact absurd hlock (by decide)
  · intro hbad
    have hw : w' = w := by
      unfold unvmeOpenq at hr
      split at hr
      · cases hr
        rfl
      · next hcounts =>
          have hp : parsePciName pciname = none := by
            rcases hbad with h | h | h | h
            · exact absurd (Or.inl h) hcounts
            · exact absurd (Or.inr (Or.inl h)) hcounts
            · exact absurd (Or.inr (Or.inr h)) hcounts
            · exact h
          rw [hp] at hr
          cases hr
          rfl
    rw [hw]
    exact NoEffect.refl H w

end

/-- A name without a colon is turned away, with one session open. -/
theorem failed_open_no_effect_name :
    ∃ w', unvmeOpenq sampleHost "b3/1" 0 0 (opened ["b3:00.0/1"]) = .ok none w' ∧
      NoEffect sampleHost (opened ["b3:00.0/1"]) w' := by
  have hr : unvmeOpenq sampleHost "b3/1" 0 0 (opened ["b3:00.0/1"]) = .ok none _ :=
    eq_ok_of_returns (by decide +kernel)
  refine ⟨_, hr, ?_⟩
  exact (failed_open_no_effect_iff hr).2 (Or.inr (Or.inr (Or.inr (by decide +kernel))))

/-- The controller has four namespaces. An open of namespace 9 fails and leaves the lock taken: the close
    of the open session then waits forever. -/
theorem failed_open_keeps_lock :
    Run sampleHost (fun w op => op.Legal w) (opened ["b3:00.0/1"]) ∧
      ∃ w', unvmeOpenq sampleHost "b3:00.0/9" 0 0 (opened ["b3:00.0/1"]) = .ok none w' ∧
        ¬ NoEffect sampleHost (opened ["b3:00.0/1"]) w' ∧
        outcomes sampleHost (opened ["b3:00.0/1"]) [.close 0] = [.closed 0] ∧
        outcomes sampleHost w' [.close 0] = [.halted .hang] := by
  have hrun := (Run.nil (H := sampleHost) (L := fun w op => op.Legal w)).openName []
    "b3:00.0/1" trivial (by decide +kernel)
  have hr : unvmeOpenq sampleHost "b3:00.0/9" 0 0 (opened ["b3:00.0/1"]) = .ok none _ :=
    eq_ok_of_returns (by decide +kernel)
  refine ⟨hrun, _, hr, ?_, by decide +kernel, by decide +kernel⟩
  intro hno
  exact absurd hno.lock (by decide +kernel)

end Unvme.Session
