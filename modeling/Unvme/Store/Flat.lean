import Mathlib.Logic.Function.Basic
import Unvme.Lib.Cells
import Unvme.Lib.Simulation

set_option autoImplicit false

/-! # A flat block store

What the driver and the controller are for, stated without either: an array of bytes, the client's memory,
and a set of requests under way. A request moves bytes from memory to the store or back, all at once, at
the moment a poll reports it. Until then nothing of it is promised but that the rest stays as it is.

`Flat.Step` is driven by what the client sees: it submits a request, polls one, or writes to its own
memory. A request that failed leaves what it was to fill in any state. -/

namespace Unvme.Store

open Unvme.Lib

/-- A request to move `len` bytes between memory at `buf` and the store at `pos`. -/
structure Transfer where
  write : Bool
  buf : ℕ
  pos : ℕ
  len : ℕ
  deriving DecidableEq, Repr

def Transfer.InBuf (x : Transfer) (a : ℕ) : Prop := x.buf ≤ a ∧ a < x.buf + x.len

def Transfer.InPos (x : Transfer) (b : ℕ) : Prop := x.pos ≤ b ∧ b < x.pos + x.len

/-- Two requests share neither memory nor blocks. -/
structure Transfer.Apart (x y : Transfer) : Prop where
  buf : ∀ a, x.InBuf a → ¬ y.InBuf a
  pos : ∀ b, x.InPos b → ¬ y.InPos b

theorem Transfer.Apart.symm {x y : Transfer} (h : x.Apart y) : y.Apart x :=
  ⟨fun a hy hx => h.buf a hx hy, fun b hy hx => h.pos b hx hy⟩

/-- Bytes of the store that the request is to fill. -/
def Transfer.Fills (x : Transfer) (b : ℕ) : Prop := x.write = true ∧ x.InPos b

/-- Bytes of memory that the request is to fill. -/
def Transfer.Loads (x : Transfer) (a : ℕ) : Prop := x.write = false ∧ x.InBuf a

instance (x : Transfer) : DecidablePred x.Fills :=
  fun b => inferInstanceAs (Decidable (x.write = true ∧ x.pos ≤ b ∧ b < x.pos + x.len))

instance (x : Transfer) : DecidablePred x.Loads :=
  fun a => inferInstanceAs (Decidable (x.write = false ∧ x.buf ≤ a ∧ a < x.buf + x.len))

/-- Store, client memory, and the requests under way by the handle the client has for each. -/
structure Flat (α : Type) where
  store : ℕ → α
  mem : ℕ → α
  pending : ℕ → Option Transfer

/-- What the client sees: it has submitted a request; it has polled one, with the value returned and
    whether all of the request went well; it has changed bytes of its memory. -/
inductive Event (α : Type) where
  | submitted (d : ℕ) (x : Transfer)
  | polled (d : ℕ) (r : ℤ) (ok : Bool)
  | stored (w : ℕ → Option α)

namespace Flat

variable {α : Type}

/-- Nothing is under way. -/
def start (store mem : ℕ → α) : Flat α := ⟨store, mem, fun _ => none⟩

def submit (t : Flat α) (d : ℕ) (x : Transfer) : Flat α :=
  { t with pending := Function.update t.pending d (some x) }

@[simp] theorem submit_pending_self (t : Flat α) (d : ℕ) (x : Transfer) :
    (t.submit d x).pending d = some x := Function.update_self ..

theorem submit_pending_of_ne {t : Flat α} {d d' : ℕ} {x : Transfer} (h : d' ≠ d) :
    (t.submit d x).pending d' = t.pending d' := Function.update_of_ne h ..

/-- Do what the request says. -/
def complete (t : Flat α) (d : ℕ) (x : Transfer) : Flat α where
  store := if x.write then copyCells t.mem x.buf t.store x.pos x.len else t.store
  mem := if x.write then t.mem else copyCells t.store x.pos t.mem x.buf x.len
  pending := Function.update t.pending d none

/-- Write to memory. -/
def write (t : Flat α) (w : ℕ → Option α) : Flat α :=
  { t with mem := fun a => (w a).getD (t.mem a) }

/-- The requests under way share no memory and no blocks with `x`. -/
def Free (t : Flat α) (x : Transfer) : Prop := ∀ d y, t.pending d = some y → y.Apart x

inductive Step (t : Flat α) : Event α → Flat α → Prop
  | submitted (d : ℕ) (x : Transfer) (h : t.pending d = none) (hx : t.Free x) :
      Step t (.submitted d x) (t.submit d x)
  | complete (d : ℕ) (x : Transfer) (h : t.pending d = some x) :
      Step t (.polled d 0 true) (t.complete d x)
  | failed (d : ℕ) (x : Transfer) (r : ℤ) (store mem : ℕ → α) (h : t.pending d = some x)
      (hs : ∀ b, ¬ x.Fills b → store b = t.store b) (hm : ∀ a, ¬ x.Loads a → mem a = t.mem a) :
      Step t (.polled d r false) ⟨store, mem, Function.update t.pending d none⟩
  | unfinished (d : ℕ) (x : Transfer) (r : ℤ) (ok : Bool) (h : t.pending d = some x) (hr : r ≠ 0) :
      Step t (.polled d r ok) t
  | stored (w : ℕ → Option α) (h : ∀ d x, t.pending d = some x → ∀ a, x.InBuf a → w a = none) :
      Step t (.stored w) (t.write w)

abbrev Run (t : Flat α) (log : List (Event α)) (t' : Flat α) : Prop := Follows Step t log t'

/-! ## What a run keeps -/

/-- Requests under way are apart. -/
def Wf (t : Flat α) : Prop :=
  ∀ d d' x x', d ≠ d' → t.pending d = some x → t.pending d' = some x' → x.Apart x'

section

variable {t t' t'' : Flat α} {e : Event α} {log : List (Event α)} {d : ℕ} {x : Transfer}

theorem complete_store_of_not_fills {b : ℕ} (h : ¬ x.Fills b) : (t.complete d x).store b = t.store b := by
  simp only [complete]
  split
  · next hw => exact copyCells_of_not_mem (fun hin => h ⟨hw, hin⟩)
  · rfl

theorem complete_mem_of_not_loads {a : ℕ} (h : ¬ x.Loads a) : (t.complete d x).mem a = t.mem a := by
  simp only [complete]
  split
  · rfl
  · next hw =>
      rw [Bool.not_eq_true] at hw
      exact copyCells_of_not_mem (fun hin => h ⟨hw, hin⟩)

/-- A completed write has put its buffer into the store. -/
theorem complete_store (hw : x.write = true) {i : ℕ} (hi : i < x.len) :
    (t.complete d x).store (x.pos + i) = t.mem (x.buf + i) := by
  simp only [complete, hw, if_true]
  exact copyCells_of_mem hi

/-- A completed read has its buffer from the store. -/
theorem complete_mem (hw : x.write = false) {i : ℕ} (hi : i < x.len) :
    (t.complete d x).mem (x.buf + i) = t.store (x.pos + i) := by
  simp only [complete, hw]
  exact copyCells_of_mem hi

/-- Blocks and bytes that have been moved are those of the store in which the request is completed. -/
theorem complete_agrees {store mem : ℕ → α} (hmoved : ∀ i < x.len, store (x.pos + i) = mem (x.buf + i))
    (hbuf : x.write = true → ∀ a, x.InBuf a → mem a = t.mem a)
    (hpos : x.write = false → ∀ b, x.InPos b → store b = t.store b) :
    (∀ b, x.Fills b → store b = (t.complete d x).store b) ∧
      ∀ a, x.Loads a → mem a = (t.complete d x).mem a := by
  constructor
  · rintro b ⟨hw, hlo, hhi⟩
    obtain ⟨i, rfl⟩ := Nat.exists_eq_add_of_le hlo
    rw [hmoved i (by omega), hbuf hw _ ⟨by omega, by omega⟩]
    exact (complete_store hw (by omega)).symm
  · rintro a ⟨hr, hlo, hhi⟩
    obtain ⟨i, rfl⟩ := Nat.exists_eq_add_of_le hlo
    rw [← hmoved i (by omega), hpos hr _ ⟨by omega, by omega⟩]
    exact (complete_mem hr (by omega)).symm

/-- The buffer of a write under way is filled by no request. -/
theorem Wf.not_loads (hwf : t.Wf) (hx : t.pending d = some x) (hw : x.write = true) {a : ℕ}
    (ha : x.InBuf a) : ∀ d' y, t.pending d' = some y → ¬ y.Loads a := by
  rintro d' y hy ⟨hr, hin⟩
  by_cases hdd : d' = d
  · subst hdd
    rw [hx, Option.some.injEq] at hy
    subst hy
    rw [hw] at hr
    cases hr
  · exact (hwf d' d y x hdd hy hx).buf a hin ha

/-- The blocks of a read under way are filled by no request. -/
theorem Wf.not_fills (hwf : t.Wf) (hx : t.pending d = some x) (hr : x.write = false) {b : ℕ}
    (hb : x.InPos b) : ∀ d' y, t.pending d' = some y → ¬ y.Fills b := by
  rintro d' y hy ⟨hw, hin⟩
  by_cases hdd : d' = d
  · subst hdd
    rw [hx, Option.some.injEq] at hy
    subst hy
    rw [hr] at hw
    cases hw
  · exact (hwf d' d y x hdd hy hx).pos b hin hb

/-- A poll that returned 0 and went well has completed a request. -/
theorem Step.completed (h : Step t (.polled d 0 true) t') :
    ∃ x, t.pending d = some x ∧ t' = t.complete d x := by
  cases h with
  | complete _ x hd => exact ⟨x, hd, rfl⟩
  | unfinished _ x _ _ hd hr => exact absurd rfl hr

theorem pending_of_release {pending : ℕ → Option Transfer} {d' : ℕ} {y : Transfer}
    (h : Function.update pending d none d' = some y) : pending d' = some y := by
  by_cases hdd : d' = d
  · subst hdd
    rw [Function.update_self] at h
    cases h
  · rwa [Function.update_of_ne hdd] at h

/-- What is under way after a step was under way before, or has been submitted. -/
theorem Step.pending_of (h : Step t e t') {d' : ℕ} {y : Transfer} (hy : t'.pending d' = some y) :
    t.pending d' = some y ∨ e = .submitted d' y := by
  cases h with
  | submitted d x hd hx =>
      by_cases hdd : d' = d
      · subst hdd
        rw [submit_pending_self, Option.some.injEq] at hy
        subst hy
        exact Or.inr rfl
      · rw [submit_pending_of_ne hdd] at hy
        exact Or.inl hy
  | complete d x hd => exact Or.inl (pending_of_release hy)
  | failed d x r store mem hd hs hm => exact Or.inl (pending_of_release hy)
  | unfinished d x r ok hd hr => exact Or.inl hy
  | stored w hw => exact Or.inl hy

theorem Step.wf (h : Step t e t') (hwf : t.Wf) : t'.Wf := by
  intro d₁ d₂ x₁ x₂ hne h₁ h₂
  rcases h.pending_of h₁ with hold₁ | rfl
  · rcases h.pending_of h₂ with hold₂ | rfl
    · exact hwf d₁ d₂ x₁ x₂ hne hold₁ hold₂
    · cases h with
      | submitted d x hd hx => exact hx d₁ x₁ hold₁
  · cases h with
    | submitted d x hd hx =>
        rw [submit_pending_of_ne hne.symm] at h₂
        exact (hx d₂ x₂ h₂).symm

theorem Run.wf (h : Run t log t') (hwf : t.Wf) : t'.Wf :=
  Follows.invariant (fun _ _ _ _ hw hn => hn.wf hw) hwf h

/-- A byte of the store changes only where a write under way is to fill it. -/
theorem Step.store_eq (h : Step t e t') {b : ℕ} (hb : ∀ d x, t.pending d = some x → ¬ x.Fills b) :
    t'.store b = t.store b := by
  cases h with
  | submitted d x hd hx => rfl
  | complete d x hd => exact complete_store_of_not_fills (hb d x hd)
  | failed d x r store mem hd hs hm => exact hs b (hb d x hd)
  | unfinished d x r ok hd hr => rfl
  | stored w hw => rfl

/-- **Blocks that nothing is written to keep their bytes.** -/
theorem Run.store_eq (h : Run t log t') {b : ℕ} (hb : ∀ d x, t.pending d = some x → ¬ x.Fills b)
    (hlog : ∀ d x, .submitted d x ∈ log → ¬ x.Fills b) : t'.store b = t.store b := by
  have hall : (∀ d x, t'.pending d = some x → ¬ x.Fills b) ∧ t'.store b = t.store b := by
    refine Follows.invariant (P := fun t' =>
      (∀ d x, t'.pending d = some x → ¬ x.Fills b) ∧ t'.store b = t.store b) ?_ ⟨hb, rfl⟩ h
    rintro t₁ e t₂ he ⟨hquiet, heq⟩ hn
    refine ⟨?_, (hn.store_eq hquiet).trans heq⟩
    intro d x hx
    rcases hn.pending_of hx with hold | rfl
    · exact hquiet d x hold
    · exact hlog d x he
  exact hall.2

/-- The buffer of a write under way is not touched. -/
theorem Step.mem_eq (h : Step t e t') (hwf : t.Wf) (hx : t.pending d = some x) (hw : x.write = true)
    {a : ℕ} (ha : x.InBuf a) : t'.mem a = t.mem a := by
  have hquiet := hwf.not_loads hx hw ha
  cases h with
  | submitted d' y hd hy => rfl
  | complete d' y hd => exact complete_mem_of_not_loads (hquiet d' y hd)
  | failed d' y r store mem hd hs hm => exact hm a (hquiet d' y hd)
  | unfinished d' y r ok hd hr => rfl
  | stored w hsafe =>
      show (w a).getD _ = _
      rw [hsafe d x hx a ha, Option.getD_none]

/-- **From its submission to its completion a write has the same bytes.** -/
theorem Run.mem_eq (h : Run t log t') (hwf : t.Wf) (hx : t.pending d = some x) (hw : x.write = true)
    (hlog : ∀ y, .submitted d y ∉ log) {y : Transfer} (hy : t'.pending d = some y) {a : ℕ}
    (ha : x.InBuf a) : y = x ∧ t'.mem a = t.mem a := by
  have hall : t'.Wf ∧ ∀ y, t'.pending d = some y → y = x ∧ t'.mem a = t.mem a := by
    refine Follows.invariant (P := fun t' =>
      t'.Wf ∧ ∀ y, t'.pending d = some y → y = x ∧ t'.mem a = t.mem a) ?_ ⟨hwf, ?_⟩ h
    · rintro t₁ e t₂ he ⟨hwf₁, hkept⟩ hn
      refine ⟨hn.wf hwf₁, ?_⟩
      intro y hy
      rcases hn.pending_of hy with hold | rfl
      · obtain ⟨rfl, hmem⟩ := hkept y hold
        exact ⟨rfl, (hn.mem_eq hwf₁ hold hw ha).trans hmem⟩
      · exact absurd he (hlog y)
    · intro y hy
      rw [hx, Option.some.injEq] at hy
      exact ⟨hy.symm, rfl⟩
  exact hall.2 y hy

/-- After a completion the other requests are under way. -/
theorem complete_quiet {P : Transfer → Prop} (hP : ∀ d' y, d' ≠ d → t.pending d' = some y → ¬ P y) :
    ∀ d' y, (t.complete d x).pending d' = some y → ¬ P y := by
  intro d' y hy
  have hne : d' ≠ d := by
    rintro rfl
    simp only [complete, Function.update_self] at hy
    cases hy
  exact hP d' y hne (pending_of_release hy)

/-- **What was written is read back**, if no write to the block is submitted in between. -/
theorem read_back {l₁ l₂ : List (Event α)} {t₁ t₂ t₃ t₄ t₅ : Flat α} {d d' : ℕ} {x y : Transfer}
    (hwf : t₁.Wf) (hx : t₁.pending d = some x) (hw : x.write = true) (f₁ : Run t₁ l₁ t₂)
    (hsame : ∀ y, .submitted d y ∉ l₁) (hwritten : Step t₂ (.polled d 0 true) t₃) (f₂ : Run t₃ l₂ t₄)
    (hy : t₄.pending d' = some y) (hr : y.write = false) (hread : Step t₄ (.polled d' 0 true) t₅)
    {i j : ℕ} (hi : i < x.len) (hj : j < y.len) (hblock : x.pos + i = y.pos + j)
    (hlog : ∀ e z, .submitted e z ∈ l₂ → ¬ z.Fills (x.pos + i)) :
    t₅.mem (y.buf + j) = t₁.mem (x.buf + i) := by
  -- until it completes the write has the bytes of `t₁`
  obtain ⟨x', hx', rfl⟩ := hwritten.completed
  have hin : x.InBuf (x.buf + i) := ⟨Nat.le_add_right _ _, by omega⟩
  obtain ⟨rfl, hmem⟩ := Run.mem_eq f₁ hwf hx hw hsame hx' hin
  -- then the store has them, until the read completes
  have hwf₂ := Run.wf f₁ hwf
  have hquiet : ∀ e z, (t₂.complete d x').pending e = some z → ¬ z.Fills (x'.pos + i) := by
    refine complete_quiet ?_
    rintro e z hne hz ⟨-, hpos⟩
    exact (hwf₂ e d z x' hne hz hx').pos _ hpos ⟨Nat.le_add_right _ _, by omega⟩
  obtain ⟨y', hy', rfl⟩ := hread.completed
  rw [hy, Option.some.injEq] at hy'
  subst hy'
  rw [complete_mem hr hj, ← hblock, Run.store_eq f₂ hquiet hlog, complete_store hw hi, hmem]

end

end Flat

end Unvme.Store
