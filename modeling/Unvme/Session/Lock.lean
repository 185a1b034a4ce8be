import Mathlib.Data.Nat.Bitwise
import Unvme.Lib.Threads

set_option autoImplicit false

/-! # The read write lock (`unvme_lock.h`)

The lock is one `atomic_uint`: the top bit is set by a writer, the low 31 bits count readers. The four
functions are sequences of atomic operations with loops between them; a thread's program point says
which operation comes next, and `Pc.step` is that operation with the branch taken on its result. Reads
that meet the write bit have already counted themselves and take the count back, and a writer that sets
the bit first waits for the readers it found.

`lock_excludes` is the result, for every schedule of the atomic operations of any number of threads that
the 31 bits can count. -/

namespace Unvme.Session

open Unvme.Lib

/-- The sections a thread can ask for. -/
inductive Section where
  | read
  | write
  deriving DecidableEq, Repr

/-- Program points: outside; before the `atomic_fetch_add` of `unvme_lockr`; between a failed
    `atomic_fetch_add` and its `atomic_fetch_sub`; in a read section; before the `atomic_fetch_or` of
    `unvme_lockw`; before the `atomic_load` that waits for readers; in a write section. -/
inductive Pc where
  | outside
  | lockr
  | backOut
  | reading
  | lockw
  | drain
  | writing
  deriving DecidableEq, Repr

/-- UNVME_LOCKWBIT as the lock word has it. -/
def lockwbit : BitVec 32 := 0x80000000

/-- The next atomic operation of a thread, and where it leaves the thread and the lock. A thread that
    is outside decides for a section, a thread in a section leaves it. -/
def Pc.step (want : Section) (lock : BitVec 32) : Pc → Pc × BitVec 32
  | .outside => (match want with | .read => .lockr | .write => .lockw, lock)
  -- unvme_lockr
  | .lockr => (if lock &&& lockwbit = 0 then .reading else .backOut, lock + 1)
  | .backOut => (.lockr, lock - 1)
  -- unvme_unlockr
  | .reading => (.outside, lock - 1)
  -- unvme_lockw
  | .lockw =>
      (if lock = 0 then .writing else if lock &&& lockwbit = 0 then .drain else .lockw,
        lock ||| lockwbit)
  | .drain => (if lock = lockwbit then .writing else .drain, lock)
  -- unvme_unlockw
  | .writing => (.outside, lock &&& ~~~lockwbit)

/-- Threads that use one lock. -/
abbrev Lockers (T : Type) := Threads T (BitVec 32) Pc

/-- No thread has called a function of the lock yet. -/
def Lockers.start (T : Type) : Lockers T := ⟨0, fun _ => .outside⟩

/-- The thread has counted itself as a reader. -/
def Pc.counted : Pc → Bool
  | .backOut | .reading => true
  | _ => false

/-- The thread has set the write bit. -/
def Pc.owner : Pc → Bool
  | .drain | .writing => true
  | _ => false

/-! ## The lock word -/

theorem lockwbit_toNat : lockwbit.toNat = 2 ^ 31 := rfl

theorem two_pow_or {x : ℕ} (h : x < 2 ^ 31) : 2 ^ 31 ||| x = x + 2 ^ 31 := by
  have hor := Nat.two_pow_add_eq_or_of_lt h 1
  rw [Nat.mul_one] at hor
  rw [← hor, Nat.add_comm]

theorem wbit_clear_iff (lock : BitVec 32) : lock &&& lockwbit = 0 ↔ lock.toNat < 2 ^ 31 := by
  have hlt := lock.isLt
  have hand : (lock &&& lockwbit).toNat = (lock.toNat.testBit 31).toNat * 2 ^ 31 := by
    rw [BitVec.toNat_and, lockwbit_toNat, Nat.and_two_pow]
  rw [← BitVec.toNat_inj, hand, Nat.testBit_eq_decide_div_mod_eq]
  by_cases h : lock.toNat < 2 ^ 31
  · have hdiv : lock.toNat / 2 ^ 31 = 0 := by omega
    rw [hdiv]
    simpa using h
  · have hdiv : lock.toNat / 2 ^ 31 = 1 := by omega
    rw [hdiv]
    simpa using h

theorem toNat_set_wbit {lock : BitVec 32} (h : lock.toNat < 2 ^ 31) :
    (lock ||| lockwbit).toNat = lock.toNat + 2 ^ 31 := by
  rw [BitVec.toNat_or, Nat.lor_comm]
  exact two_pow_or h

theorem set_wbit_self {lock : BitVec 32} (h : ¬ lock.toNat < 2 ^ 31) : lock ||| lockwbit = lock := by
  have hlt := lock.isLt
  have hor : 2 ^ 31 ||| (lock.toNat - 2 ^ 31) = lock.toNat := by
    rw [two_pow_or (by omega)]
    omega
  rw [← BitVec.toNat_inj, BitVec.toNat_or, Nat.lor_comm, ← hor, ← Nat.lor_assoc]
  exact congrArg (· ||| (lock.toNat - 2 ^ 31)) (Nat.or_self _)

theorem toNat_clear_wbit (lock : BitVec 32) :
    (lock &&& ~~~lockwbit).toNat = lock.toNat % 2 ^ 31 := by
  rw [BitVec.toNat_and]
  show lock.toNat &&& (2 ^ 31 - 1) = _
  exact Nat.and_two_pow_sub_one_eq_mod _ _

theorem toNat_sub_one {lock : BitVec 32} (h : 0 < lock.toNat) : (lock - 1).toNat + 1 = lock.toNat := by
  have hlt := lock.isLt
  have hone : (1 : BitVec 32).toNat = 1 := rfl
  rw [BitVec.toNat_sub, hone]
  omega

/-! ## The invariant -/

section

variable {T : Type} [Fintype T] [DecidableEq T]

/-- The word counts the readers that have counted themselves, its top bit is set by the only owner, and
    a writer has found no reader. -/
structure Lockers.Inv (m : Lockers T) : Prop where
  word : m.shared.toNat = m.census Pc.counted + 2 ^ 31 * m.census Pc.owner
  one : m.census Pc.owner ≤ 1
  alone : ∀ t u, m.pc t = .writing → m.pc u ≠ .reading

omit [DecidableEq T] in
theorem Lockers.Inv.start : (Lockers.start T).Inv := by
  have h0 : ∀ p : Pc → Bool, p .outside = false → (Lockers.start T).census p = 0 :=
    fun p hp => Threads.census_eq_zero.2 (fun _ => hp)
  constructor
  · rw [h0 _ rfl, h0 _ rfl]; rfl
  · rw [h0 _ rfl]; exact Nat.zero_le 1
  · nofun

/-- What a step has to do to keep the invariant: account for the change of its thread in the word, set
    the bit only where no thread has, start to write only where no thread is counted, and start to read
    only where no thread has set the bit. -/
theorem Lockers.Inv.of_step {m : Lockers T} (h : m.Inv) {t : T} {want : Section} {l l' : Pc}
    {lock' : BitVec 32} (hpc : m.pc t = l) (hstep : Pc.step want m.shared l = (l', lock'))
    (hword : lock'.toNat + l.counted.toNat + 2 ^ 31 * l.owner.toNat
      = m.shared.toNat + l'.counted.toNat + 2 ^ 31 * l'.owner.toNat)
    (howner : l'.owner = true → l.owner = true ∨ m.census Pc.owner = 0)
    (hwriting : l' = .writing → m.census Pc.counted = 0)
    (hreading : l' = .reading → m.census Pc.owner = 0) :
    Lockers.Inv (m.move Pc.step t want) := by
  have hself : (m.move Pc.step t want).pc t = l' := by
    rw [Threads.move_pc_self, hpc, hstep]
  have hshared : (m.move Pc.step t want).shared = lock' := by
    show (Pc.step want m.shared (m.pc t)).2 = lock'
    rw [hpc, hstep]
  have hcounted := Threads.census_move (m := m) (p := Pc.counted) Pc.step t want
  have howners := Threads.census_move (m := m) (p := Pc.owner) Pc.step t want
  rw [hpc, hstep] at hcounted howners
  dsimp only at hcounted howners
  have hold := h.word
  have hone := h.one
  refine ⟨by rw [hshared]; omega, ?_, ?_⟩
  · cases hl : l'.owner with
    | false => rw [hl] at howners; simp only [Bool.toNat_false] at howners; omega
    | true =>
        rw [hl] at howners
        rcases howner hl with hwas | hnone
        · rw [hwas] at howners
          omega
        · rw [hnone] at howners
          simp only [Bool.toNat_true] at howners
          omega
  · intro u v hu hv
    have huv : u ≠ v := by
      intro huv
      rw [huv, hv] at hu
      cases hu
    by_cases hut : u = t
    · rw [hut, hself] at hu
      rw [Threads.move_pc_of_ne _ _ _ (hut ▸ huv.symm)] at hv
      have hnot := Threads.census_eq_zero.1 (hwriting hu) v
      rw [hv] at hnot
      cases hnot
    · rw [Threads.move_pc_of_ne _ _ _ hut] at hu
      by_cases hvt : v = t
      · rw [hvt, hself] at hv
        have hnot := Threads.census_eq_zero.1 (hreading hv) u
        rw [hu] at hnot
        cases hnot
      · rw [Threads.move_pc_of_ne _ _ _ hvt] at hv
        exact h.alone u v hu hv

/-- **One atomic operation keeps the invariant.** -/
theorem Lockers.Inv.move {m : Lockers T} (h : m.Inv) (hT : Fintype.card T < 2 ^ 31) (t : T)
    (want : Section) : Lockers.Inv (m.move Pc.step t want) := by
  have hle := Threads.census_le (m := m) (p := Pc.counted)
  have hword := h.word
  have hone := h.one
  cases hpc : m.pc t with
  | outside =>
      cases want with
      | read => exact h.of_step hpc rfl rfl nofun nofun nofun
      | write => exact h.of_step hpc rfl rfl nofun nofun nofun
  | lockr =>
      -- the count has room: this thread is not in it
      have hroom : m.census Pc.counted < Fintype.card T := Threads.census_lt (t := t) (by rw [hpc]; rfl)
      have hadd : (m.shared + 1).toNat = m.shared.toNat + 1 := by
        rw [BitVec.toNat_add]
        exact Nat.mod_eq_of_lt (by simp; omega)
      by_cases hbit : m.shared &&& lockwbit = 0
      · have hstep : Pc.step want m.shared .lockr = (.reading, m.shared + 1) := by
          simp only [Pc.step, hbit, if_true]
        rw [wbit_clear_iff] at hbit
        exact h.of_step hpc hstep hadd nofun nofun (fun _ => by omega)
      · have hstep : Pc.step want m.shared .lockr = (.backOut, m.shared + 1) := by
          simp only [Pc.step, hbit, if_false]
        exact h.of_step hpc hstep hadd nofun nofun nofun
  | backOut =>
      have hpos : 0 < m.census Pc.counted := Threads.census_pos (t := t) (by rw [hpc]; rfl)
      have hsub : (m.shared - 1).toNat + 1 = m.shared.toNat := toNat_sub_one (by omega)
      exact h.of_step hpc rfl hsub nofun nofun nofun
  | reading =>
      have hpos : 0 < m.census Pc.counted := Threads.census_pos (t := t) (by rw [hpc]; rfl)
      have hsub : (m.shared - 1).toNat + 1 = m.shared.toNat := toNat_sub_one (by omega)
      exact h.of_step hpc rfl hsub nofun nofun nofun
  | lockw =>
      by_cases hzero : m.shared = 0
      · have hstep : Pc.step want m.shared .lockw = (.writing, lockwbit) := by
          simp [Pc.step, hzero]
        rw [hzero] at hword
        have hnone : m.census Pc.owner = 0 := by simp at hword; omega
        refine h.of_step hpc hstep ?_ (fun _ => Or.inr hnone) (fun _ => ?_) nofun
        · rw [hzero]; rfl
        · simp at hword; omega
      by_cases hbit : m.shared &&& lockwbit = 0
      · have hstep : Pc.step want m.shared .lockw = (.drain, m.shared ||| lockwbit) := by
          simp only [Pc.step, hbit, hzero, if_true, if_false]
        rw [wbit_clear_iff] at hbit
        exact h.of_step hpc hstep (toNat_set_wbit hbit) (fun _ => Or.inr (by omega)) nofun nofun
      · have hstep : Pc.step want m.shared .lockw = (.lockw, m.shared) := by
          simp only [Pc.step, hzero, hbit, if_false]
          rw [wbit_clear_iff] at hbit
          rw [set_wbit_self hbit]
        exact h.of_step hpc hstep rfl nofun nofun nofun
  | drain =>
      by_cases hdone : m.shared = lockwbit
      · have hstep : Pc.step want m.shared .drain = (.writing, m.shared) := by
          simp [Pc.step, hdone]
        rw [hdone, lockwbit_toNat] at hword
        have hpos : 0 < m.census Pc.owner := Threads.census_pos (t := t) (by rw [hpc]; rfl)
        exact h.of_step hpc hstep rfl (fun _ => Or.inl rfl) (fun _ => by omega) nofun
      · have hstep : Pc.step want m.shared .drain = (.drain, m.shared) := by
          simp [Pc.step, hdone]
        exact h.of_step hpc hstep rfl (fun _ => Or.inl rfl) nofun nofun
  | writing =>
      have hpos : 0 < m.census Pc.owner := Threads.census_pos (t := t) (by rw [hpc]; rfl)
      refine h.of_step hpc rfl ?_ nofun nofun nofun
      rw [toNat_clear_wbit]
      simp [Pc.counted, Pc.owner]
      omega

/-- **The lock excludes**, whatever the schedule of the atomic operations: a thread in a write section
    is alone with it, the low 31 bits count the threads in read sections and those about to take their
    count back, and the write bit is set while a writer holds the lock or waits for readers. -/
theorem lock_excludes (n : ℕ) (hn : n < 2 ^ 31) (sched : List (Fin n × Section)) :
    let m := (Lockers.start (Fin n)).run Pc.step sched
    (∀ t u, t ≠ u → m.pc t = .writing → m.pc u ≠ .writing ∧ m.pc u ≠ .reading) ∧
      m.shared.toNat % 2 ^ 31 = m.census (fun l => l == .reading) + m.census (fun l => l == .backOut) ∧
      (m.shared &&& lockwbit ≠ 0 ↔ ∃ t, m.pc t = .writing ∨ m.pc t = .drain) := by
  intro m
  have hinv : Lockers.Inv m :=
    Threads.run_induction Lockers.Inv.start (fun m t c h => h.move (by simpa using hn) t c) sched
  have hword := hinv.word
  have hlt : m.census Pc.counted < 2 ^ 31 := by
    have := Threads.census_le (m := m) (p := Pc.counted)
    rw [Fintype.card_fin] at this
    omega
  refine ⟨?_, ?_, ?_⟩
  · intro t u htu ht
    refine ⟨?_, hinv.alone t u ht⟩
    intro hu
    exact htu (Threads.eq_of_census_le_one hinv.one (by rw [ht]; rfl) (by rw [hu]; rfl))
  · have hsplit : Pc.counted = fun l => (l == .reading) || (l == .backOut) := by
      funext l
      cases l <;> rfl
    rw [← Threads.census_or (by intro l; cases l <;> decide), ← hsplit]
    omega
  · rw [Ne, wbit_clear_iff]
    constructor
    · intro hbit
      by_contra hnone
      have hzero : m.census Pc.owner = 0 := by
        refine Threads.census_eq_zero.2 (fun t => ?_)
        have ht : ¬ (m.pc t = .writing ∨ m.pc t = .drain) := fun ht => hnone ⟨t, ht⟩
        cases hpc : m.pc t <;> simp_all [Pc.owner]
      omega
    · intro ⟨t, ht⟩
      have hpos : 0 < m.census Pc.owner := by
        refine Threads.census_pos (t := t) ?_
        rcases ht with ht | ht <;> rw [ht] <;> rfl
      omega

/-- Two readers and a writer: the writer has set the bit and waits for one reader, the other reader has
    found the bit set. -/
theorem lock_excludes_three :
    (3 < 2 ^ 31) ∧
      (let m := (Lockers.start (Fin 3)).run Pc.step
        [(0, .read), (0, .read), (1, .write), (1, .write), (2, .read), (2, .read)]
      m.pc 0 = .reading ∧ m.pc 1 = .drain ∧ m.pc 2 = .backOut ∧ m.shared.toNat % 2 ^ 31 = 2) := by
  have h := lock_excludes 3 (by decide)
    [(0, .read), (0, .read), (1, .write), (1, .write), (2, .read), (2, .read)]
  exact ⟨by decide, by decide, by decide, by decide, h.2.1.trans (by decide)⟩

end

end Unvme.Session
