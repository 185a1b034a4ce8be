import Unvme.Nvme.Registers

set_option autoImplicit false

/-! # The controller is brought up

What the functions of `Registers.lean` achieve, for every controller: any registers when the driver finds
it, and any actions between the driver's accesses. `admin_bring_up`: no write is forbidden but the first
one, if it disables a controller that is still starting, and if the admin queue is set up then the controller
is ready with exactly the queues and sizes it was given.
`brought_up_iff`: when that is. -/

namespace Unvme.Nvme

open Unvme.Lib

section

variable {c c' : Controller} {Q : ℕ → Controller → Prop} {Q' : Unit → Controller → Prop}
  {F : Fatal → Controller → Prop}

@[simp] theorem wp_r32 (r : Reg) : wp (r32 r) c Q F ↔ Q (c.turn.reg r) c.turn := by
  simp only [r32, wp_bind, wp_modify, wp_get, wp_pure]

@[simp] theorem wp_r64 (r : Reg) : wp (r64 r) c Q F ↔ Q (c.turn.reg r) c.turn := wp_r32 r

@[simp] theorem wp_w32 (r : Reg) (v : ℕ) :
    wp (w32 r v) c Q' F ↔ Q' ⟨⟩ (c.turn.write r (v % 2 ^ 32)) := by
  simp only [w32, wp_bind, wp_modify]

@[simp] theorem wp_w64 (r : Reg) (v : ℕ) :
    wp (w64 r v) c Q' F ↔ Q' ⟨⟩ (c.turn.write r (v % 2 ^ 64)) := by
  simp only [w64, wp_bind, wp_modify]

end

/-! ## Waiting -/

/-- Turn `i` from now is the first after which the status agrees with the enable bit. -/
def Controller.FollowsAt (c : Controller) (i : ℕ) : Prop :=
  if c.rdy = c.en then i = 0
  else .settle ∈ c.sched (c.clock + i) ∧ ∀ j < i, .settle ∉ c.sched (c.clock + j)

/-- What a wait for the enable bit to be followed leaves. -/
structure Controller.Waited (n : ℕ) (c : Controller) (r : ℤ) (c' : Controller) : Prop where
  later : c.Later c'
  ready : r = 0 → c'.rdy = c.en ∧ ∃ i < n, c.FollowsAt i ∧ c'.clock = c.clock + (i + 1)
  expired : r ≠ 0 → (∀ i < n, ¬ c.FollowsAt i) ∧ (c'.rdy ≠ c.en ∨ n = 0 ∧ c' = c)

section

variable {c c' : Controller}

/-- A turn after which the status does not agree yet. -/
theorem Controller.followsAt_turn (hne : c.turn.rdy ≠ c.en) {i : ℕ} :
    c.FollowsAt i ↔ ∃ j, i = j + 1 ∧ c.turn.FollowsAt j := by
  have hlater := c.later_turn
  have hrdy := c.turn_rdy
  have hclock : c.turn.clock = c.clock + 1 := rfl
  have hset : .settle ∉ c.sched c.clock := by
    intro hs
    rw [if_pos hs] at hrdy
    exact hne hrdy
  rw [if_neg hset] at hrdy
  have hold : c.rdy ≠ c.en := fun h => hne (hrdy.trans h)
  simp only [Controller.FollowsAt, hlater.en, hlater.sched, if_neg hne, if_neg hold, hclock]
  constructor
  · rintro ⟨hs, hall⟩
    cases i with
    | zero => exact absurd hs hset
    | succ j =>
        refine ⟨j, rfl, by rwa [Nat.add_assoc, Nat.add_comm 1 j], ?_⟩
        intro k hk
        rw [Nat.add_assoc, Nat.add_comm 1 k]
        exact hall _ (Nat.succ_lt_succ hk)
  · rintro ⟨j, rfl, hs, hall⟩
    refine ⟨by rwa [Nat.add_assoc, Nat.add_comm 1 j] at hs, ?_⟩
    intro k hk
    cases k with
    | zero => exact hset
    | succ k =>
        have hk := hall k (Nat.lt_of_succ_lt_succ hk)
        rwa [Nat.add_assoc, Nat.add_comm 1 k] at hk

/-- The wait ends with the first status that agrees, or after `n` polls. -/
theorem nvmeCtlrWaitReady_spec (n : ℕ) (c : Controller) :
    wp (nvmeCtlrWaitReady c.en n) c (fun r c' => Controller.Waited n c r c') (fun _ _ => False) := by
  induction n generalizing c with
  | zero =>
      refine ⟨.refl c, fun h => absurd h (by decide), fun _ => ⟨?_, Or.inr ⟨rfl, rfl⟩⟩⟩
      exact fun i hi => absurd hi (Nat.not_lt_zero i)
  | succ n ih =>
      have hlater := c.later_turn
      rw [nvmeCtlrWaitReady, wp_bind, wp_r32]
      show wp (if c.turn.rdy = c.en then pure 0 else nvmeCtlrWaitReady c.en n) c.turn _ _
      by_cases hrdy : c.turn.rdy = c.en
      · rw [if_pos hrdy]
        refine ⟨hlater, fun _ => ⟨hrdy, 0, Nat.succ_pos n, ?_, rfl⟩, fun h => absurd rfl h⟩
        unfold Controller.FollowsAt
        by_cases hold : c.rdy = c.en
        · rw [if_pos hold]
        · rw [if_neg hold]
          refine ⟨?_, fun j hj => absurd hj (Nat.not_lt_zero j)⟩
          by_contra hs
          exact hold (by rwa [c.turn_rdy, if_neg (by exact hs)] at hrdy)
      · rw [if_neg hrdy]
        have hrest := ih c.turn
        rw [hlater.en] at hrest
        refine wp_mono hrest ?_ (fun _ _ hf => hf)
        intro r c' h
        refine ⟨hlater.trans h.later, ?_, ?_⟩
        · intro hr
          obtain ⟨heq, i, hi, hfollows, hclock⟩ := h.ready hr
          rw [hlater.en] at heq
          refine ⟨heq, i + 1, Nat.succ_lt_succ hi,
            (Controller.followsAt_turn hrdy).2 ⟨i, rfl, hfollows⟩, ?_⟩
          rw [hclock, show c.turn.clock = c.clock + 1 from rfl]
          omega
        · intro hr
          obtain ⟨hnone, hne⟩ := h.expired hr
          refine ⟨?_, Or.inl ?_⟩
          · intro i hi hfollows
            obtain ⟨j, rfl, hj⟩ := (Controller.followsAt_turn hrdy).1 hfollows
            exact hnone j (Nat.lt_of_succ_lt_succ hi) hj
          · rcases hne with hne | ⟨-, rfl⟩
            · rwa [hlater.en] at hne
            · exact hrdy

/-! ## Disabling and enabling -/

/-- The enable bit has been cleared. -/
def Controller.disabled (c : Controller) : Controller :=
  c.turn.turn.write .cc (setBits 0 1 0 (c.turn.reg .cc) % 2 ^ 32)

theorem Controller.disabled_en (c : Controller) : c.disabled.en = 0 := by
  unfold Controller.en Controller.disabled
  rw [Controller.write_reg_self, bits_mod_two_pow (by decide), bits_setBits]
  rfl

theorem Controller.disabled_faults (c : Controller) :
    c.disabled.faults = c.faults + if c.turn.turn.en = 1 ∧ c.turn.turn.rdy = 0 then 1 else 0 := by
  have hbit : bits 0 1 (setBits 0 1 0 (c.turn.reg .cc) % 2 ^ 32) = 0 := by
    rw [bits_mod_two_pow (by decide), bits_setBits]
    rfl
  have hen := c.turn.turn.en_lt
  unfold Controller.disabled
  rw [Controller.write_faults, c.turn.later_turn.faults, c.later_turn.faults]
  congr 1
  unfold Controller.forbids
  rw [hbit]
  by_cases h0 : c.turn.turn.en = 0
  · simp [h0]
  · have h1 : c.turn.turn.en = 1 := by omega
    simp [h1]

theorem nvmeCtlrDisable_spec (dev : NvmeDevice) (c : Controller) :
    wp (nvmeCtlrDisable dev) c (fun r c' => c.disabled.Waited dev.timeout r c') (fun _ _ => False) := by
  have hwait := nvmeCtlrWaitReady_spec dev.timeout c.disabled
  rw [c.disabled_en] at hwait
  simp only [nvmeCtlrDisable, wp_bind, wp_r32, wp_w32]
  exact hwait

/-- Neither enabled nor busy. -/
def Controller.Idle (c : Controller) : Prop := c.en = 0 ∧ c.rdy = 0

theorem Controller.Idle.later (h : c.Idle) (hl : c.Later c') : c'.Idle := by
  refine ⟨hl.en.trans h.1, ?_⟩
  rw [hl.agree (by rw [h.1, h.2]), h.1]

/-- A write of an idle controller's admin queue registers. -/
structure Controller.Announced (c : Controller) (r : Reg) (v : ℕ) (c' : Controller) : Prop where
  idle : c'.Idle
  faults : c'.faults = c.faults
  self : c'.reg r = v
  other : ∀ r', r' ≠ r → r' ≠ .csts → c'.reg r' = c.reg r'
  sched : c'.sched = c.sched
  clock : c'.clock = c.clock + 1

theorem Controller.Idle.announce (h : c.Idle) {r : Reg} (hr : r = .aqa ∨ r = .asq ∨ r = .acq) (v : ℕ) :
    c.Announced r v (c.turn.write r v) := by
  have hl := c.later_turn
  have ht := h.later hl
  have hcc : r ≠ .cc := by rcases hr with rfl | rfl | rfl <;> decide
  have hcsts : r ≠ .csts := by rcases hr with rfl | rfl | rfl <;> decide
  have hnot : c.turn.forbids r v = false := by
    rcases hr with rfl | rfl | rfl <;> simp [Controller.forbids, ht.1, ht.2]
  refine ⟨⟨?_, ?_⟩, ?_, Controller.write_reg_self _ _ _, ?_, hl.sched, rfl⟩
  · unfold Controller.en
    rw [Controller.write_reg_of_ne v hcc.symm]
    exact ht.1
  · unfold Controller.rdy
    rw [Controller.write_reg_of_ne v hcsts.symm]
    exact ht.2
  · rw [Controller.write_allowed hnot, hl.faults]
  · exact fun r' hne hstat => (Controller.write_reg_of_ne v hne).trans (hl.reg r' hstat)

/-- An idle controller has been enabled. -/
structure Controller.Enabled (c : Controller) (cc : ℕ) (c' : Controller) : Prop where
  en : c'.en = 1
  rdy : c'.rdy = 0
  faults : c'.faults = c.faults
  setup : c'.setup = some (c.announced cc)
  sched : c'.sched = c.sched
  clock : c'.clock = c.clock + 1

theorem Controller.Idle.enable (h : c.Idle) (cc : ℕ) :
    c.Enabled cc (c.turn.write .cc (setBits 0 1 1 cc % 2 ^ 32)) := by
  have hl := c.later_turn
  have ht := h.later hl
  have hbit : bits 0 1 (setBits 0 1 1 cc % 2 ^ 32) = 1 := by
    rw [bits_mod_two_pow (by decide), bits_setBits]
    rfl
  have hfield : ∀ off len, 1 ≤ off → off + len ≤ 32 →
      bits off len (setBits 0 1 1 cc % 2 ^ 32) = bits off len cc := by
    intro off len hoff hlen
    rw [bits_mod_two_pow hlen, bits_setBits_of_disjoint _ _ (Or.inr hoff)]
  have hnot : c.turn.forbids .cc (setBits 0 1 1 cc % 2 ^ 32) = false := by
    unfold Controller.forbids
    rw [hbit, ht.1, ht.2]
    rfl
  refine ⟨?_, ?_, ?_, ?_, hl.sched, rfl⟩
  · unfold Controller.en
    rw [Controller.write_reg_self, hbit]
  · unfold Controller.rdy
    rw [Controller.write_reg_of_ne _ (by decide)]
    exact ht.2
  · rw [Controller.write_allowed hnot, hl.faults]
  · show Controller.configure _ _ = _
    unfold Controller.configure
    rw [hbit, if_neg (by decide), if_pos ht.1]
    simp only [Controller.announced, hl.reg _ (show Reg.aqa ≠ .csts by decide),
      hl.reg _ (show Reg.asq ≠ .csts by decide), hl.reg _ (show Reg.acq ≠ .csts by decide),
      hfield 7 4 (by decide) (by decide), hfield 16 4 (by decide) (by decide),
      hfield 20 4 (by decide) (by decide)]

theorem nvmeCtlrEnable_spec (dev : NvmeDevice) (cc : ℕ) (h : c.Idle) :
    wp (nvmeCtlrEnable dev cc) c (fun r c' => ∃ c₁, c.Enabled cc c₁ ∧ c₁.Waited dev.timeout r c')
      (fun _ _ => False) := by
  have henable := h.enable cc
  have hwait := nvmeCtlrWaitReady_spec dev.timeout (c.turn.write .cc (setBits 0 1 1 cc % 2 ^ 32))
  rw [henable.en] at hwait
  simp only [nvmeCtlrEnable, wp_bind, wp_w32]
  exact wp_mono hwait (fun r c' hr => ⟨_, henable, hr⟩) (fun _ _ hf => hf)

/-! ## The admin queue -/

/-- The sizes are announced zero based. -/
theorem adminqAttr_sizes {qsize : ℕ} (hpos : 1 ≤ qsize) (hmax : qsize ≤ 4096) :
    bits 0 12 (adminqAttr qsize % 2 ^ 32) + 1 = qsize ∧
      bits 16 12 (adminqAttr qsize % 2 ^ 32) + 1 = qsize := by
  have hle : 12 ≤ 16 := by decide
  have hval : bits 16 16 (setBits 16 16 (qsize + 0xffff) 0) = (qsize + 0xffff) % 2 ^ 16 :=
    bits_setBits _ _ _ _
  have hlow : bits 0 16 (adminqAttr qsize) = (qsize + 0xffff) % 2 ^ 16 % 2 ^ 16 := by
    rw [← hval]
    exact bits_setBits _ _ _ _
  have hhigh : bits 16 16 (adminqAttr qsize) = (qsize + 0xffff) % 2 ^ 16 := by
    rw [← hval]
    exact bits_setBits_of_disjoint _ _ (Or.inr (by decide))
  rw [bits_mod_two_pow (by decide), bits_mod_two_pow (by decide), ← bits_mod hle, ← bits_mod hle, hlow,
    hhigh]
  constructor <;> omega

/-- The fields of the configuration, for a page size the field can hold. -/
theorem controllerConfig_fields {dev : NvmeDevice} {mps : ℕ} (hmps : mps < 16)
    (hshift : dev.pageshift = 12 + mps) :
    bits 7 4 (controllerConfig dev) = mps ∧ bits 16 4 (controllerConfig dev) = 6 ∧
      bits 20 4 (controllerConfig dev) = 4 := by
  unfold controllerConfig
  refine ⟨?_, ?_, ?_⟩
  · rw [bits_setBits, hshift, Nat.add_sub_cancel_left]
    exact Nat.mod_eq_of_lt hmps
  · rw [bits_setBits_of_disjoint _ _ (Or.inr (by decide)),
      bits_setBits_of_disjoint _ _ (Or.inl (by decide)), bits_setBits]
    rfl
  · rw [bits_setBits_of_disjoint _ _ (Or.inr (by decide)), bits_setBits]
    rfl

/-- What the controller is to take over. -/
def NvmeDevice.adminSetup (dev : NvmeDevice) (qsize sqpa cqpa : ℕ) : Setup where
  sqSize := qsize
  cqSize := qsize
  sq := sqpa
  cq := cqpa
  pageshift := dev.pageshift
  iosqes := 6
  iocqes := 4

/-- The memory of a ring starts at a page. -/
def RingMemory (pa : ℕ) : Prop := 4096 ∣ pa ∧ pa < 2 ^ 64

theorem RingMemory.base {pa : ℕ} (h : RingMemory pa) : pa % 2 ^ 64 / 4096 * 4096 = pa := by
  rw [Nat.mod_eq_of_lt h.2]
  exact Nat.div_mul_cancel h.1

/-- Only one turn is the first. -/
theorem Controller.FollowsAt.unique {i j : ℕ} (hi : c.FollowsAt i) (hj : c.FollowsAt j) : i = j := by
  unfold Controller.FollowsAt at hi hj
  by_cases h : c.rdy = c.en
  · rw [if_pos h] at hi hj
    rw [hi, hj]
  · rw [if_neg h] at hi hj
    rcases Nat.lt_trichotomy i j with hlt | heq | hlt
    · exact absurd hi.1 (hj.2 i hlt)
    · exact heq
    · exact absurd hj.1 (hi.2 j hlt)

/-- A busy controller becomes ready with its next `settle`. -/
theorem Controller.Enabled.follows {cc n : ℕ} (h : c.Enabled cc c') :
    (∃ j < n, c'.FollowsAt j) ↔ ∃ j < n, .settle ∈ c.sched (c.clock + 1 + j) := by
  have hne : c'.rdy ≠ c'.en := by
    rw [h.rdy, h.en]
    decide
  simp only [Controller.FollowsAt, if_neg hne, h.sched, h.clock]
  constructor
  · rintro ⟨j, hj, hs, -⟩
    exact ⟨j, hj, hs⟩
  · intro hex
    obtain ⟨hj, hs⟩ := Nat.find_spec hex
    refine ⟨Nat.find hex, hj, hs, fun k hk hks => ?_⟩
    exact Nat.find_min hex hk ⟨hk.trans hj, hks⟩

/-- What setting up the admin queue leaves. -/
structure Controller.SetUp (dev : NvmeDevice) (qsize sqpa cqpa : ℕ) (c : Controller) (ok : Bool)
    (c' : Controller) : Prop where
  faults : c'.faults = c.disabled.faults
  ready : ok = true → c'.en = 1 ∧ c'.rdy = 1 ∧ c'.setup = some (dev.adminSetup qsize sqpa cqpa)
  refused : ok = false → dev.timeout = 0 ∨ c'.rdy ≠ c'.en
  when : ok = true ↔ ∃ i < dev.timeout, c.disabled.FollowsAt i ∧
    ∃ j < dev.timeout, .settle ∈ c.sched (c.clock + (i + 7) + j)

theorem nvmeAdminqSetup_spec {dev : NvmeDevice} {mps qsize sqbuf sqpa cqbuf cqpa : ℕ} (hmps : mps < 16)
    (hshift : dev.pageshift = 12 + mps) (hpos : 1 ≤ qsize) (hmax : qsize ≤ 4096) (hsq : RingMemory sqpa)
    (hcq : RingMemory cqpa) (c : Controller) :
    wp (nvmeAdminqSetup dev qsize sqbuf sqpa cqbuf cqpa) c
      (fun q c' => (∀ adminq, q = some adminq → adminq = ⟨0, qsize, sqbuf, cqbuf, 0, dev.dbstride⟩) ∧
        Controller.SetUp dev qsize sqpa cqpa c q.isSome c') (fun _ _ => False) := by
  refine wp_bind_of (nvmeCtlrDisable_spec dev c) (fun r c₁ h₁ => ?_)
  have hfaults₁ : c₁.faults = c.disabled.faults := h₁.later.faults
  have hsched₁ : c₁.sched = c.sched :=
    h₁.later.sched.trans (c.turn.later_turn.sched.trans c.later_turn.sched)
  rw [wp_ite]
  split
  · -- the controller has not become idle
    rename_i hr
    obtain ⟨hnone, hbusy⟩ := h₁.expired hr
    refine ⟨fun _ h => absurd h (Option.some_ne_none _).symm, hfaults₁, fun h => absurd h (by decide),
      fun _ => ?_, ?_⟩
    · rcases hbusy with hne | ⟨h0, -⟩
      · rw [h₁.later.en]
        exact Or.inr hne
      · exact Or.inl h0
    · refine ⟨fun h => absurd h (by decide), ?_⟩
      rintro ⟨i, hi, hfollows, -⟩
      exact absurd hfollows (hnone i hi)
  · rename_i hr
    obtain ⟨hrdy, i, hi, hfollows, hclock⟩ := h₁.ready (not_not.1 hr)
    have hclock₁ : c₁.clock = c.clock + (i + 3) := by
      rw [hclock, show c.disabled.clock = c.clock + 2 from rfl]
      omega
    have hidle : c₁.Idle := ⟨h₁.later.en.trans c.disabled_en, hrdy.trans c.disabled_en⟩
    simp only [wp_bind, wp_w32, wp_w64]
    have a₂ := hidle.announce (Or.inl rfl) (adminqAttr qsize % 2 ^ 32)
    generalize c₁.turn.write .aqa (adminqAttr qsize % 2 ^ 32) = c₂ at a₂ ⊢
    have a₃ := a₂.idle.announce (Or.inr (Or.inl rfl)) (sqpa % 2 ^ 64)
    generalize c₂.turn.write .asq (sqpa % 2 ^ 64) = c₃ at a₃ ⊢
    have a₄ := a₃.idle.announce (Or.inr (Or.inr rfl)) (cqpa % 2 ^ 64)
    generalize c₃.turn.write .acq (cqpa % 2 ^ 64) = c₄ at a₄ ⊢
    have hfaults₄ : c₄.faults = c.disabled.faults :=
      a₄.faults.trans (a₃.faults.trans (a₂.faults.trans hfaults₁))
    have hsched₄ : c₄.sched = c.sched := a₄.sched.trans (a₃.sched.trans (a₂.sched.trans hsched₁))
    have hclock₄ : c₄.clock + 1 = c.clock + (i + 7) := by
      rw [a₄.clock, a₃.clock, a₂.clock, hclock₁]
      omega
    refine wp_mono (nvmeCtlrEnable_spec dev (controllerConfig dev) a₄.idle) ?_ (fun _ _ hf => hf)
    rintro r' c' ⟨c₅, h₅, hw⟩
    have hfaults' : c'.faults = c.disabled.faults := hw.later.faults.trans (h₅.faults.trans hfaults₄)
    have hwhen : (∃ j < dev.timeout, c₅.FollowsAt j) ↔
        ∃ j < dev.timeout, .settle ∈ c.sched (c.clock + (i + 7) + j) := by
      rw [h₅.follows, hsched₄, hclock₄]
    rw [wp_ite]
    split
    · -- it has not become ready
      rename_i hr'
      obtain ⟨hnone, hbusy⟩ := hw.expired hr'
      refine ⟨fun _ h => absurd h (Option.some_ne_none _).symm, hfaults', fun h => absurd h (by decide),
        fun _ => ?_, ?_⟩
      · rcases hbusy with hne | ⟨h0, -⟩
        · rw [hw.later.en]
          exact Or.inr hne
        · exact Or.inl h0
      · refine ⟨fun h => absurd h (by decide), ?_⟩
        rintro ⟨i', hi', hfollows', hex⟩
        obtain rfl := hfollows.unique hfollows'
        obtain ⟨j, hj, hfollows⟩ := hwhen.2 hex
        exact absurd hfollows (hnone j hj)
    · rename_i hr'
      obtain ⟨hrdy', j, hj, hfollows', -⟩ := hw.ready (not_not.1 hr')
      obtain ⟨hsqsize, hcqsize⟩ := adminqAttr_sizes hpos hmax
      obtain ⟨hps, hsqes, hcqes⟩ := controllerConfig_fields hmps hshift
      refine ⟨fun adminq heq => (Option.some.inj heq).symm, hfaults', fun _ => ⟨?_, ?_, ?_⟩,
        fun h => absurd h (show true ≠ false by decide), ?_⟩
      · rw [hw.later.en, h₅.en]
      · rw [hrdy', h₅.en]
      · rw [hw.later.setup, h₅.setup]
        have haqa : c₄.reg .aqa = adminqAttr qsize % 2 ^ 32 := by
          rw [a₄.other _ (by decide) (by decide), a₃.other _ (by decide) (by decide), a₂.self]
        have hasq : c₄.reg .asq = sqpa % 2 ^ 64 := by
          rw [a₄.other _ (by decide) (by decide), a₃.self]
        unfold Controller.announced NvmeDevice.adminSetup
        rw [haqa, hasq, a₄.self, hsqsize, hcqsize, hsq.base, hcq.base, hps, hsqes, hcqes, hshift]
      · exact ⟨fun _ => ⟨i, hi, hfollows, hwhen.1 ⟨j, hj, hfollows'⟩⟩, fun _ => rfl⟩

/-! ## Opening a device -/

/-- What a new device is opened with: its context, and an admin queue of 64 entries. -/
def bringUp (sqbuf sqpa cqbuf cqpa : ℕ) : RegM (NvmeDevice × NvmeQueue) := do
  let dev ← nvmeCreate
  let adminq ← unvmeAdminqCreate dev 64 sqbuf sqpa cqbuf cqpa
  pure (dev, adminq)

/-- The device context that `nvme_create` reads. -/
def Controller.device (c : Controller) : NvmeDevice where
  timeout := bits 24 8 (c.reg .cap)
  mpsmin := bits 48 4 (c.reg .cap)
  mpsmax := bits 52 4 (c.reg .cap)
  pageshift := 12 + bits 48 4 (c.reg .cap)
  maxqsize := bits 0 16 (c.reg .cap) + 1
  dbstride := 2 ^ bits 32 4 (c.reg .cap)
  cmbloc := c.reg .cmbloc
  cmbsz := c.reg .cmbsz

/-- After the three reads of `nvme_create`. -/
def Controller.created (c : Controller) : Controller := c.turn.turn.turn

theorem nvmeCreate_spec (c : Controller) : wp nvmeCreate c
    (fun dev c' => dev = c.device ∧ c' = c.created) (fun _ _ => False) := by
  have h₁ := c.later_turn
  have h₂ := h₁.trans c.turn.later_turn
  have h₃ := h₂.trans c.turn.turn.later_turn
  simp only [nvmeCreate, wp_bind, wp_r64, wp_r32, wp_pure]
  refine ⟨?_, rfl⟩
  unfold Controller.device
  rw [h₁.reg _ (by decide), h₂.reg _ (by decide), h₃.reg _ (by decide)]

theorem bringUp_spec {sqbuf sqpa cqbuf cqpa : ℕ} (hsq : RingMemory sqpa) (hcq : RingMemory cqpa)
    (c : Controller) : wp (bringUp sqbuf sqpa cqbuf cqpa) c
      (fun r c' => r = (c.device, ⟨0, 64, sqbuf, cqbuf, 0, c.device.dbstride⟩) ∧
        Controller.SetUp c.device 64 sqpa cqpa c.created true c')
      (fun e c' => e = .adminq ∧ Controller.SetUp c.device 64 sqpa cqpa c.created false c') := by
  refine wp_bind_of (wp_mono (nvmeCreate_spec c) (fun _ _ h => h) (fun _ _ hf => hf.elim)) ?_
  rintro dev c₁ ⟨rfl, rfl⟩
  unfold unvmeAdminqCreate
  rw [wp_bind, wp_bind]
  refine wp_mono (nvmeAdminqSetup_spec (bits_lt 48 4 _) rfl (by decide) (by decide) hsq hcq c.created) ?_
    (fun _ _ hf => hf.elim)
  rintro q c' ⟨hq, hsetup⟩
  cases q with
  | none => exact ⟨rfl, hsetup⟩
  | some adminq =>
      obtain rfl := hq adminq rfl
      exact ⟨rfl, hsetup⟩

/-- The controller is found enabled and not ready, and has not followed the enable bit before the fifth
    register access, which clears it. -/
def Controller.Starting (c : Controller) : Prop :=
  c.en = 1 ∧ c.rdy = 0 ∧ ∀ i < 5, .settle ∉ c.sched (c.clock + i)

instance (c : Controller) : Decidable c.Starting := instDecidableAnd

theorem Controller.turns_starting (n : ℕ) (c : Controller) :
    ((Controller.turn^[n] c).en = 1 ∧ (Controller.turn^[n] c).rdy = 0) ↔
      c.en = 1 ∧ c.rdy = 0 ∧ ∀ i < n, .settle ∉ c.sched (c.clock + i) := by
  induction n generalizing c with
  | zero => exact ⟨fun h => ⟨h.1, h.2, fun i hi => absurd hi (Nat.not_lt_zero i)⟩, fun h => ⟨h.1, h.2.1⟩⟩
  | succ n ih =>
      have hclock : c.turn.clock = c.clock + 1 := rfl
      rw [Function.iterate_succ_apply, ih, c.later_turn.en, c.later_turn.sched, hclock, c.turn_rdy]
      constructor
      · rintro ⟨hen, hrdy, hall⟩
        have hset : .settle ∉ c.sched c.clock := by
          intro hs
          rw [if_pos hs, hen] at hrdy
          exact absurd hrdy (by decide)
        rw [if_neg hset] at hrdy
        refine ⟨hen, hrdy, fun i hi => ?_⟩
        cases i with
        | zero => exact hset
        | succ i =>
            have hs := hall i (Nat.lt_of_succ_lt_succ hi)
            rwa [Nat.add_assoc, Nat.add_comm 1 i] at hs
      · rintro ⟨hen, hrdy, hall⟩
        have hset : .settle ∉ c.sched c.clock := hall 0 (Nat.succ_pos n)
        rw [if_neg hset]
        refine ⟨hen, hrdy, fun i hi => ?_⟩
        rw [Nat.add_assoc, Nat.add_comm 1 i]
        exact hall (i + 1) (Nat.succ_lt_succ hi)

theorem Controller.created_disabled_faults (c : Controller) :
    c.created.disabled.faults = c.faults + if c.Starting then 1 else 0 := by
  have hfaults : c.created.faults = c.faults :=
    ((c.later_turn.trans c.turn.later_turn).trans c.turn.turn.later_turn).faults
  rw [Controller.disabled_faults, hfaults]
  exact congrArg (c.faults + ·) (if_congr (c.turns_starting 5) rfl rfl)

/-- **Bringing up a controller**, found in any state and acting in any way: the driver makes no forbidden
    write, but for clearing the enable bit of a controller that is still starting. If it returns, the
    controller is enabled and ready with the admin queue it was given, in pages of the size and with the
    doorbell stride it advertises; it gives up only on a controller that shows the wrong status, or
    advertises no time at all. -/
theorem admin_bring_up {sqbuf sqpa cqbuf cqpa : ℕ} (hsq : RingMemory sqpa) (hcq : RingMemory cqpa)
    (c : Controller) : wp (bringUp sqbuf sqpa cqbuf cqpa) c
      (fun r c' => c'.faults = c.faults + (if c.Starting then 1 else 0) ∧ c'.en = 1 ∧ c'.rdy = 1 ∧
        c'.setup = some ⟨64, 64, sqpa, cqpa, 12 + bits 48 4 (c.reg .cap), 6, 4⟩ ∧
        r.2 = ⟨0, 64, sqbuf, cqbuf, 0, 2 ^ bits 32 4 (c.reg .cap)⟩)
      (fun e c' => e = .adminq ∧ c'.faults = c.faults + (if c.Starting then 1 else 0) ∧
        (bits 24 8 (c.reg .cap) = 0 ∨ c'.rdy ≠ c'.en)) := by
  have hfaults := c.created_disabled_faults
  refine wp_mono (bringUp_spec hsq hcq c) ?_ ?_
  · rintro r c' ⟨rfl, hsetup⟩
    obtain ⟨hen, hrdy, hset⟩ := hsetup.ready rfl
    exact ⟨hsetup.faults.trans hfaults, hen, hrdy, hset, rfl⟩
  · rintro e c' ⟨rfl, hsetup⟩
    exact ⟨rfl, hsetup.faults.trans hfaults, hsetup.refused rfl⟩

/-- **When a controller is brought up**: it has to become idle within its time after it was disabled, and
    then to become ready within its time after it was enabled. -/
theorem brought_up_iff {sqbuf sqpa cqbuf cqpa : ℕ} (hsq : RingMemory sqpa) (hcq : RingMemory cqpa)
    (c : Controller) : (∃ r c', bringUp sqbuf sqpa cqbuf cqpa c = .ok r c') ↔
      ∃ i < bits 24 8 (c.reg .cap), c.created.disabled.FollowsAt i ∧
        ∃ j < bits 24 8 (c.reg .cap), .settle ∈ c.sched (c.clock + (i + 10) + j) := by
  have hspec : wp (bringUp sqbuf sqpa cqbuf cqpa) c _ _ := bringUp_spec hsq hcq c
  have hsched : c.created.sched = c.sched :=
    ((c.later_turn.trans c.turn.later_turn).trans c.turn.turn.later_turn).sched
  have htime : ∀ i, c.created.clock + (i + 7) = c.clock + (i + 10) := by
    intro i
    rw [show c.created.clock = c.clock + 3 from rfl]
    omega
  unfold wp at hspec
  cases hrun : bringUp sqbuf sqpa cqbuf cqpa c with
  | ok r c' =>
      rw [hrun] at hspec
      have hwhen := hspec.2.when
      simp only [hsched, htime] at hwhen
      exact ⟨fun _ => hwhen.1 trivial, fun _ => ⟨r, c', rfl⟩⟩
  | error e c' =>
      rw [hrun] at hspec
      have hwhen := hspec.2.when
      simp only [hsched, htime] at hwhen
      constructor
      · rintro ⟨r, c'', heq⟩
        cases heq
      · intro hex
        exact absurd (hwhen.2 hex) (by decide)

/-- A controller that follows the enable bit within any `n` turns. -/
def Controller.Prompt (c : Controller) (n : ℕ) : Prop :=
  ∀ t, ∃ i < n, .settle ∈ c.sched (t + i)

/-- A prompt controller is brought up, from whatever state. -/
theorem prompt_brought_up {sqbuf sqpa cqbuf cqpa : ℕ} (hsq : RingMemory sqpa) (hcq : RingMemory cqpa)
    (hp : c.Prompt (bits 24 8 (c.reg .cap))) :
    ∃ r c', bringUp sqbuf sqpa cqbuf cqpa c = .ok r c' := by
  rw [brought_up_iff hsq hcq]
  have hsched : c.created.disabled.sched = c.sched :=
    ((c.later_turn.trans c.turn.later_turn).trans (c.turn.turn.later_turn.trans
      (c.created.later_turn.trans c.created.turn.later_turn))).sched
  have hfirst : ∃ i < bits 24 8 (c.reg .cap), c.created.disabled.FollowsAt i := by
    obtain ⟨i, hi, hs⟩ := hp c.created.disabled.clock
    unfold Controller.FollowsAt
    by_cases hrdy : c.created.disabled.rdy = c.created.disabled.en
    · exact ⟨0, Nat.zero_lt_of_lt hi, by rw [if_pos hrdy]⟩
    · simp only [if_neg hrdy, hsched]
      have hex : ∃ k, .settle ∈ c.sched (c.created.disabled.clock + k) := ⟨i, hs⟩
      refine ⟨Nat.find hex, lt_of_le_of_lt (Nat.find_min' hex hs) hi, Nat.find_spec hex, ?_⟩
      exact fun k hk => Nat.find_min hex hk
  obtain ⟨i, hi, hfollows⟩ := hfirst
  exact ⟨i, hi, hfollows, hp _⟩

end

/-- A controller left enabled by a process that is gone, with other queues; it takes two turns for
    everything. -/
def sampleController : Controller where
  reg := fun
    | .cap => 2 * 2 ^ 24 + 255
    | .cc => 0x460001
    | .csts => 1
    | .aqa => 0x1f001f
    | _ => 0
  setup := none
  faults := 0
  sched := fun n => if n % 2 = 0 then [.status 6, .settle] else []
  clock := 0

/-- It is brought up with the new queue. -/
theorem admin_bring_up_sample : returns (bringUp 0 (2 ^ 20) 0 (2 ^ 20 + 4096)) sampleController
    (fun r c' => decide (c'.faults = 0 ∧ c'.en = 1 ∧ c'.rdy = 1 ∧
      c'.setup = some ⟨64, 64, 2 ^ 20, 2 ^ 20 + 4096, 12, 6, 4⟩ ∧ r.2 = ⟨0, 64, 0, 0, 0, 1⟩)) = true := by
  have hspec : wp (bringUp 0 (2 ^ 20) 0 (2 ^ 20 + 4096)) sampleController _ _ :=
    admin_bring_up ⟨by decide, by decide⟩ ⟨by decide, by decide⟩ sampleController
  have hret : returns (bringUp 0 (2 ^ 20) 0 (2 ^ 20 + 4096)) sampleController (fun _ _ => true) = true := by
    decide +kernel
  obtain ⟨r, c', hrun, -⟩ := returns_iff.1 hret
  refine returns_iff.2 ⟨r, c', hrun, decide_eq_true ?_⟩
  exact hspec.of_ok hrun

/-- Both waits see the status follow. -/
theorem brought_up_sample : ∃ i < 2, sampleController.created.disabled.FollowsAt i ∧
    ∃ j < 2, .settle ∈ sampleController.sched (i + 10 + j) := by
  have hret : returns (bringUp 0 (2 ^ 20) 0 (2 ^ 20 + 4096)) sampleController (fun _ _ => true) = true := by
    decide +kernel
  obtain ⟨r, c', hrun, -⟩ := returns_iff.1 hret
  have hcap : bits 24 8 (sampleController.reg .cap) = 2 := by decide
  have hboth : (∃ r c', bringUp 0 (2 ^ 20) 0 (2 ^ 20 + 4096) sampleController = .ok r c') ↔ _ :=
    brought_up_iff ⟨by decide, by decide⟩ ⟨by decide, by decide⟩ sampleController
  have hiff := hboth.1 ⟨r, c', hrun⟩
  rw [hcap, show sampleController.clock = 0 from rfl] at hiff
  simp only [Nat.zero_add] at hiff
  exact hiff

end Unvme.Nvme
