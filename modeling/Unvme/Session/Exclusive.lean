import Unvme.Session.Open

set_option autoImplicit false

/-! # Sessions are exclusive and in range

What `unvme_do_open` checks before it adds a session, and what follows for the sessions of a run. The
check for an open device looks only at the first session of the device in list order, and the two range
checks compare different integer types; `Op.Fits` is the condition on an open under which neither shows.
`sessions_exclusive` is the result for runs of such calls, and `nsid_opened_twice` a run of three opens
without it. -/

namespace Unvme.Session

open Unvme.Lib

/-- The session list is well formed, `xs` in list order, and every session has the PCI id and the
    namespace count of its device. -/
structure World.Wf (H : Host) (w : World) (xs : List ℕ) : Prop where
  head : w.unvmeSes = xs.head?
  ring : w.links.Ring xs
  alloc : ∀ x ∈ xs, x < w.nses
  dev : ∀ x ∈ xs, (w.session x).dev < w.ndev
  pci : ∀ x ∈ xs, (w.device (w.session x).dev).ns.pci = (w.session x).ns.pci
  devCount : ∀ x ∈ xs,
    (w.device (w.session x).dev).ns.nscount = (H.ctlr (w.session x).ns.pci).nn % 2 ^ 16
  count : ∀ x ∈ xs, (w.session x).ns.nscount = (H.ctlr (w.session x).ns.pci).nn % 2 ^ 16

/-- `w'` differs from `w` at most in the lock, the regions and the log. -/
structure World.SameSessions (w w' : World) : Prop where
  unvmeSes : w'.unvmeSes = w.unvmeSes
  links : w'.links = w.links
  session : w'.session = w.session
  nses : w'.nses = w.nses
  device : w'.device = w.device
  ndev : w'.ndev = w.ndev

/-- `w'` differs from `w` at most in the lock, the regions, the log, and the counts of the devices. -/
structure World.SameNs (w w' : World) : Prop where
  unvmeSes : w'.unvmeSes = w.unvmeSes
  links : w'.links = w.links
  session : w'.session = w.session
  nses : w'.nses = w.nses
  ns : ∀ d, (w'.device d).ns = (w.device d).ns
  ndev : w'.ndev = w.ndev

theorem World.SameSessions.sameNs {w w' : World} (h : w.SameSessions w') : w.SameNs w' :=
  ⟨h.unvmeSes, h.links, h.session, h.nses, fun d => by rw [h.device], h.ndev⟩

theorem World.SameNs.trans {w w' w'' : World} (h : w.SameNs w') (h' : w'.SameNs w'') : w.SameNs w'' :=
  ⟨h'.unvmeSes.trans h.unvmeSes, h'.links.trans h.links, h'.session.trans h.session,
    h'.nses.trans h.nses, fun d => (h'.ns d).trans (h.ns d), h'.ndev.trans h.ndev⟩

/-- A device with other counts. -/
theorem World.SameNs.device {w w' : World} {dev : ℕ} {d : Device}
    (hs : w.SameSessions { w' with device := w.device })
    (hdevice : w'.device = Function.update w.device dev d) (hd : d.ns = (w.device dev).ns) :
    w.SameNs w' := by
  refine ⟨hs.unvmeSes, hs.links, hs.session, hs.nses, ?_, hs.ndev⟩
  intro e
  rw [hdevice]
  by_cases he : e = dev
  · rw [he, Function.update_self, hd]
  · rw [Function.update_of_ne he]

theorem World.SameSessions.refl (w : World) : w.SameSessions w := ⟨rfl, rfl, rfl, rfl, rfl, rfl⟩

theorem World.SameSessions.sessions {w w' : World} (h : w.SameSessions w') :
    w'.sessions = w.sessions := by
  rw [World.sessions, h.links, h.unvmeSes, h.nses, World.sessions]

/-- The first open session of a PCI device. -/
def World.firstOf (w : World) (pci : ℤ) : Option ℕ :=
  w.sessions.find? (fun x => (w.session x).ns.pci == toU32 pci)

namespace World.Wf

variable {H : Host} {w w' : World} {xs : List ℕ}

theorem init (H : Host) : World.init.Wf H [] :=
  ⟨rfl, by simp, by simp, by simp, by simp, by simp, by simp⟩

theorem congrNs (h : w.Wf H xs) (hs : w.SameNs w') : w'.Wf H xs := by
  constructor
  · rw [hs.unvmeSes]; exact h.head
  · rw [hs.links]; exact h.ring
  · rw [hs.nses]; exact h.alloc
  · rw [hs.session, hs.ndev]; exact h.dev
  · intro x hx; rw [hs.session, hs.ns]; exact h.pci x hx
  · intro x hx; rw [hs.session, hs.ns]; exact h.devCount x hx
  · rw [hs.session]; exact h.count

theorem congr (h : w.Wf H xs) (hs : w.SameSessions w') : w'.Wf H xs := h.congrNs hs.sameNs

/-- A session that leaves the list. -/
theorem del (h : w.Wf H xs) {x : ℕ} (hx : x ∈ xs) :
    Wf H { w with
      unvmeSes := (listDel w.unvmeSes x w.links).1
      links := (listDel w.unvmeSes x w.links).2 } (xs.erase x) := by
  obtain ⟨as, bs, rfl⟩ := List.append_of_mem hx
  have hnot : x ∉ as := by
    intro ha
    exact (List.nodup_append.1 h.ring.1).2.2 x ha x (by simp) rfl
  have hsub : ∀ y ∈ (as ++ x :: bs).erase x, y ∈ as ++ x :: bs := fun y hy => List.mem_of_mem_erase hy
  have hdel := listDel_ring h.ring h.head
  rw [List.erase_append_right _ hnot, List.erase_cons_head] at hsub ⊢
  exact ⟨hdel.1, hdel.2, fun y hy => h.alloc y (hsub y hy), fun y hy => h.dev y (hsub y hy),
    fun y hy => h.pci y (hsub y hy), fun y hy => h.devCount y (hsub y hy),
    fun y hy => h.count y (hsub y hy)⟩

theorem length_le (h : w.Wf H xs) : xs.length ≤ w.nses :=
  h.ring.length_le h.alloc

theorem sessions_eq (h : w.Wf H xs) : w.sessions = xs :=
  ringNodes_eq h.ring h.head h.length_le

/-- The search ends, at the first session of the device. -/
theorem findPci (h : w.Wf H xs) (pci : ℤ) : w.findPci pci = some (w.firstOf pci) := by
  rw [World.firstOf, h.sessions_eq]
  unfold World.findPci
  rw [h.head]
  cases xs with
  | nil => rfl
  | cons x xs =>
      have hlen := h.length_le
      rw [List.length_cons] at hlen
      exact ringFind_eq_find h.ring (by omega)

theorem firstOf_mem (h : w.Wf H xs) {pci : ℤ} {x : ℕ} (hx : w.firstOf pci = some x) :
    x ∈ xs ∧ (w.session x).ns.pci = toU32 pci := by
  rw [World.firstOf, h.sessions_eq] at hx
  exact ⟨List.mem_of_find?_eq_some hx, by simpa using List.find?_some hx⟩

theorem firstOf_none (h : w.Wf H xs) {pci : ℤ} (hx : w.firstOf pci = none) :
    ∀ x ∈ xs, (w.session x).ns.pci ≠ toU32 pci := by
  rw [World.firstOf, h.sessions_eq] at hx
  intro x hm
  simpa using List.find?_eq_none.1 hx x hm

end World.Wf

/-! ## What the functions do -/

section

variable {H : Host} {w w' : World} {xs : List ℕ}

/-- Session `x` is new in `w'`, for namespace `nsid` of the device with this PCI id. -/
structure World.Adds (w w' : World) (xs : List ℕ) (x pci : ℕ) (nsid : ℤ) : Prop where
  fresh : x ∉ xs
  pci : (w'.session x).ns.pci = pci
  id : (w'.session x).ns.id = toU16 nsid
  others : ∀ y ∈ xs, w'.session y = w.session y

theorem createDevice_spec (h : w.Wf H xs) (c : Ctlr) (pci qcount : ℤ) :
    wp (createDevice c pci qcount) w
      (fun d w' => w'.Wf H xs ∧ d < w'.ndev ∧ (w'.device d).ns = ctlrNs c pci qcount ∧
        w'.session = w.session)
      (fun _ _ => True) := by
  unfold createDevice
  simp only [wp_bind, wp_get, wp_ite]
  split
  · simp only [wp_set, wp_pure]
    have hold : ∀ x ∈ xs, (w.session x).dev ≠ w.ndev := fun x hx => (h.dev x hx).ne
    refine ⟨⟨h.head, h.ring, h.alloc, ?_, ?_, ?_, h.count⟩, by simp, by simp, trivial⟩
    · intro x hx
      exact Nat.lt_succ_of_lt (h.dev x hx)
    · intro x hx
      simpa only [Function.update_of_ne (hold x hx)] using h.pci x hx
    · intro x hx
      simpa only [Function.update_of_ne (hold x hx)] using h.devCount x hx
  · trivial

theorem addSession_spec (h : w.Wf H xs) (c : Ctlr) {dev : ℕ} (nsid : ℤ) (hdev : dev < w.ndev)
    (hcount : (w.device dev).ns.nscount = (H.ctlr (w.device dev).ns.pci).nn % 2 ^ 16) :
    wp (addSession c dev nsid) w
      (fun x w' => w'.Wf H (xs ++ [x]) ∧ w.Adds w' xs x (w.device dev).ns.pci nsid)
      (fun _ _ => True) := by
  unfold addSession unvmeNsInit
  simp only [wp_bind, wp_get, wp_set]
  cases hid : c.identify (toU32 nsid) with
  | none => trivial
  | some idns =>
      simp only [wp_pure]
      have hfresh : w.nses ∉ xs := fun hx => lt_irrefl _ (h.alloc _ hx)
      have hne : ∀ y ∈ xs, y ≠ w.nses := fun y hy => (h.alloc y hy).ne
      have hadd := listAdd_ring h.ring h.head hfresh
      -- only the reference count of the device changes
      have hns : ∀ d, (Function.update w.device dev
          { w.device dev with refcount := (w.device dev).refcount + 1 } d).ns = (w.device d).ns := by
        intro d
        by_cases hd : d = dev
        · subst hd; simp
        · rw [Function.update_of_ne hd]
      refine ⟨⟨hadd.1, hadd.2, ?_, ?_, ?_, ?_, ?_⟩, ⟨hfresh, by simp, by simp, ?_⟩⟩
      · intro x hx
        rcases List.mem_append.1 hx with hx | hx
        · exact Nat.lt_succ_of_lt (h.alloc x hx)
        · rw [List.mem_singleton.1 hx]
          exact Nat.lt_succ_self _
      · intro x hx
        rcases List.mem_append.1 hx with hx | hx
        · simpa only [Function.update_of_ne (hne x hx)] using h.dev x hx
        · rw [List.mem_singleton.1 hx]
          simpa using hdev
      · intro x hx
        rcases List.mem_append.1 hx with hx | hx
        · simpa only [Function.update_of_ne (hne x hx), hns] using h.pci x hx
        · rw [List.mem_singleton.1 hx]
          simp
      · intro x hx
        rcases List.mem_append.1 hx with hx | hx
        · simpa only [Function.update_of_ne (hne x hx), hns] using h.devCount x hx
        · rw [List.mem_singleton.1 hx]
          simpa [hns] using hcount
      · intro x hx
        rcases List.mem_append.1 hx with hx | hx
        · simpa only [Function.update_of_ne (hne x hx)] using h.count x hx
        · rw [List.mem_singleton.1 hx]
          simpa using hcount
      · intro y hy
        simp [Function.update_of_ne (hne y hy)]

/-- The checks of `unvme_do_open`: against the first session of the device if it is open, else against
    the controller's identify page. -/
def World.Refuses (H : Host) (w : World) (pci nsid : ℤ) : Prop :=
  match w.firstOf pci with
  | some x => ((w.session x).ns.nscount : ℤ) < nsid ∨ ((w.session x).ns.id : ℤ) = nsid
  | none => (H.ctlr (toU32 pci)).nn < toU32 nsid

theorem unvmeLockw_spec (w : World) :
    wp unvmeLockw w (fun _ w' => w.SameSessions w') (fun _ _ => True) := by
  unfold unvmeLockw
  simp only [wp_bind, wp_get, wp_ite]
  split
  · exact ⟨rfl, rfl, rfl, rfl, rfl, rfl⟩
  · trivial

theorem unvmeUnlockw_spec (w : World) {X : Halt → World → Prop} :
    wp unvmeUnlockw w (fun _ w' => w.SameSessions w') X := ⟨rfl, rfl, rfl, rfl, rfl, rfl⟩

theorem openLog_spec (H : Host) (w : World) :
    wp (openLog H) w (fun _ w' => w.SameSessions w') (fun _ _ => True) := by
  unfold openLog logOpen
  simp only [wp_bind, wp_get, wp_ite]
  split
  · split
    · exact ⟨rfl, rfl, rfl, rfl, rfl, rfl⟩
    · trivial
  · exact World.SameSessions.refl w

theorem vfioCreate_spec (w : World) {X : Halt → World → Prop} :
    wp vfioCreate w (fun _ w' => w.SameSessions w') X := ⟨rfl, rfl, rfl, rfl, rfl, rfl⟩

theorem World.SameSessions.trans {w w' w'' : World} (h : w.SameSessions w')
    (h' : w'.SameSessions w'') : w.SameSessions w'' :=
  ⟨h'.unvmeSes.trans h.unvmeSes, h'.links.trans h.links, h'.session.trans h.session,
    h'.nses.trans h.nses, h'.device.trans h.device, h'.ndev.trans h.ndev⟩

theorem World.SameSessions.firstOf {w w' : World} (h : w.SameSessions w') (pci : ℤ) :
    w'.firstOf pci = w.firstOf pci := by
  rw [World.firstOf, h.sessions, h.session, World.firstOf]

/-- **`unvme_do_open`.** It returns NULL if it refuses, and else a new session. -/
theorem unvmeDoOpen_spec (h : w.Wf H xs) (pci nsid qcount qsize : ℤ) :
    wp (unvmeDoOpen H pci nsid qcount qsize) w
      (fun r w' => (r = none ∧ w.Refuses H pci nsid ∧ w.SameSessions w') ∨
        ∃ x, r = some x ∧ ¬ w.Refuses H pci nsid ∧ w'.Wf H (xs ++ [x]) ∧
          w.Adds w' xs x (toU32 pci) nsid)
      (fun _ _ => True) := by
  unfold unvmeDoOpen
  refine wp_bind_of (unvmeLockw_spec w) ?_
  intro _ w₁ hs₁
  refine wp_bind_of (openLog_spec H w₁) ?_
  intro _ w₂ hs₂
  have hs := hs₁.trans hs₂
  have h₂ := h.congr hs
  rw [wp_bind, wp_get, h₂.findPci pci, hs.firstOf pci]
  unfold World.Refuses
  cases hfirst : w.firstOf pci with
  | some x =>
      obtain ⟨hx, hpci⟩ := h.firstOf_mem hfirst
      simp only [hs.session, wp_ite]
      split
      · next hlt => exact Or.inl ⟨rfl, Or.inl hlt, hs⟩
      split
      · next hid => exact Or.inl ⟨rfl, Or.inr hid, hs⟩
      · next hlt hid =>
          have hdev : (w.session x).dev < w₂.ndev := by rw [hs.ndev]; exact h.dev x hx
          have hcount : (w₂.device (w.session x).dev).ns.nscount
              = (H.ctlr (w₂.device (w.session x).dev).ns.pci).nn % 2 ^ 16 := by
            rw [hs.device, h.devCount x hx, h.pci x hx]
          refine wp_bind_of (addSession_spec h₂ _ nsid hdev hcount) ?_
          intro y w₃ hy
          refine wp_bind_of (unvmeUnlockw_spec w₃) ?_
          intro _ w₄ hs₄
          refine Or.inr ⟨y, rfl, by tauto, hy.1.congr hs₄, hy.2.fresh, ?_, ?_, ?_⟩
          · rw [hs₄.session, hy.2.pci, hs.device, h.pci x hx, hpci]
          · rw [hs₄.session, hy.2.id]
          · intro z hz
            rw [hs₄.session, hy.2.others z hz, hs.session]
  | none =>
      refine wp_bind_of (vfioCreate_spec w₂) ?_
      intro _ w₂' hs₂'
      replace hs := hs.trans hs₂'
      replace h₂ := h.congr hs
      simp only [wp_ite]
      split
      · trivial
      split
      · next hlt => exact Or.inl ⟨rfl, hlt, hs⟩
      · next hlt =>
          refine wp_bind_of (createDevice_spec h₂ _ pci qcount) ?_
          intro d w₃ hd
          obtain ⟨h₃, hdlt, hns, hses⟩ := hd
          have hcount : (w₃.device d).ns.nscount
              = (H.ctlr (w₃.device d).ns.pci).nn % 2 ^ 16 := by
            rw [hns]; rfl
          refine wp_bind_of (addSession_spec h₃ _ nsid hdlt hcount) ?_
          intro y w₄ hy
          refine wp_bind_of (unvmeUnlockw_spec w₄) ?_
          intro _ w₅ hs₅
          refine Or.inr ⟨y, rfl, hlt, hy.1.congr hs₅, hy.2.fresh, ?_, ?_, ?_⟩
          · rw [hs₅.session, hy.2.pci, hns]; rfl
          · rw [hs₅.session, hy.2.id]
          · intro z hz
            rw [hs₅.session, hy.2.others z hz, hses, hs.session]

theorem deleteDevice_spec (w : World) (dev : ℕ) :
    wp (deleteDevice dev) w (fun _ w' => w.SameNs w') (fun _ _ => True) := by
  unfold deleteDevice deleteQueues vfioDelete
  simp only [wp_bind, wp_get, wp_ite, wp_pure, wp_set, wp_throw, wp_modify]
  split
  · split
    · exact World.SameNs.device ⟨rfl, rfl, rfl, rfl, rfl, rfl⟩ rfl rfl
    · trivial
  · trivial

theorem logClose_spec (w : World) {X : Halt → World → Prop} :
    wp logClose w (fun _ w' => w.SameSessions w') X := by
  unfold logClose
  simp only [wp_modify]
  split <;> exact ⟨rfl, rfl, rfl, rfl, rfl, rfl⟩

theorem putDevice_spec (w : World) (dev : ℕ) :
    wp (putDevice dev) w (fun _ w' => w.SameNs w') (fun _ _ => True) := by
  unfold putDevice
  simp only [wp_bind, wp_get, wp_set, wp_ite, wp_pure]
  have hcount : w.SameNs { w with
      device := Function.update w.device dev
        { w.device dev with refcount := (w.device dev).refcount - 1 } } :=
    World.SameNs.device ⟨rfl, rfl, rfl, rfl, rfl, rfl⟩ rfl rfl
  split
  · exact wp_mono (deleteDevice_spec _ _) (fun _ _ hs => hcount.trans hs) (fun _ _ ht => ht)
  · exact hcount

/-- Only the counts of a device change when a session leaves it. -/
theorem unvmeCleanup_spec (h : w.Wf H xs) {x : ℕ} (hx : x ∈ xs) :
    wp (unvmeCleanup x) w (fun _ w' => w'.Wf H (xs.erase x) ∧ w'.session = w.session)
      (fun _ _ => True) := by
  unfold unvmeCleanup
  rw [wp_bind, wp_get]
  refine wp_bind_of (putDevice_spec w _) ?_
  intro _ w₁ hs
  have h₁ := (h.congrNs hs).del hx
  simp only [wp_bind, wp_modify, wp_get, wp_ite, wp_pure]
  split
  · refine wp_mono (logClose_spec (X := fun _ _ => True) _) ?_ (fun _ _ ht => ht)
    intro _ w₂ hs₂
    exact ⟨h₁.congr hs₂, hs₂.session.trans hs.session⟩
  · exact ⟨h₁, hs.session⟩

/-- **`unvme_do_close`.** It removes the session, unless the PCI id does not match. -/
theorem unvmeDoClose_spec (h : w.Wf H xs) {x : ℕ} (hx : x ∈ xs) :
    wp (unvmeDoClose x) w
      (fun r w' => w'.session = w.session ∧
        (r = 0 ∧ w'.Wf H (xs.erase x) ∨ r = -1 ∧ w'.Wf H xs))
      (fun _ _ => True) := by
  unfold unvmeDoClose
  simp only [wp_bind, wp_get, wp_ite, wp_pure]
  split
  · exact ⟨trivial, Or.inr ⟨trivial, h⟩⟩
  · refine wp_mono (unvmeLockw_spec w) ?_ (fun _ _ ht => ht)
    intro _ w₁ hs₁
    refine wp_mono (unvmeCleanup_spec (h.congr hs₁) hx) ?_ (fun _ _ ht => ht)
    intro _ w₂ hw₂
    refine wp_mono (unvmeUnlockw_spec (X := fun _ _ => True) w₂) ?_ (fun _ _ ht => ht)
    intro _ w₃ hs₃
    exact ⟨by rw [hs₃.session, hw₂.2, hs₁.session], Or.inl ⟨trivial, hw₂.1.congr hs₃⟩⟩

end

/-! ## Runs -/

/-- A call of the library. -/
inductive Op where
  | openq (pciname : String) (qcount qsize : ℤ)
  | close (x : ℕ)

def Op.run (H : Host) : Op → SesM Unit
  | .openq pciname qcount qsize => do
      let _ ← unvmeOpenq H pciname qcount qsize
      pure ()
  | .close x => do
      let _ ← unvmeClose x
      pure ()

/-- The states reached by calls that satisfy `L` and return. -/
inductive Run (H : Host) (L : World → Op → Prop) : World → Prop
  | nil : Run H L World.init
  | call {w w' : World} (h : Run H L w) (op : Op) (hl : L w op) (hr : op.run H w = .ok () w') :
      Run H L w'

/-- No two sessions are of the same namespace, and every namespace id is one of its controller's. -/
structure World.Exclusive (H : Host) (w : World) : Prop where
  unique : ∀ x ∈ w.sessions, ∀ y ∈ w.sessions, (w.session x).ns.pci = (w.session y).ns.pci →
    (w.session x).ns.id = (w.session y).ns.id → x = y
  range : ∀ x ∈ w.sessions, 1 ≤ (w.session x).ns.id ∧
    (w.session x).ns.id ≤ (H.ctlr (w.session x).ns.pci).nn

/-- Session `x` is of namespace `nsid` of this PCI device. -/
def World.Holds (w : World) (x : ℕ) (pci nsid : ℤ) : Prop :=
  (w.session x).ns.pci = toU32 pci ∧ ((w.session x).ns.id : ℤ) = nsid

/-- The rule: the namespace exists and no session of it is open. -/
def World.Admissible (H : Host) (w : World) (pci nsid : ℤ) : Prop :=
  1 ≤ nsid ∧ nsid ≤ (H.ctlr (toU32 pci)).nn ∧ ∀ x ∈ w.sessions, ¬ w.Holds x pci nsid

/-- The opens that the checks get right. On a device that is not open, the namespace id as `u32` is
    above the controller's count or fits into 16 bits and is not 0. On one that is open, it is at least
    1, is not between the low 16 bits of the count and the count, and is in use by no session of the
    device but its first. -/
def World.Fits (H : Host) (w : World) (pci nsid : ℤ) : Prop :=
  match w.firstOf pci with
  | none => (H.ctlr (toU32 pci)).nn < toU32 nsid ∨ 1 ≤ toU32 nsid ∧ toU32 nsid < 2 ^ 16
  | some x => 1 ≤ nsid ∧
      (nsid ≤ ((H.ctlr (toU32 pci)).nn % 2 ^ 16 : ℕ) ∨ (H.ctlr (toU32 pci)).nn < nsid) ∧
      ∀ y ∈ w.sessions, w.Holds y pci nsid → y = x

/-- Calls that satisfy `World.Fits`, and closes of open sessions. -/
def Op.Fits (H : Host) (w : World) : Op → Prop
  | .openq pciname _ _ => ∀ pci nsid, parsePciName pciname = some (pci, nsid) → w.Fits H pci nsid
  | .close x => x ∈ w.sessions

section

variable {H : Host} {w w' : World} {xs : List ℕ}

theorem toU32_of_pos {nsid : ℤ} (h0 : 0 ≤ nsid) (h1 : nsid < 2 ^ 31) : (toU32 nsid : ℤ) = nsid := by
  unfold toU32
  omega

theorem eq_toU32_of_small {nsid : ℤ} (h0 : -2 ^ 31 ≤ nsid) (h1 : nsid < 2 ^ 31)
    (h : toU32 nsid < 2 ^ 16) : nsid = toU32 nsid := by
  unfold toU32 at *
  omega

/-- **For an open that fits, the checks are the rule**, whether or not the device is open. -/
theorem World.Fits.refuses_iff (h : w.Wf H xs) {pci nsid : ℤ} (hlo : -2 ^ 31 ≤ nsid)
    (hhi : nsid < 2 ^ 31) (hf : w.Fits H pci nsid) :
    w.Refuses H pci nsid ↔ ¬ w.Admissible H pci nsid := by
  unfold World.Fits at hf
  unfold World.Refuses World.Admissible
  rw [h.sessions_eq] at *
  cases hfirst : w.firstOf pci with
  | none =>
      rw [hfirst] at hf
      dsimp only at hf ⊢
      have hnone := h.firstOf_none hfirst
      constructor
      · intro hlt hadm
        have := toU32_of_pos (by omega) hhi
        omega
      · intro hadm
        by_contra hle
        have hsmall : toU32 nsid < 2 ^ 16 := by omega
        have hnsid := eq_toU32_of_small hlo hhi hsmall
        exact hadm ⟨by omega, by omega, fun x hx hh => hnone x hx hh.1⟩
  | some x =>
      rw [hfirst] at hf
      obtain ⟨hpos, hrange, honly⟩ := hf
      obtain ⟨hx, hpci⟩ := h.firstOf_mem hfirst
      have hcount := h.count x hx
      rw [hpci] at hcount
      dsimp only
      constructor
      · intro hr hadm
        rcases hr with hr | hr
        · rw [hcount] at hr
          omega
        · exact hadm.2.2 x hx ⟨hpci, hr⟩
      · intro hadm
        by_contra hnot
        rw [not_or, hcount] at hnot
        have hle := Nat.mod_le (H.ctlr (toU32 pci)).nn (2 ^ 16)
        refine hadm ⟨hpos, by omega, fun y hy hh => ?_⟩
        rw [honly y hy hh] at hh
        exact hnot.2 hh.2

/-- A session that is added by the rule keeps the sessions exclusive. -/
theorem World.Exclusive.add (h : w.Wf H xs) (he : w.Exclusive H) {x : ℕ} {pci nsid : ℤ}
    (h' : w'.Wf H (xs ++ [x])) (ha : w.Adds w' xs x (toU32 pci) nsid)
    (hadm : w.Admissible H pci nsid) (hsmall : nsid < 2 ^ 16) : w'.Exclusive H := by
  obtain ⟨hpos, hle, hfree⟩ := hadm
  have hid : ((w'.session x).ns.id : ℤ) = nsid := by
    rw [ha.id]
    unfold toU16
    omega
  have hnew : ∀ y ∈ xs, (w'.session y).ns.pci = toU32 pci →
      (w'.session y).ns.id ≠ (w'.session x).ns.id := by
    intro y hy hp hi
    refine hfree y (by rw [h.sessions_eq]; exact hy) ⟨?_, ?_⟩
    · rw [← ha.others y hy]; exact hp
    · rw [← ha.others y hy, hi]; exact hid
  constructor
  · intro y hy z hz hp hi
    rw [h'.sessions_eq] at hy hz
    rcases List.mem_append.1 hy with hy | hy <;> rcases List.mem_append.1 hz with hz | hz
    · rw [ha.others y hy, ha.others z hz] at hp hi
      rw [← h.sessions_eq] at hy hz
      exact he.unique y hy z hz hp hi
    · rw [List.mem_singleton.1 hz] at hp hi
      exact absurd hi (hnew y hy (hp.trans ha.pci))
    · rw [List.mem_singleton.1 hy] at hp hi
      exact absurd hi.symm (hnew z hz (hp.symm.trans ha.pci))
    · rw [List.mem_singleton.1 hy, List.mem_singleton.1 hz]
  · intro y hy
    rw [h'.sessions_eq] at hy
    rcases List.mem_append.1 hy with hy | hy
    · rw [ha.others y hy]
      exact he.range y (by rw [h.sessions_eq]; exact hy)
    · rw [List.mem_singleton.1 hy, ha.pci]
      omega

/-- An admissible namespace id that fits is stored without loss. -/
theorem World.Fits.small {pci nsid : ℤ} (hf : w.Fits H pci nsid) (hhi : nsid < 2 ^ 31)
    (hadm : w.Admissible H pci nsid) : nsid < 2 ^ 16 := by
  have hpos := hadm.1
  have hle := hadm.2.1
  have hnsid := toU32_of_pos (by omega) hhi
  unfold World.Fits at hf
  cases hfirst : w.firstOf pci with
  | none =>
      rw [hfirst] at hf
      dsimp only at hf
      omega
  | some x =>
      rw [hfirst] at hf
      have := hf.2.1
      omega

/-- A call of `unvme_openq` that returns was turned away before `unvme_do_open`, or is one of it. -/
theorem unvmeOpenq_cases {pciname : String} {qcount qsize : ℤ} {r : Option ℕ}
    (h : unvmeOpenq H pciname qcount qsize w = .ok r w') :
    (r = none ∧ w' = w ∧ (qcount < 0 ∨ qsize < 0 ∨ qsize = 1 ∨ parsePciName pciname = none)) ∨
      ∃ pci nsid, parsePciName pciname = some (pci, nsid) ∧
        unvmeDoOpen H pci nsid qcount qsize w = .ok r w' := by
  unfold unvmeOpenq at h
  split at h
  · next hbad =>
      cases h
      exact Or.inl ⟨rfl, rfl, by tauto⟩
  · cases hp : parsePciName pciname with
    | none =>
        rw [hp] at h
        cases h
        exact Or.inl ⟨rfl, rfl, by tauto⟩
    | some v =>
        rw [hp] at h
        exact Or.inr ⟨v.1, v.2, rfl, h⟩

theorem World.Exclusive.congr (he : w.Exclusive H) (hs : w.SameSessions w') : w'.Exclusive H := by
  constructor
  · rw [hs.sessions, hs.session]; exact he.unique
  · rw [hs.sessions, hs.session]; exact he.range

/-- **One call keeps the sessions exclusive.** -/
theorem Op.Fits.preserves (h : w.Wf H xs) (he : w.Exclusive H) {op : Op} (hf : op.Fits H w)
    (hr : op.run H w = .ok () w') : ∃ ys, w'.Wf H ys ∧ w'.Exclusive H := by
  cases op with
  | openq pciname qcount qsize =>
      obtain ⟨r, w₁, hopen, hpure⟩ := bind_eq_ok hr
      cases hpure
      rcases unvmeOpenq_cases hopen with ⟨-, rfl, -⟩ | ⟨pci, nsid, hp, hdo⟩
      · exact ⟨xs, h, he⟩
      · have hfit : w.Fits H pci nsid := hf pci nsid hp
        obtain ⟨hlo, hhi⟩ := parsePciName_nsid hp
        rcases (unvmeDoOpen_spec h pci nsid qcount qsize).of_ok hdo with
          ⟨-, -, hs⟩ | ⟨x, -, hacc, hwf, hadds⟩
        · exact ⟨xs, h.congr hs, he.congr hs⟩
        · have hadm : w.Admissible H pci nsid := by
            by_contra hno
            exact hacc ((hfit.refuses_iff h hlo hhi).2 hno)
          exact ⟨xs ++ [x], hwf, he.add h hwf hadds hadm (hfit.small hhi hadm)⟩
  | close x =>
      obtain ⟨r, w₁, hclose, hpure⟩ := bind_eq_ok hr
      cases hpure
      have hx : x ∈ xs := by rw [← h.sessions_eq]; exact hf
      obtain ⟨hses, hcase⟩ := (unvmeDoClose_spec h hx).of_ok hclose
      obtain ⟨ys, hwf, hsub⟩ : ∃ ys, w'.Wf H ys ∧ ∀ y ∈ ys, y ∈ xs := by
        rcases hcase with ⟨-, hwf⟩ | ⟨-, hwf⟩
        · exact ⟨_, hwf, fun y hy => List.mem_of_mem_erase hy⟩
        · exact ⟨_, hwf, fun y hy => hy⟩
      refine ⟨ys, hwf, ?_, ?_⟩
      · intro y hy z hz
        rw [hwf.sessions_eq] at hy hz
        rw [hses]
        refine he.unique y ?_ z ?_
        · rw [h.sessions_eq]; exact hsub y hy
        · rw [h.sessions_eq]; exact hsub z hz
      · intro y hy
        rw [hwf.sessions_eq] at hy
        rw [hses]
        exact he.range y (by rw [h.sessions_eq]; exact hsub y hy)

theorem Run.exclusive (hrun : Run H (fun w op => op.Fits H w) w) :
    ∃ xs, w.Wf H xs ∧ w.Exclusive H := by
  induction hrun with
  | nil => exact ⟨[], World.Wf.init H, ⟨nofun, nofun⟩⟩
  | call _ op hl hr ih =>
      obtain ⟨xs, hwf, he⟩ := ih
      exact hl.preserves hwf he hr

end

/-- **Namespace sessions are exclusive and in range**, in every state reached by calls that fit, and an
    open that fits is refused by one rule, whether or not the device is open. -/
theorem sessions_exclusive {H : Host} {w : World} (hrun : Run H (fun w op => op.Fits H w) w) :
    w.Exclusive H ∧
      ∀ pciname qcount qsize pci nsid r w', 0 ≤ qcount → 0 ≤ qsize → qsize ≠ 1 →
        parsePciName pciname = some (pci, nsid) → w.Fits H pci nsid →
        unvmeOpenq H pciname qcount qsize w = .ok r w' →
        (r = none ↔ ¬ w.Admissible H pci nsid) := by
  obtain ⟨xs, h, he⟩ := hrun.exclusive
  refine ⟨he, ?_⟩
  intro pciname qcount qsize pci nsid r w' hq hs h1 hp hf hopen
  obtain ⟨hlo, hhi⟩ := parsePciName_nsid hp
  rw [← hf.refuses_iff h hlo hhi]
  rcases unvmeOpenq_cases hopen with ⟨-, -, hbad⟩ | ⟨pci', nsid', hp', hdo⟩
  · rw [hp] at hbad
    rcases hbad with hb | hb | hb | hb
    · omega
    · omega
    · exact absurd hb h1
    · cases hb
  · rw [hp] at hp'
    cases hp'
    rcases (unvmeDoOpen_spec h pci nsid qcount qsize).of_ok hdo with
      ⟨rfl, href, -⟩ | ⟨x, rfl, hacc, -⟩
    · exact ⟨fun _ => href, fun _ => rfl⟩
    · exact ⟨nofun, fun href => absurd href hacc⟩

/-- Every PCI device has a controller with four namespaces of 512-byte blocks. -/
def sampleHost : Host where
  ctlr := fun _ => ⟨256, 12, 4, 0, 0, 0, true, fun _ => true, fun _ => some ⟨1000, 9⟩⟩
  log := true

/-- The state after opening these names one after the other. -/
def opened (names : List String) : World :=
  names.foldl (fun w name => final (Op.run sampleHost (.openq name 0 0)) w) World.init

theorem Run.openName {L : World → Op → Prop} (names : List String)
    (h : Run sampleHost L (opened names)) (name : String) (hl : L (opened names) (.openq name 0 0))
    (hr : returns (Op.run sampleHost (.openq name 0 0)) (opened names) (fun _ _ => true) = true) :
    Run sampleHost L (opened (names ++ [name])) := by
  have heq : opened (names ++ [name])
      = final (Op.run sampleHost (.openq name 0 0)) (opened names) := by
    simp only [opened, List.foldl_append, List.foldl_cons, List.foldl_nil]
  rw [heq]
  refine h.call (.openq name 0 0) hl (eq_ok_of_returns ?_)
  obtain ⟨a, s', hs, -⟩ := returns_iff.1 hr
  exact returns_iff.2 ⟨a, s', hs, decide_eq_true (Subsingleton.elim a ())⟩

/-- With namespaces 1 and 2 open, the first one is refused and the third is not. -/
theorem sessions_exclusive_two :
    (opened ["b3:00.0/1", "b3:00.0/2"]).sessions = [0, 1] ∧
      (opened ["b3:00.0/1", "b3:00.0/2"]).Exclusive sampleHost ∧
      ∀ r w', unvmeOpenq sampleHost "b3:00.0/1" 0 0 (opened ["b3:00.0/1", "b3:00.0/2"]) = .ok r w' →
        r = none := by
  have hp1 : parsePciName "b3:00.0/1" = some (0xb30000, 1) := by decide +kernel
  have hp2 : parsePciName "b3:00.0/2" = some (0xb30000, 2) := by decide +kernel
  have hf0 : (opened []).Fits sampleHost 0xb30000 1 := Or.inr (by decide)
  have hfirst1 : (opened ["b3:00.0/1"]).firstOf 0xb30000 = some 0 := by decide +kernel
  have hf1 : (opened ["b3:00.0/1"]).Fits sampleHost 0xb30000 2 := by
    unfold World.Fits
    rw [hfirst1]
    exact ⟨by decide, Or.inl (by decide), by unfold World.Holds; decide +kernel⟩
  have hfirst2 : (opened ["b3:00.0/1", "b3:00.0/2"]).firstOf 0xb30000 = some 0 := by decide +kernel
  have hf2 : (opened ["b3:00.0/1", "b3:00.0/2"]).Fits sampleHost 0xb30000 1 := by
    unfold World.Fits
    rw [hfirst2]
    exact ⟨by decide, Or.inl (by decide), by unfold World.Holds; decide +kernel⟩
  have hrun1 : Run sampleHost (fun w op => op.Fits sampleHost w) (opened ["b3:00.0/1"]) := by
    refine Run.nil.openName [] "b3:00.0/1" ?_ (by decide +kernel)
    intro pci nsid hp
    rw [hp1] at hp
    cases hp
    exact hf0
  have hrun2 : Run sampleHost (fun w op => op.Fits sampleHost w)
      (opened ["b3:00.0/1", "b3:00.0/2"]) := by
    refine hrun1.openName _ "b3:00.0/2" ?_ (by decide +kernel)
    intro pci nsid hp
    rw [hp2] at hp
    cases hp
    exact hf1
  obtain ⟨he, hrule⟩ := sessions_exclusive hrun2
  refine ⟨by decide +kernel, he, ?_⟩
  intro r w' hopen
  refine (hrule _ _ _ _ _ r w' (by decide) (by decide) (by decide) hp1 hf2 hopen).2 ?_
  intro hadm
  exact hadm.2.2 0 (by decide +kernel) (by unfold World.Holds; decide +kernel)

/-- Closes are of open sessions. -/
def Op.Legal (w : World) : Op → Prop
  | .openq _ _ _ => True
  | .close x => x ∈ w.sessions

/-- Namespace 2 is opened twice: the second time the check compares it with namespace 1 only. -/
theorem nsid_opened_twice :
    Run sampleHost (fun w op => op.Legal w) (opened ["b3:00.0/1", "b3:00.0/2", "b3:00.0/2"]) ∧
      ¬ (opened ["b3:00.0/1", "b3:00.0/2", "b3:00.0/2"]).Exclusive sampleHost := by
  have hrun1 := (Run.nil (H := sampleHost) (L := fun w op => op.Legal w)).openName []
    "b3:00.0/1" trivial (by decide +kernel)
  have hrun2 := hrun1.openName _ "b3:00.0/2" trivial (by decide +kernel)
  have hrun3 := hrun2.openName _ "b3:00.0/2" trivial (by decide +kernel)
  refine ⟨hrun3, ?_⟩
  intro he
  have h12 := he.unique 1 (by decide +kernel) 2 (by decide +kernel) (by decide +kernel)
    (by decide +kernel)
  exact absurd h12 (by decide)

end Unvme.Session
