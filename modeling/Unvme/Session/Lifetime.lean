import Unvme.Session.FailedOpen

set_option autoImplicit false

/-! # Device lifetime

A device context lives from the first open of its PCI id to the close of its last session. The state
after a successful open (`World.Opened`) and after a close (`World.closed`) is written out once, as
what the function has changed; `World.Life` is the invariant of a run of such calls.

The DMA region and the registers that the last close of a device gives back are those that were mapped
last. They are its own as long as no other device is opened beside it: `World.OneRegion` is the invariant
of such runs, `device_lifetimes` the result, and `queues_unmapped` a run with two devices. -/

namespace Unvme.Session

open Unvme.Lib

/-! ## What a call changes -/

/-- The attributes of namespace `nsid` on a device with attributes `ns`. -/
def initNs (ns : UnvmeNs) (nsid : ℤ) (idns : IdNs) : UnvmeNs :=
  let bpshift := toU16 (ns.pageshift - idns.lbads)
  { ns with
    id := toU16 nsid
    maxiopq := toU16 (ns.qsize - 1)
    blockcount := idns.ncap
    blockshift := idns.lbads
    blocksize := 2 ^ idns.lbads % 2 ^ 16
    bpshift := bpshift
    nbpp := 2 ^ bpshift % 2 ^ 16
    pagecount := idns.ncap >>> bpshift
    maxbpio := (ns.maxppio <<< bpshift) % 2 ^ 16
    device := ns.device ++ "/" ++ toString nsid }

theorem unvmeNsInit_eq (c : Ctlr) (ns : UnvmeNs) (nsid : ℤ) :
    unvmeNsInit c ns nsid =
      match c.identify (toU32 nsid) with
      | none => throw .fatal
      | some idns => pure (initNs ns nsid idns) := rfl

/-- How the devices change when a session of this PCI id is opened: the device of its first session
    gets another reference, or a new device is created, in a new region. -/
def World.OpensDevice (H : Host) (w w' : World) (pci qcount : ℤ) (dev : ℕ) : Prop :=
  match w.firstOf pci with
  | some y => dev = (w.session y).dev ∧ w'.ndev = w.ndev ∧
      w'.device = Function.update w.device dev
        { w.device dev with refcount := (w.device dev).refcount + 1 } ∧
      w'.vemva = w.vemva ∧ w'.mapped = w.mapped
  | none => dev = w.ndev ∧ w'.ndev = w.ndev + 1 ∧
      w'.device = Function.update w.device dev
        ⟨pci, 1, ctlrNs (H.ctlr (toU32 pci)) pci qcount, w.vemva + 1, 0⟩ ∧
      w'.vemva = w.vemva + 1 ∧ w'.mapped = Function.update w.mapped (w.vemva + 1) true

/-- `w'` is the state after a successful open in `w`, of namespace `nsid`. -/
structure World.Opened (H : Host) (w w' : World) (pci nsid qcount : ℤ) (x dev : ℕ) (idns : IdNs) :
    Prop where
  lock : w'.lock = 0
  fresh : x = w.nses
  nses : w'.nses = w.nses + 1
  list : (w'.unvmeSes, w'.links) = listAdd w.unvmeSes x w.links
  devices : w.OpensDevice H w' pci qcount dev
  identify : (H.ctlr (toU32 pci)).identify (toU32 nsid) = some idns
  session : w'.session = Function.update w.session x ⟨dev, initNs (w'.device dev).ns nsid idns⟩
  logOpen : w'.logOpen = if w.unvmeSes = none then true else w.logOpen
  logCount : w'.logCount = if w.unvmeSes = none then w.logCount + 1 else w.logCount

/-- The state when a session of device `dev` has left it in `w`. -/
def World.left (w : World) (dev : ℕ) : World :=
  let d := w.device dev
  { w with
    device := Function.update w.device dev { d with
      refcount := d.refcount - 1, deleted := if d.refcount - 1 = 0 then d.deleted + 1 else d.deleted }
    mapped := if d.refcount - 1 = 0 then Function.update w.mapped w.vemva false else w.mapped }

/-- The state after the close of session `x` in `w`. -/
def World.closed (w : World) (x : ℕ) : World :=
  let deleted := listDel w.unvmeSes x w.links
  { w.left (w.session x).dev with
    lock := 0
    unvmeSes := deleted.1
    links := deleted.2
    logOpen := if deleted.1 = none ∧ 0 < w.logCount then w.logOpen && w.logCount != 1 else w.logOpen
    logCount := if deleted.1 = none ∧ 0 < w.logCount then w.logCount - 1 else w.logCount }

/-- Why a session does not leave device `dev`: it is the last one, and the memory of the queues, or what
    is to be given back, is not mapped. -/
def World.LeaveFails (w : World) (dev : ℕ) (e : Halt) : Prop :=
  (w.device dev).refcount - 1 = 0 ∧
    (e = .segv ∧ w.mapped (w.device dev).region = false ∨ e = .fatal ∧ w.mapped w.vemva = false)

section

variable {H : Host} {w w' : World} {xs : List ℕ}

theorem addSession_ok {c : Ctlr} {dev : ℕ} {nsid : ℤ} {x : ℕ}
    (hr : addSession c dev nsid w = .ok x w') :
    ∃ idns, c.identify (toU32 nsid) = some idns ∧ x = w.nses ∧
      w' = { w with
        device := Function.update w.device dev
          { w.device dev with refcount := (w.device dev).refcount + 1 }
        session := Function.update w.session w.nses ⟨dev, initNs (w.device dev).ns nsid idns⟩
        nses := w.nses + 1
        unvmeSes := (listAdd w.unvmeSes w.nses w.links).1
        links := (listAdd w.unvmeSes w.nses w.links).2 } := by
  have hwp : wp (addSession c dev nsid) w (fun x w' => ∃ idns,
      c.identify (toU32 nsid) = some idns ∧ x = w.nses ∧
      w' = { w with
        device := Function.update w.device dev
          { w.device dev with refcount := (w.device dev).refcount + 1 }
        session := Function.update w.session w.nses ⟨dev, initNs (w.device dev).ns nsid idns⟩
        nses := w.nses + 1
        unvmeSes := (listAdd w.unvmeSes w.nses w.links).1
        links := (listAdd w.unvmeSes w.nses w.links).2 }) (fun _ _ => True) := by
    unfold addSession
    simp only [wp_bind, wp_get, wp_set, unvmeNsInit_eq]
    cases c.identify (toU32 nsid) with
    | none => trivial
    | some idns => exact ⟨idns, rfl, rfl, rfl⟩
  exact hwp.of_ok hr

theorem createDevice_ok {c : Ctlr} {pci qcount : ℤ} {dev : ℕ}
    (hr : createDevice c pci qcount w = .ok dev w') :
    dev = w.ndev ∧ w' = { w with
      device := Function.update w.device w.ndev ⟨pci, 0, ctlrNs c pci qcount, w.vemva, 0⟩
      ndev := w.ndev + 1 } := by
  have hwp : wp (createDevice c pci qcount) w (fun dev w' => dev = w.ndev ∧ w' = { w with
      device := Function.update w.device w.ndev ⟨pci, 0, ctlrNs c pci qcount, w.vemva, 0⟩
      ndev := w.ndev + 1 }) (fun _ _ => True) := by
    unfold createDevice
    simp only [wp_bind, wp_get, wp_ite]
    split
    · exact ⟨rfl, rfl⟩
    · trivial
  exact hwp.of_ok hr

theorem unvmeLockw_ok {u : Unit} (hr : unvmeLockw w = .ok u w') :
    w' = { w with lock := unvmeLockwbit } := by
  have hwp : wp unvmeLockw w (fun _ w' => w' = { w with lock := unvmeLockwbit })
      (fun _ _ => True) := by
    unfold unvmeLockw
    simp only [wp_bind, wp_get, wp_ite]
    split
    · rfl
    · trivial
  exact hwp.of_ok hr

theorem openLog_ok {u : Unit} (hr : openLog H w = .ok u w') :
    w' = { w with
      logOpen := if w.unvmeSes = none then true else w.logOpen
      logCount := if w.unvmeSes = none then w.logCount + 1 else w.logCount } := by
  have hwp : wp (openLog H) w (fun _ w' => w' = { w with
      logOpen := if w.unvmeSes = none then true else w.logOpen
      logCount := if w.unvmeSes = none then w.logCount + 1 else w.logCount }) (fun _ _ => True) := by
    unfold openLog logOpen
    simp only [wp_bind, wp_get, wp_ite]
    split
    · next hnone =>
        split
        · simp [hnone]
        · trivial
    · simp
  exact hwp.of_ok hr

theorem unvmeDoOpen_ok (h : w.Wf H xs) {pci nsid qcount qsize : ℤ} {x : ℕ}
    (hr : unvmeDoOpen H pci nsid qcount qsize w = .ok (some x) w') :
    ∃ dev idns, w.Opened H w' pci nsid qcount x dev idns := by
  obtain ⟨u, w₁, hlock, hr⟩ := bind_eq_ok hr
  obtain ⟨u', w₂, hlog, hr⟩ := bind_eq_ok hr
  have hw₁ := unvmeLockw_ok hlock
  have hw₂ := openLog_ok hlog
  rw [hw₁] at hw₂
  have hs : w.SameSessions w₂ := by
    rw [hw₂]
    exact ⟨rfl, rfl, rfl, rfl, rfl, rfl⟩
  obtain ⟨w₂', w₃, hget, hr⟩ := bind_eq_ok hr
  cases hget
  rw [(h.congr hs).findPci pci, hs.firstOf pci] at hr
  cases hfirst : w.firstOf pci with
  | some y =>
      rw [hfirst] at hr
      dsimp only at hr
      split at hr
      · cases hr
      split at hr
      · cases hr
      obtain ⟨x', w₄, hadd, hr⟩ := bind_eq_ok hr
      obtain ⟨idns, hid, rfl, rfl⟩ := addSession_ok hadd
      cases hr
      refine ⟨(w₂.session y).dev, idns, ?_⟩
      subst hw₂
      refine ⟨Nat.mod_self unvmeLockwbit, rfl, rfl, rfl, ?_, hid, ?_, rfl, rfl⟩
      · rw [World.OpensDevice, hfirst]
        exact ⟨rfl, rfl, rfl, rfl, rfl⟩
      · simp
  | none =>
      rw [hfirst] at hr
      obtain ⟨u, w₂', hmap, hr⟩ := bind_eq_ok hr
      cases hmap
      split at hr
      · cases hr
      split at hr
      · cases hr
      obtain ⟨dev, w₃, hcreate, hr⟩ := bind_eq_ok hr
      obtain ⟨x', w₄, hadd, hr⟩ := bind_eq_ok hr
      obtain ⟨rfl, rfl⟩ := createDevice_ok hcreate
      obtain ⟨idns, hid, rfl, rfl⟩ := addSession_ok hadd
      cases hr
      refine ⟨w₂.ndev, idns, ?_⟩
      subst hw₂
      refine ⟨Nat.mod_self unvmeLockwbit, rfl, rfl, rfl, ?_, hid, ?_, rfl, rfl⟩
      · rw [World.OpensDevice, hfirst]
        refine ⟨rfl, rfl, ?_, rfl, rfl⟩
        simp
      · simp

/-- An open of an open device that returns NULL leaves the regions as they are. -/
theorem unvmeDoOpen_refused (h : w.Wf H xs) {pci nsid qcount qsize : ℤ} {y : ℕ}
    (hr : unvmeDoOpen H pci nsid qcount qsize w = .ok none w') (hfirst : w.firstOf pci = some y) :
    w'.vemva = w.vemva ∧ w'.mapped = w.mapped := by
  obtain ⟨u, w₁, hlock, hr⟩ := bind_eq_ok hr
  obtain ⟨u', w₂, hlog, hr⟩ := bind_eq_ok hr
  have hw₂ := openLog_ok hlog
  rw [unvmeLockw_ok hlock] at hw₂
  have hs : w.SameSessions w₂ := by
    rw [hw₂]
    exact ⟨rfl, rfl, rfl, rfl, rfl, rfl⟩
  obtain ⟨w₂', w₃, hget, hr⟩ := bind_eq_ok hr
  cases hget
  rw [(h.congr hs).findPci pci, hs.firstOf pci, hfirst] at hr
  subst hw₂
  dsimp only at hr
  split at hr
  · cases hr
    exact ⟨rfl, rfl⟩
  split at hr
  · cases hr
    exact ⟨rfl, rfl⟩
  · obtain ⟨x', w₄, -, hr⟩ := bind_eq_ok hr
    obtain ⟨u'', w₅, -, hr⟩ := bind_eq_ok hr
    cases hr

theorem putDevice_left (w : World) (dev : ℕ) :
    wp (putDevice dev) w (fun _ w' => w' = w.left dev) (fun e _ => w.LeaveFails dev e) := by
  unfold putDevice deleteDevice deleteQueues vfioDelete World.left World.LeaveFails
  simp only [wp_bind, wp_get, wp_set, wp_ite, wp_pure, wp_throw, wp_modify, Function.update_self,
    Function.update_idem]
  split
  · next hlast =>
      split
      · split
        · simp [hlast]
        · next hmapped => exact ⟨hlast, Or.inr ⟨trivial, Bool.eq_false_iff.2 hmapped⟩⟩
      · next hmapped => exact ⟨hlast, Or.inl ⟨trivial, Bool.eq_false_iff.2 hmapped⟩⟩
  · simp

theorem unvmeDoClose_closed {x : ℕ}
    (hpci : (w.session x).ns.pci = toU32 (w.device (w.session x).dev).pci) :
    wp (unvmeDoClose x) w (fun r w' => r = 0 ∧ w' = w.closed x)
      (fun e _ => e = .hang ∧ w.lock ≠ 0 ∨ w.LeaveFails (w.session x).dev e) := by
  unfold unvmeDoClose unvmeLockw unvmeCleanup
  simp only [wp_bind, wp_get, wp_ite, wp_set, wp_modify, wp_pure, wp_throw, hpci, ne_eq, not_true,
    if_false]
  split
  · refine wp_mono (putDevice_left _ _) ?_ (fun _ _ he => Or.inr he)
    · rintro _ w₁ rfl
      have hzero : unvmeLockwbit % unvmeLockwbit = 0 := Nat.mod_self _
      unfold logClose unvmeUnlockw
      by_cases hempty : (listDel w.unvmeSes x w.links).1 = none
      · by_cases hcount : 0 < w.logCount
        · simp [World.closed, World.left, hempty, hcount, hzero]
        · simp [World.closed, World.left, hempty, hcount, hzero]
      · simp [World.closed, World.left, hempty, hzero]
  · next hlock => exact Or.inl ⟨trivial, hlock⟩

end

/-! ## The invariant -/

/-- The devices, sessions and log in a state where `ses` are the open sessions. -/
structure World.Life (H : Host) (w : World) (ses : List ℕ) : Prop where
  wf : w.Wf H ses
  lock : w.lock = 0
  int : ∀ d < w.ndev, IsInt (w.device d).pci
  ctlr : ∀ d < w.ndev, ∃ qcount : ℤ,
    (w.device d).ns = ctlrNs (H.ctlr (toU32 (w.device d).pci)) (w.device d).pci qcount
  ns : ∀ x ∈ ses, ∃ (nsid : ℤ) (idns : IdNs),
    (H.ctlr (w.session x).ns.pci).identify (toU32 nsid) = some idns ∧
      (w.session x).ns = initNs (w.device (w.session x).dev).ns nsid idns
  shared : ∀ x ∈ ses, ∀ y ∈ ses, (w.session x).ns.pci = (w.session y).ns.pci →
    (w.session x).dev = (w.session y).dev
  refcount : ∀ d < w.ndev,
    (w.device d).refcount = ses.countP (fun x => (w.session x).dev == d)
  deleted : ∀ d < w.ndev,
    (w.device d).deleted = if ∃ x ∈ ses, (w.session x).dev = d then 0 else 1
  logOpen : w.logOpen = decide (ses ≠ [])
  logCount : w.logCount = if ses = [] then 0 else 1

section

variable {H : Host} {w w' : World} {ses : List ℕ} {pci nsid qcount : ℤ} {x y dev : ℕ} {idns : IdNs}

theorem World.Opened.session_self (ho : w.Opened H w' pci nsid qcount x dev idns) :
    w'.session x = ⟨dev, initNs (w'.device dev).ns nsid idns⟩ := by
  rw [ho.session, Function.update_self]

/-- An open leaves the open sessions alone. -/
theorem World.Opened.session_old (ho : w.Opened H w' pci nsid qcount x dev idns) (hwf : w.Wf H ses)
    (hy : y ∈ ses) : w'.session y = w.session y := by
  rw [ho.session, Function.update_of_ne]
  rw [ho.fresh]
  exact (hwf.alloc y hy).ne

end

namespace World.Life

variable {H : Host} {w w' : World} {ses : List ℕ}

theorem init (H : Host) : World.init.Life H [] where
  wf := World.Wf.init H
  lock := rfl
  int := nofun
  ctlr := nofun
  ns := nofun
  shared := nofun
  refcount := nofun
  deleted := nofun
  logOpen := rfl
  logCount := rfl

theorem devPci (h : w.Life H ses) {x : ℕ} (hx : x ∈ ses) :
    (w.session x).ns.pci = toU32 (w.device (w.session x).dev).pci := by
  obtain ⟨qcount, hns⟩ := h.ctlr _ (h.wf.dev x hx)
  rw [← h.wf.pci x hx, hns]
  rfl

theorem unvmeSes_none (h : w.Life H ses) : w.unvmeSes = none ↔ ses = [] := by
  rw [h.wf.head]
  exact List.head?_eq_none_iff

/-- The device of a new session, whether it was there before or not. -/
structure Takes (H : Host) (w w' : World) (ses : List ℕ) (pci : ℤ) (dev : ℕ) : Prop where
  lt : dev < w'.ndev
  old : ∀ d < w'.ndev, d ≠ dev → d < w.ndev ∧ w'.device d = w.device d
  ns : ∀ y ∈ ses, (w'.device (w.session y).dev).ns = (w.device (w.session y).dev).ns
  id : (w'.device dev).pci = pci
  ctlr : ∃ qcount : ℤ,
    (w'.device dev).ns = ctlrNs (H.ctlr (toU32 (w'.device dev).pci)) (w'.device dev).pci qcount
  refcount : (w'.device dev).refcount = ses.countP (fun y => (w.session y).dev == dev) + 1
  deleted : (w'.device dev).deleted = 0
  only : ∀ y ∈ ses, (w.session y).ns.pci = toU32 pci → (w.session y).dev = dev

theorem takes (h : w.Life H ses) {pci qcount : ℤ} {dev : ℕ} (hint : IsInt pci)
    (ho : w.OpensDevice H w' pci qcount dev) : Takes H w w' ses pci dev := by
  unfold World.OpensDevice at ho
  cases hfirst : w.firstOf pci with
  | some y =>
      rw [hfirst] at ho
      obtain ⟨rfl, hndev, hdevice, -, -⟩ := ho
      obtain ⟨hy, hpci⟩ := h.wf.firstOf_mem hfirst
      have hlt := h.wf.dev y hy
      have hself : w'.device (w.session y).dev = { w.device (w.session y).dev with
          refcount := (w.device (w.session y).dev).refcount + 1 } := by
        rw [hdevice, Function.update_self]
      constructor
      · rw [hndev]; exact hlt
      · intro d hd hne
        rw [hndev] at hd
        rw [hdevice, Function.update_of_ne hne]
        exact ⟨hd, rfl⟩
      · intro z _
        by_cases hz : (w.session z).dev = (w.session y).dev
        · rw [hz, hself]
        · rw [hdevice, Function.update_of_ne hz]
      · rw [hself]
        exact (h.int _ hlt).eq_of_toU32 hint (by rw [← h.devPci hy, hpci])
      · rw [hself]; exact h.ctlr _ hlt
      · rw [hself]
        show (w.device (w.session y).dev).refcount + 1 = _
        rw [h.refcount _ hlt]
      · rw [hself]
        show (w.device (w.session y).dev).deleted = 0
        rw [h.deleted _ hlt, if_pos ⟨y, hy, rfl⟩]
      · intro z hz hzp
        exact h.shared z hz y hy (hzp.trans hpci.symm)
  | none =>
      rw [hfirst] at ho
      obtain ⟨rfl, hndev, hdevice, -, -⟩ := ho
      have hself : w'.device w.ndev = ⟨pci, 1, ctlrNs (H.ctlr (toU32 pci)) pci qcount, w.vemva + 1, 0⟩ := by
        rw [hdevice, Function.update_self]
      have hne : ∀ y ∈ ses, (w.session y).dev ≠ w.ndev := fun y hy => (h.wf.dev y hy).ne
      constructor
      · omega
      · intro d hd hd'
        rw [hdevice, Function.update_of_ne hd']
        exact ⟨by omega, rfl⟩
      · intro y hy
        rw [hdevice, Function.update_of_ne (hne y hy)]
      · rw [hself]
      · rw [hself]; exact ⟨qcount, rfl⟩
      · rw [hself, List.countP_eq_zero.2]
        · rfl
        · intro y hy
          simpa using hne y hy
      · rw [hself]
      · intro y hy hyp
        exact absurd hyp (h.wf.firstOf_none hfirst y hy)

/-- **An open keeps the invariant.** -/
theorem opened (h : w.Life H ses) {pci nsid qcount : ℤ} {x dev : ℕ} {idns : IdNs}
    (hint : IsInt pci) (ho : w.Opened H w' pci nsid qcount x dev idns) (hwf : w'.Wf H (ses ++ [x])) :
    w'.Life H (ses ++ [x]) := by
  have ht := h.takes hint ho.devices
  have hold : ∀ y ∈ ses, w'.session y = w.session y := fun y hy => ho.session_old h.wf hy
  have hnew := ho.session_self
  have hpci : (w'.session x).ns.pci = toU32 pci := by
    obtain ⟨qc, hns⟩ := ht.ctlr
    rw [hnew, ← ht.id]
    show (w'.device dev).ns.pci = _
    rw [hns]
    rfl
  have hcount : ∀ d, ses.countP (fun y => (w'.session y).dev == d) =
      ses.countP (fun y => (w.session y).dev == d) := by
    intro d
    refine List.countP_congr ?_
    intro y hy
    rw [hold y hy]
  have hmem : ∀ d, (∃ y ∈ ses ++ [x], (w'.session y).dev = d) ↔
      (∃ y ∈ ses, (w.session y).dev = d) ∨ d = dev := by
    intro d
    constructor
    · rintro ⟨y, hy, hd⟩
      rcases List.mem_append.1 hy with hy | hy
      · rw [hold y hy] at hd
        exact Or.inl ⟨y, hy, hd⟩
      · rw [List.mem_singleton.1 hy, hnew] at hd
        exact Or.inr hd.symm
    · rintro (⟨y, hy, hd⟩ | rfl)
      · exact ⟨y, List.mem_append_left _ hy, by rw [hold y hy]; exact hd⟩
      · exact ⟨x, by simp, by rw [hnew]⟩
  refine ⟨hwf, ho.lock, ?_, ?_, ?_, ?_, ?_, ?_, ?_, ?_⟩
  · intro d hd
    by_cases hdev : d = dev
    · rw [hdev, ht.id]; exact hint
    · obtain ⟨hlt, heq⟩ := ht.old d hd hdev
      rw [heq]; exact h.int d hlt
  · intro d hd
    by_cases hdev : d = dev
    · rw [hdev]; exact ht.ctlr
    · obtain ⟨hlt, heq⟩ := ht.old d hd hdev
      rw [heq]; exact h.ctlr d hlt
  · intro y hy
    rcases List.mem_append.1 hy with hy | hy
    · obtain ⟨n, i, hid, hns⟩ := h.ns y hy
      rw [hold y hy]
      exact ⟨n, i, hid, by rw [ht.ns y hy]; exact hns⟩
    · rw [List.mem_singleton.1 hy]
      exact ⟨nsid, idns, by rw [hpci]; exact ho.identify, by rw [hnew]⟩
  · intro y hy z hz heq
    rcases List.mem_append.1 hy with hy | hy <;> rcases List.mem_append.1 hz with hz | hz
    · rw [hold y hy, hold z hz] at heq ⊢
      exact h.shared y hy z hz heq
    · rw [List.mem_singleton.1 hz, hpci, hold y hy] at heq
      rw [List.mem_singleton.1 hz, hnew, hold y hy]
      exact ht.only y hy heq
    · rw [List.mem_singleton.1 hy, hpci, hold z hz] at heq
      rw [List.mem_singleton.1 hy, hnew, hold z hz]
      exact (ht.only z hz heq.symm).symm
    · rw [List.mem_singleton.1 hy, List.mem_singleton.1 hz]
  · intro d hd
    rw [List.countP_append, hcount]
    by_cases hdev : d = dev
    · rw [hdev, ht.refcount]
      simp [hnew]
    · obtain ⟨hlt, heq⟩ := ht.old d hd hdev
      rw [heq, h.refcount d hlt]
      simp [hnew, Ne.symm hdev]
  · intro d hd
    simp only [hmem]
    by_cases hdev : d = dev
    · rw [if_pos (Or.inr hdev), hdev, ht.deleted]
    · obtain ⟨hlt, heq⟩ := ht.old d hd hdev
      rw [heq, h.deleted d hlt]
      simp [hdev]
  · rw [ho.logOpen, h.logOpen]
    by_cases hnil : ses = []
    · simp [hnil, h.unvmeSes_none.2 hnil]
    · simp [hnil, mt h.unvmeSes_none.1 hnil]
  · rw [ho.logCount, h.logCount]
    by_cases hnil : ses = []
    · simp [hnil, h.unvmeSes_none.2 hnil]
    · simp [hnil, mt h.unvmeSes_none.1 hnil]

/-- A close changes its own device only. -/
theorem closed_device (x d : ℕ) (hd : d ≠ (w.session x).dev) :
    (w.closed x).device d = w.device d := by
  show Function.update _ _ _ d = _
  rw [Function.update_of_ne hd]

theorem closed_device_self (x : ℕ) : (w.closed x).device (w.session x).dev =
    { w.device (w.session x).dev with
      refcount := (w.device (w.session x).dev).refcount - 1
      deleted := if (w.device (w.session x).dev).refcount - 1 = 0 then
        (w.device (w.session x).dev).deleted + 1 else (w.device (w.session x).dev).deleted } :=
  Function.update_self _ _ _

/-- What a device is does not change. -/
theorem closed_ns (x d : ℕ) : ((w.closed x).device d).ns = (w.device d).ns ∧
    ((w.closed x).device d).pci = (w.device d).pci := by
  by_cases hd : d = (w.session x).dev
  · rw [hd, closed_device_self]
    exact ⟨rfl, rfl⟩
  · rw [closed_device x d hd]
    exact ⟨rfl, rfl⟩

theorem countP_erase {x : ℕ} (hx : x ∈ ses) (d : ℕ) : ses.countP (fun y => (w.session y).dev == d) =
    (ses.erase x).countP (fun y => (w.session y).dev == d) + if (w.session x).dev == d then 1 else 0 := by
  rw [(List.perm_cons_erase hx).countP_eq, List.countP_cons]

/-- A device has one session less. -/
theorem closed_refcount (h : w.Life H ses) {x : ℕ} (hx : x ∈ ses) {d : ℕ} (hd : d < w.ndev) :
    ((w.closed x).device d).refcount = (ses.erase x).countP (fun y => (w.session y).dev == d) := by
  have hc := countP_erase (w := w) hx d
  by_cases hdev : d = (w.session x).dev
  · rw [hdev] at hc ⊢
    rw [closed_device_self]
    show (w.device (w.session x).dev).refcount - 1 = _
    rw [h.refcount _ (h.wf.dev x hx), hc]
    simp
  · rw [closed_device x d hdev, h.refcount d hd, hc]
    simp [Ne.symm hdev]

/-- **The device is torn down by the close of its last session.** -/
theorem closed_deleted (h : w.Life H ses) {x : ℕ} (hx : x ∈ ses) {d : ℕ} (hd : d < w.ndev) :
    ((w.closed x).device d).deleted = if ∃ y ∈ ses.erase x, (w.session y).dev = d then 0 else 1 := by
  have hlt := h.wf.dev x hx
  by_cases hdev : d = (w.session x).dev
  · have hzero : (w.device (w.session x).dev).refcount - 1 = 0 ↔
        ¬ ∃ y ∈ ses.erase x, (w.session y).dev = (w.session x).dev := by
      rw [h.refcount _ hlt, countP_erase hx]
      simp [List.countP_eq_zero]
    have hwas : (w.device (w.session x).dev).deleted = 0 := by
      rw [h.deleted _ hlt, if_pos ⟨x, hx, rfl⟩]
    rw [hdev, closed_device_self]
    show (if (w.device (w.session x).dev).refcount - 1 = 0 then
      (w.device (w.session x).dev).deleted + 1 else (w.device (w.session x).dev).deleted) = _
    rw [hwas]
    by_cases hlast : ∃ y ∈ ses.erase x, (w.session y).dev = (w.session x).dev
    · rw [if_neg (fun h0 => hzero.1 h0 hlast), if_pos hlast]
    · rw [if_pos (hzero.2 hlast), if_neg hlast]
  · have hiff : (∃ y ∈ ses, (w.session y).dev = d) ↔ ∃ y ∈ ses.erase x, (w.session y).dev = d := by
      constructor
      · rintro ⟨y, hy, hyd⟩
        refine ⟨y, (List.mem_erase_of_ne ?_).2 hy, hyd⟩
        rintro rfl
        exact hdev hyd.symm
      · rintro ⟨y, hy, hyd⟩
        exact ⟨y, List.mem_of_mem_erase hy, hyd⟩
    rw [closed_device x d hdev, h.deleted d hd]
    simp only [hiff]

/-- **A close keeps the invariant.** -/
theorem closed (h : w.Life H ses) {x : ℕ} (hx : x ∈ ses) (hwf : (w.closed x).Wf H (ses.erase x)) :
    (w.closed x).Life H (ses.erase x) := by
  have hsub : ∀ y ∈ ses.erase x, y ∈ ses := fun y hy => List.mem_of_mem_erase hy
  have hempty : (listDel w.unvmeSes x w.links).1 = none ↔ ses.erase x = [] := by
    rw [show (listDel w.unvmeSes x w.links).1 = (ses.erase x).head? from hwf.head]
    exact List.head?_eq_none_iff
  have hone : w.logCount = 1 := by
    rw [h.logCount, if_neg (List.ne_nil_of_mem hx)]
  have hopen : w.logOpen = true := by
    rw [h.logOpen]
    exact decide_eq_true (List.ne_nil_of_mem hx)
  refine ⟨hwf, rfl, ?_, ?_, ?_, ?_, fun d hd => h.closed_refcount hx hd,
    fun d hd => h.closed_deleted hx hd, ?_, ?_⟩
  · intro d hd
    rw [(closed_ns x d).2]
    exact h.int d hd
  · intro d hd
    rw [(closed_ns x d).1, (closed_ns x d).2]
    exact h.ctlr d hd
  · intro y hy
    show ∃ nsid idns, _ ∧ (w.session y).ns = initNs ((w.closed x).device (w.session y).dev).ns nsid idns
    rw [(closed_ns x _).1]
    exact h.ns y (hsub y hy)
  · intro y hy z hz
    exact h.shared y (hsub y hy) z (hsub z hz)
  · show (if (listDel w.unvmeSes x w.links).1 = none ∧ 0 < w.logCount then
      w.logOpen && w.logCount != 1 else w.logOpen) = _
    rw [hone, hopen]
    by_cases hnil : ses.erase x = []
    · simp [hnil, hempty.2 hnil]
    · simp [hnil, mt hempty.1 hnil]
  · show (if (listDel w.unvmeSes x w.links).1 = none ∧ 0 < w.logCount then
      w.logCount - 1 else w.logCount) = _
    rw [hone]
    by_cases hnil : ses.erase x = []
    · simp [hnil, hempty.2 hnil]
    · simp [hnil, mt hempty.1 hnil]

end World.Life

/-! ## Runs -/

/-- The states reached by successful opens and by closes of open sessions that return, with the sessions
    that are open then. `L` is a condition on opening a device that has no session. -/
inductive Sessions (H : Host) (L : List ℕ → Prop) : World → List ℕ → Prop
  | init : Sessions H L World.init []
  | opened {w w' : World} {ses : List ℕ} (h : Sessions H L w ses) (pci nsid qcount qsize : ℤ) (x : ℕ)
      (hpci : IsInt pci) (hL : w.firstOf pci = none → L ses)
      (hr : unvmeDoOpen H pci nsid qcount qsize w = .ok (some x) w') : Sessions H L w' (ses ++ [x])
  | closed {w w' : World} {ses : List ℕ} (h : Sessions H L w ses) (x : ℕ) (r : ℤ) (hx : x ∈ ses)
      (hr : unvmeDoClose x w = .ok r w') : Sessions H L w' (ses.erase x)

section

variable {H : Host} {L : List ℕ → Prop} {w w' : World} {ses : List ℕ}

theorem World.Life.open_ok (h : w.Life H ses) {pci nsid qcount qsize : ℤ} {x : ℕ} (hint : IsInt pci)
    (hr : unvmeDoOpen H pci nsid qcount qsize w = .ok (some x) w') : w'.Life H (ses ++ [x]) := by
  obtain ⟨dev, idns, ho⟩ := unvmeDoOpen_ok h.wf hr
  rcases (unvmeDoOpen_spec h.wf pci nsid qcount qsize).of_ok hr with
    ⟨hnone, -⟩ | ⟨y, hy, -, hwf, -⟩
  · cases hnone
  · cases hy
    exact h.opened hint ho hwf

/-- A close that returns has closed the session. -/
theorem World.Life.close_ok (h : w.Life H ses) {x : ℕ} {r : ℤ} (hx : x ∈ ses)
    (hr : unvmeDoClose x w = .ok r w') : r = 0 ∧ w' = w.closed x ∧ w'.Life H (ses.erase x) := by
  obtain ⟨rfl, rfl⟩ := (unvmeDoClose_closed (h.devPci hx)).of_ok hr
  refine ⟨rfl, rfl, ?_⟩
  rcases ((unvmeDoClose_spec h.wf hx).of_ok hr).2 with ⟨-, hwf⟩ | ⟨hr, -⟩
  · exact h.closed hx hwf
  · cases hr

/-- **The invariant holds throughout a run.** -/
theorem Sessions.life (hrun : Sessions H L w ses) : w.Life H ses := by
  induction hrun with
  | init => exact World.Life.init H
  | opened _ pci nsid qcount qsize x hpci hL hr ih => exact ih.open_ok hpci hr
  | closed _ x r hx hr ih => exact (ih.close_ok hx hr).2.2

end

/-! ## One region at a time -/

/-- All open sessions are of one device, in the region that was mapped last, and the regions that are mapped
    are those of open devices. -/
structure World.OneRegion (w : World) (ses : List ℕ) : Prop where
  one : ∀ x ∈ ses, ∀ y ∈ ses, (w.session x).dev = (w.session y).dev
  last : ∀ x ∈ ses, (w.device (w.session x).dev).region = w.vemva
  old : ∀ d < w.ndev, (w.device d).region ≤ w.vemva
  memory : ∀ d < w.ndev, w.mapped (w.device d).region = true ↔ ∃ x ∈ ses, (w.session x).dev = d

namespace World.OneRegion

variable {H : Host} {w w' : World} {ses : List ℕ}

theorem init : World.init.OneRegion [] := ⟨nofun, nofun, nofun, nofun⟩

/-- A further namespace of the open device. -/
theorem openedOld (h : w.OneRegion ses) (hlife : w.Life H ses) {pci nsid qcount : ℤ} {x y dev : ℕ}
    {idns : IdNs} (ho : w.Opened H w' pci nsid qcount x dev idns) (hfirst : w.firstOf pci = some y) :
    w'.OneRegion (ses ++ [x]) := by
  have hdevices := ho.devices
  rw [World.OpensDevice, hfirst] at hdevices
  obtain ⟨rfl, hndev, hdevice, hvemva, hmapped⟩ := hdevices
  obtain ⟨hy, -⟩ := hlife.wf.firstOf_mem hfirst
  have hregion : ∀ d, (w'.device d).region = (w.device d).region := by
    intro d
    rw [hdevice]
    by_cases hd : d = (w.session y).dev
    · rw [hd, Function.update_self]
    · rw [Function.update_of_ne hd]
  have hold : ∀ z ∈ ses, w'.session z = w.session z := fun z hz => ho.session_old hlife.wf hz
  have hall : ∀ z ∈ ses ++ [x], (w'.session z).dev = (w.session y).dev := by
    intro z hz
    rcases List.mem_append.1 hz with hz | hz
    · rw [hold z hz]
      exact h.one z hz y hy
    · rw [List.mem_singleton.1 hz, ho.session_self]
  constructor
  · intro z hz z' hz'
    rw [hall z hz, hall z' hz']
  · intro z hz
    rw [hall z hz, hregion, hvemva]
    exact h.last y hy
  · intro d hd
    rw [hndev] at hd
    rw [hregion, hvemva]
    exact h.old d hd
  · intro d hd
    rw [hndev] at hd
    rw [hmapped, hregion, h.memory d hd]
    constructor
    · rintro ⟨z, hz, rfl⟩
      exact ⟨z, List.mem_append_left _ hz, by rw [hold z hz]⟩
    · rintro ⟨z, hz, rfl⟩
      exact ⟨y, hy, (hall z hz).symm⟩

/-- The first namespace of a device, with no session open. -/
theorem openedNew (h : w.OneRegion []) {pci nsid qcount : ℤ} {x dev : ℕ} {idns : IdNs}
    (ho : w.Opened H w' pci nsid qcount x dev idns) (hfirst : w.firstOf pci = none) :
    w'.OneRegion [x] := by
  have hdevices := ho.devices
  rw [World.OpensDevice, hfirst] at hdevices
  obtain ⟨rfl, hndev, hdevice, hvemva, hmapped⟩ := hdevices
  have hself : (w'.device w.ndev).region = w.vemva + 1 := by rw [hdevice, Function.update_self]
  have hold : ∀ d < w.ndev, (w'.device d).region = (w.device d).region := by
    intro d hd
    rw [hdevice, Function.update_of_ne hd.ne]
  have hx : (w'.session x).dev = w.ndev := by rw [ho.session_self]
  constructor
  · intro z hz z' hz'
    rw [List.mem_singleton.1 hz, List.mem_singleton.1 hz']
  · intro z hz
    rw [List.mem_singleton.1 hz, hx, hself, hvemva]
  · intro d hd
    rw [hvemva]
    by_cases hnew : d = w.ndev
    · rw [hnew, hself]
    · have hlt : d < w.ndev := by omega
      rw [hold d hlt]
      exact Nat.le_succ_of_le (h.old d hlt)
  · intro d hd
    simp only [List.mem_singleton, exists_eq_left, hx]
    by_cases hnew : d = w.ndev
    · rw [hnew, hself, hmapped, Function.update_self]
      simp
    · have hlt : d < w.ndev := by omega
      have hle := h.old d hlt
      rw [hold d hlt, hmapped, Function.update_of_ne (by omega), h.memory d hlt]
      simp [Ne.symm hnew]

/-- **A close by which a device goes takes its own region with it.** -/
theorem closed (h : w.OneRegion ses) (hlife : w.Life H ses) {x : ℕ} (hx : x ∈ ses) :
    (w.closed x).OneRegion (ses.erase x) := by
  have hsub : ∀ y ∈ ses.erase x, y ∈ ses := fun y hy => List.mem_of_mem_erase hy
  have hregion : ∀ d, ((w.closed x).device d).region = (w.device d).region := by
    intro d
    by_cases hd : d = (w.session x).dev
    · rw [hd]
      simp [World.closed, World.left]
    · rw [World.Life.closed_device x d hd]
  refine ⟨fun y hy z hz => h.one y (hsub y hy) z (hsub z hz), ?_, ?_, ?_⟩
  · intro y hy
    rw [hregion]
    exact h.last y (hsub y hy)
  · intro d hd
    rw [hregion]
    exact h.old d hd
  · intro d hd
    rw [hregion]
    show (if (w.device (w.session x).dev).refcount - 1 = 0 then Function.update w.mapped w.vemva false
      else w.mapped) (w.device d).region = true ↔ ∃ y ∈ ses.erase x, (w.session y).dev = d
    have hcount := hlife.refcount _ (hlife.wf.dev x hx)
    rw [World.Life.countP_erase hx, if_pos (beq_self_eq_true _)] at hcount
    by_cases hlast : (w.device (w.session x).dev).refcount - 1 = 0
    · -- no session is left, and no region
      have hzero : (ses.erase x).countP (fun y => (w.session y).dev == (w.session x).dev) = 0 := by
        omega
      have hnil : ∀ y ∈ ses.erase x, False := by
        intro y hy
        exact List.countP_eq_zero.1 hzero y hy (beq_iff_eq.2 (h.one y (hsub y hy) x hx))
      have hno : ¬ ∃ y ∈ ses.erase x, (w.session y).dev = d := by
        rintro ⟨y, hy, -⟩
        exact hnil y hy
      rw [if_pos hlast]
      refine ⟨fun hm => ?_, fun hs => absurd hs hno⟩
      by_cases heq : (w.device d).region = w.vemva
      · rw [heq, Function.update_self] at hm
        cases hm
      · rw [Function.update_of_ne heq, h.memory d hd] at hm
        obtain ⟨y, hy, rfl⟩ := hm
        exact absurd (h.last y hy) heq
    · have hpos : 0 < (ses.erase x).countP (fun y => (w.session y).dev == (w.session x).dev) := by
        omega
      obtain ⟨z, hz, hzd⟩ := List.countP_pos_iff.1 hpos
      rw [if_neg hlast, h.memory d hd]
      constructor
      · rintro ⟨y, hy, rfl⟩
        exact ⟨z, hz, h.one z (hsub z hz) y hy⟩
      · rintro ⟨y, hy, hyd⟩
        exact ⟨y, hsub y hy, hyd⟩

/-- **A close of an open session returns.** -/
theorem close_returns (h : w.OneRegion ses) (hlife : w.Life H ses) {x : ℕ} (hx : x ∈ ses) :
    unvmeDoClose x w = .ok 0 (w.closed x) := by
  have hmapped := (h.memory _ (hlife.wf.dev x hx)).2 ⟨x, hx, rfl⟩
  have hwp : wp (unvmeDoClose x) w (fun r w' => r = 0 ∧ w' = w.closed x) (fun _ _ => False) := by
    refine wp_mono (unvmeDoClose_closed (hlife.devPci hx)) (fun _ _ hQ => hQ) ?_
    rintro e - (⟨-, hlock⟩ | ⟨-, ⟨-, hno⟩ | ⟨-, hno⟩⟩)
    · exact hlock hlife.lock
    · rw [hmapped] at hno
      cases hno
    · rw [← h.last x hx, hmapped] at hno
      cases hno
  obtain ⟨r, w', hr, rfl, rfl⟩ := hwp.exists_ok
  exact hr

end World.OneRegion

theorem Sessions.oneRegion {H : Host} {w : World} {ses : List ℕ}
    (hrun : Sessions H (fun ses => ses = []) w ses) : w.OneRegion ses := by
  induction hrun with
  | init => exact World.OneRegion.init
  | @opened w w' ses hrun pci nsid qcount qsize x hpci hL hr ih =>
      have hlife := hrun.life
      obtain ⟨dev, idns, ho⟩ := unvmeDoOpen_ok hlife.wf hr
      cases hfirst : w.firstOf pci with
      | some y => exact ih.openedOld hlife ho hfirst
      | none =>
          obtain rfl := hL hfirst
          exact ih.openedNew ho hfirst
  | closed hrun x r hx hr ih =>
      obtain ⟨-, rfl, -⟩ := hrun.life.close_ok hx hr
      exact ih.closed hrun.life hx

/-! ## Lifetimes -/

/-- What is expected of a state in which `ses` are the open sessions. `memory`: the memory of the queues of
    a device is mapped exactly while the device has a session. -/
structure World.Lifetimes (w : World) (ses : List ℕ) : Prop where
  list : w.links.Circular w.unvmeSes ses
  dev : ∀ x ∈ ses, (w.session x).dev < w.ndev ∧
    toU32 (w.device (w.session x).dev).pci = (w.session x).ns.pci
  one : ∀ d < w.ndev, ∀ e < w.ndev, (w.device d).deleted = 0 → (w.device e).deleted = 0 →
    toU32 (w.device d).pci = toU32 (w.device e).pci → d = e
  shared : ∀ x ∈ ses, ∀ y ∈ ses, (w.session x).ns.pci = (w.session y).ns.pci →
    (w.session x).dev = (w.session y).dev
  refcount : ∀ d < w.ndev,
    (w.device d).refcount = ses.countP (fun x => (w.session x).dev == d)
  deleted : ∀ d < w.ndev,
    (w.device d).deleted = if ∃ x ∈ ses, (w.session x).dev = d then 0 else 1
  memory : ∀ d < w.ndev, w.mapped (w.device d).region = true ↔ ∃ x ∈ ses, (w.session x).dev = d
  log : w.logOpen = decide (ses ≠ []) ∧ w.logCount = if ses = [] then 0 else 1

theorem World.Life.lifetimes {H : Host} {w : World} {ses : List ℕ} (h : w.Life H ses)
    (hregion : w.OneRegion ses) : w.Lifetimes ses := by
  refine ⟨h.wf.ring.circular h.wf.head, ?_, ?_, h.shared, h.refcount, h.deleted, hregion.memory,
    h.logOpen, h.logCount⟩
  · intro x hx
    exact ⟨h.wf.dev x hx, (h.devPci hx).symm⟩
  · intro d hd e he hd0 he0 hpci
    have hlive : ∀ {d}, d < w.ndev → (w.device d).deleted = 0 →
        ∃ x ∈ ses, (w.session x).dev = d := by
      intro d hd h0
      by_contra hno
      rw [h.deleted d hd, if_neg hno] at h0
      cases h0
    obtain ⟨x, hx, rfl⟩ := hlive hd hd0
    obtain ⟨y, hy, rfl⟩ := hlive he he0
    exact h.shared x hx y hy (by rw [h.devPci hx, h.devPci hy, hpci])

/-- **Device lifetime follows its sessions**, in every run that opens a new device only while no session
    is open. After the opens and closes, in any order, the sessions, devices, regions and log are as
    expected; a further open tears down no device and creates one exactly if its PCI id has none; a further
    close of an open session returns 0 and tears down its device, once, exactly if no other session points
    to it. -/
theorem device_lifetimes {H : Host} {w : World} {ses : List ℕ}
    (hrun : Sessions H (fun ses => ses = []) w ses) :
    w.Lifetimes ses ∧
      (∀ pci nsid qcount qsize x w', unvmeDoOpen H pci nsid qcount qsize w = .ok (some x) w' →
        x ∉ ses ∧ (∀ d < w.ndev, (w'.device d).deleted = (w.device d).deleted) ∧
          (w'.ndev = if ∃ y ∈ ses, (w.session y).ns.pci = toU32 pci then w.ndev else w.ndev + 1)) ∧
      ∀ x ∈ ses, ∃ w', unvmeDoClose x w = .ok 0 w' ∧ w'.ndev = w.ndev ∧
        ∀ d < w.ndev, (w'.device d).deleted = (w.device d).deleted +
          if d = (w.session x).dev ∧ ∀ y ∈ ses, (w.session y).dev = d → y = x then 1 else 0 := by
  have h := hrun.life
  have hregion := hrun.oneRegion
  refine ⟨h.lifetimes hregion, ?_, ?_⟩
  · intro pci nsid qcount qsize x w' hr
    obtain ⟨dev, idns, ho⟩ := unvmeDoOpen_ok h.wf hr
    have hfresh : x ∉ ses := by
      rw [ho.fresh]
      exact fun hx => lt_irrefl _ (h.wf.alloc _ hx)
    have hdevices := ho.devices
    unfold World.OpensDevice at hdevices
    cases hfirst : w.firstOf pci with
    | some y =>
        rw [hfirst] at hdevices
        obtain ⟨rfl, hndev, hdevice, -, -⟩ := hdevices
        obtain ⟨hy, hpci⟩ := h.wf.firstOf_mem hfirst
        refine ⟨hfresh, ?_, by rw [hndev, if_pos ⟨y, hy, hpci⟩]⟩
        intro d hd
        rw [hdevice]
        by_cases hdev : d = (w.session y).dev
        · rw [hdev, Function.update_self]
        · rw [Function.update_of_ne hdev]
    | none =>
        rw [hfirst] at hdevices
        obtain ⟨rfl, hndev, hdevice, -, -⟩ := hdevices
        have hno : ¬ ∃ y ∈ ses, (w.session y).ns.pci = toU32 pci := by
          rintro ⟨y, hy, hpci⟩
          exact h.wf.firstOf_none hfirst y hy hpci
        refine ⟨hfresh, ?_, by rw [hndev, if_neg hno]⟩
        intro d hd
        rw [hdevice, Function.update_of_ne hd.ne]
  · intro x hx
    have hclose := hregion.close_returns h hx
    obtain ⟨-, -, hlife⟩ := h.close_ok hx hclose
    refine ⟨w.closed x, hclose, rfl, ?_⟩
    intro d hd
    by_cases hdev : d = (w.session x).dev
    · have hlast : (∃ y ∈ ses.erase x, (w.session y).dev = d) ↔
          ¬ ∀ y ∈ ses, (w.session y).dev = d → y = x := by
        simp only [h.wf.ring.1.mem_erase_iff]
        push Not
        exact ⟨fun ⟨y, hy, hyd⟩ => ⟨y, hy.2, hyd, hy.1⟩, fun ⟨y, hy, hyd, hne⟩ => ⟨y, ⟨hne, hy⟩, hyd⟩⟩
      have hnow : ((w.closed x).device d).deleted =
          if ∃ y ∈ ses.erase x, (w.session y).dev = d then 0 else 1 := hlife.deleted d hd
      have hwas : (w.device d).deleted = 0 := by
        rw [h.deleted d hd, if_pos ⟨x, hx, hdev.symm⟩]
      rw [hnow, hwas]
      simp only [hlast]
      by_cases hall : ∀ y ∈ ses, (w.session y).dev = d → y = x
      · rw [if_neg (fun hn => hn hall), if_pos ⟨hdev, hall⟩]
      · rw [if_pos hall, if_neg (fun hn => hall hn.2)]
    · rw [World.Life.closed_device x d hdev, if_neg (fun hn => hdev hn.1)]
      rfl

/-- The state after opening these namespaces of PCI devices, and then closing these sessions. -/
def sampleRun (opens : List (ℤ × ℤ)) (closes : List ℕ) : World :=
  closes.foldl (fun w x => final (unvmeDoClose x) w)
    (opens.foldl (fun w p => final (unvmeDoOpen sampleHost p.1 p.2 0 0) w) World.init)

theorem Sessions.openNext {L : List ℕ → Prop} {opens : List (ℤ × ℤ)} {ses : List ℕ}
    (h : Sessions sampleHost L (sampleRun opens []) ses) (p : ℤ × ℤ) (x : ℕ) (hint : IsInt p.1)
    (hL : (sampleRun opens []).firstOf p.1 = none → L ses)
    (hr : returns (unvmeDoOpen sampleHost p.1 p.2 0 0) (sampleRun opens [])
      (fun r _ => decide (r = some x)) = true) :
    Sessions sampleHost L (sampleRun (opens ++ [p]) []) (ses ++ [x]) := by
  have heq : sampleRun (opens ++ [p]) [] =
      final (unvmeDoOpen sampleHost p.1 p.2 0 0) (sampleRun opens []) := by
    simp only [sampleRun, List.foldl_append, List.foldl_cons, List.foldl_nil]
  rw [heq]
  exact h.opened p.1 p.2 0 0 x hint hL (eq_ok_of_returns hr)

theorem Sessions.closeNext {L : List ℕ → Prop} {opens : List (ℤ × ℤ)} {closes ses : List ℕ}
    (h : Sessions sampleHost L (sampleRun opens closes) ses) (x : ℕ) (hx : x ∈ ses)
    (hr : returns (unvmeDoClose x) (sampleRun opens closes) (fun r _ => decide (r = 0)) = true) :
    Sessions sampleHost L (sampleRun opens (closes ++ [x])) (ses.erase x) := by
  have heq : sampleRun opens (closes ++ [x]) = final (unvmeDoClose x) (sampleRun opens closes) := by
    simp only [sampleRun, List.foldl_append, List.foldl_cons, List.foldl_nil]
  rw [heq]
  exact h.closed x 0 hx (eq_ok_of_returns hr)

/-- Two namespaces of one device; the first session is closed. Closing the second one then tears the device
    down. -/
theorem device_lifetimes_shared :
    (sampleRun [(0xb30000, 1), (0xb30000, 2)] [0]).Lifetimes [1] ∧
      ∃ w', unvmeDoClose 1 (sampleRun [(0xb30000, 1), (0xb30000, 2)] [0]) = .ok 0 w' ∧
        (w'.device 0).deleted = 1 := by
  have h0 : Sessions sampleHost (fun ses => ses = []) (sampleRun [] []) [] := Sessions.init
  have h1 := h0.openNext (0xb30000, 1) 0 (by decide) (fun _ => rfl) (by decide +kernel)
  have hsame : (sampleRun [(0xb30000, 1)] []).firstOf 0xb30000 ≠ none := by decide +kernel
  have h2 := h1.openNext (0xb30000, 2) 1 (by decide) (fun hnone => absurd hnone hsame)
    (by decide +kernel)
  have h3 := h2.closeNext 0 (by decide) (by decide +kernel)
  obtain ⟨hlife, -, hclose⟩ := device_lifetimes h3
  refine ⟨hlife, ?_⟩
  obtain ⟨w', hr, -, hdel⟩ := hclose 1 (by decide)
  refine ⟨w', hr, ?_⟩
  rw [hdel 0 (by decide +kernel)]
  decide +kernel

/-- A namespace of one device and one of another; the first session is closed. The memory of the queues of
    the second device goes with it, though its session is open, and the close of that session stores to
    it. -/
theorem queues_unmapped :
    Sessions sampleHost (fun _ => True) (sampleRun [(0xb30000, 1), (0xb40000, 1)] [0]) [1] ∧
      ¬ (sampleRun [(0xb30000, 1), (0xb40000, 1)] [0]).Lifetimes [1] ∧
      (Op.outcome sampleHost (sampleRun [(0xb30000, 1), (0xb40000, 1)] [0]) (.close 1)).1 =
        .halted .segv := by
  have h0 : Sessions sampleHost (fun _ => True) (sampleRun [] []) [] := Sessions.init
  have h1 := h0.openNext (0xb30000, 1) 0 (by decide) (fun _ => trivial) (by decide +kernel)
  have h2 := h1.openNext (0xb40000, 1) 1 (by decide) (fun _ => trivial) (by decide +kernel)
  have h3 := h2.closeNext 0 (by decide) (by decide +kernel)
  refine ⟨h3, ?_, by decide +kernel⟩
  intro hlife
  have hmapped := (hlife.memory 1 (by decide +kernel)).2 ⟨1, by decide, by decide +kernel⟩
  exact absurd hmapped (by decide +kernel)

end Unvme.Session
