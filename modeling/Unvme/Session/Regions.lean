import Unvme.Core.Chunks
import Unvme.Core.PrpCover
import Unvme.Core.QueueInit
import Unvme.Session.Lifetime

set_option autoImplicit false

/-! # DMA memory across opens and closes

The DMA region, its base addresses and the allocator belong to the process, not to a device. Every new
device maps and registers a new region and starts the allocator on it (`vfio_create`, `aurora_init`); the
last close of a device unmaps the region there is (`vfio_delete`, `aurora_release`). So the blocks of an
open device survive as long as no other device is opened beside it. -/

namespace Unvme.Session

open Unvme.Lib Unvme.Core Unvme.Aurora

/-- A block that was handed out for a device: to one of its queues, or to a client. -/
structure LiveBlock where
  dma : Dma
  dev : ℕ
  queue : Bool
  deriving DecidableEq, Repr

def LiveBlock.span (b : LiveBlock) : Span := ⟨b.dma.buf, b.dma.size⟩

/-- The sessions of a process and its DMA memory. `env` has the base addresses of the region that was
    mapped last. -/
structure Process where
  world : World
  env : Env
  heap : Heap
  blocks : List LiveBlock

namespace Process

/-- The region that was mapped last still is mapped and registered. -/
def mapped (p : Process) : Bool := p.world.mapped p.world.vemva

/-- `aurora_init` on a region that has been mapped: the allocator starts on it. -/
def auroraInit (p : Process) (E : Env) : Process :=
  { p with env := E, heap := buddyInit E.vemva maxSize p.heap }

/-- `aurora_mem_alloc` by thread `t`, for a queue or a client of device `dev`. -/
def Allocates (t : Thread) (dev : ℕ) (queue : Bool) (size : ℕ) (p p' : Process) : Prop :=
  p.mapped = true ∧ ∃ d h', auroraMemAllocDma p.env t size p.heap = .ok d h' ∧
    p' = { p with heap := h', blocks := ⟨d, dev, queue⟩ :: p.blocks }

/-- `aurora_mem_free` of block `b` by thread `t`. -/
def Frees (t : Thread) (b : LiveBlock) (p p' : Process) : Prop :=
  b ∈ p.blocks ∧ ∃ h', auroraMemFree t b.dma.buf b.dma.size p.heap = .ok () h' ∧
    p' = { p with heap := h', blocks := p.blocks.erase b }

/-- These blocks are freed, one after the other. -/
def FreesAll (t : Thread) : List LiveBlock → Process → Process → Prop
  | [], p, p' => p' = p
  | b :: bs, p, p' => ∃ p₁, Frees t b p p₁ ∧ FreesAll t bs p₁ p'

/-- A buffer for the time of one command. -/
def Scratch (t : Thread) (dev size : ℕ) (p p' : Process) : Prop :=
  ∃ p₁ b, Allocates t dev true size p p₁ ∧ p₁.blocks = b :: p.blocks ∧ Frees t b p₁ p'

/-- `unvme_queue_init` in thread `t`, for device `dev`: three blocks more. -/
def QueueInit (t : Thread) (dev qsize pageshift : ℕ) (p p' : Process) : Prop :=
  p.mapped = true ∧ ∃ Q h', unvmeQueueInit p.env t qsize pageshift p.heap = .ok Q h' ∧
    p' = { p with
      heap := h'
      blocks := ⟨Q.prplist, dev, true⟩ :: ⟨Q.cqdma, dev, true⟩ :: ⟨Q.sqdma, dev, true⟩ :: p.blocks }

/-- The I/O queues of a device. -/
def IoQueues (t : Thread) (dev : ℕ) (ns : UnvmeNs) : ℕ → Process → Process → Prop
  | 0, p, p' => p' = p
  | n + 1, p, p' => ∃ p₁, IoQueues t dev ns n p p₁ ∧ QueueInit t dev ns.qsize ns.pageshift p₁ p'

/-- The memory of a new device with attributes `ns`: a new region, the admin queue, the identify page of
    the controller, the I/O queues, and the identify page of the namespace. -/
def CreateDevice (t : Thread) (E : Env) (dev : ℕ) (ns : UnvmeNs) (p p' : Process) : Prop :=
  ∃ p₁ p₂ p₃, QueueInit t dev 64 0 (p.auroraInit E) p₁ ∧ Scratch t dev 4096 p₁ p₂ ∧
    IoQueues t dev ns ns.qcount p₂ p₃ ∧ Scratch t dev ns.pagesize p₃ p'

/-- An open that fails on a new device: region and admin queue are there, and the identify page. -/
def RefuseDevice (t : Thread) (E : Env) (dev : ℕ) (p p' : Process) : Prop :=
  ∃ p₁, QueueInit t dev 64 0 (p.auroraInit E) p₁ ∧ Allocates t dev true 4096 p₁ p'

end Process

/-- The states reached by opens, closes, and requests for memory through open sessions, with the open
    sessions. `L` is a condition on opening a device that has no session. -/
inductive DmaRun (H : Host) (L : List ℕ → Prop) : Process → List ℕ → Prop
  | init (E : Env) {h : Heap} (hfresh : h.Fresh) : DmaRun H L ⟨World.init, E, h, []⟩ []
  /-- A further namespace of an open device. -/
  | openOld {p p' : Process} {ses : List ℕ} (hrun : DmaRun H L p ses) (t : Thread)
      {pci nsid qcount qsize : ℤ} {x y : ℕ} {w' : World} (hpci : IsInt pci)
      (hr : unvmeDoOpen H pci nsid qcount qsize p.world = .ok (some x) w')
      (hy : p.world.firstOf pci = some y)
      (hm : Process.Scratch t (w'.session x).dev (w'.session x).ns.pagesize { p with world := w' } p') :
      DmaRun H L p' (ses ++ [x])
  /-- The first namespace of a device. -/
  | openNew {p p' : Process} {ses : List ℕ} (hrun : DmaRun H L p ses) (t : Thread) (E : Env)
      {pci nsid qcount qsize : ℤ} {x : ℕ} {w' : World} (hpci : IsInt pci)
      (hr : unvmeDoOpen H pci nsid qcount qsize p.world = .ok (some x) w')
      (hnew : p.world.firstOf pci = none) (hL : L ses) (hE : 0 < E.vemva)
      (hm : Process.CreateDevice t E (w'.session x).dev (w'.device (w'.session x).dev).ns
        { p with world := w' } p') : DmaRun H L p' (ses ++ [x])
  /-- An open of an open device that returns NULL. -/
  | refused {p : Process} {ses : List ℕ} (hrun : DmaRun H L p ses) {pci nsid qcount qsize : ℤ} {y : ℕ}
      {w' : World} (hr : unvmeDoOpen H pci nsid qcount qsize p.world = .ok none w')
      (hy : p.world.firstOf pci = some y) : DmaRun H L { p with world := w' } ses
  /-- An open of a new device that returns NULL; what it allocated belongs to no session. -/
  | refusedNew {p p' : Process} {ses : List ℕ} (hrun : DmaRun H L p ses) (t : Thread) (E : Env)
      {pci nsid qcount qsize : ℤ} {w' : World}
      (hr : unvmeDoOpen H pci nsid qcount qsize p.world = .ok none w')
      (hnew : p.world.firstOf pci = none) (hL : L ses) (hE : 0 < E.vemva)
      (hm : Process.RefuseDevice t E p.world.ndev { p with world := w' } p') :
      DmaRun H L { p' with blocks := p.blocks } ses
  /-- A close that leaves the device open. -/
  | close {p : Process} {ses : List ℕ} (hrun : DmaRun H L p ses) {x : ℕ} {w' : World} (hx : x ∈ ses)
      (hr : unvmeDoClose x p.world = .ok 0 w')
      (hmore : (p.world.device (p.world.session x).dev).refcount ≠ 1) :
      DmaRun H L { p with world := w' } (ses.erase x)
  /-- The last close of a device: its queues are freed and the region is released. -/
  | closeLast {p p₁ : Process} {ses : List ℕ} (hrun : DmaRun H L p ses) (t : Thread) {x : ℕ}
      {w' : World} (bs : List LiveBlock) (hx : x ∈ ses)
      (hr : unvmeDoClose x p.world = .ok 0 w')
      (hlast : (p.world.device (p.world.session x).dev).refcount = 1)
      (hbs : bs.Perm (p.blocks.filter (fun b => b.queue && b.dev == (p.world.session x).dev)))
      (hm : Process.FreesAll t bs p p₁) :
      DmaRun H L { p₁ with
        world := w'
        blocks := p₁.blocks.filter (fun b => b.dev != (p.world.session x).dev) } (ses.erase x)
  /-- `unvme_alloc` through an open session. -/
  | alloc {p p' : Process} {ses : List ℕ} (hrun : DmaRun H L p ses) (t : Thread) {x : ℕ} (hx : x ∈ ses)
      (size : ℕ) (hm : Process.Allocates t (p.world.session x).dev false size p p') : DmaRun H L p' ses
  /-- `unvme_free`. -/
  | free {p p' : Process} {ses : List ℕ} (hrun : DmaRun H L p ses) (t : Thread) {b : LiveBlock}
      (hb : b.queue = false) (hm : Process.Frees t b p p') : DmaRun H L p' ses
  /-- A client, the driver or the controller writes to a block of an open device. -/
  | store {p : Process} {ses : List ℕ} (hrun : DmaRun H L p ses) {b : LiveBlock} {a : ℕ} (v : ℕ)
      (hb : b ∈ p.blocks) (ha : a ∈ b.span.bytes) :
      DmaRun H L { p with heap := p.heap.write (.node a) v } ses

/-- The blocks of open devices are where they were: in the region that is mapped and registered, at the
    bus address recorded for them, and apart from each other. -/
structure Process.Survives (p : Process) (ses : List ℕ) : Prop where
  inside : ∀ b ∈ p.blocks, (∃ x ∈ ses, (p.world.session x).dev = b.dev) → p.mapped = true ∧
    p.env.vemva ≤ b.dma.buf ∧ b.dma.buf + b.dma.size ≤ p.env.vemva + maxSize ∧
    auroraResolveAddr p.env b.dma.buf = .ok b.dma.addr
  apart : p.blocks.Pairwise (fun b c => ∀ a ∈ b.span.bytes, a ∉ c.span.bytes)

/-! ## Memory of one region -/

/-- The memory of the process: a mapped region whose live blocks are the ones handed out, at the bus
    addresses recorded for them. -/
structure Process.Healthy (p : Process) : Prop where
  mapped : p.mapped = true
  inv : System.Inv (dmaRegion p.env) ⟨p.heap, fun _ => .outside, p.blocks.map LiveBlock.span⟩
  addr : ∀ b ∈ p.blocks, b.dma.addr = p.env.pciVhsaa + (b.dma.buf - p.env.vemva)

/-- The threads and their lists, whatever the region. -/
structure Process.Tabled (p : Process) : Prop where
  tabled : p.heap.Tabled
  table : ∀ x < p.heap.freelistCurrentIndex, ∃ t : Thread, p.heap.freelistIndex t = some x

/-- Memory has changed, for device `dev` only. -/
structure Process.Uses (dev : ℕ) (p p' : Process) : Prop where
  world : p'.world = p.world
  env : p'.env = p.env
  blocks : ∀ b ∈ p'.blocks, b ∈ p.blocks ∨ b.dev = dev

namespace Process

variable {p p' p'' : Process} {t : Thread} {dev size : ℕ}

theorem Uses.refl (dev : ℕ) (p : Process) : Uses dev p p := ⟨rfl, rfl, fun _ hb => Or.inl hb⟩

theorem Uses.trans (h : Uses dev p p') (h' : Uses dev p' p'') : Uses dev p p'' := by
  refine ⟨h'.world.trans h.world, h'.env.trans h.env, ?_⟩
  intro b hb
  rcases h'.blocks b hb with hb | hb
  · exact h.blocks b hb
  · exact Or.inr hb

/-- The memory of a queue is requested block by block. -/
theorem queueInit_iff {qsize pageshift : ℕ} : QueueInit t dev qsize pageshift p p' ↔
    ∃ p₁ p₂, Allocates t dev true (qsize * 64) p p₁ ∧ Allocates t dev true (qsize * 16) p₁ p₂ ∧
      Allocates t dev true (prplistSize qsize pageshift) p₂ p' := by
  constructor
  · rintro ⟨hmapped, Q, h', hr, rfl⟩
    obtain ⟨h₁, h₂, prplist, hsq, hcq, hprp, hQ⟩ := unvmeQueueInit_ok hr
    refine ⟨_, _, ⟨hmapped, _, _, hsq, rfl⟩, ⟨hmapped, _, _, hcq, rfl⟩, hmapped, _, _, hprp, ?_⟩
    rw [DmaQueue.prplist, hQ, Queue.setup_prplist]
  · rintro ⟨p₁, p₂, ⟨hmapped, sqdma, h₁, hsq, rfl⟩, ⟨-, cqdma, h₂, hcq, rfl⟩, -, prplist, h₃, hprp,
      rfl⟩
    refine ⟨hmapped, _, h₃, unvmeQueueInit_of_ok hsq hcq hprp, ?_⟩
    rw [DmaQueue.prplist, Queue.setup_prplist]

namespace Healthy

theorem tabled (h : p.Healthy) : p.Tabled := by
  obtain ⟨A, g, -⟩ := h.inv.good
  exact ⟨g.tabled, h.inv.table⟩

theorem allocates (h : p.Healthy) {queue : Bool} (hm : Allocates t dev queue size p p') :
    p'.Healthy ∧ Uses dev p p' := by
  obtain ⟨-, d, h', hr, rfl⟩ := hm
  obtain ⟨n, a, -, hmalloc, ha, rfl⟩ := auroraMemAllocDma_ok hr
  have hinv := h.inv.malloc (fun _ => .outside) hmalloc
  rw [grant, if_neg ha] at hinv
  refine ⟨⟨h.mapped, hinv, ?_⟩, rfl, rfl, ?_⟩
  · intro b hb
    rcases List.mem_cons.1 hb with rfl | hb
    · rfl
    · exact h.addr b hb
  · intro b hb
    rcases List.mem_cons.1 hb with rfl | hb
    · exact Or.inr rfl
    · exact Or.inl hb

theorem frees (h : p.Healthy) {b : LiveBlock} (hm : Frees t b p p') : p'.Healthy ∧ Uses dev p p' := by
  obtain ⟨hb, h', hr, rfl⟩ := hm
  have hspan : b.span ∈ (p.blocks.map LiveBlock.span : Multiset Span) :=
    Multiset.mem_coe.2 (List.mem_map_of_mem hb)
  have hinv := h.inv.step (System.Step.free (t := t) (b := b.span) rfl hspan hr)
  have hlive : (p.blocks.map LiveBlock.span : Multiset Span).erase b.span =
      (p.blocks.erase b).map LiveBlock.span := by
    rw [← Multiset.map_coe, ← Multiset.map_coe, ← Multiset.coe_erase]
    conv_lhs => rw [← Multiset.cons_erase (Multiset.mem_coe.2 hb), Multiset.map_cons,
      Multiset.erase_cons_head]
  refine ⟨⟨h.mapped, ?_, ?_⟩, rfl, rfl, fun c hc => Or.inl (List.mem_of_mem_erase hc)⟩
  · rw [← hlive]
    exact hinv
  · intro c hc
    exact h.addr c (List.mem_of_mem_erase hc)

theorem freesAll (h : p.Healthy) {bs : List LiveBlock} (hm : FreesAll t bs p p') :
    p'.Healthy ∧ Uses dev p p' := by
  induction bs generalizing p with
  | nil =>
      obtain rfl : p' = p := hm
      exact ⟨h, Uses.refl dev p'⟩
  | cons b bs ih =>
      obtain ⟨p₁, hb, hm⟩ := hm
      obtain ⟨h₁, u₁⟩ : p₁.Healthy ∧ Uses dev p p₁ := h.frees hb
      obtain ⟨h₂, u₂⟩ := ih h₁ hm
      exact ⟨h₂, u₁.trans u₂⟩

theorem scratch (h : p.Healthy) (hm : Scratch t dev size p p') : p'.Healthy ∧ Uses dev p p' := by
  obtain ⟨p₁, b, halloc, -, hfree⟩ := hm
  obtain ⟨h₁, u₁⟩ := h.allocates halloc
  obtain ⟨h₂, u₂⟩ := h₁.frees hfree
  exact ⟨h₂, u₁.trans u₂⟩

theorem queueInit (h : p.Healthy) {qsize pageshift : ℕ} (hm : QueueInit t dev qsize pageshift p p') :
    p'.Healthy ∧ Uses dev p p' := by
  obtain ⟨p₁, p₂, hsq, hcq, hprp⟩ := queueInit_iff.1 hm
  obtain ⟨h₁, u₁⟩ := h.allocates hsq
  obtain ⟨h₂, u₂⟩ := h₁.allocates hcq
  obtain ⟨h₃, u₃⟩ := h₂.allocates hprp
  exact ⟨h₃, (u₁.trans u₂).trans u₃⟩

theorem ioQueues (h : p.Healthy) {ns : UnvmeNs} {n : ℕ} (hm : IoQueues t dev ns n p p') :
    p'.Healthy ∧ Uses dev p p' := by
  induction n generalizing p' with
  | zero =>
      obtain rfl : p' = p := hm
      exact ⟨h, Uses.refl dev p'⟩
  | succ n ih =>
      obtain ⟨p₁, hio, hq⟩ := hm
      obtain ⟨h₁, u₁⟩ := ih hio
      obtain ⟨h₂, u₂⟩ := h₁.queueInit hq
      exact ⟨h₂, u₁.trans u₂⟩

theorem store (h : p.Healthy) {b : LiveBlock} {a : ℕ} (v : ℕ) (hb : b ∈ p.blocks)
    (ha : a ∈ b.span.bytes) : Healthy { p with heap := p.heap.write (.node a) v } := by
  have hspan : b.span ∈ (p.blocks.map LiveBlock.span : Multiset Span) :=
    Multiset.mem_coe.2 (List.mem_map_of_mem hb)
  exact ⟨h.mapped, h.inv.step (System.Step.store (v := v) hspan ha), h.addr⟩

/-- A live block is a block of the allocator in the region, as the requests of a client need it. -/
theorem clientBlock (h : p.Healthy) {b : LiveBlock} (hb : b ∈ p.blocks) : ClientBlock p.env b.span := by
  obtain ⟨A, g, hlive⟩ := h.inv.good
  refine ClientBlock.of_live g.ok ?_
  rw [hlive]
  exact Multiset.mem_coe.2 (List.mem_map_of_mem hb)

/-- **The blocks of a mapped region are where they were.** -/
theorem survives (h : p.Healthy) (ses : List ℕ) : p.Survives ses := by
  constructor
  · intro b hb _
    obtain ⟨⟨i, -, hsize, k, hk⟩, hend⟩ := h.clientBlock hb
    have hstart : p.env.vemva ≤ b.dma.buf := by
      have hk' : b.dma.buf = p.env.vemva + k * b.dma.size := hk
      omega
    have hpos := blockSize_pos i
    dsimp only [LiveBlock.span] at hsize hend
    refine ⟨h.mapped, hstart, hend, ?_⟩
    unfold auroraResolveAddr
    rw [if_neg (by omega), h.addr b hb]
  · obtain ⟨A, g, hlive⟩ := h.inv.good
    have htiles := g.ok.tiles
    rw [Pool.spans, hlive, add_assoc] at htiles
    exact List.pairwise_map.1 htiles.pairwise

end Healthy

/-- A new region is healthy. -/
theorem Tabled.auroraInit (h : p.Tabled) {E : Env} (hE : 0 < E.vemva) (hblocks : p.blocks = [])
    (hmapped : p.mapped = true) : (p.auroraInit E).Healthy := by
  obtain ⟨g, -, hindex, hcur⟩ := buddyInit_dmaRegion h.tabled hE
  have hlive : (Pool.initial (dmaRegion E)).live =
      ((p.blocks.map LiveBlock.span : List Span) : Multiset Span) := by
    rw [hblocks]
    rfl
  refine ⟨hmapped, ⟨⟨Pool.initial (dmaRegion E), g, hlive⟩, ?_⟩, ?_⟩
  · have htable := h.table
    rw [← hindex, ← hcur] at htable
    exact htable
  · intro b hb
    have hb' : b ∈ p.blocks := hb
    rw [hblocks] at hb'
    cases hb'

theorem Tabled.createDevice (h : p.Tabled) {E : Env} {ns : UnvmeNs} (hE : 0 < E.vemva)
    (hblocks : p.blocks = []) (hm : CreateDevice t E dev ns p p') :
    p'.Healthy ∧ p'.world = p.world ∧ ∀ b ∈ p'.blocks, b.dev = dev := by
  obtain ⟨p₁, p₂, p₃, hadmin, hctlr, hio, hns⟩ := hm
  have h₀ := h.auroraInit hE hblocks hadmin.1
  obtain ⟨h₁, u₁⟩ := h₀.queueInit hadmin
  obtain ⟨h₂, u₂⟩ := h₁.scratch hctlr
  obtain ⟨h₃, u₃⟩ := h₂.ioQueues hio
  obtain ⟨h₄, u₄⟩ := h₃.scratch hns
  have u := ((u₁.trans u₂).trans u₃).trans u₄
  refine ⟨h₄, u.world, ?_⟩
  intro b hb
  rcases u.blocks b hb with hb | hb
  · have hb' : b ∈ p.blocks := hb
    rw [hblocks] at hb'
    cases hb'
  · exact hb

end Process

/-! ## One device at a time -/

/-- The state of a process that has opened devices one at a time. -/
structure Process.OneDevice (H : Host) (p : Process) (ses : List ℕ) : Prop where
  table : p.Tabled
  life : p.world.lock = 0 → p.world.Life H ses
  one : ∀ x ∈ ses, ∀ y ∈ ses, (p.world.session x).dev = (p.world.session y).dev
  dev : ∀ b ∈ p.blocks, ∃ x ∈ ses, (p.world.session x).dev = b.dev
  healthy : ses ≠ [] → p.Healthy

namespace Process.OneDevice

variable {H : Host} {p p' : Process} {ses : List ℕ} {t : Thread}

theorem blocks_nil (h : p.OneDevice H []) : p.blocks = [] := by
  rw [List.eq_nil_iff_forall_not_mem]
  intro b hb
  obtain ⟨x, hx, -⟩ := h.dev b hb
  cases hx

/-- Memory was used for the open device. -/
theorem uses (h : p.OneDevice H ses) {x : ℕ} (hx : x ∈ ses) (hp' : p'.Healthy)
    (hu : Process.Uses (p.world.session x).dev p p') : p'.OneDevice H ses := by
  refine ⟨hp'.tabled, ?_, ?_, ?_, fun _ => hp'⟩
  · rw [hu.world]
    exact h.life
  · rw [hu.world]
    exact h.one
  · intro b hb
    rw [hu.world]
    rcases hu.blocks b hb with hb | hb
    · exact h.dev b hb
    · exact ⟨x, hx, hb.symm⟩

theorem openOld (h : p.OneDevice H ses) {pci nsid qcount qsize : ℤ} {x y : ℕ} {w' : World}
    (hpci : IsInt pci) (hr : unvmeDoOpen H pci nsid qcount qsize p.world = .ok (some x) w')
    (hy : p.world.firstOf pci = some y)
    (hm : Process.Scratch t (w'.session x).dev (w'.session x).ns.pagesize { p with world := w' } p') :
    p'.OneDevice H (ses ++ [x]) := by
  have hlife := h.life (lock_eq_zero_of_open hr)
  obtain ⟨dev, idns, ho⟩ := unvmeDoOpen_ok hlife.wf hr
  obtain ⟨hyses, -⟩ := hlife.wf.firstOf_mem hy
  have hdevices := ho.devices
  rw [World.OpensDevice, hy] at hdevices
  obtain ⟨hdev, -, -, hvemva, hsame⟩ := hdevices
  have hold : ∀ z ∈ ses, w'.session z = p.world.session z := fun z hz => ho.session_old hlife.wf hz
  have hnew : (w'.session x).dev = (p.world.session y).dev := by
    rw [ho.session_self]
    exact hdev
  -- all sessions are of the device of `y`
  have hall : ∀ z ∈ ses ++ [x], (w'.session z).dev = (p.world.session y).dev := by
    intro z hz
    rcases List.mem_append.1 hz with hz | hz
    · rw [hold z hz]
      exact h.one z hz y hyses
    · rw [List.mem_singleton.1 hz]
      exact hnew
  have h₀ : Process.OneDevice H { p with world := w' } (ses ++ [x]) := by
    have hp := h.healthy (List.ne_nil_of_mem hyses)
    have hmapped : Process.mapped { p with world := w' } = true := by
      rw [Process.mapped, hvemva, hsame]
      exact hp.mapped
    refine ⟨⟨h.table.tabled, h.table.table⟩, fun _ => hlife.open_ok hpci hr, ?_, ?_,
      fun _ => ⟨hmapped, hp.inv, hp.addr⟩⟩
    · intro z hz z' hz'
      exact (hall z hz).trans (hall z' hz').symm
    · intro b hb
      obtain ⟨z, hz, hbz⟩ := h.dev b hb
      refine ⟨z, List.mem_append_left _ hz, ?_⟩
      rw [← hbz]
      exact congrArg UnvmeSession.dev (hold z hz)
  have hx : x ∈ ses ++ [x] := by simp
  obtain ⟨hp', hu⟩ := (h₀.healthy (List.ne_nil_of_mem hx)).scratch hm
  exact h₀.uses hx hp' hu

theorem openNew (h : p.OneDevice H []) {E : Env} {pci nsid qcount qsize : ℤ} {x : ℕ} {w' : World}
    (hpci : IsInt pci) (hr : unvmeDoOpen H pci nsid qcount qsize p.world = .ok (some x) w')
    (hE : 0 < E.vemva) {ns : UnvmeNs}
    (hm : Process.CreateDevice t E (w'.session x).dev ns { p with world := w' } p') :
    p'.OneDevice H [x] := by
  have hlife := h.life (lock_eq_zero_of_open hr)
  have htab : Process.Tabled { p with world := w' } := ⟨h.table.tabled, h.table.table⟩
  obtain ⟨hp', hworld, hdev⟩ := htab.createDevice hE h.blocks_nil hm
  refine ⟨hp'.tabled, ?_, ?_, ?_, fun _ => hp'⟩
  · rw [hworld]
    exact fun _ => hlife.open_ok hpci hr
  · intro y hy z hz
    rw [List.mem_singleton.1 hy, List.mem_singleton.1 hz]
  · intro b hb
    rw [hworld, hdev b hb]
    exact ⟨x, List.mem_singleton_self x, rfl⟩

theorem refused (h : p.OneDevice H ses) {pci nsid qcount qsize : ℤ} {y : ℕ} {w' : World}
    (hr : unvmeDoOpen H pci nsid qcount qsize p.world = .ok none w')
    (hy : p.world.firstOf pci = some y) : Process.OneDevice H { p with world := w' } ses := by
  obtain ⟨h0, h1⟩ := unvmeDoOpen_null hr
  have hs : p.world.SameSessions w' := by
    rcases (unvmeDoOpen_spec (h.life h0).wf pci nsid qcount qsize).of_ok hr with
      ⟨-, -, hs⟩ | ⟨x, hx, -⟩
    · exact hs
    · cases hx
  refine ⟨⟨h.table.tabled, h.table.table⟩, ?_, ?_, ?_, ?_⟩
  · intro hlock
    rw [h1] at hlock
    exact absurd hlock (by decide)
  · show ∀ x ∈ ses, ∀ y ∈ ses, (w'.session x).dev = (w'.session y).dev
    rw [hs.session]
    exact h.one
  · show ∀ b ∈ p.blocks, ∃ x ∈ ses, (w'.session x).dev = b.dev
    rw [hs.session]
    exact h.dev
  · intro hne
    have hp := h.healthy hne
    obtain ⟨hvemva, hsame⟩ := unvmeDoOpen_refused (h.life h0).wf hr hy
    refine ⟨?_, hp.inv, hp.addr⟩
    rw [Process.mapped, hvemva, hsame]
    exact hp.mapped

theorem refusedNew (h : p.OneDevice H []) {E : Env} {dev : ℕ} {pci nsid qcount qsize : ℤ} {w' : World}
    (hr : unvmeDoOpen H pci nsid qcount qsize p.world = .ok none w') (hE : 0 < E.vemva)
    (hm : Process.RefuseDevice t E dev { p with world := w' } p') :
    Process.OneDevice H { p' with blocks := p.blocks } [] := by
  obtain ⟨p₁, hadmin, hpage⟩ := hm
  have htab : Process.Tabled { p with world := w' } := ⟨h.table.tabled, h.table.table⟩
  obtain ⟨hp₁, hu₁⟩ := (htab.auroraInit hE h.blocks_nil hadmin.1).queueInit hadmin
  obtain ⟨hp', hu'⟩ := hp₁.allocates hpage
  refine ⟨⟨hp'.tabled.tabled, hp'.tabled.table⟩, ?_, nofun, ?_, fun hne => absurd rfl hne⟩
  · intro hlock
    have hworld : p'.world = w' := (hu₁.trans hu').world
    have hlock' : p'.world.lock = 0 := hlock
    rw [hworld, (unvmeDoOpen_null hr).2] at hlock'
    exact absurd hlock' (by decide)
  · intro b hb
    have hb' : b ∈ p.blocks := hb
    rw [h.blocks_nil] at hb'
    cases hb'

/-- The reference count of the one device is the number of sessions. -/
theorem refcount (h : p.OneDevice H ses) (hlock : p.world.lock = 0) {x : ℕ} (hx : x ∈ ses) :
    (p.world.device (p.world.session x).dev).refcount = ses.length := by
  have hlife := h.life hlock
  have hall : ∀ y ∈ ses, ((p.world.session y).dev == (p.world.session x).dev) = true := by
    intro y hy
    exact beq_iff_eq.2 (h.one y hy x hx)
  rw [hlife.refcount _ (hlife.wf.dev x hx), List.countP_eq_length.2 hall]

theorem erase_eq_nil {x : ℕ} (hx : x ∈ ses) : ses.erase x = [] ↔ ses.length = 1 := by
  rw [← List.length_eq_zero_iff, List.length_erase_of_mem hx]
  have := List.length_pos_of_mem hx
  omega

theorem close (h : p.OneDevice H ses) {x : ℕ} {w' : World} (hx : x ∈ ses)
    (hr : unvmeDoClose x p.world = .ok 0 w')
    (hmore : (p.world.device (p.world.session x).dev).refcount ≠ 1) :
    Process.OneDevice H { p with world := w' } (ses.erase x) := by
  have hlock := lock_eq_zero_of_close hr
  obtain ⟨-, rfl, hlife⟩ := (h.life hlock).close_ok hx hr
  have hne : ses.erase x ≠ [] := by
    intro hnil
    rw [h.refcount hlock hx, (erase_eq_nil hx).1 hnil] at hmore
    exact hmore rfl
  obtain ⟨y, hy⟩ := List.exists_mem_of_ne_nil _ hne
  refine ⟨⟨h.table.tabled, h.table.table⟩, fun _ => hlife, ?_, ?_, ?_⟩
  · intro z hz z' hz'
    exact h.one z (List.mem_of_mem_erase hz) z' (List.mem_of_mem_erase hz')
  · intro b hb
    obtain ⟨z, hz, hbz⟩ := h.dev b hb
    exact ⟨y, hy, (h.one y (List.mem_of_mem_erase hy) z hz).trans hbz⟩
  · intro _
    have hp := h.healthy (List.ne_nil_of_mem hx)
    have hsame : (p.world.closed x).mapped = p.world.mapped := by
      simp only [World.closed, World.left]
      rw [if_neg (by omega)]
    refine ⟨?_, hp.inv, hp.addr⟩
    rw [Process.mapped, hsame]
    exact hp.mapped

theorem closeLast (h : p.OneDevice H ses) {p₁ : Process} {x : ℕ} {w' : World} {bs : List LiveBlock}
    (hx : x ∈ ses) (hr : unvmeDoClose x p.world = .ok 0 w')
    (hlast : (p.world.device (p.world.session x).dev).refcount = 1)
    (hm : Process.FreesAll t bs p p₁) :
    Process.OneDevice H { p₁ with
      world := w'
      blocks := p₁.blocks.filter (fun b => b.dev != (p.world.session x).dev) } (ses.erase x) := by
  have hlock := lock_eq_zero_of_close hr
  obtain ⟨-, rfl, hlife⟩ := (h.life hlock).close_ok hx hr
  have hnil : ses.erase x = [] := by
    rw [erase_eq_nil hx]
    rw [h.refcount hlock hx] at hlast
    exact_mod_cast hlast
  obtain ⟨hp₁, hu⟩ : _ ∧ Process.Uses (p.world.session x).dev _ _ :=
    (h.healthy (List.ne_nil_of_mem hx)).freesAll hm
  refine ⟨⟨hp₁.tabled.tabled, hp₁.tabled.table⟩, fun _ => hlife, ?_, ?_, fun hne => absurd hnil hne⟩
  · intro z hz
    rw [hnil] at hz
    cases hz
  · intro b hb
    obtain ⟨hb, hdev⟩ := List.mem_filter.1 hb
    -- all blocks are of the device that was closed
    have hsame : b.dev = (p.world.session x).dev := by
      rcases hu.blocks b hb with hb | hb
      · obtain ⟨z, hz, hbz⟩ := h.dev b hb
        rw [← hbz]
        exact h.one z hz x hx
      · exact hb
    rw [hsame] at hdev
    simp at hdev

end Process.OneDevice

/-- **A process that opens devices one at a time keeps its blocks in order.** -/
theorem DmaRun.oneDevice {H : Host} {p : Process} {ses : List ℕ}
    (hrun : DmaRun H (fun ses => ses = []) p ses) : p.OneDevice H ses := by
  induction hrun with
  | init E hfresh =>
      refine ⟨⟨hfresh.tabled, ?_⟩, fun _ => World.Life.init H, nofun, nofun, fun hne => absurd rfl hne⟩
      intro x hx
      rw [hfresh.current] at hx
      exact absurd hx (Nat.not_lt_zero x)
  | openOld _ t hpci hr hy hm ih => exact ih.openOld hpci hr hy hm
  | openNew _ t E hpci hr _ hL hE hm ih =>
      subst hL
      exact ih.openNew hpci hr hE hm
  | refused _ hr hy ih => exact ih.refused hr hy
  | refusedNew _ t E hr _ hL hE hm ih =>
      subst hL
      exact ih.refusedNew hr hE hm
  | close _ hx hr hmore ih => exact ih.close hx hr hmore
  | closeLast _ t bs hx hr hlast _ hm ih => exact ih.closeLast hx hr hlast hm
  | alloc _ t hx size hm ih =>
      obtain ⟨hp', hu⟩ := (ih.healthy (List.ne_nil_of_mem hx)).allocates hm
      exact ih.uses hx hp' hu
  | free _ t _ hm ih =>
      obtain ⟨x, hx, -⟩ := ih.dev _ hm.1
      obtain ⟨hp', hu⟩ := (ih.healthy (List.ne_nil_of_mem hx)).frees hm
      exact ih.uses hx hp' hu
  | store _ v hb ha ih =>
      obtain ⟨x, hx, -⟩ := ih.dev _ hb
      have hp' := (ih.healthy (List.ne_nil_of_mem hx)).store v hb ha
      exact ih.uses hx hp' ⟨rfl, rfl, fun c hc => Or.inl hc⟩

/-- **Live DMA memory survives opens and closes**, in every run that opens a new device only while no
    session is open. -/
theorem dma_survives {H : Host} {p : Process} {ses : List ℕ}
    (hrun : DmaRun H (fun ses => ses = []) p ses) : p.Survives ses := by
  have h := hrun.oneDevice
  by_cases hnil : ses = []
  · subst hnil
    refine ⟨?_, ?_⟩
    · rintro b - ⟨x, hx, -⟩
      cases hx
    · rw [h.blocks_nil]
      exact List.Pairwise.nil
  · exact (h.healthy hnil).survives ses

/-! ## Two devices -/

/-- The first thread can make `n` more requests without running out of memory. -/
structure Process.Ready (n : ℕ) (p : Process) : Prop where
  mapped : p.mapped = true
  lock : p.heap.lock = 0
  room : p.heap.Room (0 : Thread)
  stock : ∃ A, p.heap.Good (dmaRegion p.env) A ∧ n * 66 < A.global.length

/-- Blocks were added, and nothing else of the process has changed but its allocator. -/
structure Process.Grows (p p' : Process) : Prop where
  world : p'.world = p.world
  env : p'.env = p.env
  blocks : p.blocks ⊆ p'.blocks

namespace Process

variable {p p' p'' : Process} {n size : ℕ}

theorem Grows.trans (h : p.Grows p') (h' : p'.Grows p'') : p.Grows p'' :=
  ⟨h'.world.trans h.world, h'.env.trans h.env, fun _ hb => h'.blocks (h.blocks hb)⟩

theorem room_of_sameThreads {h h' : Heap} {t x : ℕ} (hx : (h.register t).freelistIndex t = some x)
    (hsame : (h.register t).SameThreads h') : h'.Room t := by
  refine Or.inl ?_
  rw [hsame.index, hx]
  exact Option.some_ne_none x

/-- A request of at most the largest block is served. -/
theorem Ready.malloc (h : p.Ready (n + 1)) (hsize : size ≤ maxbytes) :
    ∃ d h' i L A', auroraMemAllocDma p.env (0 : Thread) size p.heap = .ok d h' ∧ i < entryMax ∧
      d.size = blockSize i ∧ h'.lock = 0 ∧ h'.Room (0 : Thread) ∧ h'.Good (dmaRegion p.env) A' ∧
      A'.live = ⟨d.buf, d.size⟩ ::ₘ L ∧ n * 66 < A'.global.length := by
  obtain ⟨A, g, hlen⟩ := h.stock
  have h9 : dmaStep 9 = maxbytes := by norm_num [dmaStep, maxbytes]
  have hmax : maxbytes = 2 ^ 21 := by norm_num [maxbytes]
  obtain ⟨k, hk, -, hleast⟩ := dmaSize_eq (show size ≤ 2 ^ 63 by omega)
  have hi : k + 3 < entryMax := by
    have := hleast 9 (by omega)
    unfold entryMax
    omega
  obtain ⟨x, hx, hspec⟩ := g.malloc h.room hi
  obtain ⟨a, h', hm, hpost⟩ := (wp_mono hspec (fun _ _ hQ => hQ)
    (fun e h' hE => hE.2.2.1 (Heap.register_lock.trans h.lock))).exists_ok
  rw [← dmaStep_eq] at hm
  have halloc := auroraMemAllocDma_of_ok (E := p.env) hk hm
  rcases hpost with ⟨-, -, -, hempty, -⟩ | ⟨ha, hlock, hsame, A', g', hlive, hlen', -⟩
  · rw [hempty] at hlen
    exact absurd hlen (Nat.not_lt_zero _)
  · rw [if_neg ha] at halloc
    refine ⟨_, h', k + 3, A.live, A', halloc, hi, dmaStep_eq k, ?_, room_of_sameThreads hx hsame, g',
      ?_, by omega⟩
    · rw [hlock, Heap.register_lock, h.lock]
    · rw [hlive, ← dmaStep_eq]

theorem Ready.allocates (h : p.Ready (n + 1)) (dev : ℕ) (hsize : size ≤ maxbytes) (queue : Bool) :
    ∃ p', Allocates 0 dev queue size p p' ∧ p'.Ready n ∧ p.Grows p' ∧
      ∃ b ∈ p'.blocks, b.dev = dev := by
  obtain ⟨d, h', -, -, A', halloc, -, -, hlock, hroom, g', -, hlen⟩ := h.malloc hsize
  refine ⟨_, ⟨h.mapped, d, h', halloc, rfl⟩, ⟨h.mapped, hlock, hroom, A', g', hlen⟩,
    ⟨rfl, rfl, List.subset_cons_self _ _⟩, _, List.mem_cons_self, rfl⟩

theorem Ready.scratch (h : p.Ready (n + 1)) (dev : ℕ) (hsize : size ≤ maxbytes) :
    ∃ p', Scratch 0 dev size p p' ∧ p'.Ready n ∧ p.Grows p' := by
  obtain ⟨d, h', i, L, A', halloc, hi, hd, hlock, hroom, g', hlive, hlen⟩ := h.malloc hsize
  rw [hd] at hlive
  obtain ⟨x, hx, hspec⟩ := g'.free hroom hi hlive
  obtain ⟨⟨⟩, h'', hf, hlock', hsame, A'', g'', -, hglobal, -⟩ := hspec.exists_ok
  rw [← hd] at hf
  refine ⟨_, ⟨_, ⟨d, dev, true⟩, ⟨h.mapped, d, h', halloc, rfl⟩, rfl, List.mem_cons_self, h'', hf, rfl⟩,
    ⟨h.mapped, ?_, room_of_sameThreads hx hsame, A'', g'', ?_⟩, ⟨rfl, rfl, ?_⟩⟩
  · show h''.lock = 0
    rw [hlock', Heap.register_lock, hlock]
  · rw [hglobal]
    exact hlen
  · show p.blocks ⊆ (⟨d, dev, true⟩ :: p.blocks).erase ⟨d, dev, true⟩
    rw [List.erase_cons_head]
    exact List.Subset.refl _

theorem Ready.queueInit (h : p.Ready (n + 3)) (dev qsize pageshift : ℕ)
    (hq : qsize * 64 ≤ maxbytes) (hprp : prplistSize qsize pageshift ≤ maxbytes) :
    ∃ p', QueueInit 0 dev qsize pageshift p p' ∧ p'.Ready n ∧ p.Grows p' ∧
      ∃ b ∈ p'.blocks, b.dev = dev := by
  obtain ⟨p₁, ha₁, h₁, g₁, -⟩ := h.allocates dev hq true
  obtain ⟨p₂, ha₂, h₂, g₂, -⟩ := h₁.allocates dev
    (show qsize * 16 ≤ maxbytes by omega) true
  obtain ⟨p₃, ha₃, h₃, g₃, hb⟩ := h₂.allocates dev hprp true
  exact ⟨p₃, queueInit_iff.2 ⟨p₁, p₂, ha₁, ha₂, ha₃⟩, h₃, (g₁.trans g₂).trans g₃, hb⟩

/-- A device with one I/O queue and pages of 4 KiB can be created. -/
theorem exists_createDevice (dev : ℕ) (ns : UnvmeNs) (htab : p.Tabled) (hlock : p.heap.lock = 0)
    (hmapped : p.mapped = true) {E : Env} (hE : 0 < E.vemva)
    (hns : ns.qcount = 1 ∧ ns.qsize = 256 ∧ ns.pageshift = 12 ∧ ns.pagesize = 4096) :
    ∃ p', CreateDevice 0 E dev ns p p' ∧ p'.world = p.world ∧ p'.env = E ∧ p.blocks ⊆ p'.blocks ∧
      (∃ b ∈ p'.blocks, b.dev = dev) ∧ p'.Ready 0 ∧ p'.heap.Tabled := by
  obtain ⟨hqc, hqs, hps, hpg⟩ := hns
  obtain ⟨g, hl, hindex, hcur⟩ := buddyInit_dmaRegion htab.tabled hE
  have hmax : maxbytes = 2 ^ 21 := by norm_num [maxbytes]
  have h₀ : (p.auroraInit E).Ready 8 := by
    refine ⟨hmapped, hl.trans hlock, ?_, _, g, ?_⟩
    · refine Heap.room_of_table ?_ 0
      have htable := htab.table
      rw [← hindex, ← hcur] at htable
      exact htable
    · rw [Pool.initial_length, dmaRegion_blocks]
      omega
  obtain ⟨p₁, hq₁, h₁, g₁, b, hb, hdev⟩ := h₀.queueInit dev 64 0 (by omega) (by rw [hmax]; decide)
  obtain ⟨p₂, hs₂, h₂, g₂⟩ := h₁.scratch dev
    (show 4096 ≤ maxbytes by omega)
  obtain ⟨p₃, hq₃, h₃, g₃, -⟩ := h₂.queueInit dev 256 12 (by omega) (by rw [hmax]; decide)
  obtain ⟨p₄, hs₄, h₄, g₄⟩ := h₃.scratch dev
    (show 4096 ≤ maxbytes by omega)
  have hgrow := ((g₁.trans g₂).trans g₃).trans g₄
  obtain ⟨A, g', -⟩ := h₄.stock
  refine ⟨p₄, ⟨p₁, p₂, p₃, hq₁, hs₂, ?_, ?_⟩, hgrow.world, hgrow.env, hgrow.blocks,
    ⟨b, ((g₂.trans g₃).trans g₄).blocks hb, hdev⟩, h₄, g'.tabled⟩
  · rw [hqc]
    refine ⟨p₂, rfl, ?_⟩
    rw [hqs, hps]
    exact hq₃
  · rw [hpg]
    exact hs₄

end Process

/-- A region elsewhere. -/
def otherEnv : Env where
  ns := mappedEnv.ns
  vemva := 2 ^ 40
  pciVhsaa := 2 ^ 40
  media := mappedEnv.media
  inSpace := regionEnv.inSpace

/-- A process that has opened one namespace, with the memory of its device. -/
theorem exists_opened : ∃ p : Process, (∀ L : List ℕ → Prop, L [] → DmaRun sampleHost L p [0]) ∧
    p.world = sampleRun [(0xb30000, 1)] [] ∧ p.env = mappedEnv ∧ (∃ b ∈ p.blocks, b.dev = 0) ∧
    p.heap.lock = 0 := by
  have hr : unvmeDoOpen sampleHost 0xb30000 1 0 0 World.init =
      .ok (some 0) (sampleRun [(0xb30000, 1)] []) := eq_ok_of_returns (by decide +kernel)
  have hdev : ((sampleRun [(0xb30000, 1)] []).session 0).dev = 0 := by decide +kernel
  have htab : Process.Tabled ⟨sampleRun [(0xb30000, 1)] [], mappedEnv, Heap.blank, []⟩ :=
    ⟨Heap.blank_fresh.tabled, nofun⟩
  obtain ⟨p, hcreate, hworld, henv, -, hb, hready, -⟩ := Process.exists_createDevice
    ((sampleRun [(0xb30000, 1)] []).session 0).dev
    ((sampleRun [(0xb30000, 1)] []).device ((sampleRun [(0xb30000, 1)] []).session 0).dev).ns
    htab rfl (by decide +kernel) (E := mappedEnv) (by decide) (by decide +kernel)
  refine ⟨p, ?_, hworld, henv, ?_, hready.lock⟩
  · intro L hL
    exact (DmaRun.init mappedEnv Heap.blank_fresh).openNew 0 mappedEnv (by decide) hr
      (by decide +kernel) hL (by decide) hcreate
  · rw [hdev] at hb
    exact hb

/-- The queues of a device that is open alone. -/
theorem dma_survives_alone : ∃ p : Process, DmaRun sampleHost (fun ses => ses = []) p [0] ∧
    (∃ b ∈ p.blocks, b.dev = 0) ∧ p.Survives [0] := by
  obtain ⟨p, hrun, -, -, hb, -⟩ := exists_opened
  exact ⟨p, hrun _ rfl, hb, dma_survives (hrun _ rfl)⟩

/-- A second device is opened: the queues of the first one are outside of the region that is mapped and
    registered now. -/
theorem dma_lost : ∃ p : Process, DmaRun sampleHost (fun _ => True) p [0, 1] ∧
    ¬ p.Survives [0, 1] := by
  obtain ⟨p, hrun, hworld, henv, ⟨b, hb, hdev⟩, hlock⟩ := exists_opened
  have hone := (hrun (fun ses => ses = []) rfl).oneDevice
  have hr : unvmeDoOpen sampleHost 0xb40000 1 0 0 (sampleRun [(0xb30000, 1)] []) =
      .ok (some 1) (sampleRun [(0xb30000, 1), (0xb40000, 1)] []) :=
    eq_ok_of_returns (by decide +kernel)
  have htab : Process.Tabled { p with world := sampleRun [(0xb30000, 1), (0xb40000, 1)] [] } :=
    ⟨hone.table.tabled, hone.table.table⟩
  have hmapped : (sampleRun [(0xb30000, 1), (0xb40000, 1)] []).mapped
      (sampleRun [(0xb30000, 1), (0xb40000, 1)] []).vemva = true := by decide +kernel
  obtain ⟨p', hcreate, hworld', henv', hblocks, -⟩ := Process.exists_createDevice
    ((sampleRun [(0xb30000, 1), (0xb40000, 1)] []).session 1).dev
    ((sampleRun [(0xb30000, 1), (0xb40000, 1)] []).device
      ((sampleRun [(0xb30000, 1), (0xb40000, 1)] []).session 1).dev).ns
    htab hlock hmapped (E := otherEnv) (by decide) (by decide +kernel)
  have hworld'' : p'.world = sampleRun [(0xb30000, 1), (0xb40000, 1)] [] := hworld'
  have hfirst : p.world.firstOf 0xb40000 = none := by
    rw [hworld]
    decide +kernel
  rw [← hworld] at hr
  refine ⟨p', (hrun _ trivial).openNew 0 otherEnv (by decide) hr hfirst trivial (by decide) hcreate, ?_⟩
  intro hs
  -- the block is in the first region, which ends below the second
  have hin := (hone.healthy (by decide)).survives [0]
  obtain ⟨-, -, hend, -⟩ := hin.inside b hb ⟨0, by decide, by rw [hworld, hdev]; decide +kernel⟩
  obtain ⟨-, hstart, -, -⟩ := hs.inside b (hblocks hb)
    ⟨0, by decide, by rw [hworld'', hdev]; decide +kernel⟩
  rw [henv] at hend
  rw [henv'] at hstart
  have hbelow : mappedEnv.vemva + maxSize < otherEnv.vemva := by decide +kernel
  omega

end Unvme.Session
