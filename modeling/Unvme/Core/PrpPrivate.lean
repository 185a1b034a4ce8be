import Unvme.Core.QueueInit
import Unvme.Core.QueueSafety
import Unvme.Core.Traffic

set_option autoImplicit false

/-! # The PRP lists of a device

All queues of an opened device share the memory; each has a PRP list allocation of its own, made by
`unvme_queue_init` for `qsize << dev->ns.pageshift` bytes. For the admin queue this happens before the
page shift is known, so its allocation is the smallest block, a single page of 4096 bytes.

`DevRun` is the runs of all queues of a device: rounds of `Runs.lean` on one queue after the other.
`prp_lists_private_iff` says when the lists of commands in flight are private, and
`admin_prp_list_outside` gives a run in which they are not. -/

namespace Unvme.Core

open Unvme.Lib Unvme.Nvme Unvme.Aurora

/-- A queue of a device with `n` I/O queues: the admin queue (`qid` -1) is `none`. -/
abbrev Qid (n : ℕ) := Option (Fin n)

/-- The queue depth `unvme_do_open` gives to `unvme_queue_init`. -/
def Qid.qsize {n : ℕ} : Qid n → ℕ
  | none => 64
  | some _ => 256

/-- `dev->ns.pageshift` when the queue is created: the device context is zeroed, and the controller's
    page shift is stored after the admin queue has been created. -/
def Qid.pageshift {n : ℕ} (ns : Ns) : Qid n → ℕ
  | none => 0
  | some _ => ns.pageshift

/-- An opened device with a namespace, and its controller. The lists are as `vfio_dma_alloc` returned them, in
    blocks of the size the allocator chooses; DMA memory is registered in units of 64 MB. Blocks have
    512 bytes at least, and `unvme_ns_init` has computed `maxbpio` from a number of pages whose list fits into
    a page. The controller keeps to the transfers of the commands of each queue, and for a read or write it
    moves the blocks that the entry names. -/
structure OpenDevice (E : Env) (n : ℕ) where
  qcount : 0 < n
  prplist : Qid n → Dma
  size : ∀ i : Qid n, dmaSize (prplistSize i.qsize (i.pageshift E.ns)) = some (prplist i).size
  served : ∀ i, (prplist i).size ≤ maxbytes
  block : ∀ i, E.Block (prplist i)
  disjoint : ∀ i j, i ≠ j → ∀ a, (prplist i).Holds a → ¬ (prplist j).Holds a
  base : E.pciVhsaa % 2 ^ 26 = 0
  geometry : E.ns.Geometry
  sector : 9 ≤ E.ns.blockshift
  maxppio : ℕ
  onePage : maxppio ≤ E.ns.pagesize / 8
  maxbpio : E.ns.maxbpio = maxppio <<< (E.ns.pageshift - E.ns.blockshift) % 2 ^ 16
  media : Qid n → Media
  len : Qid n → SqEntry → ℕ
  keepsTo : ∀ i, (media i).KeepsTo (2 ^ E.ns.pageshift) (host E) (len i)
  rwLen : ∀ q e, e.opc = nvmeCmdRead ∨ e.opc = nvmeCmdWrite →
    len (some q) e = e.dataLen E.ns.blockshift

/-- What queue `i` is run against. -/
def OpenDevice.env {E : Env} {n : ℕ} (D : OpenDevice E n) (i : Qid n) : Env := { E with media := D.media i }

/-- After an operation of queue `i` the others see its memory and medium. -/
def share {n : ℕ} (S : Qid n → Sys) (i : Qid n) (s : Sys) : Qid n → Sys := fun j =>
  if j = i then s
  else { S j with dev := { (S j).dev with mem := s.dev.mem, disk := s.dev.disk } }

/-- A block that `unvme_alloc` has returned: a client's, and not one of the lists. -/
structure OpenDevice.Owns {E : Env} {n : ℕ} (D : OpenDevice E n) (b : Span) : Prop where
  client : ClientBlock E b
  apart : ∀ i, b.start + b.size ≤ (D.prplist i).buf ∨ (D.prplist i).buf + (D.prplist i).size ≤ b.start

/-- Requests are for blocks of clients, at most as long as the block. Reads and writes go to I/O queues; of a
    generic command the controller moves the `bufsz` bytes, or not more than a page of them. Only descriptors
    not yet released are polled, and clients do not write into PRP lists. -/
def OpenDevice.Legal {E : Env} {n : ℕ} (D : OpenDevice E n) (i : Qid n) (s : Sys) : Round → Prop
  | .call (.rw _ opc buf slba nlb) _ => i ≠ none ∧ (opc = nvmeCmdRead ∨ opc = nvmeCmdWrite) ∧
      slba < 2 ^ 64 ∧ ∃ b, D.Owns b ∧ b.start = buf ∧ nlb <<< E.ns.blockshift ≤ b.size
  | .call (.cmd _ opc nsid buf bufsz cdw10_15) _ => (∃ b, D.Owns b ∧ b.start = buf ∧ bufsz ≤ b.size) ∧
      ∀ cid prp1 prp2, E.Moves (D.len i (vsEntry opc cid nsid prp1 prp2 cdw10_15)) bufsz
  | .call (.poll d _) _ => d ∈ s.q.usedDescs
  | .idle _ => True
  | .store mem => ∀ j a, (D.prplist j).Holds a → mem a = s.dev.mem a

/-- The states of the queues of a device, from its opening on. -/
inductive DevRun {E : Env} {n : ℕ} (D : OpenDevice E n) (mem disk : ℕ → ℕ) : (Qid n → Sys) → Prop
  | boot : DevRun D mem disk (fun i => Sys.boot i.qsize (D.prplist i) mem disk)
  | round {S : Qid n → Sys} (h : DevRun D mem disk S) (i : Qid n) (r : Round) (s' : Sys)
      (hl : D.Legal i (S i) r) (hd : r.Does (D.env i) (S i) s') : DevRun D mem disk (share S i s')

namespace OpenDevice

variable {E : Env} {n : ℕ} (D : OpenDevice E n)

/-! ## Sizes -/

include D in
/-- The I/O queues' lists have been allocated, so pages are of 4 KiB or 8 KiB, or of at least 16 MiB. -/
theorem pageshift_or : E.ns.pageshift ≤ 13 ∨ 24 ≤ E.ns.pageshift :=
  pageshift_of_provided D.geometry.mpsmin D.geometry.mpsmax
    ⟨_, D.size (some ⟨0, D.qcount⟩), D.served (some ⟨0, D.qcount⟩)⟩

include D in
theorem pagesize_eq (h : E.ns.pageshift ≤ 13) : E.ns.pagesize = 2 ^ E.ns.pageshift := by
  rw [D.geometry.pagesize_eq, if_pos (h.trans (by decide))]

include D in
/-- With huge pages a buffer needs at most one. -/
theorem numpages_huge {bufsz : ℕ} (h : 24 ≤ E.ns.pageshift) (hb : bufsz ≤ maxbytes) :
    E.ns.numpages bufsz ≤ 1 := by
  have hpage : 2 ^ 24 ≤ 2 ^ E.ns.pageshift := Nat.pow_le_pow_right (by decide) h
  have hone : 0 % 2 ^ E.ns.pageshift + bufsz ≤ 2 ^ E.ns.pageshift := by
    unfold maxbytes at hb
    rw [Nat.zero_mod, Nat.zero_add]
    omega
  exact D.geometry.numpages_le_one hone

include D in
/-- A buffer of at most the largest block needs at most 512 pages. -/
theorem fitsList {bufsz : ℕ} (h : bufsz ≤ maxbytes) :
    E.ns.numpages bufsz ≤ 512 ∧ E.ns.FitsList bufsz := by
  rcases D.pageshift_or with h13 | h24
  · have hlo : 2 ^ 12 ≤ 2 ^ E.ns.pageshift := Nat.pow_le_pow_right (by decide) D.geometry.mpsmin
    have hhi : 2 ^ E.ns.pageshift ≤ 2 ^ 13 := Nat.pow_le_pow_right (by decide) h13
    have hdiv : (bufsz + 2 ^ E.ns.pageshift - 1) / 2 ^ E.ns.pageshift ≤ 512 := by
      rw [Nat.div_le_iff_le_mul_add_pred (by omega)]
      have := Nat.mul_le_mul_left 512 hlo
      unfold maxbytes at h
      omega
    have hpages := Ns.numpages_eq (D.pagesize_eq h13) bufsz (by unfold maxbytes at h; omega) (by omega)
    have hle : E.ns.numpages bufsz ≤ 512 := by
      rw [hpages]
      omega
    refine ⟨hle, Or.inr ⟨h13.trans (by decide), ?_⟩⟩
    have hcast : ((2 ^ E.ns.pageshift / 8 : ℕ) : ℤ) = 2 ^ E.ns.pageshift / 8 := by push_cast; rfl
    rw [← hcast]
    omega
  · have hone := D.numpages_huge h24 h
    exact ⟨hone.trans (by decide), Or.inl (hone.trans (by decide))⟩

/-! ## Buffers -/

/-- A buffer that starts on a page, or within a block that lies within one; and not where a list is. -/
structure Buffer (buf bufsz : ℕ) : Prop where
  paged : E.PagedBuffer buf bufsz
  apart : ∀ i a, (D.prplist i).Holds a → ¬ (buf ≤ a ∧ a < buf + bufsz)

variable {D}

include D in
theorem base_dvd : 2 ^ min E.ns.pageshift 21 ∣ E.pciVhsaa :=
  (Nat.pow_dvd_pow 2 ((Nat.min_le_right _ _).trans (by decide))).trans (Nat.dvd_of_mod_eq_zero D.base)

/-- A part of a block that starts a number of pages into it. -/
theorem Owns.buffer {b : Span} (hb : D.Owns b) {o len : ℕ} (hoff : 2 ^ E.ns.pageshift ∣ o)
    (hin : o + len ≤ b.size) : D.Buffer (b.start + o) len := by
  obtain ⟨i, -, -, k, hstart⟩ := hb.client.block
  have hstart' : b.start = E.vemva + k * b.size := hstart
  have hinside := hb.client.inside
  have hsize := hb.client.size_le
  refine ⟨⟨?_, ?_, ?_, hb.client.page D.base_dvd hoff hin⟩, ?_⟩
  · rw [hstart']
    generalize k * b.size = n
    omega
  · omega
  · unfold maxbytes
    omega
  · rintro j a ⟨hlo, hhi⟩ ⟨hlo', hhi'⟩
    have hapart := hb.apart j
    omega

/-- Full chunks are whole pages. -/
theorem chunk_dvd (D : OpenDevice E n) (hmax : 0 < E.ns.maxbpio) :
    2 ^ E.ns.pageshift ∣ E.ns.maxbpio <<< E.ns.blockshift := by
  have hblock := D.geometry.blockshift
  have hppio := D.onePage
  have hbpio := D.maxbpio
  rcases D.pageshift_or with h13 | h24
  · have hshift : E.ns.pageshift - E.ns.blockshift ≤ 4 := by
      have := D.sector
      omega
    have hsmall : 2 ^ E.ns.pageshift ≤ 2 ^ 13 := Nat.pow_le_pow_right (by decide) h13
    rw [D.pagesize_eq h13] at hppio
    have hlt : D.maxppio <<< (E.ns.pageshift - E.ns.blockshift) < 2 ^ 16 := by
      rw [Nat.shiftLeft_eq]
      have hpow : 2 ^ (E.ns.pageshift - E.ns.blockshift) ≤ 2 ^ 4 := Nat.pow_le_pow_right (by decide) hshift
      have hmul := Nat.mul_le_mul (show D.maxppio ≤ 2 ^ 10 by omega) hpow
      omega
    rw [Nat.mod_eq_of_lt hlt] at hbpio
    rw [hbpio, ← Nat.shiftLeft_add, Nat.sub_add_cancel hblock, Nat.shiftLeft_eq]
    exact Nat.dvd_mul_left _ _
  · -- the page size is lost, and with it all pages of a chunk
    rw [D.geometry.pagesize_eq, if_neg (by omega)] at hppio
    have hzero : D.maxppio = 0 := Nat.le_zero.1 hppio
    rw [hzero, Nat.zero_shiftLeft, Nat.zero_mod] at hbpio
    omega

/-- The chunks of a request for a block. -/
theorem Owns.chunk {i : Qid n} {b : Span} {slba nlb : ℕ} (hb : D.Owns b)
    (hlen : nlb <<< E.ns.blockshift ≤ b.size) (hmax : 0 < E.ns.maxbpio) (hslba : slba < 2 ^ 64) {c : Chunk}
    (hc : c ∈ chunks (D.env i) nlb b.start slba nlb) :
    D.Buffer c.buf (E.ns.bufsz c.nlb) ∧ E.ns.bufsz c.nlb = c.nlb <<< E.ns.blockshift ∧
      0 < c.nlb ∧ c.nlb ≤ 2 ^ 16 := by
  have hclient : ClientBlock (D.env i) b := ⟨hb.client.block, hb.client.inside⟩
  obtain ⟨o, hat⟩ := (chunks_parts_all (E := D.env i) hmax hslba).1 c hc
  obtain ⟨hin, hbufsz⟩ := hat.bytes hclient hlen
  have hbuf : c.buf = b.start + o <<< E.ns.blockshift := hat.buf
  refine ⟨?_, hbufsz, hat.pos, hat.le.trans (Nat.le_of_lt D.geometry.maxbpio)⟩
  rw [hbuf, show E.ns.bufsz c.nlb = _ from hbufsz]
  refine hb.buffer ?_ (hin.trans hlen)
  obtain ⟨m, hm⟩ := hat.start
  rw [hm, Nat.shiftLeft_eq, Nat.mul_right_comm, ← Nat.shiftLeft_eq]
  exact Nat.dvd_mul_right_of_dvd (D.chunk_dvd hmax) m

end OpenDevice

section

variable {E : Env} {n : ℕ} {D : OpenDevice E n} {i : Qid n} {s s' : Sys} {pc : Pc}

/-- Buffers of clients, and transfers that they are for. -/
def OpenDevice.guards (D : OpenDevice E n) (i : Qid n) : Guards := .traffic (D.env i) (D.len i) D.Buffer

theorem OpenDevice.traffic (D : OpenDevice E n) (i : Qid n) :
    QueueTraffic (D.env i) (D.prplist i) (D.len i) D.Buffer where
  keepsTo := D.keepsTo i
  geometry := D.geometry
  pageshift := D.pageshift_or.imp (fun h => h.trans (by decide)) (fun h => le_trans (by decide) h)
  block := ⟨(D.block i).start, (D.block i).addr, (D.block i).inside⟩
  paged := fun _ _ h => ⟨h.paged.start, h.paged.inside, h.paged.small, h.paged.page⟩
  fits := fun _ _ h => (D.fitsList h.paged.small).2
  apart := fun _ _ h => h.apart i

theorem OpenDevice.Legal.allowed {r : Round} (hl : D.Legal i s r) (hd : r.Does (D.env i) s s') :
    r.Allowed (D.env i) (D.guards i) s := by
  cases r with
  | call c σ =>
      cases c with
      | rw qid opc buf slba nlb =>
          obtain ⟨v, hv⟩ := hd
          obtain ⟨d', s₁, hdo, -⟩ := bind_eq_ok hv
          obtain ⟨hi, hopc, hslba, b, hb, rfl, hlen⟩ := hl
          obtain ⟨q, rfl⟩ := Option.ne_none_iff_exists'.1 hi
          intro d x hx
          refine ⟨trivial, fun c hc => ?_⟩
          have hnlb : 0 < nlb := by
            by_contra hzero
            rw [Nat.eq_zero_of_not_pos hzero, chunks] at hc
            cases hc
          have hmax : 0 < (D.env (some q)).ns.maxbpio := unvmeDoRw_pos hnlb hdo
          obtain ⟨hbuffer, hbufsz, hpos, hle⟩ := hb.chunk hlen hmax hslba hc
          refine ⟨fun _ _ => hbuffer, fun q' cid addr _ _ => Or.inl ?_⟩
          have hlen' := D.rwLen q (c.entry (D.env (some q)) (s.withSched σ).q.prplist x.opc cid addr) (by
            rw [hx.opc]
            rcases hopc with rfl | rfl
            · exact Or.inl rfl
            · exact Or.inr rfl)
          show D.len (some q) _ = E.ns.bufsz c.nlb
          rw [hlen', Chunk.entry, rwEntry_dataLen hpos hle]
          exact hbufsz.symm
      | cmd qid opc nsid buf bufsz cdw10_15 =>
          obtain ⟨⟨b, hb, rfl, hlen⟩, hmoves⟩ := hl
          refine ⟨fun _ _ => trivial, fun _ _ => ?_, fun _ _ cid prp1 prp2 => hmoves cid prp1 prp2⟩
          have hbuffer : D.Buffer (b.start + 0) bufsz :=
            hb.buffer (Nat.dvd_zero _) (by rw [Nat.zero_add]; exact hlen)
          exact hbuffer
      | poll d timeout => exact hl
  | idle acts => trivial
  | store mem => trivial

/-- What steps of a queue keep: its calls and submissions are in order, and if all words it has written are
    inside, then its lists are kept and the other queues' allocations are as they were. -/
structure OpenDevice.Keeps (D : OpenDevice E n) (i : Qid n) (mem₀ : ℕ → ℕ) (s : Sys) (pc : Pc) : Prop where
  slots : s.LogSlots (D.env i) (D.guards i)
  traced : s.Traced (D.env i) (D.guards i) (D.prplist i) pc
  lists : s.LogIn (D.prplist i).Holds →
    s.ListsKept (D.env i) (D.prplist i).Holds pc ∧ s.Loaded (D.env i) (D.len i)
  others : s.LogIn (D.prplist i).Holds → ∀ j, j ≠ i → ∀ a, (D.prplist j).Holds a → s.dev.mem a = mem₀ a

theorem OpenDevice.Keeps.steps {mem₀ : ℕ → ℕ} (hst : Steps (D.env i) (D.guards i) (s, .idle) (s', .idle))
    (h : s.Inv .idle) (hk : D.Keeps i mem₀ s .idle) : D.Keeps i mem₀ s' .idle := by
  have T := D.traffic i
  refine (hst.invariant (P := fun s pc => D.Keeps i mem₀ s pc) ?_ h hk).2
  intro s₁ pc₁ s₂ pc₂ h₁ hstep hk₁
  have hback : s₂.LogIn (D.prplist i).Holds → s₁.LogIn (D.prplist i).Holds :=
    fun hlog call hc => hlog call (hstep.prpCalls_prefix.subset hc)
  constructor
  · exact hstep.logSlots (fun _ _ buf bufsz hb => T.fits buf bufsz hb) h₁ hk₁.slots
  · exact hstep.traced h₁ hk₁.traced
  · exact hstep.traffic T h₁ hk₁.traced hk₁.lists
  · intro hlog j hj a ha
    have hmem := hstep.frame T h₁ hk₁.traced (hk₁.lists (hback hlog)).2 hlog
      (D.disjoint j i hj a ha) (fun buf bufsz hb => hb.apart j a ha)
    rw [hmem]
    exact hk₁.others (hback hlog) j hj a ha

/-- The invariant of a device: every queue is in order, all see the same memory, and if all words
    written so far are inside, then all lists are kept. -/
structure OpenDevice.Inv (D : OpenDevice E n) (S : Qid n → Sys) : Prop where
  inv : ∀ i, (S i).Inv .idle
  size : ∀ i : Qid n, (S i).q.size = i.qsize
  shared : ∀ i j, (S i).dev.mem = (S j).dev.mem
  slots : ∀ i, (S i).LogSlots (D.env i) (D.guards i)
  traced : ∀ i, (S i).Traced (D.env i) (D.guards i) (D.prplist i) .idle
  lists : (∀ i, (S i).LogIn (D.prplist i).Holds) → ∀ i,
    (S i).ListsKept (D.env i) (D.prplist i).Holds .idle ∧ (S i).Loaded (D.env i) (D.len i)

theorem share_self (S : Qid n → Sys) (i : Qid n) (s : Sys) : share S i s i = s := if_pos rfl

theorem share_of_ne (S : Qid n → Sys) {i j : Qid n} (h : j ≠ i) (s : Sys) : share S i s j
    = { S j with dev := { (S j).dev with mem := s.dev.mem, disk := s.dev.disk } } := if_neg h

/-- A property of the queues holds after an operation of one if it holds of that one, and of each other
    with the new memory. -/
theorem share_forall {S : Qid n → Sys} {i : Qid n} {s : Sys} {P : Qid n → Sys → Prop} (hi : P i s)
    (hj : ∀ j, j ≠ i → P j { S j with dev := { (S j).dev with mem := s.dev.mem, disk := s.dev.disk } }) :
    ∀ j, P j (share S i s j) := by
  intro j
  by_cases h : j = i
  · subst h
    rw [share_self]
    exact hi
  · rw [share_of_ne S h]
    exact hj j h

theorem OpenDevice.Inv.boot (D : OpenDevice E n) (mem disk : ℕ → ℕ) :
    D.Inv (fun i => Sys.boot i.qsize (D.prplist i) mem disk) := by
  have hqsize : ∀ i : Qid n, 2 ≤ i.qsize := by
    intro i
    cases i with
    | none => show 2 ≤ 64; decide
    | some q => show 2 ≤ 256; decide
  have hnil : ∀ i : Qid n, (Sys.boot i.qsize (D.prplist i) mem disk).dev.hist.prpCalls = [] :=
    fun i => rfl
  constructor
  · exact fun i => Sys.Inv.init (hqsize i) (D.prplist i) mem disk
  · exact fun i => (Queue.setup_wf (hqsize i) (D.prplist i)).1
  · exact fun i j => (Sys.boot_mem ..).trans (Sys.boot_mem ..).symm
  · intro i call hcall
    rw [hnil i] at hcall
    cases hcall
  · intro i
    refine ⟨(Queue.setup_wf (hqsize i) (D.prplist i)).2.2.1, fun call hcall => ?_,
      fun sub hsub => absurd hsub List.not_mem_nil, trivial⟩
    rw [hnil i] at hcall
    cases hcall
  · intro _ i
    refine ⟨⟨fun k c sub hk => ?_, nofun⟩, fun c hc => absurd hc List.not_mem_nil⟩
    obtain ⟨⟨sub', hs, -⟩, -⟩ := hk
    cases hs

/-- One round on a queue: its steps, or new contents of the clients' memory. -/
theorem OpenDevice.Inv.keeps {S : Qid n → Sys} {r : Round} (h : D.Inv S) (hl : D.Legal i (S i) r)
    (hd : r.Does (D.env i) (S i) s') (hall : ∀ j, (S j).LogIn (D.prplist j).Holds) :
    D.Keeps i (S i).dev.mem s' .idle := by
  have hi := h.inv i
  rcases r.steps hi (hl.allowed hd) hd with hst | ⟨mem, rfl, rfl⟩
  · exact OpenDevice.Keeps.steps hst hi
      ⟨h.slots i, h.traced i, fun _ => h.lists hall i, fun _ j _ a _ => rfl⟩
  · obtain ⟨hlists, hloaded⟩ := h.lists hall i
    refine ⟨h.slots i, (h.traced i).withMemory mem _, fun _ => ⟨?_, ?_⟩, fun _ j _ a ha => hl j a ha⟩
    · exact hlists.congr rfl (fun a ha => hl i a ha) rfl (fun _ _ hp => hp) (fun _ hx => hx)
    · exact hloaded.congr hi rfl List.prefix_rfl

/-- What every round leaves in order, whatever has been written. -/
theorem OpenDevice.Inv.round_queue {S : Qid n → Sys} {r : Round} (h : D.Inv S) (hl : D.Legal i (S i) r)
    (hd : r.Does (D.env i) (S i) s') : s'.Inv .idle ∧ (S i).SameQueue s' ∧
      (S i).dev.hist.prpCalls <+: s'.dev.hist.prpCalls ∧ s'.LogSlots (D.env i) (D.guards i) ∧
      s'.Traced (D.env i) (D.guards i) (D.prplist i) .idle := by
  have hi := h.inv i
  rcases r.steps hi (hl.allowed hd) hd with hst | ⟨mem, -, rfl⟩
  · refine ⟨hst.inv hi, hst.sameQueue hi, ?_, ?_, ?_⟩
    · refine (hst.invariant (P := fun s _ => (S i).dev.hist.prpCalls <+: s.dev.hist.prpCalls) ?_ hi
        List.prefix_rfl).2
      exact fun s₁ pc₁ s₂ pc₂ _ hstep hp => hp.trans hstep.prpCalls_prefix
    · refine (hst.invariant (P := fun s _ => s.LogSlots (D.env i) (D.guards i)) ?_ hi (h.slots i)).2
      exact fun s₁ pc₁ s₂ pc₂ h₁ hstep hs =>
        hstep.logSlots (fun _ _ buf bufsz hb => (D.traffic i).fits buf bufsz hb) h₁ hs
    · refine (hst.invariant (P := fun s pc => s.Traced (D.env i) (D.guards i) (D.prplist i) pc) ?_ hi
        (h.traced i)).2
      exact fun s₁ pc₁ s₂ pc₂ h₁ hstep ht => hstep.traced h₁ ht
  · exact ⟨hi.withMemory mem _, ⟨rfl, rfl, rfl⟩, List.prefix_rfl, h.slots i, (h.traced i).withMemory mem _⟩

/-- **One round on one queue keeps the device in order.** -/
theorem OpenDevice.Inv.round {S : Qid n → Sys} {r : Round} (h : D.Inv S) (hl : D.Legal i (S i) r)
    (hd : r.Does (D.env i) (S i) s') : D.Inv (share S i s') := by
  obtain ⟨hinv, hsame, hgrows, hslots, htraced⟩ := h.round_queue hl hd
  have hmem : ∀ j, (share S i s' j).dev.mem = s'.dev.mem :=
    share_forall (P := fun _ s => s.dev.mem = s'.dev.mem) rfl (fun _ _ => rfl)
  constructor
  · exact share_forall (P := fun _ s => s.Inv .idle) hinv (fun j _ => (h.inv j).withMemory _ _)
  · exact share_forall (P := fun j s => s.q.size = j.qsize) (hsame.size.trans (h.size i))
      (fun j _ => h.size j)
  · exact fun j k => (hmem j).trans (hmem k).symm
  · exact share_forall (P := fun j s => s.LogSlots (D.env j) (D.guards j)) hslots (fun j _ => h.slots j)
  · exact share_forall (P := fun j s => s.Traced (D.env j) (D.guards j) (D.prplist j) .idle) htraced
      (fun j _ => (h.traced j).withMemory _ _)
  · intro hall
    have hold : ∀ j, (S j).LogIn (D.prplist j).Holds := by
      intro j
      have hj := hall j
      by_cases hji : j = i
      · subst hji
        rw [share_self] at hj
        exact fun call hc => hj call (hgrows.subset hc)
      · rw [share_of_ne S hji] at hj
        exact hj
    have hlog : s'.LogIn (D.prplist i).Holds := by
      have hi := hall i
      rwa [share_self] at hi
    have hk := h.keeps hl hd hold
    refine share_forall (P := fun j s => s.ListsKept (D.env j) (D.prplist j).Holds .idle ∧
      s.Loaded (D.env j) (D.len j)) (hk.lists hlog) (fun j hj => ?_)
    obtain ⟨hlists, hloaded⟩ := h.lists hold j
    refine ⟨hlists.congr rfl (fun a ha => ?_) rfl (fun _ _ hp => hp) (fun _ hx => hx),
      hloaded.congr (h.inv j) rfl List.prefix_rfl⟩
    show s'.dev.mem a = (S j).dev.mem a
    rw [hk.others hlog j hj a ha, h.shared i j]

theorem DevRun.inv {mem disk : ℕ → ℕ} {S : Qid n → Sys} (hrun : DevRun D mem disk S) : D.Inv S := by
  induction hrun with
  | boot => exact OpenDevice.Inv.boot D mem disk
  | round _ i r s' hl hd ih => exact ih.round hl hd

end

/-- An opened device with two I/O queues, with its PRP lists at multiples of 2 MiB. -/
def sampleDevice : OpenDevice regionEnv 2 where
  qcount := by decide
  prplist
    | none => ⟨2 ^ 30, 2 ^ 40, 4096⟩
    | some q => ⟨2 ^ 30 + 2 ^ 21 * (q + 1), 2 ^ 40 + 2 ^ 21 * (q + 1), 2 ^ 20⟩
  size := by
    intro i
    cases i with
    | none => show dmaSize (prplistSize 64 0) = some 4096; decide +kernel
    | some q => show dmaSize (prplistSize 256 12) = some (2 ^ 20); decide +kernel
  served := by
    intro i
    cases i with
    | none => show 4096 ≤ maxbytes; decide
    | some q => show 2 ^ 20 ≤ maxbytes; decide
  block := by
    have hmax : maxSize = 2 ^ 35 := by decide
    intro i
    cases i with
    | none => exact ⟨by decide, by decide, by decide⟩
    | some q =>
        have hq := q.isLt
        refine ⟨Nat.le_add_right _ _, ?_, ?_⟩
        · show 2 ^ 40 + 2 ^ 21 * (q.val + 1) = 2 ^ 40 + (2 ^ 30 + 2 ^ 21 * (q.val + 1) - 2 ^ 30)
          omega
        · show 2 ^ 30 + 2 ^ 21 * (q.val + 1) + 2 ^ 20 ≤ 2 ^ 30 + maxSize
          omega
  disjoint := by
    intro i j hij a ha hb
    unfold Dma.Holds at ha hb
    cases i with
    | none =>
        cases j with
        | none => exact hij rfl
        | some q' => dsimp only at ha hb; omega
    | some q =>
        cases j with
        | none => dsimp only at ha hb; omega
        | some q' =>
            have hne : q.val ≠ q'.val := fun h => hij (congrArg some (Fin.ext h))
            dsimp only at ha hb
            omega
  base := by decide
  geometry := ⟨by decide, by decide, by decide, by decide, by decide⟩
  sector := by decide
  maxppio := 512
  onePage := by decide
  maxbpio := by decide
  media := fun _ => blockMedia 4096 9 (host regionEnv)
  len := fun _ => SqEntry.dataLen 9
  keepsTo := fun _ => blockMedia_keepsTo 4096 9 (host regionEnv)
  rwLen := fun _ _ _ => rfl

/-- The queues of the device after a call on queue `i`. -/
def afterCall (S : Qid 2 → Sys) (i : Qid 2) (c : Call) : Qid 2 → Sys :=
  share S i (c.after (sampleDevice.env i) ((S i).withSched []))

theorem DevRun.call {mem disk : ℕ → ℕ} {S : Qid 2 → Sys} (h : DevRun sampleDevice mem disk S) (i : Qid 2)
    (c : Call) (hl : sampleDevice.Legal i (S i) (.call c [])) (d : ℕ)
    (hr : returns (c.run (sampleDevice.env i)) ((S i).withSched [])
      (fun v _ => decide (v = .desc (some d))) = true) :
    DevRun sampleDevice mem disk (afterCall S i c) :=
  h.round i (.call c []) _ hl ⟨_, eq_ok_of_returns hr⟩

end Unvme.Core
