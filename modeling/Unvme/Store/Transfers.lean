import Unvme.Core.Chunks
import Unvme.Core.Runs
import Unvme.Nvme.Medium
import Unvme.Store.Flat

set_option autoImplicit false

/-! # The transfers of a queue

`BlockQueue` is an I/O queue of a namespace with a geometry for which requests can be served, on the medium
of `Nvme/Medium.lean`. `BlockQueue.Holds t s pc` relates a state of queue and controller to a state `t` of
the flat block store: the descriptors in use are the requests under way, every command issued for one moves
a part of it, the parts executed have been moved, and outside the requests medium and memory are those of
the store. Every step on the way from a submission to its completion keeps it (`Step.holds`). -/

namespace Unvme.Store

open Unvme.Lib Unvme.Nvme Unvme.Core

/-- An I/O queue. The region starts on a page on both sides, and a chunk of `maxbpio` blocks needs no more
    pages than a PRP list page has entries. -/
structure BlockQueue (E : Env) where
  qsize : ℕ
  prplist : Dma
  maxppio : ℕ
  blockcount : ℕ
  two_le : 2 ≤ qsize
  media : E.media = blockMedia E.ns.pagesize E.ns.blockshift (host E)
  pagesize : E.ns.pagesize = 2 ^ E.ns.pageshift
  pagesize16 : E.ns.pagesize < 2 ^ 16
  sector : 9 ≤ E.ns.blockshift
  blockshift : E.ns.blockshift ≤ E.ns.pageshift
  onePage : maxppio ≤ E.ns.pagesize / 8
  maxbpio : E.ns.maxbpio = maxppio <<< (E.ns.pageshift - E.ns.blockshift)
  maxbpio_pos : 1 ≤ E.ns.maxbpio
  vemva : E.vemva % E.ns.pagesize = 0
  pciVhsaa : E.pciVhsaa % E.ns.pagesize = 0
  list : E.Block prplist
  listSize : qsize <<< E.ns.pageshift ≤ prplist.size
  blocks : blockcount < 2 ^ 64

/-- The transfer that a read or write asks for. -/
def request (ns : Ns) (opc buf slba nlb : ℕ) : Transfer :=
  ⟨opc == nvmeCmdWrite, buf, slba <<< ns.blockshift, nlb <<< ns.blockshift⟩

/-- The transfer of a descriptor. -/
def transfer (ns : Ns) (x : Desc) : Transfer := request ns x.opc x.buf x.slba x.nlb

/-- A command moves a part of a transfer. -/
structure Piece (ns : Ns) (x : Transfer) (e : SqEntry) (buf bufsz : ℕ) : Prop where
  opc : e.opc = if x.write then nvmeCmdWrite else nvmeCmdRead
  len : e.dataLen ns.blockshift = bufsz
  part : ∃ off, off + bufsz ≤ x.len ∧ buf = x.buf + off ∧ e.dataPos ns.blockshift = x.pos + off

/-- The command's part has been moved: its blocks and its buffer are equal. -/
def Moved (ns : Ns) (dev : Device) (sub : Sub) : Prop :=
  ∀ i < sub.bufsz, dev.disk (sub.entry.dataPos ns.blockshift + i) = dev.mem (sub.buf + i)

/-- Command `k` has been executed, or has been completed as if it had been. -/
def Executed (dev : Device) (k : ℕ) : Prop :=
  (∃ c ∈ dev.inflight, c.seq = k ∧ c.done = true) ∨ ∃ e, (k, e) ∈ dev.hist.posts ∧ e.stat = 0

namespace BlockQueue

variable {E : Env} (Q : BlockQueue E)

/-- A cell of the queue's PRP lists. -/
def InList (a : ℕ) : Prop := Q.prplist.buf ≤ a ∧ a < Q.prplist.buf + Q.prplist.size

/-- The buffer lies in the region and is described by the PRP entries composed for it. -/
structure Describes (buf bufsz : ℕ) : Prop where
  start : E.vemva ≤ buf
  inside : buf ≤ E.vemva + maxSize
  fits : E.ns.FitsList bufsz
  bytes : ∀ cid < Q.qsize, cid < 2 ^ 16 → ∀ prp1 prp2 words,
    composePrps E.ns Q.prplist cid (E.dma buf) bufsz = (prp1, prp2, words) →
    prpBytes E.ns.pagesize prp1 prp2 (storedAt E words) bufsz
      = some (List.range' (E.dma buf) bufsz)

/-- A command issued for a part of `x`. -/
structure Issued (x : Transfer) (sub : Sub) : Prop where
  piece : Piece E.ns x sub.entry sub.buf sub.bufsz
  describes : Q.Describes sub.buf sub.bufsz
  cid : sub.entry.cid < Q.qsize
  cid16 : sub.entry.cid < 2 ^ 16
  prp1 : sub.entry.prp1
    = (composePrps E.ns Q.prplist sub.entry.cid (E.dma sub.buf) sub.bufsz).1
  prp2 : sub.entry.prp2
    = (composePrps E.ns Q.prplist sub.entry.cid (E.dma sub.buf) sub.bufsz).2.1

/-- What queue, controller and medium have to do with the store. -/
structure Data (t : Flat ℕ) (s : Sys) : Prop where
  pending : ∀ d x, t.pending d = some x ↔ d ∈ s.q.usedDescs ∧ x = transfer E.ns (s.q.desc d)
  apart : ∀ d d' x x', d ≠ d' → t.pending d = some x → t.pending d' = some x' → x.Apart x'
  clear : ∀ d x, t.pending d = some x → ∀ a, x.InBuf a → ¬ Q.InList a
  issued : ∀ d x, t.pending d = some x → ∀ k ∈ (s.q.desc d).cmds, ∀ sub,
    s.dev.hist.subs[k]? = some sub → Q.Issued x sub
  loaded : ∀ c ∈ s.dev.inflight, ∀ pages, c.prps = some pages → ∀ sub,
    s.dev.hist.subs[c.seq]? = some sub →
    pagesBytes E.ns.pagesize sub.entry.prp1 sub.bufsz pages
      = some (List.range' (E.dma sub.buf) sub.bufsz)
  done : ∀ d x, t.pending d = some x → ∀ k ∈ (s.q.desc d).cmds, ∀ sub,
    s.dev.hist.subs[k]? = some sub → Executed s.dev k → Moved E.ns s.dev sub
  disk : ∀ b, (∀ d x, t.pending d = some x → ¬ x.Fills b) → s.dev.disk b = t.store b
  mem : ∀ a, ¬ Q.InList a → (∀ d x, t.pending d = some x → ¬ x.Loads a) → s.dev.mem a = t.mem a

/-- The command in hand. -/
def Hand (s : Sys) : Pc → Prop
  | .mapped _ _ buf bufsz addr => Q.Describes buf bufsz ∧ addr = E.dma buf
  | .filled d _ buf bufsz _ e => Q.Issued (transfer E.ns (s.q.desc d)) ⟨e, d, buf, bufsz, []⟩
  | _ => True

/-- What the steps of a call may do once its descriptor has been taken. -/
def guards : Guards where
  take := fun _ _ _ => False
  map := fun _ _ buf bufsz => Q.Describes buf bufsz
  fill := fun q d e buf bufsz => Piece E.ns (transfer E.ns (q.desc d)) e buf bufsz

/-- Between submission and completion the state of the store does not change. -/
structure Holds (t : Flat ℕ) (s : Sys) (pc : Pc) : Prop where
  prplist : s.q.prplist = Q.prplist
  size : s.q.size = Q.qsize
  data : Q.Data t s
  log : s.LogSlots E Q.guards
  lists : s.ListsKept E Q.InList pc
  hand : Q.Hand s pc

end BlockQueue

section

variable {E : Env} {Q : BlockQueue E} {t : Flat ℕ} {s s' : Sys} {pc pc' : Pc}

/-! ## Addresses -/

theorem BlockQueue.Describes.dma {buf bufsz : ℕ} (h : Q.Describes buf bufsz) :
    unvmeMapDma E buf bufsz = .ok (E.dma buf) :=
  unvmeMapDma_of_inside h.start h.inside

/-- The page of a command id is in the lists. -/
theorem BlockQueue.inList_of_slot {cid a : ℕ} (hc : cid < Q.qsize)
    (h : InSlot E.ns Q.prplist cid a) : Q.InList a := by
  obtain ⟨h1, h2⟩ := h
  have hsize := Q.listSize
  simp only [Nat.shiftLeft_eq] at h1 h2 hsize
  have hmul := Nat.mul_le_mul_right (2 ^ E.ns.pageshift) (Nat.succ_le_of_lt hc)
  rw [Nat.succ_eq_add_one] at hmul
  exact ⟨by omega, by omega⟩

/-! ## Reading the entries of a command -/

/-- **Whenever the controller reads the entries of a command in flight, it reads its buffer.** -/
theorem BlockQueue.Issued.reads {x : Transfer} {sub : Sub} (h : Q.Issued x sub)
    (hprp : s.q.prplist = Q.prplist) (hkept : s.Kept E Q.InList sub.entry.cid sub.buf sub.bufsz) :
    ∃ pages, E.media.prps sub.entry s.dev.mem = pages ∧
      pagesBytes E.ns.pagesize sub.entry.prp1 sub.bufsz pages
        = some (List.range' (E.dma sub.buf) sub.bufsz) := by
  rcases hprps : composePrps E.ns Q.prplist sub.entry.cid (E.dma sub.buf) sub.bufsz
    with ⟨prp1, prp2, words⟩
  have hbytes := h.describes.bytes _ h.cid h.cid16 _ _ _ hprps
  have h1 := h.prp1
  have h2 := h.prp2
  rw [hprps] at h1 h2
  dsimp only at h1 h2
  subst h1 h2
  rw [prpBytes_eq_bind, Option.bind_eq_some_iff] at hbytes
  obtain ⟨pages, hpages, hrange⟩ := hbytes
  have hwords : ∀ st ∈ words, E.vemva ≤ st.1 ∧ s.dev.mem st.1 = st.2 := by
    intro st hst
    have hk := hkept _ h.describes.dma st (by rw [hprp, hprps]; exact hst)
    have hstart := Q.list.start
    have hin : Q.prplist.buf ≤ st.1 := hk.2.1.1
    exact ⟨by omega, hk.2.2⟩
  refine ⟨pages, ?_, hrange⟩
  rw [Q.media]
  refine blockMedia_prps ?_
  rw [h.piece.len]
  exact furtherPages_mono (fun a v ha => storedAt_host hwords ha) hpages

/-- A command in flight belongs to a request under way. -/
theorem BlockQueue.Data.owner (h : Q.Data t s) (hi : s.Inv pc) {k cid : ℕ}
    (hk : s.dev.hist.Pending k cid) :
    ∃ d x, t.pending d = some x ∧ k ∈ (s.q.desc d).cmds := by
  obtain ⟨d, hd, hkd⟩ := hi.acc.owned k cid hk
  exact ⟨d, _, (h.pending d _).2 ⟨hd, rfl⟩, hkd⟩

/-! ## Executing a command -/

/-- Two parts of requests under way that share a block or a byte of memory are parts of one request, and
    move the same blocks to the same bytes. -/
theorem BlockQueue.Data.aligned (h : Q.Data t s) {d d' : ℕ} {x x' : Transfer} {sub sub' : Sub}
    (hx : t.pending d = some x) (hx' : t.pending d' = some x')
    (hp : Piece E.ns x sub.entry sub.buf sub.bufsz)
    (hp' : Piece E.ns x' sub'.entry sub'.buf sub'.bufsz) {i j : ℕ} (hi : i < sub.bufsz)
    (hj : j < sub'.bufsz) :
    sub.entry.dataPos E.ns.blockshift + i = sub'.entry.dataPos E.ns.blockshift + j ↔
      sub.buf + i = sub'.buf + j := by
  obtain ⟨off, hle, hbuf, hpos⟩ := hp.part
  obtain ⟨off', hle', hbuf', hpos'⟩ := hp'.part
  by_cases hd : d = d'
  · subst hd
    rw [hx, Option.some.injEq] at hx'
    subst hx'
    omega
  · have hap := h.apart d d' x x' hd hx hx'
    constructor
    · intro heq
      exact absurd ⟨by omega, by omega⟩ (hap.pos (x.pos + off + i) ⟨by omega, by omega⟩)
    · intro heq
      exact absurd ⟨by omega, by omega⟩ (hap.buf (x.buf + off + i) ⟨by omega, by omega⟩)

/-- The data of a command are copied in the direction of its request. -/
structure Copied (ns : Ns) (x : Transfer) (sub : Sub) (dev dev' : Device) : Prop where
  write : x.write = true → dev'.mem = dev.mem ∧ dev'.disk
    = copyCells dev.mem sub.buf dev.disk (sub.entry.dataPos ns.blockshift) sub.bufsz
  read : x.write = false → dev'.disk = dev.disk ∧ dev'.mem
    = copyCells dev.disk (sub.entry.dataPos ns.blockshift) dev.mem sub.buf sub.bufsz

theorem Copied.moved {ns : Ns} {x : Transfer} {sub : Sub} {dev dev' : Device}
    (h : Copied ns x sub dev dev') : Moved ns dev' sub := by
  intro i hi
  cases hw : x.write with
  | true =>
      obtain ⟨hmem, hdisk⟩ := h.write hw
      rw [hmem, hdisk, copyCells_of_mem hi]
  | false =>
      obtain ⟨hdisk, hmem⟩ := h.read hw
      rw [hmem, hdisk, copyCells_of_mem hi]

/-- What has been moved stays moved while parts of requests under way are copied. -/
theorem BlockQueue.Data.still_moved (h : Q.Data t s) {d d' : ℕ} {x x' : Transfer} {sub sub' : Sub}
    {dev' : Device} (hx : t.pending d = some x) (hx' : t.pending d' = some x')
    (hp : Piece E.ns x sub.entry sub.buf sub.bufsz)
    (hp' : Piece E.ns x' sub'.entry sub'.buf sub'.bufsz) (hc : Copied E.ns x sub s.dev dev')
    (hm : Moved E.ns s.dev sub') : Moved E.ns dev' sub' := by
  intro j hj
  have hmoved := hc.moved
  by_cases hin : ∃ i < sub.bufsz, sub.buf + i = sub'.buf + j
  · obtain ⟨i, hi, heq⟩ := hin
    rw [← heq, ← (h.aligned hx hx' hp hp' hi hj).2 heq]
    exact hmoved i hi
  · -- neither the block nor the byte is touched
    have hbuf : ¬ (sub.buf ≤ sub'.buf + j ∧ sub'.buf + j < sub.buf + sub.bufsz) := by
      rintro ⟨hlo, hhi⟩
      exact hin ⟨sub'.buf + j - sub.buf, by omega, by omega⟩
    have hpos : ¬ (sub.entry.dataPos E.ns.blockshift ≤ sub'.entry.dataPos E.ns.blockshift + j ∧
        sub'.entry.dataPos E.ns.blockshift + j
          < sub.entry.dataPos E.ns.blockshift + sub.bufsz) := by
      rintro ⟨hlo, hhi⟩
      have hi : sub'.entry.dataPos E.ns.blockshift + j - sub.entry.dataPos E.ns.blockshift < sub.bufsz := by
        omega
      exact hin ⟨_, hi, (h.aligned hx hx' hp hp' hi hj).1 (by omega)⟩
    have hold := hm j hj
    cases hw : x.write with
    | true =>
        obtain ⟨hmem, hdisk⟩ := hc.write hw
        rw [hmem, hdisk, copyCells_of_not_mem hpos]
        exact hold
    | false =>
        obtain ⟨hdisk, hmem⟩ := hc.read hw
        rw [hmem, hdisk, copyCells_of_not_mem hbuf]
        exact hold

/-- Copying a part of a request touches only what the request is to fill. -/
theorem Copied.frame {x : Transfer} {sub : Sub} {dev dev' : Device} (h : Copied E.ns x sub dev dev')
    (hp : Piece E.ns x sub.entry sub.buf sub.bufsz) :
    (∀ b, ¬ x.Fills b → dev'.disk b = dev.disk b) ∧ ∀ a, ¬ x.Loads a → dev'.mem a = dev.mem a := by
  obtain ⟨off, hle, hbuf, hpos⟩ := hp.part
  cases hw : x.write with
  | true =>
      obtain ⟨hmem, hdisk⟩ := h.write hw
      refine ⟨fun b hb => ?_, fun a _ => by rw [hmem]⟩
      rw [hdisk]
      refine copyCells_of_not_mem ?_
      rintro ⟨hlo, hhi⟩
      exact hb ⟨hw, by omega, by omega⟩
  | false =>
      obtain ⟨hdisk, hmem⟩ := h.read hw
      refine ⟨fun b _ => by rw [hdisk], fun a ha => ?_⟩
      rw [hmem]
      refine copyCells_of_not_mem ?_
      rintro ⟨hlo, hhi⟩
      exact ha ⟨hw, by omega, by omega⟩

/-- Executing a command with its own entries copies its data. -/
theorem BlockQueue.Issued.copies {x : Transfer} {sub : Sub} (h : Q.Issued x sub) {pages : List ℕ}
    (hpages : pagesBytes E.ns.pagesize sub.entry.prp1 sub.bufsz pages
      = some (List.range' (E.dma sub.buf) sub.bufsz)) {dev dev' : Device}
    (hmem : dev'.mem = (E.media.exec sub.entry pages dev.mem dev.disk).1)
    (hdisk : dev'.disk = (E.media.exec sub.entry pages dev.mem dev.disk).2) :
    Copied E.ns x sub dev dev' := by
  have hopc := h.piece.opc
  have hhost := map_host sub.bufsz h.describes.start
  rw [← h.piece.len] at hpages hhost
  rw [Q.media] at hmem hdisk
  constructor
  · intro hw
    rw [if_pos hw] at hopc
    rw [blockMedia_write hopc hpages hhost] at hmem hdisk
    rw [← h.piece.len]
    exact ⟨hmem, hdisk⟩
  · intro hw
    rw [if_neg (by rw [hw]; decide)] at hopc
    rw [blockMedia_read hopc hpages hhost] at hmem hdisk
    rw [← h.piece.len]
    exact ⟨hdisk, hmem⟩

/-! ## The controller -/

/-- The bookkeeping of the driver is not part of what is kept here. -/
theorem BlockQueue.Data.congr (h : Q.Data t s) (hused : s'.q.usedDescs = s.q.usedDescs)
    (hdesc : ∀ d, Desc.SameRequest (s.q.desc d) (s'.q.desc d))
    (hcmds : ∀ d, (s'.q.desc d).cmds = (s.q.desc d).cmds) (hsubs : s'.dev.hist.subs = s.dev.hist.subs)
    (hmem : s'.dev.mem = s.dev.mem) (hdisk : s'.dev.disk = s.dev.disk)
    (hloaded : ∀ c' ∈ s'.dev.inflight, ∀ pages, c'.prps = some pages →
      ∃ c ∈ s.dev.inflight, c.seq = c'.seq ∧ c.prps = some pages)
    (hdone : ∀ k, Executed s'.dev k → Executed s.dev k) : Q.Data t s' := by
  have htrans : ∀ d, transfer E.ns (s'.q.desc d) = transfer E.ns (s.q.desc d) := by
    intro d
    obtain ⟨hb, hs, hn, -, ho, -⟩ := hdesc d
    unfold transfer
    rw [hb, hs, hn, ho]
  have hmoved : ∀ sub, Moved E.ns s.dev sub → Moved E.ns s'.dev sub := by
    intro sub hm i hi
    rw [hmem, hdisk]
    exact hm i hi
  constructor
  · intro d x
    rw [hused, htrans]
    exact h.pending d x
  · exact h.apart
  · exact h.clear
  · intro d x hx k hk sub hsub
    rw [hcmds] at hk
    rw [hsubs] at hsub
    exact h.issued d x hx k hk sub hsub
  · intro c' hc' pages hp sub hsub
    obtain ⟨c, hc, hseq, hp'⟩ := hloaded c' hc' pages hp
    rw [hsubs, ← hseq] at hsub
    exact h.loaded c hc pages hp' sub hsub
  · intro d x hx k hk sub hsub he
    rw [hcmds] at hk
    rw [hsubs] at hsub
    exact hmoved sub (h.done d x hx k hk sub hsub (hdone k he))
  · intro b hb
    rw [hdisk]
    exact h.disk b hb
  · intro a ha hl
    rw [hmem]
    exact h.mem a ha hl

theorem BlockQueue.Data.fetch (h : Q.Data t s) : Q.Data t { s with dev := s.dev.fetch } := by
  unfold Device.fetch
  split
  · exact h
  · refine h.congr rfl (fun _ => Desc.SameRequest.refl _) (fun _ => rfl) rfl rfl rfl ?_ ?_
    · intro c hc pages hp
      rcases List.mem_append.1 hc with hc | hc
      · exact ⟨c, hc, rfl, hp⟩
      · rw [List.mem_singleton.1 hc] at hp
        cases hp
    · rintro k (⟨c, hc, hseq, hd⟩ | hpost)
      · rcases List.mem_append.1 hc with hc | hc
        · exact Or.inl ⟨c, hc, hseq, hd⟩
        · rw [List.mem_singleton.1 hc] at hd
          cases hd
      · exact Or.inr hpost

/-- The controller reads the entries of a command. -/
theorem BlockQueue.Holds.loadPrps (h : Q.Holds t s pc) (hi : s.Inv pc) (i : ℕ) :
    Q.Data t { s with dev := s.dev.loadPrps E.media i } := by
  have hbase : Q.Data t { s with dev := { s.dev with inflight := [] } } :=
    h.data.congr rfl (fun _ => Desc.SameRequest.refl _) (fun _ => rfl) rfl rfl rfl nofun
      (by rintro k (⟨c, hc, -⟩ | hpost)
          · cases hc
          · exact Or.inr hpost)
  have hdone : ∀ k, Executed (s.dev.loadPrps E.media i) k → Executed s.dev k := by
    rintro k (⟨c', hc', hseq, hd⟩ | hpost)
    · rcases mem_modify hc' with hc | ⟨c, hc, rfl⟩
      · exact Or.inl ⟨c', hc, hseq, hd⟩
      · exact Or.inl ⟨c, List.mem_of_getElem? hc, hseq, hd⟩
    · exact Or.inr hpost
  refine ⟨hbase.pending, hbase.apart, hbase.clear, hbase.issued, ?_, ?_, hbase.disk, hbase.mem⟩
  · intro c' hc' pages hp sub hsub
    rcases mem_modify hc' with hc | ⟨c, hc, rfl⟩
    · exact h.data.loaded c' hc pages hp sub hsub
    · obtain ⟨sub', hsub', hentry, hpend⟩ := hi.dev.pending_of_inflight (List.mem_of_getElem? hc)
      obtain rfl : sub' = sub := Option.some.inj (hsub'.symm.trans hsub)
      obtain ⟨d, x, hx, hk⟩ := h.data.owner hi hpend
      have hissued := h.data.issued d x hx c.seq hk sub' hsub'
      obtain ⟨pages', hread, hrange⟩ := hissued.reads h.prplist (h.lists.pending _ _ _ hpend hsub')
      dsimp only at hp
      rw [hentry, hread, Option.some.injEq] at hp
      rw [← hp]
      exact hrange
  · intro d x hx k hk sub hsub he
    exact h.data.done d x hx k hk sub hsub (hdone k he)

/-- **The controller executes a command.** -/
theorem BlockQueue.Data.execute (h : Q.Data t s) (hi : s.Inv pc) (i : ℕ) :
    Q.Data t { s with dev := s.dev.execute E.media i } ∧
      ∀ a, Q.InList a → (s.dev.execute E.media i).mem a = s.dev.mem a := by
  unfold Device.execute
  split
  · next seq entry pages done hc =>
      have hmem := List.mem_of_getElem? hc
      obtain ⟨sub, hsub, hentry, hpend⟩ := hi.dev.pending_of_inflight hmem
      dsimp only at hsub hentry hpend
      subst hentry
      obtain ⟨d, x, hx, hk⟩ := h.owner hi hpend
      have hissued := h.issued d x hx seq hk sub hsub
      have hpages := h.loaded _ hmem pages rfl sub hsub
      generalize hdev : { s.dev with
          inflight := s.dev.inflight.modify i (fun c => { c with done := true })
          mem := (E.media.exec sub.entry pages s.dev.mem s.dev.disk).1
          disk := (E.media.exec sub.entry pages s.dev.mem s.dev.disk).2 } = dev'
      have hinflight : dev'.inflight = s.dev.inflight.modify i (fun c => { c with done := true }) := by
        rw [← hdev]
      have hhist : dev'.hist = s.dev.hist := by rw [← hdev]
      have hcopied : Copied E.ns x sub s.dev dev' :=
        hissued.copies hpages (by rw [← hdev]) (by rw [← hdev])
      obtain ⟨hdisk', hmem'⟩ := hcopied.frame hissued.piece
      refine ⟨⟨h.pending, h.apart, h.clear, ?_, ?_, ?_, ?_, ?_⟩, ?_⟩
      · dsimp only
        rw [hhist]
        exact h.issued
      · intro c' hc' pages' hp sub' hsub'
        dsimp only at hc' hsub'
        rw [hinflight] at hc'
        rw [hhist] at hsub'
        rcases mem_modify hc' with hold | ⟨c, hat, rfl⟩
        · exact h.loaded c' hold pages' hp sub' hsub'
        · exact h.loaded c (List.mem_of_getElem? hat) pages' hp sub' hsub'
      · intro d' x' hx' k hk' sub' hsub' he
        dsimp only at hk' hsub' he
        rw [hhist] at hsub'
        have hold : k = seq ∨ Executed s.dev k := by
          rcases he with ⟨c', hc', hseq, hd⟩ | ⟨e, he, hstat⟩
          · rw [hinflight] at hc'
            rcases mem_modify hc' with hold | ⟨c, hat, rfl⟩
            · exact Or.inr (Or.inl ⟨c', hold, hseq, hd⟩)
            · rw [hc, Option.some.injEq] at hat
              subst hat
              exact Or.inl hseq.symm
          · rw [hhist] at he
            exact Or.inr (Or.inr ⟨e, he, hstat⟩)
        rcases hold with rfl | hold
        · obtain rfl : sub' = sub := Option.some.inj (hsub'.symm.trans hsub)
          exact hcopied.moved
        · exact h.still_moved hx hx' hissued.piece (h.issued d' x' hx' k hk' sub' hsub').piece hcopied
            (h.done d' x' hx' k hk' sub' hsub' hold)
      · intro b hb
        exact (hdisk' b (hb d x hx)).trans (h.disk b hb)
      · intro a ha hl
        exact (hmem' a (hl d x hx)).trans (h.mem a ha hl)
      · intro a ha
        refine hmem' a ?_
        rintro ⟨-, hin⟩
        exact h.clear d x hx a hin ha
  · exact ⟨h, fun _ _ => rfl⟩

theorem BlockQueue.Data.post (h : Q.Data t s) (i cs psf : ℕ) :
    Q.Data t { s with dev := s.dev.post i cs psf } := by
  unfold Device.post
  split
  · next c hc =>
      dsimp only
      split
      · next hcan =>
          rw [Bool.and_eq_true, Bool.or_eq_true] at hcan
          refine h.congr rfl (fun _ => Desc.SameRequest.refl _) (fun _ => rfl) rfl rfl rfl ?_ ?_
          · exact fun c' hc' pages hp => ⟨c', List.mem_of_mem_eraseIdx hc', rfl, hp⟩
          · rintro k (⟨c', hc', hseq, hd⟩ | ⟨e, he, hstat⟩)
            · exact Or.inl ⟨c', List.mem_of_mem_eraseIdx hc', hseq, hd⟩
            · rcases List.mem_append.1 he with he | he
              · exact Or.inr ⟨e, he, hstat⟩
              · -- a success is posted only for a command that has been executed
                rw [List.mem_singleton, Prod.mk.injEq] at he
                obtain ⟨rfl, rfl⟩ := he
                refine Or.inl ⟨c, List.mem_of_getElem? hc, rfl, hcan.2.resolve_right ?_⟩
                rw [hstat]
                decide
      · exact h
  · exact h

theorem BlockQueue.Data.note (h : Q.Data t s) : Q.Data t { s with dev := s.dev.note } :=
  h.congr rfl (fun _ => Desc.SameRequest.refl _) (fun _ => rfl) rfl rfl rfl
    (fun c hc _ hp => ⟨c, hc, rfl, hp⟩) (fun _ he => he)

/-- **Whatever the controller does, store and medium stay together.** -/
theorem BlockQueue.Holds.act (h : Q.Holds t s pc) (hi : s.Inv pc) (a : CtlAct) :
    Q.Data t { s with dev := s.dev.act E.media a } ∧
      ∀ x, Q.InList x → (s.dev.act E.media a).mem x = s.dev.mem x := by
  cases a with
  | fetch =>
      refine ⟨h.data.fetch.note, fun x _ => ?_⟩
      simp only [Device.act, Device.fetch]
      split <;> rfl
  | loadPrps i => exact ⟨h.loadPrps hi i, fun _ _ => rfl⟩
  | execute i => exact h.data.execute hi i
  | post i cs psf =>
      refine ⟨(h.data.post i cs psf).note, fun x _ => ?_⟩
      simp only [Device.act, Device.post]
      split
      · split <;> rfl
      · rfl

end

end Unvme.Store
