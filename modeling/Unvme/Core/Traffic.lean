import Unvme.Core.Chunks
import Unvme.Core.PrpRegion

set_option autoImplicit false

/-! # The transfers of a queue

A controller that keeps to the transfers of its commands finds the buffer of a command by the entries the
driver composed for it, as long as the PRP list it is still to read is as it was composed. Then it writes
only buffers of clients; and these are not where lists are. So as long as the driver itself writes inside
the memory of its lists, the lists of commands in flight are kept, whatever the controller does
(`Step.traffic`), and so is all other memory that is not a client's (`Step.frame`). -/

namespace Unvme.Core

open Unvme.Lib Unvme.Nvme Unvme.Aurora

/-- A buffer in the region, not longer than the largest block, that starts on a page or lies within one. -/
structure Env.PagedBuffer (E : Env) (buf bufsz : ℕ) : Prop where
  start : E.vemva ≤ buf
  inside : buf + bufsz ≤ E.vemva + maxSize
  small : bufsz ≤ maxbytes
  page : E.dma buf % 2 ^ E.ns.pageshift = 0 ∨ E.dma buf % 2 ^ E.ns.pageshift + bufsz ≤ 2 ^ E.ns.pageshift

/-- For a buffer of `bufsz` bytes `len` bytes are moved: all of them, or not more than a page. -/
def Env.Moves (E : Env) (len bufsz : ℕ) : Prop := len = bufsz ∨ len ≤ bufsz ∧ len ≤ 2 ^ E.ns.pageshift

/-- Buffers are those of clients, and for a command the controller moves what its buffer is for. -/
def Guards.traffic (E : Env) (len : SqEntry → ℕ) (Client : ℕ → ℕ → Prop) : Guards where
  take := fun _ _ _ => True
  map := fun _ _ buf bufsz => Client buf bufsz
  fill := fun _ _ e _ bufsz => E.Moves (len e) bufsz

/-- A queue whose controller keeps to the transfers, whose lists are in DMA memory, and whose clients have
    buffers that are not where the lists are. -/
structure QueueTraffic (E : Env) (prplist : Dma) (len : SqEntry → ℕ) (Client : ℕ → ℕ → Prop) : Prop where
  keepsTo : E.media.KeepsTo (2 ^ E.ns.pageshift) (host E) len
  geometry : E.ns.Geometry
  pageshift : E.ns.pageshift ≤ 15 ∨ 21 ≤ E.ns.pageshift
  block : E.Block prplist
  paged : ∀ buf bufsz, Client buf bufsz → E.PagedBuffer buf bufsz
  fits : ∀ buf bufsz, Client buf bufsz → E.ns.FitsList bufsz
  apart : ∀ buf bufsz, Client buf bufsz → ∀ a, prplist.Holds a → ¬ (buf ≤ a ∧ a < buf + bufsz)

/-- What the controller has read for a command are the pages of its buffer. -/
def Sys.Loaded (E : Env) (len : SqEntry → ℕ) (s : Sys) : Prop :=
  ∀ c ∈ s.dev.inflight, ∀ pages, c.prps = some pages → ∀ sub, s.dev.hist.subs[c.seq]? = some sub →
    pagesBytes (2 ^ E.ns.pageshift) sub.entry.prp1 (len sub.entry) pages
      = some (List.range' (E.dma sub.buf) (len sub.entry))

section

variable {E : Env} {prplist : Dma} {len : SqEntry → ℕ} {Client : ℕ → ℕ → Prop} {s s' : Sys} {pc pc' : Pc}

theorem Sys.Composed.client {cid buf bufsz addr : ℕ}
    (h : s.Composed E (.traffic E len Client) prplist cid buf bufsz addr) : Client buf bufsz := by
  obtain ⟨q, d, hclient⟩ := h.allowed
  exact hclient

theorem Env.Moves.le {n bufsz : ℕ} (h : E.Moves n bufsz) : n ≤ bufsz := h.elim Nat.le_of_eq And.left

/-! ## Reading the entries -/

/-- A transfer that leaves its first page is all of a buffer that starts on a page. -/
theorem Env.PagedBuffer.whole {buf bufsz n : ℕ} (h : E.PagedBuffer buf bufsz) (hm : E.Moves n bufsz)
    (hcross : ¬ E.dma buf % 2 ^ E.ns.pageshift + n ≤ 2 ^ E.ns.pageshift) :
    n = bufsz ∧ E.dma buf % 2 ^ E.ns.pageshift = 0 := by
  have hpage := h.page
  generalize E.dma buf % 2 ^ E.ns.pageshift = off at hpage hcross
  unfold Env.Moves at hm
  omega

/-- The list of a command lies in the memory of the lists, so it has a 64-bit address. -/
theorem Sys.Kept.listAddr {cid buf bufsz addr : ℕ} (h : s.Kept E prplist.Holds cid buf bufsz)
    (hq : s.q.prplist = prplist) (hblock : E.Block prplist) (haddr : unvmeMapDma E buf bufsz = .ok addr)
    (h15 : E.ns.pageshift ≤ 15) (h16 : cid < 2 ^ 16) (hlist : 2 < E.ns.numpages bufsz) :
    prplist.addr + cid <<< E.ns.pageshift < 2 ^ 64 := by
  obtain ⟨-, hin, -⟩ := h addr haddr (listStart E.ns prplist cid, (addr + E.ns.pagesize) % 2 ^ 64) (by
    rw [hq, composePrps_words]
    exact listWords_first hlist)
  dsimp only at hin
  rw [listStart_eq h15 h16] at hin
  have hend := hin.2
  have hstart := hblock.start
  have hinside := hblock.inside
  have hspace := E.inSpace
  rw [hblock.addr, Env.dma]
  generalize cid <<< E.ns.pageshift = prpoff at hend
  omega

/-- **Whenever the controller reads the entries of a command in flight, it finds its buffer.** -/
theorem QueueTraffic.reads (T : QueueTraffic E prplist len Client)
    (ht : s.Traced E (.traffic E len Client) prplist pc)
    {sub : Sub} (hsub : sub ∈ s.dev.hist.subs)
    (hkept : s.Kept E prplist.Holds sub.entry.cid sub.buf sub.bufsz) :
    pagesBytes (2 ^ E.ns.pageshift) sub.entry.prp1 (len sub.entry) (E.media.prps sub.entry s.dev.mem)
      = some (List.range' (E.dma sub.buf) (len sub.entry)) := by
  have hps : 0 < 2 ^ E.ns.pageshift := Nat.two_pow_pos _
  obtain ⟨addr, hcomp, hholds, q, d, hmoves⟩ := ht.subs sub hsub
  have hclient := hcomp.client
  have hbuf := T.paged _ _ hclient
  obtain ⟨-, -, rfl⟩ := unvmeMapDma_ok hcomp.resolved
  have hprp1 : sub.entry.prp1 = E.dma sub.buf := by rw [hholds.prp1, composePrps_prp1]
  refine T.keepsTo.reads ?_
  by_cases hone : E.dma sub.buf % 2 ^ E.ns.pageshift + len sub.entry ≤ 2 ^ E.ns.pageshift
  · rw [hprp1]
    exact prpBytes_one hps hone
  obtain ⟨hlen, halign⟩ := hbuf.whole hmoves hone
  have hsmall : sub.bufsz ≤ 2 ^ 21 := hbuf.small
  have h15 : E.ns.pageshift ≤ 15 := by
    refine T.pageshift.resolve_right (fun hbig => hone ?_)
    have hpage : 2 ^ 21 ≤ 2 ^ E.ns.pageshift := Nat.pow_le_pow_right (by decide) hbig
    rw [halign, hlen, Nat.zero_add]
    exact hsmall.trans hpage
  have hsize : E.ns.pagesize = 2 ^ E.ns.pageshift := by rw [T.geometry.pagesize_eq, if_pos h15]
  have h16 := Queue.lt_two_pow_of_lt_ids hcomp.below
  have hend : E.dma sub.buf + sub.bufsz ≤ 2 ^ 64 := by
    have hstart := hbuf.start
    have hinside := hbuf.inside
    have hspace := E.inSpace
    unfold Env.dma
    omega
  rcases hprps : composePrps E.ns prplist sub.entry.cid (E.dma sub.buf) sub.bufsz with ⟨prp1, prp2, words⟩
  have hcover := composePrps_cover hprps (by rw [hsize]; exact hps) h15 h16 T.block
    (hkept.listAddr ht.queue T.block hcomp.resolved h15 h16)
    (T.geometry.numpages_eq h15 (hsmall.trans (by decide))) hend (by rw [hsize]; exact halign)
  have hwords : ∀ st ∈ words, E.vemva ≤ st.1 ∧ s.dev.mem st.1 = st.2 := by
    intro st hst
    obtain ⟨-, hin, hmem⟩ := hkept _ hcomp.resolved st (by rw [ht.queue, hprps]; exact hst)
    exact ⟨T.block.start.trans hin.1, hmem⟩
  obtain ⟨h1, h2⟩ := hholds
  rw [hprps] at h1 h2
  dsimp only at h1 h2
  rw [h1, h2, hlen, ← hsize]
  exact prpBytes_mono (fun a v ha => storedAt_host hwords ha) hcover

/-! ## What the controller touches -/

/-- The controller writes buffers of clients only. -/
theorem QueueTraffic.act_mem (T : QueueTraffic E prplist len Client)
    (ht : s.Traced E (.traffic E len Client) prplist pc) (hl : s.Loaded E len) (hi : s.Inv pc) (act : CtlAct)
    {a : ℕ} (ha : ∀ buf bufsz, Client buf bufsz → ¬ (buf ≤ a ∧ a < buf + bufsz)) :
    (s.dev.act E.media act).mem a = s.dev.mem a := by
  refine Device.act_mem act (fun c hc pages hpages => ?_)
  obtain ⟨sub, hsub, hentry, -⟩ := hi.dev.pending_of_inflight hc
  obtain ⟨addr, hcomp, -, q, d, hmoves⟩ := ht.subs sub (List.mem_of_getElem? hsub)
  have hclient := hcomp.client
  have hbytes := hl c hc pages hpages sub hsub
  rw [hentry]
  refine T.keepsTo.exec _ _ _ _ _ (fun bytes hb hmem => ?_)
  rw [hbytes, Option.some.injEq] at hb
  rw [← hb, map_host _ (T.paged _ _ hclient).start, List.mem_range'_1] at hmem
  refine ha _ _ hclient ⟨hmem.1, ?_⟩
  exact hmem.2.trans_le (Nat.add_le_add_left (Env.Moves.le hmoves) _)

/-- What was loaded, and what is read now, are the pages of the buffers. -/
theorem QueueTraffic.act_loaded (T : QueueTraffic E prplist len Client)
    (ht : s.Traced E (.traffic E len Client) prplist pc) (hk : s.ListsKept E prplist.Holds pc)
    (hl : s.Loaded E len) (hi : s.Inv pc) (act : CtlAct) :
    Sys.Loaded E len { s with dev := s.dev.act E.media act } := by
  intro c' hc' pages hpages sub hsub
  have hsubs : (s.dev.act E.media act).hist.subs = s.dev.hist.subs :=
    (Device.Later.act s.dev E.media act).subs
  obtain ⟨c, hc, hseq, hread⟩ := Device.act_loaded act hc' hpages
  dsimp only at hsub
  rw [hsubs, ← hseq] at hsub
  rcases hread with hold | rfl
  · exact hl c hc pages hold sub hsub
  · obtain ⟨sub', hsub', hentry, hpend⟩ := hi.dev.pending_of_inflight hc
    obtain rfl : sub' = sub := Option.some.inj (hsub'.symm.trans hsub)
    rw [hentry]
    exact T.reads ht (List.mem_of_getElem? hsub) (hk.pending _ _ _ hpend hsub)

/-- Nothing is loaded by the driver. -/
theorem Sys.Loaded.congr (h : s.Loaded E len) (hi : s.Inv pc) (hf : s'.dev.inflight = s.dev.inflight)
    (hs : s.dev.hist.subs <+: s'.dev.hist.subs) : s'.Loaded E len := by
  intro c hc pages hpages sub hsub
  rw [hf] at hc
  obtain ⟨sub', hsub', -⟩ := hi.dev.pending_of_inflight hc
  obtain ⟨rest, hrest⟩ := hs
  have heq : s'.dev.hist.subs[c.seq]? = some sub' := by
    rw [← hrest, List.getElem?_append_left (List.getElem?_eq_some_iff.1 hsub').1]
    exact hsub'
  obtain rfl : sub' = sub := Option.some.inj (heq.symm.trans hsub)
  exact h c hc pages hpages sub' hsub'

/-- **One step keeps the lists and what was read from them**, if what it writes itself is inside the memory
    of the lists. -/
theorem Step.traffic (T : QueueTraffic E prplist len Client) (h : s.Inv pc)
    (hstep : Step E (.traffic E len Client) (s, pc) (s', pc'))
    (ht : s.Traced E (.traffic E len Client) prplist pc)
    (hk : s.LogIn prplist.Holds → s.ListsKept E prplist.Holds pc ∧ s.Loaded E len)
    (hlog : s'.LogIn prplist.Holds) : s'.ListsKept E prplist.Holds pc' ∧ s'.Loaded E len := by
  have hlog₀ : s.LogIn prplist.Holds := fun call hc => hlog call (hstep.prpCalls_prefix.subset hc)
  obtain ⟨hlists, hloaded⟩ := hk hlog₀
  refine ⟨Step.listsKept (fun act a ha => ?_) (fun _ _ buf bufsz hc => T.fits buf bufsz hc) h hstep
    (fun _ => hlists) hlog, ?_⟩
  · exact T.act_mem ht hloaded h act (fun buf bufsz hc => T.apart buf bufsz hc a ha)
  · cases hstep with
    | act _ _ a => exact T.act_loaded ht hlists hloaded h a
    | submit _ d cid buf bufsz addr e => exact hloaded.congr h rfl (List.prefix_append _ _)
    | sched _ _ σ => exact hloaded.congr h rfl List.prefix_rfl
    | advance _ hp => exact hloaded.congr h rfl List.prefix_rfl
    | ring _ => exact hloaded.congr h rfl List.prefix_rfl
    | reap _ k e q' hp hq => exact hloaded.congr h rfl List.prefix_rfl
    | take _ d q' f hget hf hs hG => exact hloaded.congr h rfl List.prefix_rfl
    | put _ d hd h0 => exact hloaded.congr h rfl List.prefix_rfl
    | claim _ d cid q' hd hroom hq => exact hloaded.congr h rfl List.prefix_rfl
    | map _ d cid buf bufsz addr ha hmap =>
        exact hloaded.congr h (storePrps_inflight _ _) (by rw [storePrps_subs])
    | fill _ d cid buf bufsz addr e hc h1 h2 hG => exact hloaded.congr h rfl List.prefix_rfl

/-- **One step changes no memory** but that of the lists and that of clients. -/
theorem Step.frame (T : QueueTraffic E prplist len Client) (h : s.Inv pc)
    (hstep : Step E (.traffic E len Client) (s, pc) (s', pc'))
    (ht : s.Traced E (.traffic E len Client) prplist pc) (hl : s.Loaded E len)
    (hlog : s'.LogIn prplist.Holds) {a : ℕ} (hlist : ¬ prplist.Holds a)
    (hclient : ∀ buf bufsz, Client buf bufsz → ¬ (buf ≤ a ∧ a < buf + bufsz)) :
    s'.dev.mem a = s.dev.mem a := by
  cases hstep with
  | act _ _ act => exact T.act_mem ht hl h act hclient
  | map _ d cid buf bufsz addr haddr hmap =>
      obtain ⟨-, hin⟩ := logIn_storePrps hlog
      refine mem_storePrps ?_
      intro st hst heq
      exact hlist (heq ▸ hin st hst)
  | sched _ _ σ => rfl
  | advance _ hp => rfl
  | ring _ => rfl
  | reap _ k e q' hp hq => rfl
  | take _ d q' f hget hf hs hG => rfl
  | put _ d hd h0 => rfl
  | claim _ d cid q' hd hroom hq => rfl
  | fill _ d cid buf bufsz addr e hc h1 h2 hG => rfl
  | submit _ d cid buf bufsz addr e => rfl

end

end Unvme.Core
