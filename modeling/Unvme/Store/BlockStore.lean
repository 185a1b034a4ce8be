import Unvme.Store.Refinement

set_option autoImplicit false

/-! # Reads and writes of a block store

What a client of an I/O queue can rely on. `apoll_transfers`: with a controller that reports success only,
a request that was polled with result 0 has been carried out as a whole, and nothing else has changed.
`block_store`: with any controller, and errors, everything the client sees is a run of the flat store.
`write_read_back`: what was written is read back. -/

namespace Unvme.Store

open Unvme.Lib Unvme.Nvme Unvme.Core Unvme.Aurora

section

variable {E : Env} {Q : BlockQueue E} {s s' : Sys} {t : Flat ℕ} {log : List (Event ℕ)} {mem disk : ℕ → ℕ}

/-- The client sees store `t`: the descriptors in use are the requests under way, and outside of what
    these are to fill medium and memory are those of the store. -/
structure BlockQueue.Agrees (Q : BlockQueue E) (s : Sys) (t : Flat ℕ) : Prop where
  pending : ∀ d x, t.pending d = some x ↔ d ∈ s.q.usedDescs ∧ x = transfer E.ns (s.q.desc d)
  disk : ∀ b, (∀ d x, t.pending d = some x → ¬ x.Fills b) → s.dev.disk b = t.store b
  mem : ∀ a, ¬ Q.InList a → (∀ d x, t.pending d = some x → ¬ x.Loads a) → s.dev.mem a = t.mem a

theorem BlockQueue.Refines.agrees (h : Q.Refines s t) : Q.Agrees s t :=
  ⟨h.holds.data.pending, h.holds.data.disk, h.holds.data.mem⟩

/-- A write under way has the bytes that the client knows. -/
theorem BlockQueue.Agrees.mem_of_write (h : Q.Agrees s t) (hwf : t.Wf) {d : ℕ} {x : Transfer}
    (hclear : ∀ a, x.InBuf a → ¬ Q.InList a) (hx : t.pending d = some x) (hw : x.write = true) {i : ℕ}
    (hi : i < x.len) : s.dev.mem (x.buf + i) = t.mem (x.buf + i) := by
  have hin : x.InBuf (x.buf + i) := ⟨Nat.le_add_right _ _, by omega⟩
  exact h.mem _ (hclear _ hin) (hwf.not_loads hx hw hin)

/-- Every run is one of the store. -/
theorem BlockQueue.trace_refines (hrun : Trace Q.Act (Sys.boot Q.qsize Q.prplist mem disk) log s) :
    ∃ t, Flat.Run (Flat.start disk mem) log t ∧ Q.Refines s t :=
  Q.simulates.trace (Q.refines_boot mem disk) hrun

/-! ## Success -/

/-- Nothing that is posted is taken back. -/
theorem BlockQueue.Act.posts {o : Option (Event ℕ)} (h : s.Inv .idle) (hact : Q.Act s o s') :
    s.dev.hist.posts <+: s'.dev.hist.posts := by
  cases hact with
  | submit qid σ hl hr =>
      have hst := (unvmeDoRw_spec (G := Guards.any) (h.withSched σ) (fun _ _ _ => trivial)
        (fun _ _ _ _ _ => ⟨fun _ _ => trivial, fun _ _ _ _ _ => trivial⟩)).of_ok hr
      exact hst.1.grows.posts
  | poll d timeout σ hd hr =>
      exact ((unvmeDoPoll_spec (G := Guards.any) timeout (h.withSched σ) hd).of_ok hr).1.grows.posts
  | store w hl => exact List.prefix_rfl
  | idle acts => exact (Device.Later.acts s.dev E.media acts).posts

/-- With successes only a poll leaves a descriptor without error. -/
theorem error_zero_of_success {d : ℕ} {timeout r : ℤ} {cs : Option ℕ} {σ : List (List CtlAct)}
    (h : s.Inv .idle) (hd : d ∈ s.q.usedDescs)
    (hr : unvmeDoPoll E d timeout (s.withSched σ) = .ok (r, cs) s')
    (hok : ∀ p ∈ s'.dev.hist.posts, p.2.stat = 0) : (s'.q.desc d).error = 0 := by
  obtain ⟨-, n, s₁, hst, hpolls, -, hs'⟩ :=
    (unvmeDoPoll_spec (G := Guards.any) timeout (h.withSched σ) hd).of_ok hr
  have hdev : s'.dev = s₁.dev := by rw [hs']; split <;> rfl
  have hdesc : s'.q.desc d = s₁.q.desc d := by rw [hs']; split <;> rfl
  have hd₁ : d ∈ s₁.q.usedDescs := by
    rw [(hpolls.reaps d).used]
    exact hd
  rw [hdesc]
  by_contra hne
  obtain ⟨k, -, e, he, hstat⟩ := (hst.inv (h.withSched σ)).acc.error d hd₁ hne
  rw [hdev] at hok
  have hzero := hok _ (List.mem_of_mem_take he)
  exact hne (hstat.symm.trans hzero)

/-- With successes only every poll of a run went well. -/
theorem BlockQueue.polled_ok (hrun : Trace Q.Act (Sys.boot Q.qsize Q.prplist mem disk) log s)
    (hok : ∀ p ∈ s.dev.hist.posts, p.2.stat = 0) :
    ∀ d r ok, .polled d r ok ∈ log → ok = true := by
  induction hrun with
  | nil =>
      intro d r ok hin
      cases hin
  | @step log s₁ s₂ o hrun hact ih =>
      obtain ⟨t, -, h⟩ := BlockQueue.trace_refines hrun
      have hgrows := hact.posts h.inv
      intro d r ok hin
      rcases List.mem_append.1 hin with hin | hin
      · exact ih (fun p hp => hok p (hgrows.subset hp)) d r ok hin
      · obtain rfl := (Option.mem_toList.1 hin)
        cases hact with
        | poll d timeout σ hd hr =>
            rw [error_zero_of_success h.inv hd hr hok]
            rfl

/-- **A request that was polled with result 0 has been carried out.** For every geometry, every run of
    submissions, polls, client stores and controller actions, and every poll that returns 0: if all
    completions are successes, the run is one of the flat store in which no poll failed, and after the
    poll medium and memory are those of the store with the whole request carried out. -/
theorem apoll_transfers (hrun : Trace Q.Act (Sys.boot Q.qsize Q.prplist mem disk) log s) {d : ℕ}
    {timeout : ℤ} {cs : Option ℕ} {σ : List (List CtlAct)} (hd : d ∈ s.q.usedDescs)
    (hr : unvmeDoPoll E d timeout (s.withSched σ) = .ok (0, cs) s')
    (hok : ∀ p ∈ s'.dev.hist.posts, p.2.stat = 0) :
    (∀ d r ok, .polled d r ok ∈ log → ok = true) ∧
      ∃ t, Flat.Run (Flat.start disk mem) log t ∧ Q.Agrees s t ∧
        Q.Agrees s' (t.complete d (transfer E.ns (s.q.desc d))) := by
  obtain ⟨t, hflat, h⟩ := BlockQueue.trace_refines hrun
  have hact : Q.Act s _ s' := .poll d timeout σ hd hr
  have hgrows := hact.posts h.inv
  refine ⟨BlockQueue.polled_ok hrun (fun p hp => hok p (hgrows.subset hp)), t, hflat, h.agrees, ?_⟩
  obtain ⟨t', hstep, h'⟩ := h.poll hd hr
  rw [error_zero_of_success h.inv hd hr hok] at hstep
  obtain ⟨x, hx, rfl⟩ := hstep.completed
  obtain ⟨-, rfl⟩ := (h.holds.data.pending d x).1 hx
  exact h'.agrees

/-! ## Any controller -/

/-- **Whatever the controller reports, the client sees a flat block store.** -/
theorem block_store (hrun : Trace Q.Act (Sys.boot Q.qsize Q.prplist mem disk) log s) :
    ∃ t, Flat.Run (Flat.start disk mem) log t ∧ Q.Agrees s t := by
  obtain ⟨t, hflat, h⟩ := BlockQueue.trace_refines hrun
  exact ⟨t, hflat, h.agrees⟩

/-- **What was written is read back.** A write is under way in `s₁` and completed from `s₂` to `s₃`; later
    a read is completed from `s₄` to `s₅`. Blocks of both that no write was submitted for in between have
    the bytes, in the buffer of the read, that the buffer of the write had in `s₁`, whatever else was read,
    written, polled or stored, and whatever errors other requests had. -/
theorem write_read_back {l₁ l₂ l₃ : List (Event ℕ)} {s₁ s₂ s₃ s₄ s₅ : Sys} {d d' : ℕ}
    (h₁ : Trace Q.Act (Sys.boot Q.qsize Q.prplist mem disk) l₁ s₁) (hd : d ∈ s₁.q.usedDescs)
    (hw : (transfer E.ns (s₁.q.desc d)).write = true)
    (h₂ : Trace Q.Act s₁ l₂ s₂) (hsame : ∀ y, .submitted d y ∉ l₂)
    (hwritten : Q.Act s₂ (some (.polled d 0 true)) s₃)
    (h₃ : Trace Q.Act s₃ l₃ s₄) (hr : (transfer E.ns (s₄.q.desc d')).write = false)
    (hread : Q.Act s₄ (some (.polled d' 0 true)) s₅) {i j : ℕ}
    (hi : i < (transfer E.ns (s₁.q.desc d)).len) (hj : j < (transfer E.ns (s₄.q.desc d')).len)
    (hblock : (transfer E.ns (s₁.q.desc d)).pos + i = (transfer E.ns (s₄.q.desc d')).pos + j)
    (hlog : ∀ e y, .submitted e y ∈ l₃ → ¬ y.Fills ((transfer E.ns (s₁.q.desc d)).pos + i)) :
    s₅.dev.mem ((transfer E.ns (s₄.q.desc d')).buf + j)
      = s₁.dev.mem ((transfer E.ns (s₁.q.desc d)).buf + i) := by
  obtain ⟨t₁, -, r₁⟩ := BlockQueue.trace_refines h₁
  obtain ⟨t₂, f₂, r₂⟩ := Q.simulates.trace r₁ h₂
  obtain ⟨t₃, step₃, r₃⟩ := Q.simulates _ _ _ _ r₂ hwritten
  obtain ⟨t₄, f₄, r₄⟩ := Q.simulates.trace r₃ h₃
  obtain ⟨t₅, step₅, r₅⟩ := Q.simulates _ _ _ _ r₄ hread
  have hx := (r₁.holds.data.pending d _).2 ⟨hd, rfl⟩
  obtain ⟨y, hy, heq⟩ := step₅.completed
  obtain ⟨-, rfl⟩ := (r₄.holds.data.pending d' y).1 hy
  have hback := Flat.read_back r₁.holds.data.apart hx hw f₂ hsame step₃ f₄ hy hr step₅ hi hj hblock hlog
  -- the buffers are the client's, so both states agree with the store on them
  have hfirst := r₁.agrees.mem_of_write r₁.holds.data.apart (r₁.holds.data.clear d _ hx) hx hw hi
  have hin : Transfer.InBuf (transfer E.ns (s₄.q.desc d')) ((transfer E.ns (s₄.q.desc d')).buf + j) :=
    ⟨Nat.le_add_right _ _, by omega⟩
  have hquiet : ∀ e z, t₅.pending e = some z → ¬ z.Loads ((transfer E.ns (s₄.q.desc d')).buf + j) := by
    rw [heq]
    refine Flat.complete_quiet ?_
    rintro e z hne hz ⟨-, hbuf⟩
    exact (r₄.holds.data.apart e d' z _ hne hz hy).buf _ hbuf hin
  rw [r₅.holds.data.mem _ (r₄.holds.data.clear d' _ hy _ hin) hquiet, hback, hfirst]

end

/-! ## A device -/

/-- Pages of 4096 bytes, blocks of 512 bytes, four pages a command, and a region at different addresses on
    the two sides. -/
def storeEnv : Env where
  ns := ⟨1, 4096, 12, 9, 32⟩
  vemva := 2 ^ 30
  pciVhsaa := 2 ^ 40
  media := blockMedia 4096 9 (fun a => 2 ^ 30 + (a - 2 ^ 40))
  inSpace := regionEnv.inSpace

theorem storeQueue_entries : 2 ≤ 4 := by decide

theorem storeQueue_blocks : 2 ^ 20 < 2 ^ 64 := by decide

/-- A queue of four entries on it, with its lists at the start of the region. -/
def storeQueue : BlockQueue storeEnv where
  qsize := 4
  prplist := ⟨2 ^ 30, 2 ^ 40, 2 ^ 14⟩
  maxppio := 4
  blockcount := 2 ^ 20
  two_le := storeQueue_entries
  media := rfl
  pagesize := by decide
  pagesize16 := by decide
  sector := by decide
  blockshift := by decide
  onePage := by decide
  maxbpio := by decide
  maxbpio_pos := by decide
  vemva := by decide
  pciVhsaa := by decide
  list := ⟨by decide, by decide, by decide⟩
  listSize := by decide
  blocks := storeQueue_blocks

/-- Memory whose bytes are all different. -/
def storeBoot : Sys := Sys.boot 4 ⟨2 ^ 30, 2 ^ 40, 2 ^ 14⟩ (fun a => a) (fun _ => 0)

/-- A buffer for 64 blocks. -/
theorem clientBlock_fit {k : ℕ} (hk : k < 1024) : ClientBlock storeEnv ⟨2 ^ 30 + k * 2 ^ 15, 2 ^ 15⟩ := by
  refine ⟨⟨6, by decide, rfl, k, rfl⟩, ?_⟩
  show 2 ^ 30 + k * 2 ^ 15 + 2 ^ 15 ≤ 2 ^ 30 + maxSize
  have hmax : maxSize = 2 ^ 35 := by decide
  omega

/-- 40 blocks are submitted from the first buffer to block 8, in two commands. -/
def writeSubmitted : Sys :=
  final (unvmeDoRw storeEnv 0 nvmeCmdWrite (2 ^ 30 + 1 * 2 ^ 15) 8 40) (storeBoot.withSched [])

/-- The controller executes them in reverse order. -/
def writeDone : Sys :=
  { writeSubmitted with
    dev := [CtlAct.fetch, .fetch, .loadPrps 1, .loadPrps 0, .execute 1, .execute 0, .post 1 0 0,
      .post 0 0 0].foldl (Device.act storeEnv.media) writeSubmitted.dev }

theorem writeSubmitted_eq : unvmeDoRw storeEnv 0 nvmeCmdWrite (2 ^ 30 + 1 * 2 ^ 15) 8 40
    (storeBoot.withSched []) = .ok 0 writeSubmitted := eq_ok_of_returns (by decide +kernel)

theorem writeSubmitted_fit : storeQueue.Fit storeBoot nvmeCmdWrite (2 ^ 30 + 1 * 2 ^ 15) 8 40 where
  readWrite := Or.inr rfl
  buffer := ⟨_, clientBlock_fit (by decide), rfl, by decide⟩
  range := by decide
  clear := by
    rintro a ⟨hlo, -⟩ ⟨-, hhi⟩
    change 2 ^ 30 + 1 * 2 ^ 15 ≤ a at hlo
    change a < 2 ^ 30 + 2 ^ 14 at hhi
    omega
  apart := by
    have hnil : storeBoot.q.usedDescs = [] := by decide +kernel
    intro d hd
    rw [hnil] at hd
    cases hd

theorem writeDone_trace : Trace storeQueue.Act storeBoot
    [.submitted 0 (request storeEnv.ns nvmeCmdWrite (2 ^ 30 + 1 * 2 ^ 15) 8 40)] writeDone := by
  have hsubmitted : Trace storeQueue.Act storeBoot
      [.submitted 0 (request storeEnv.ns nvmeCmdWrite (2 ^ 30 + 1 * 2 ^ 15) 8 40)] writeSubmitted :=
    Trace.nil.step (BlockQueue.Act.submit 0 [] writeSubmitted_fit writeSubmitted_eq)
  exact hsubmitted.step (BlockQueue.Act.idle _)

/-- The write is polled. -/
def writePolled : Sys := final (unvmeDoPoll storeEnv 0 unvmeTimeout) (writeDone.withSched [])

theorem writePolled_eq : unvmeDoPoll storeEnv 0 unvmeTimeout (writeDone.withSched [])
    = .ok (0, some 0) writePolled := eq_ok_of_returns (by decide +kernel)

/-- Polled, the write has been carried out. -/
theorem apoll_transfers_write : ∃ t,
    Flat.Run (Flat.start (fun _ => 0) (fun a => a))
        [.submitted 0 (request storeEnv.ns nvmeCmdWrite (2 ^ 30 + 1 * 2 ^ 15) 8 40)] t ∧
      storeQueue.Agrees writePolled (Flat.complete t 0 (transfer storeEnv.ns (writeDone.q.desc 0))) := by
  obtain ⟨-, t, hflat, -, hagrees⟩ := apoll_transfers (Q := storeQueue) writeDone_trace
    (by decide +kernel) writePolled_eq (by decide +kernel)
  exact ⟨t, hflat, hagrees⟩

/-- The store in which the write has been submitted. -/
theorem block_store_write : ∃ t,
    Flat.Run (Flat.start (fun _ => 0) (fun a => a))
        [.submitted 0 (request storeEnv.ns nvmeCmdWrite (2 ^ 30 + 1 * 2 ^ 15) 8 40)] t ∧
      storeQueue.Agrees writeDone t := block_store (Q := storeQueue) writeDone_trace

/-- 16 of the blocks are read into another buffer. -/
def readSubmitted : Sys :=
  final (unvmeDoRw storeEnv 0 nvmeCmdRead (2 ^ 30 + 2 * 2 ^ 15) 16 16) (writePolled.withSched [])

def readDone : Sys :=
  { readSubmitted with
    dev := [CtlAct.fetch, .loadPrps 0, .execute 0, .post 0 0 0].foldl (Device.act storeEnv.media)
      readSubmitted.dev }

def readPolled : Sys := final (unvmeDoPoll storeEnv 1 unvmeTimeout) (readDone.withSched [])

theorem readSubmitted_eq : unvmeDoRw storeEnv 0 nvmeCmdRead (2 ^ 30 + 2 * 2 ^ 15) 16 16
    (writePolled.withSched []) = .ok 1 readSubmitted := eq_ok_of_returns (by decide +kernel)

theorem readPolled_eq : unvmeDoPoll storeEnv 1 unvmeTimeout (readDone.withSched [])
    = .ok (0, some 0) readPolled := eq_ok_of_returns (by decide +kernel)

theorem readSubmitted_fit :
    storeQueue.Fit writePolled nvmeCmdRead (2 ^ 30 + 2 * 2 ^ 15) 16 16 where
  readWrite := Or.inl rfl
  buffer := ⟨_, clientBlock_fit (by decide), rfl, by decide⟩
  range := by decide
  clear := by
    rintro a ⟨hlo, -⟩ ⟨-, hhi⟩
    change 2 ^ 30 + 2 * 2 ^ 15 ≤ a at hlo
    change a < 2 ^ 30 + 2 ^ 14 at hhi
    omega
  apart := by
    have hnil : writePolled.q.usedDescs = [] := by decide +kernel
    intro d hd
    rw [hnil] at hd
    cases hd

/-- A byte of the read, and the byte of the write it comes from. -/
theorem write_read_back_byte :
    readPolled.dev.mem (2 ^ 30 + 2 * 2 ^ 15 + 100) = writeSubmitted.dev.mem (2 ^ 30 + 1 * 2 ^ 15 + 4196) := by
  have hwrite : Trace storeQueue.Act storeBoot _ writeSubmitted :=
    Trace.nil.step (BlockQueue.Act.submit 0 [] writeSubmitted_fit writeSubmitted_eq)
  have hexec : Trace storeQueue.Act writeSubmitted [] writeDone :=
    Trace.nil.step (BlockQueue.Act.idle _)
  have hread : Trace storeQueue.Act writePolled
      [.submitted 1 (request storeEnv.ns nvmeCmdRead (2 ^ 30 + 2 * 2 ^ 15) 16 16)] readSubmitted :=
    Trace.nil.step (BlockQueue.Act.submit 0 [] readSubmitted_fit readSubmitted_eq)
  have hdone : Trace storeQueue.Act writePolled
      [.submitted 1 (request storeEnv.ns nvmeCmdRead (2 ^ 30 + 2 * 2 ^ 15) 16 16)] readDone :=
    hread.step (BlockQueue.Act.idle _)
  have hwritten : storeQueue.Act writeDone (some (.polled 0 0 true)) writePolled :=
    BlockQueue.Act.poll 0 unvmeTimeout [] (by decide +kernel) writePolled_eq
  have hloaded : storeQueue.Act readDone (some (.polled 1 0 true)) readPolled :=
    BlockQueue.Act.poll 1 unvmeTimeout [] (by decide +kernel) readPolled_eq
  have hx : transfer storeEnv.ns (writeSubmitted.q.desc 0)
      = request storeEnv.ns nvmeCmdWrite (2 ^ 30 + 1 * 2 ^ 15) 8 40 := by decide +kernel
  have hy : transfer storeEnv.ns (readDone.q.desc 1)
      = request storeEnv.ns nvmeCmdRead (2 ^ 30 + 2 * 2 ^ 15) 16 16 := by decide +kernel
  -- what is submitted in between is the read
  have hlog : ∀ (e : ℕ) (y : Transfer), Event.submitted e y ∈
      ([.submitted 1 (request storeEnv.ns nvmeCmdRead (2 ^ 30 + 2 * 2 ^ 15) 16 16)] : List (Event ℕ)) →
      ¬ y.Fills ((transfer storeEnv.ns (writeSubmitted.q.desc 0)).pos + 4196) := by
    intro e y hin hfills
    rw [List.mem_singleton, Event.submitted.injEq] at hin
    rw [hin.2] at hfills
    cases hfills.1
  have hback := write_read_back (Q := storeQueue) (i := 4196) (j := 100) hwrite (by decide +kernel)
    (by rw [hx]; rfl) hexec
    (fun _ hin => absurd hin List.not_mem_nil) hwritten hdone (by rw [hy]; rfl) hloaded
    (by rw [hx]; decide) (by rw [hy]; decide) (by rw [hx, hy]; decide) hlog
  rw [hx, hy] at hback
  simp only [request] at hback
  exact hback

end Unvme.Store
