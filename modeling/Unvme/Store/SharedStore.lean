import Unvme.Store.BlockStore
import Unvme.Store.Interleaving

set_option autoImplicit false

/-! # Reads and writes by concurrent threads

What clients of several I/O queues can rely on. `queues_block_store`: however the threads and the controller
interleave, and whatever the controller reports, what the threads see together is a run of one flat store.
`queues_read_back`: what was written through one queue is read back through another. The calls of
`unvme_core.c` are runs of the steps that are interleaved, with others woven into them or not, and from the
call that submits a request to the one that polls it the other threads may do what they want
(`BlockDevice.Refines.submit_poll`). -/

namespace Unvme.Store

open Unvme.Lib Unvme.Nvme Unvme.Core Unvme.Aurora

section

variable {E : Env} {D : BlockDevice E} {S S' : Queues D.qcount} {t : Flat ℕ} {log : List (Event ℕ)}
  {mem disk : ℕ → ℕ}

/-- The queues as `unvme_ioq_create` leaves them. -/
def BlockDevice.boot (D : BlockDevice E) (mem disk : ℕ → ℕ) : Queues D.qcount where
  sys := fun i => Sys.boot (D.ioqs i).qsize (D.ioqs i).prplist mem disk
  pc := fun _ => .idle
  mem := mem
  disk := disk

/-- The clients see store `t`: the descriptors in use are the requests under way, and outside of what these
    are to fill medium and memory are those of the store. -/
structure BlockDevice.Agrees (D : BlockDevice E) (S : Queues D.qcount) (t : Flat ℕ) : Prop where
  pending : ∀ i d x, t.pending (handle i d) = some x ↔
    d ∈ (S.sys i).q.usedDescs ∧ x = transfer E.ns ((S.sys i).q.desc d)
  disk : ∀ b, (∀ h x, t.pending h = some x → ¬ x.Fills b) → S.disk b = t.store b
  mem : ∀ a, (∀ i, ¬ (D.ioqs i).InList a) → (∀ h x, t.pending h = some x → ¬ x.Loads a) →
    S.mem a = t.mem a

theorem BlockDevice.Refines.agrees (h : D.Refines S t) : D.Agrees S t :=
  ⟨fun i => (h.holds i).data.pending, h.disk, h.mem⟩

/-- New queues are an idle store. -/
theorem BlockDevice.refines_boot (D : BlockDevice E) (mem disk : ℕ → ℕ) :
    D.Refines (D.boot mem disk) (Flat.start disk mem) := by
  refine ⟨fun i => ((D.ioqs i).refines_boot mem disk).inv, fun i => ((D.ioqs i).refines_boot mem disk).holds,
    ?_, ?_, ?_, fun _ _ => rfl, fun _ _ _ => rfl⟩
  · intro h x hx
    cases hx
  · intro h h' x x' _ hx
    cases hx
  · intro h x hx
    cases hx

/-- **However threads and controller interleave, the queues of a device are one flat block store.** -/
theorem queues_block_store (hrun : Trace D.Act (D.boot mem disk) log S) :
    ∃ t, Flat.Run (Flat.start disk mem) log t ∧ D.Agrees S t := by
  obtain ⟨t, hflat, h⟩ := D.simulates.trace (D.refines_boot mem disk) hrun
  exact ⟨t, hflat, h.agrees⟩

/-- **What was written through one queue is read back through another.** A write of queue `i` is under way
    in `S₁` and released from `S₂` to `S₃`; later a read of queue `j` is released from `S₄` to `S₅`. Blocks
    of both that no write was started for in between have the bytes, in the buffer of the read, that the
    buffer of the write had in `S₁`, whatever the threads did otherwise. -/
theorem queues_read_back {l₁ l₂ l₃ : List (Event ℕ)} {S₁ S₂ S₃ S₄ S₅ : Queues D.qcount}
    {i j : Fin D.qcount} {d e : ℕ} (h₁ : Trace D.Act (D.boot mem disk) l₁ S₁)
    (hd : d ∈ (S₁.sys i).q.usedDescs) (hw : (transfer E.ns ((S₁.sys i).q.desc d)).write = true)
    (h₂ : Trace D.Act S₁ l₂ S₂) (hsame : ∀ y, .submitted (handle i d) y ∉ l₂)
    (hwritten : D.Act S₂ (some (.polled (handle i d) 0 true)) S₃)
    (h₃ : Trace D.Act S₃ l₃ S₄) (hr : (transfer E.ns ((S₄.sys j).q.desc e)).write = false)
    (hread : D.Act S₄ (some (.polled (handle j e) 0 true)) S₅) {m n : ℕ}
    (hm : m < (transfer E.ns ((S₁.sys i).q.desc d)).len)
    (hn : n < (transfer E.ns ((S₄.sys j).q.desc e)).len)
    (hblock : (transfer E.ns ((S₁.sys i).q.desc d)).pos + m
      = (transfer E.ns ((S₄.sys j).q.desc e)).pos + n)
    (hlog : ∀ k y, .submitted k y ∈ l₃ → ¬ y.Fills ((transfer E.ns ((S₁.sys i).q.desc d)).pos + m)) :
    S₅.mem ((transfer E.ns ((S₄.sys j).q.desc e)).buf + n)
      = S₁.mem ((transfer E.ns ((S₁.sys i).q.desc d)).buf + m) := by
  obtain ⟨t₁, -, r₁⟩ := D.simulates.trace (D.refines_boot mem disk) h₁
  obtain ⟨t₂, f₂, r₂⟩ := D.simulates.trace r₁ h₂
  obtain ⟨t₃, step₃, r₃⟩ := D.simulates _ _ _ _ r₂ hwritten
  obtain ⟨t₄, f₄, r₄⟩ := D.simulates.trace r₃ h₃
  obtain ⟨t₅, step₅, r₅⟩ := D.simulates _ _ _ _ r₄ hread
  have hx := (r₁.agrees.pending i d _).2 ⟨hd, rfl⟩
  obtain ⟨y, hy, heq⟩ := step₅.completed
  obtain ⟨-, rfl⟩ := (r₄.agrees.pending j e y).1 hy
  have hback := Flat.read_back r₁.wf hx hw f₂ hsame step₃ f₄ hy hr step₅ hm hn hblock hlog
  -- the buffers are the clients', so both states agree with the store on them
  generalize transfer E.ns ((S₁.sys i).q.desc d) = x at hx hw hm hback ⊢
  generalize transfer E.ns ((S₄.sys j).q.desc e) = y at hy hn hback heq ⊢
  have hfirst : x.InBuf (x.buf + m) := ⟨Nat.le_add_right _ _, by omega⟩
  have hlast : y.InBuf (y.buf + n) := ⟨Nat.le_add_right _ _, by omega⟩
  have hquiet : ∀ k z, t₅.pending k = some z → ¬ z.Loads (y.buf + n) := by
    rw [heq]
    refine Flat.complete_quiet ?_
    rintro k z hne hz ⟨-, hin⟩
    exact (r₄.wf k _ z y hne hz hy).buf _ hin hlast
  rw [r₅.mem _ (r₄.clear _ y hy _ hlast) hquiet, hback,
    r₁.mem _ (r₁.clear _ x hx _ hfirst) (r₁.wf.not_loads hx hw hfirst)]

/-! ## Calls

The calls of `Store/Interleaving.lean` with nothing woven into them. -/

/-- The controller acts on queue `i`. -/
theorem BlockDevice.trace_acts (S : Queues D.qcount) {i : Fin D.qcount} {s : Sys} (hinv : s.Inv .idle)
    (acts : List CtlAct) : Trace D.Act (S.put i s .idle) []
      (S.put i { s with dev := acts.foldl (Device.act E.media) s.dev } .idle) := by
  have hsteps := Round.steps (E := E) (G := (D.ioqs i).guards) (r := .idle acts) hinv trivial rfl
  rcases hsteps with hst | ⟨mem, hr, -⟩
  · have hstart : Sys.Alike s ((S.put i s .idle).view i) := by
      rw [Queues.view_put_self]
      exact .refl s
    exact (D.weaves_alone S (Steps.quiet hinv hst rfl)).trace hstart (Queues.pc_put_self S i s .idle)
  · cases hr

/-- `unvme_do_rw` is a run of the device, after which the whole request has been submitted. -/
theorem BlockDevice.Refines.rw (h : D.Refines S t) {i : Fin D.qcount} {qid : ℤ} {opc buf slba nlb d : ℕ}
    {σ : List (List CtlAct)} {s' : Sys} (hpc : S.pc i = .idle) (hl : D.Fit S opc buf slba nlb)
    (hr : unvmeDoRw E qid opc buf slba nlb ((S.view i).withSched σ) = .ok d s') :
    Trace D.Act S [.submitted (handle i d) (request E.ns opc buf slba nlb)] (S.put i s' .idle) ∧
      D.Submitted (S.put i s' .idle) i d := by
  obtain ⟨s₁, htake, hst, hall⟩ := h.rw_woven hpc hl hr
  obtain ⟨htrace, -, hsub⟩ := hall _ _ (D.weaves_alone S hst)
  exact ⟨htake.append htrace, hsub⟩

/-- `unvme_do_poll` of a request that has been submitted is a run of the device, the last step of which
    releases the request if nothing of it is pending any more. -/
theorem BlockDevice.Refines.poll (h : D.Refines S t) {i : Fin D.qcount} {d : ℕ} {timeout r : ℤ}
    {cs : Option ℕ} {σ : List (List CtlAct)} {s' : Sys} (hpc : S.pc i = .idle)
    (hsub : D.Submitted S i d)
    (hr : unvmeDoPoll E d timeout ((S.view i).withSched σ) = .ok (r, cs) s') :
    if (s'.q.desc d).cidcount = 0 then ∃ S₁, Trace D.Act S [] S₁ ∧
      (S₁.sys i).q.desc d = s'.q.desc d ∧
      D.Act S₁ (some (.polled (handle i d) r ((s'.q.desc d).error == 0))) (S.put i s' .idle)
    else Trace D.Act S [] (S.put i s' .idle) := by
  obtain ⟨s₁, hs', hst, hall⟩ := h.poll_woven hpc hsub hr
  obtain ⟨htrace, -, hq, hrelease⟩ := hall _ _ (D.weaves_alone S hst)
  have hdesc : s'.q.desc d = s₁.q.desc d := by rw [hs']; split <;> rfl
  rw [hdesc]
  by_cases h0 : (s₁.q.desc d).cidcount = 0
  · have hact := hrelease h0
    rw [Queues.view_put_self, Queues.put_put] at hact
    rw [if_pos h0] at hs' ⊢
    rw [hs']
    exact ⟨_, htrace, congrArg (fun q => q.desc d) hq, hact⟩
  · rw [if_neg h0] at hs' ⊢
    rw [hs']
    exact htrace

/-- **A request that is submitted by one call and polled by a later one.** In between the threads, the
    controller and the client do whatever they want, in the middle of calls on other queues or not, but for
    releasing the request. -/
theorem BlockDevice.Refines.submit_poll (h : D.Refines S t) {i : Fin D.qcount} {qid : ℤ}
    {opc buf slba nlb d : ℕ} {σ σ' : List (List CtlAct)} {s₁ s₂ : Sys} {S₂ : Queues D.qcount}
    {timeout r : ℤ} {cs : Option ℕ} (hpc : S.pc i = .idle) (hl : D.Fit S opc buf slba nlb)
    (hr : unvmeDoRw E qid opc buf slba nlb ((S.view i).withSched σ) = .ok d s₁)
    (hmid : Trace D.Act (S.put i s₁ .idle) log S₂) (hlog : ∀ r good, Event.polled (handle i d) r good ∉ log)
    (hpc₂ : S₂.pc i = .idle)
    (hp : unvmeDoPoll E d timeout ((S₂.view i).withSched σ') = .ok (r, cs) s₂)
    (h0 : (s₂.q.desc d).cidcount = 0) :
    Trace D.Act S [.submitted (handle i d) (request E.ns opc buf slba nlb)] (S.put i s₁ .idle) ∧
      d ∈ s₁.q.usedDescs ∧
      ∃ S', Trace D.Act S₂ [] S' ∧ (S'.sys i).q.desc d = s₂.q.desc d ∧
        D.Act S' (some (.polled (handle i d) r ((s₂.q.desc d).error == 0))) (S₂.put i s₂ .idle) := by
  obtain ⟨hsubmit, hsub⟩ := h.rw hpc hl hr
  obtain ⟨t₁, -, r₁⟩ := D.simulates.trace h hsubmit
  obtain ⟨t₂, -, r₂⟩ := D.simulates.trace r₁ hmid
  have hpoll := r₂.poll hpc₂ (hsub.trace r₁ hmid hlog) hp
  rw [if_pos h0] at hpoll
  refine ⟨hsubmit, ?_, hpoll⟩
  have hd := hsub.1
  rwa [Queues.view_put_self] at hd

/-- The controller carries the request out in between, and no one else does anything. -/
theorem BlockDevice.Refines.serve (h : D.Refines S t) {i : Fin D.qcount} {qid : ℤ}
    {opc buf slba nlb d : ℕ} {σ σ' : List (List CtlAct)} {s₁ s₂ : Sys} (hpc : S.pc i = .idle)
    (hl : D.Fit S opc buf slba nlb)
    (hr : unvmeDoRw E qid opc buf slba nlb ((S.view i).withSched σ) = .ok d s₁) (acts : List CtlAct)
    {timeout r : ℤ} {cs : Option ℕ} (hp : unvmeDoPoll E d timeout
      (Sys.withSched { s₁ with dev := acts.foldl (Device.act E.media) s₁.dev } σ') = .ok (r, cs) s₂)
    (h0 : (s₂.q.desc d).cidcount = 0) :
    Trace D.Act S [.submitted (handle i d) (request E.ns opc buf slba nlb)] (S.put i s₁ .idle) ∧
      d ∈ s₁.q.usedDescs ∧
      ∃ S', Trace D.Act (S.put i s₁ .idle) [] S' ∧ (S'.sys i).q.desc d = s₂.q.desc d ∧
        D.Act S' (some (.polled (handle i d) r ((s₂.q.desc d).error == 0))) (S.put i s₂ .idle) := by
  obtain ⟨t₁, -, r₁⟩ := D.simulates.trace h (h.rw hpc hl hr).1
  have hinv := r₁.inv i
  rw [Queues.view_put_self, Queues.pc_put_self] at hinv
  have hacts := D.trace_acts S (i := i) hinv acts
  generalize hS : S.put i { s₁ with dev := acts.foldl (Device.act E.media) s₁.dev } .idle = S₂ at hacts
  have hview : S₂.view i = { s₁ with dev := acts.foldl (Device.act E.media) s₁.dev } := by
    rw [← hS, Queues.view_put_self]
  have hpc₂ : S₂.pc i = .idle := by rw [← hS, Queues.pc_put_self]
  rw [← hview] at hp
  obtain ⟨hsubmit, hd, S', htrace, hdesc, hact⟩ :=
    h.submit_poll hpc hl hr hacts (fun _ _ => List.not_mem_nil) hpc₂ hp h0
  rw [← hS, Queues.put_put] at hact
  exact ⟨hsubmit, hd, S', hacts.append htrace, hdesc, hact⟩

end

/-! ## Two queues -/

/-- The lists of queue `k` are the `k`-th 16 KiB of the region. -/
theorem storeList {k : ℕ} (hk : k < 2) :
    storeEnv.Block ⟨2 ^ 30 + k * 2 ^ 14, 2 ^ 40 + k * 2 ^ 14, 2 ^ 14⟩ := by
  have hmax : maxSize = 2 ^ 35 := by decide
  refine ⟨?_, ?_, ?_⟩
  · show 2 ^ 30 ≤ 2 ^ 30 + k * 2 ^ 14
    omega
  · show 2 ^ 40 + k * 2 ^ 14 = 2 ^ 40 + (2 ^ 30 + k * 2 ^ 14 - 2 ^ 30)
    omega
  · show 2 ^ 30 + k * 2 ^ 14 + 2 ^ 14 ≤ 2 ^ 30 + maxSize
    omega

theorem storeList_apart {k l : ℕ} (h : k ≠ l) (a : ℕ)
    (hk : 2 ^ 30 + k * 2 ^ 14 ≤ a ∧ a < 2 ^ 30 + k * 2 ^ 14 + 2 ^ 14) :
    ¬ (2 ^ 30 + l * 2 ^ 14 ≤ a ∧ a < 2 ^ 30 + l * 2 ^ 14 + 2 ^ 14) := by
  omega

/-- Two queues like `storeQueue`. -/
def storeDevice : BlockDevice storeEnv where
  qcount := 2
  ioqs := fun i => { storeQueue with
    prplist := ⟨2 ^ 30 + i.val * 2 ^ 14, 2 ^ 40 + i.val * 2 ^ 14, 2 ^ 14⟩
    list := storeList i.isLt
    listSize := storeQueue.listSize }
  apart := fun _ _ h => storeList_apart (fun heq => h (Fin.ext heq))

def storeQueues : Queues 2 := storeDevice.boot (fun a => a) (fun _ => 0)

/-- A request for a buffer behind the lists. -/
theorem storeDevice_fit {S : Queues 2} {opc k slba nlb : ℕ}
    (hopc : opc = nvmeCmdRead ∨ opc = nvmeCmdWrite) (hk : 1 ≤ k ∧ k < 1024) (hnlb : nlb ≤ 64)
    (hrange : slba + nlb ≤ 2 ^ 20)
    (hapart : ∀ i, ∀ d ∈ (S.sys i).q.usedDescs, (transfer storeEnv.ns ((S.sys i).q.desc d)).Apart
      (request storeEnv.ns opc (2 ^ 30 + k * 2 ^ 15) slba nlb)) :
    storeDevice.Fit S opc (2 ^ 30 + k * 2 ^ 15) slba nlb where
  readWrite := hopc
  buffer := by
    refine ⟨_, clientBlock_fit hk.2, rfl, ?_⟩
    show nlb <<< 9 ≤ 2 ^ 15
    rw [Nat.shiftLeft_eq]
    omega
  range := fun _ => hrange
  clear := by
    rintro i a ⟨hlo, -⟩ ⟨-, hhi⟩
    have hi : i.val < 2 := i.isLt
    change 2 ^ 30 + k * 2 ^ 15 ≤ a at hlo
    change a < 2 ^ 30 + i.val * 2 ^ 14 + 2 ^ 14 at hhi
    omega
  apart := hapart

/-- The thread of queue 0 has started a write. -/
def oneStarted : Queues 2 :=
  storeQueues.put 0 (rwStart 0 nvmeCmdWrite (2 ^ 30 + 1 * 2 ^ 15) 8 40 (storeQueues.view 0)).2 .idle

/-- In the middle of it that of queue 1 has started a read of other blocks. -/
def twoStarted : Queues 2 :=
  oneStarted.put 1 (rwStart 1 nvmeCmdRead (2 ^ 30 + 2 * 2 ^ 15) 64 16 (oneStarted.view 1)).2 .idle

/-- A write that fits the new queues. -/
theorem storeQueues_fit : storeDevice.Fit storeQueues nvmeCmdWrite (2 ^ 30 + 1 * 2 ^ 15) 8 40 := by
  refine storeDevice_fit (Or.inr rfl) (by decide) (by decide) (by decide) ?_
  have hnil : ∀ i, (storeQueues.sys i).q.usedDescs = [] := by decide +kernel
  intro i d hd
  rw [hnil i] at hd
  cases hd

theorem twoStarted_trace : Trace storeDevice.Act storeQueues
    [.submitted (handle (0 : Fin 2) 0) (request storeEnv.ns nvmeCmdWrite (2 ^ 30 + 1 * 2 ^ 15) 8 40),
      .submitted (handle (1 : Fin 2) 0) (request storeEnv.ns nvmeCmdRead (2 ^ 30 + 2 * 2 ^ 15) 64 16)]
    twoStarted := by
  have hfit₁ : storeDevice.Fit oneStarted nvmeCmdRead (2 ^ 30 + 2 * 2 ^ 15) 64 16 := by
    refine storeDevice_fit (Or.inl rfl) (by decide) (by decide) (by decide) ?_
    have hused : ∀ i, ∀ d ∈ (oneStarted.sys i).q.usedDescs,
        transfer storeEnv.ns ((oneStarted.sys i).q.desc d)
          = request storeEnv.ns nvmeCmdWrite (2 ^ 30 + 1 * 2 ^ 15) 8 40 := by decide +kernel
    intro i d hd
    rw [hused i d hd]
    refine ⟨?_, ?_⟩
    · rintro a ⟨-, hhi⟩ ⟨hlo, -⟩
      change a < 2 ^ 30 + 1 * 2 ^ 15 + 40 * 2 ^ 9 at hhi
      change 2 ^ 30 + 2 * 2 ^ 15 ≤ a at hlo
      omega
    · rintro b ⟨-, hhi⟩ ⟨hlo, -⟩
      change b < 8 * 2 ^ 9 + 40 * 2 ^ 9 at hhi
      change 64 * 2 ^ 9 ≤ b at hlo
      omega
  have hs₀ : rwStart 0 nvmeCmdWrite (2 ^ 30 + 1 * 2 ^ 15) 8 40 (storeQueues.view 0) = (0, _) :=
    Prod.ext (by decide +kernel) rfl
  have hs₁ : rwStart 1 nvmeCmdRead (2 ^ 30 + 2 * 2 ^ 15) 64 16 (oneStarted.view 1) = (0, _) :=
    Prod.ext (by decide +kernel) rfl
  have hfirst : Trace storeDevice.Act storeQueues _ oneStarted :=
    Trace.nil.step (BlockDevice.Act.take (D := storeDevice) (0 : Fin 2) 0 rfl storeQueues_fit hs₀)
  exact hfirst.step (BlockDevice.Act.take (D := storeDevice) (1 : Fin 2) 1 rfl hfit₁ hs₁)

/-- The store in which both requests are under way. -/
theorem queues_block_store_two : ∃ t,
    Flat.Run (Flat.start (fun _ => 0) (fun a => a))
        [.submitted (handle (0 : Fin 2) 0) (request storeEnv.ns nvmeCmdWrite (2 ^ 30 + 1 * 2 ^ 15) 8 40),
          .submitted (handle (1 : Fin 2) 0)
            (request storeEnv.ns nvmeCmdRead (2 ^ 30 + 2 * 2 ^ 15) 64 16)] t ∧
      storeDevice.Agrees twoStarted t := queues_block_store (D := storeDevice) twoStarted_trace

/-- The write has been submitted. -/
def sharedSubmitted : Queues 2 := storeQueues.put 0 writeSubmitted .idle

/-- It has been carried out and polled. -/
def sharedWritten : Queues 2 := storeQueues.put 0 writePolled .idle

/-- The thread of queue 1 reads some of the blocks. -/
def readStarted : Sys :=
  final (unvmeDoRw storeEnv 1 nvmeCmdRead (2 ^ 30 + 2 * 2 ^ 15) 16 16)
    ((sharedWritten.view 1).withSched [])

def readFinished : Sys :=
  { readStarted with
    dev := [CtlAct.fetch, .loadPrps 0, .execute 0, .post 0 0 0].foldl (Device.act storeEnv.media)
      readStarted.dev }

def readReleased : Sys := final (unvmeDoPoll storeEnv 0 unvmeTimeout) (readFinished.withSched [])

def sharedRead : Queues 2 := sharedWritten.put 1 readReleased .idle

theorem readStarted_eq : unvmeDoRw storeEnv 1 nvmeCmdRead (2 ^ 30 + 2 * 2 ^ 15) 16 16
    ((sharedWritten.view 1).withSched []) = .ok 0 readStarted := eq_ok_of_returns (by decide +kernel)

theorem readReleased_eq : unvmeDoPoll storeEnv 0 unvmeTimeout (readFinished.withSched [])
    = .ok (0, some 0) readReleased := eq_ok_of_returns (by decide +kernel)

/-- A byte of the read, and the byte of the write it comes from. -/
theorem queues_read_back_byte :
    sharedRead.mem (2 ^ 30 + 2 * 2 ^ 15 + 100) = sharedSubmitted.mem (2 ^ 30 + 1 * 2 ^ 15 + 4196) := by
  have hfit₁ : storeDevice.Fit sharedWritten nvmeCmdRead (2 ^ 30 + 2 * 2 ^ 15) 16 16 := by
    refine storeDevice_fit (Or.inl rfl) (by decide) (by decide) (by decide) ?_
    have hnil : ∀ i, (sharedWritten.sys i).q.usedDescs = [] := by decide +kernel
    intro i d hd
    rw [hnil i] at hd
    cases hd
  have r₀ := storeDevice.refines_boot (fun a => a) (fun _ => 0)
  obtain ⟨h₁, hd₁, S₂, h₂, -, hwritten⟩ := r₀.serve (i := (0 : Fin 2)) rfl storeQueues_fit writeSubmitted_eq
    [CtlAct.fetch, .fetch, .loadPrps 1, .loadPrps 0, .execute 1, .execute 0, .post 1 0 0, .post 0 0 0]
    writePolled_eq (by decide +kernel)
  obtain ⟨t₁, -, r₁⟩ := storeDevice.simulates.trace r₀ h₁
  obtain ⟨t₂, -, r₂⟩ := storeDevice.simulates.trace r₁ h₂
  obtain ⟨t₃, -, r₃⟩ := storeDevice.simulates _ _ _ _ r₂ hwritten
  obtain ⟨h₃, -, S₄, h₄, hdesc, hread⟩ := r₃.serve (i := (1 : Fin 2)) rfl hfit₁ readStarted_eq
    [CtlAct.fetch, .loadPrps 0, .execute 0, .post 0 0 0] readReleased_eq (by decide +kernel)
  have hx : transfer storeEnv.ns ((sharedSubmitted.sys 0).q.desc 0)
      = request storeEnv.ns nvmeCmdWrite (2 ^ 30 + 1 * 2 ^ 15) 8 40 := by decide +kernel
  have hy : transfer storeEnv.ns ((S₄.sys (1 : Fin 2)).q.desc 0)
      = request storeEnv.ns nvmeCmdRead (2 ^ 30 + 2 * 2 ^ 15) 16 16 := by
    rw [hdesc]
    decide +kernel
  -- what is submitted in between is the read
  have hlog : ∀ (k : ℕ) (y : Transfer), Event.submitted k y ∈
      ([.submitted (handle (1 : Fin 2) 0) (request storeEnv.ns nvmeCmdRead (2 ^ 30 + 2 * 2 ^ 15) 16 16)] :
        List (Event ℕ)) →
      ¬ y.Fills ((transfer storeEnv.ns ((sharedSubmitted.sys 0).q.desc 0)).pos + 4196) := by
    intro k y hin hfills
    rw [List.mem_singleton, Event.submitted.injEq] at hin
    rw [hin.2] at hfills
    cases hfills.1
  have hsubmitted : Trace storeDevice.Act (storeDevice.boot (fun a => a) (fun _ => 0)) _ sharedSubmitted :=
    h₁
  have hback := queues_read_back (D := storeDevice) (i := (0 : Fin 2)) (j := (1 : Fin 2)) (d := 0) (e := 0)
    (m := 4196) (n := 100) hsubmitted hd₁ (by rw [hx]; rfl) h₂
    (fun _ hin => absurd hin List.not_mem_nil) hwritten (h₃.append h₄) (by rw [hy]; rfl) hread
    (by rw [hx]; decide) (by rw [hy]; decide) (by rw [hx, hy]; decide) hlog
  rw [hx, hy] at hback
  simp only [request] at hback
  exact hback

end Unvme.Store
