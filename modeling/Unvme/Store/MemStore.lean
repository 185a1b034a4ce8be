import Unvme.Store.SharedStore

set_option autoImplicit false

/-! # The store in memory (`UNVME_MEM`)

`unvme.c` has its calls twice. Compiled with `UNVME_MEM` there is no device: the medium is an array, a read
or a write is one `memcpy` inside the call, and a poll has nothing to do. A client must not be able to tell
the difference (`memory_store_agrees`): on any number of queues, in any interleaving, as long as nothing
fails, medium and memory are those of the array version after the same calls, wherever nothing is under way.

The array is ahead of the device by the requests under way (`MemStore.Ahead`). -/

namespace Unvme.Store

open Unvme.Lib Unvme.Nvme Unvme.Core

/-- The size of the array in bytes. -/
def kStorageSize : ℕ := 10 * 1024 * 1024 * 1024

/-- `ns->blocksize` -/
def memBlocksize : ℕ := 512

/-- The array and the client's memory. -/
structure MemStore where
  memBuf : ℕ → ℕ
  mem : ℕ → ℕ

namespace MemStore

/-- The number of bytes `nlb * ns->blocksize`, computed in 32 bits. -/
def copyBytes (nlb : ℕ) : ℕ := nlb * memBlocksize % 2 ^ 32

/-- The offset `slba * ns->blocksize`, computed in 64 bits. -/
def copyOffset (slba : ℕ) : ℕ := slba * memBlocksize % 2 ^ 64

/-- `memcpy(buf, mem_buf + slba * ns->blocksize, nlb * ns->blocksize)`, unless the process aborts. -/
def unvmeAread (m : MemStore) (buf slba nlb : ℕ) : Option MemStore :=
  if kStorageSize / 512 < (slba + nlb) % 2 ^ 64 then none
  else some { m with mem := copyCells m.memBuf (copyOffset slba) m.mem buf (copyBytes nlb) }

/-- `memcpy(mem_buf + slba * ns->blocksize, buf, nlb * ns->blocksize)`, unless the process aborts. -/
def unvmeAwrite (m : MemStore) (buf slba nlb : ℕ) : Option MemStore :=
  if kStorageSize / 512 < (slba + nlb) % 2 ^ 64 then none
  else some { m with memBuf := copyCells m.mem buf m.memBuf (copyOffset slba) (copyBytes nlb) }

/-- The client's calls, as it logs them with the driver: a poll returns at once. -/
inductive Step (ns : Ns) (m : MemStore) : Event ℕ → MemStore → Prop
  | read (k buf slba nlb : ℕ) {m' : MemStore} (h : m.unvmeAread buf slba nlb = some m') :
      Step ns m (.submitted k (request ns nvmeCmdRead buf slba nlb)) m'
  | write (k buf slba nlb : ℕ) {m' : MemStore} (h : m.unvmeAwrite buf slba nlb = some m') :
      Step ns m (.submitted k (request ns nvmeCmdWrite buf slba nlb)) m'
  | polled (k : ℕ) (r : ℤ) (ok : Bool) : Step ns m (.polled k r ok) m
  | stored (w : ℕ → Option ℕ) : Step ns m (.stored w) { m with mem := fun a => (w a).getD (m.mem a) }

/-- Do what the request says, at once. -/
def move (m : MemStore) (x : Transfer) : MemStore where
  memBuf := if x.write then copyCells m.mem x.buf m.memBuf x.pos x.len else m.memBuf
  mem := if x.write then m.mem else copyCells m.memBuf x.pos m.mem x.buf x.len

section

variable {m : MemStore} {x : Transfer}

theorem move_memBuf (hw : x.write = true) {i : ℕ} (hi : i < x.len) :
    (m.move x).memBuf (x.pos + i) = m.mem (x.buf + i) := by
  simp only [move, hw, if_true]
  exact copyCells_of_mem hi

theorem move_mem (hw : x.write = false) {i : ℕ} (hi : i < x.len) :
    (m.move x).mem (x.buf + i) = m.memBuf (x.pos + i) := by
  simp only [move, hw]
  exact copyCells_of_mem hi

theorem move_memBuf_of_not_fills {b : ℕ} (h : ¬ x.Fills b) : (m.move x).memBuf b = m.memBuf b := by
  simp only [move]
  split
  · next hw => exact copyCells_of_not_mem (fun hin => h ⟨hw, hin⟩)
  · rfl

theorem move_mem_of_not_loads {a : ℕ} (h : ¬ x.Loads a) : (m.move x).mem a = m.mem a := by
  simp only [move]
  split
  · rfl
  · next hw =>
      rw [Bool.not_eq_true] at hw
      exact copyCells_of_not_mem (fun hin => h ⟨hw, hin⟩)

/-- The calls do what the request of the same arguments says, for less than 4 GiB in blocks of 512 bytes
    inside the array. -/
theorem Step.of_request {ns : Ns} (hbs : ns.blockshift = 9) {opc buf slba nlb k : ℕ}
    (hopc : opc = nvmeCmdRead ∨ opc = nvmeCmdWrite)
    (hin : (request ns opc buf slba nlb).pos + (request ns opc buf slba nlb).len ≤ kStorageSize)
    (hlen : (request ns opc buf slba nlb).len < 2 ^ 32) :
    Step ns m (.submitted k (request ns opc buf slba nlb)) (m.move (request ns opc buf slba nlb)) := by
  have hshift : ∀ n, n <<< ns.blockshift = n * memBlocksize := by
    intro n
    rw [hbs, Nat.shiftLeft_eq]
    rfl
  have hfit : ¬ kStorageSize / 512 < (slba + nlb) % 2 ^ 64 := by
    simp only [request, hshift, memBlocksize] at hin
    have hmod := Nat.mod_le (slba + nlb) (2 ^ 64)
    unfold kStorageSize at hin ⊢
    omega
  have hbytes : copyBytes nlb = nlb * memBlocksize := by
    simp only [request, hshift] at hlen
    exact Nat.mod_eq_of_lt hlen
  have hoffset : copyOffset slba = slba * memBlocksize := by
    simp only [request, hshift] at hin
    refine Nat.mod_eq_of_lt ?_
    unfold kStorageSize at hin
    omega
  rcases hopc with rfl | rfl
  · refine .read k buf slba nlb ?_
    unfold unvmeAread
    rw [if_neg hfit, hbytes, hoffset]
    simp only [move, request, hshift]
    rfl
  · refine .write k buf slba nlb ?_
    unfold unvmeAwrite
    rw [if_neg hfit, hbytes, hoffset]
    simp only [move, request, hshift]
    rfl

end

/-- The array version has done what is under way, and agrees with the store otherwise. -/
structure Ahead (t : Flat ℕ) (m : MemStore) : Prop where
  filled : ∀ k x, t.pending k = some x → x.write = true → ∀ i < x.len,
    m.memBuf (x.pos + i) = t.mem (x.buf + i)
  loaded : ∀ k x, t.pending k = some x → x.write = false → ∀ i < x.len,
    m.mem (x.buf + i) = t.store (x.pos + i)
  store : ∀ b, (∀ k x, t.pending k = some x → ¬ x.Fills b) → m.memBuf b = t.store b
  mem : ∀ a, (∀ k x, t.pending k = some x → ¬ x.Loads a) → m.mem a = t.mem a

section

variable {t t' : Flat ℕ} {m : MemStore} {x : Transfer} {k : ℕ}

/-- A request starts. -/
theorem Ahead.submit (h : Ahead t m) (hfree : t.Free x) (hk : t.pending k = none) :
    Ahead (t.submit k x) (m.move x) := by
  have hbuf : ∀ i < x.len, x.InBuf (x.buf + i) := fun i hi => ⟨Nat.le_add_right _ _, by omega⟩
  have hpos : ∀ i < x.len, x.InPos (x.pos + i) := fun i hi => ⟨Nat.le_add_right _ _, by omega⟩
  have hcases : ∀ k' y, (t.submit k x).pending k' = some y → y = x ∨ t.pending k' = some y := by
    intro k' y hy
    by_cases hkk : k' = k
    · subst hkk
      rw [Flat.submit_pending_self, Option.some.injEq] at hy
      exact Or.inl hy.symm
    · rw [Flat.submit_pending_of_ne hkk] at hy
      exact Or.inr hy
  have hold : ∀ k' y, t.pending k' = some y → (t.submit k x).pending k' = some y := by
    intro k' y hy
    have hkk : k' ≠ k := by
      rintro rfl
      rw [hk] at hy
      cases hy
    rw [Flat.submit_pending_of_ne hkk]
    exact hy
  have hself : (t.submit k x).pending k = some x := Flat.submit_pending_self t k x
  refine ⟨?_, ?_, ?_, ?_⟩
  · intro k' y hy hw i hi
    rcases hcases k' y hy with rfl | hy
    · rw [move_memBuf hw hi]
      exact h.mem _ (fun k' z hz hl => (hfree k' z hz).buf _ hl.2 (hbuf i hi))
    · rw [move_memBuf_of_not_fills]
      · exact h.filled k' y hy hw i hi
      · exact fun hf => (hfree k' y hy).pos _ ⟨Nat.le_add_right _ _, by omega⟩ hf.2
  · intro k' y hy hw i hi
    rcases hcases k' y hy with rfl | hy
    · rw [move_mem hw hi]
      exact h.store _ (fun k' z hz hf => (hfree k' z hz).pos _ hf.2 (hpos i hi))
    · rw [move_mem_of_not_loads]
      · exact h.loaded k' y hy hw i hi
      · exact fun hl => (hfree k' y hy).buf _ ⟨Nat.le_add_right _ _, by omega⟩ hl.2
  · intro b hb
    rw [move_memBuf_of_not_fills (hb k x hself)]
    exact h.store b (fun k' y hy => hb k' y (hold k' y hy))
  · intro a ha
    rw [move_mem_of_not_loads (ha k x hself)]
    exact h.mem a (fun k' y hy => ha k' y (hold k' y hy))

/-- A request is completed: the store catches up. -/
theorem Ahead.complete (h : Ahead t m) (hwf : t.Wf) (hk : t.pending k = some x) :
    Ahead (t.complete k x) m := by
  have hne : ∀ k' y, (t.complete k x).pending k' = some y → k' ≠ k ∧ t.pending k' = some y := by
    intro k' y hy
    refine ⟨?_, Flat.pending_of_release hy⟩
    rintro rfl
    simp only [Flat.complete, Function.update_self] at hy
    cases hy
  -- of the requests that were under way only `x` is not any more
  have hrest : ∀ P : Transfer → Prop, (∀ k' y, (t.complete k x).pending k' = some y → ¬ P y) → ¬ P x →
      ∀ k' y, t.pending k' = some y → ¬ P y := by
    intro P hP hx k' y hy
    by_cases hkk : k' = k
    · subst hkk
      rw [hk, Option.some.injEq] at hy
      rwa [← hy]
    · refine hP k' y ?_
      show Function.update t.pending k none k' = _
      rw [Function.update_of_ne hkk]
      exact hy
  refine ⟨?_, ?_, ?_, ?_⟩
  · intro k' y hy hw i hi
    obtain ⟨hkk, hy⟩ := hne k' y hy
    rw [Flat.complete_mem_of_not_loads]
    · exact h.filled k' y hy hw i hi
    · exact fun hl => (hwf k' k y x hkk hy hk).buf _ ⟨Nat.le_add_right _ _, by omega⟩ hl.2
  · intro k' y hy hw i hi
    obtain ⟨hkk, hy⟩ := hne k' y hy
    rw [Flat.complete_store_of_not_fills]
    · exact h.loaded k' y hy hw i hi
    · exact fun hf => (hwf k' k y x hkk hy hk).pos _ ⟨Nat.le_add_right _ _, by omega⟩ hf.2
  · intro b hb
    by_cases hx : x.Fills b
    · obtain ⟨hw, hlo, hhi⟩ := hx
      obtain ⟨i, rfl⟩ := Nat.exists_eq_add_of_le hlo
      rw [Flat.complete_store hw (by omega)]
      exact h.filled k x hk hw i (by omega)
    · rw [Flat.complete_store_of_not_fills hx]
      exact h.store b (hrest (fun y => y.Fills b) hb hx)
  · intro a ha
    by_cases hx : x.Loads a
    · obtain ⟨hw, hlo, hhi⟩ := hx
      obtain ⟨i, rfl⟩ := Nat.exists_eq_add_of_le hlo
      rw [Flat.complete_mem hw (by omega)]
      exact h.loaded k x hk hw i (by omega)
    · rw [Flat.complete_mem_of_not_loads hx]
      exact h.mem a (hrest (fun y => y.Loads a) ha hx)

/-- The client writes to memory that nothing under way uses. -/
theorem Ahead.stored (h : Ahead t m) {w : ℕ → Option ℕ}
    (hw : ∀ k x, t.pending k = some x → ∀ a, x.InBuf a → w a = none) :
    Ahead (t.write w) { m with mem := fun a => (w a).getD (m.mem a) } := by
  have hsame : ∀ k x, t.pending k = some x → ∀ i < x.len, w (x.buf + i) = none :=
    fun k x hx i hi => hw k x hx _ ⟨Nat.le_add_right _ _, by omega⟩
  refine ⟨?_, ?_, h.store, fun a ha => congrArg (w a).getD (h.mem a ha)⟩
  · intro k x hx hwr i hi
    show _ = (w (x.buf + i)).getD _
    rw [hsame k x hx i hi, Option.getD_none]
    exact h.filled k x hx hwr i hi
  · intro k x hx hwr i hi
    show (w (x.buf + i)).getD _ = _
    rw [hsame k x hx i hi, Option.getD_none]
    exact h.loaded k x hx hwr i hi

end

/-- **The array version goes along with every run of the store in which nothing fails.** -/
theorem Ahead.run {ns : Ns} {t t' : Flat ℕ} {m : MemStore} {log : List (Event ℕ)} (h : Ahead t m)
    (hwf : t.Wf) (hrun : Flat.Run t log t') (hok : ∀ k r, .polled k r false ∉ log)
    (hsub : ∀ k x, .submitted k x ∈ log → ∀ m : MemStore, Step ns m (.submitted k x) (m.move x)) :
    ∃ m', Follows (Step ns) m log m' ∧ Ahead t' m' := by
  induction hrun with
  | nil => exact ⟨m, .nil, h⟩
  | @snoc log t₁ t₂ e hrun hn ih =>
      have hwf₁ := Flat.Run.wf hrun hwf
      obtain ⟨m₁, hfollows, h₁⟩ := ih (fun k r hin => hok k r (List.mem_append_left _ hin))
        (fun k x hin => hsub k x (List.mem_append_left _ hin))
      have hlast : e ∈ log ++ [e] := List.mem_append_right _ (List.mem_singleton_self e)
      cases hn with
      | submitted k x hk hx => exact ⟨_, hfollows.snoc (hsub k x hlast m₁), h₁.submit hx hk⟩
      | complete k x hk => exact ⟨m₁, hfollows.snoc (.polled k 0 true), h₁.complete hwf₁ hk⟩
      | failed k x r store mem hk hs hm => exact absurd hlast (hok k r)
      | unfinished k x r ok hk hr => exact ⟨m₁, hfollows.snoc (.polled k r ok), h₁⟩
      | stored w hw => exact ⟨_, hfollows.snoc (.stored w), h₁.stored hw⟩

end MemStore

section

variable {E : Env} {D : BlockDevice E} {S S' : Queues D.qcount} {log : List (Event ℕ)} {mem disk : ℕ → ℕ}

/-- What is submitted is a read or a write. -/
theorem BlockDevice.submitted_request (hrun : Trace D.Act S log S') {k : ℕ} {x : Transfer}
    (hin : .submitted k x ∈ log) : ∃ opc buf slba nlb, (opc = nvmeCmdRead ∨ opc = nvmeCmdWrite) ∧
      x = request E.ns opc buf slba nlb := by
  induction hrun with
  | nil => cases hin
  | @step log s₁ s₂ o _ hact ih =>
      rcases List.mem_append.1 hin with hin | hin
      · exact ih hin
      · rw [Option.mem_toList] at hin
        subst hin
        cases hact with
        | @take i qid opc buf slba nlb d s hpc hl hs => exact ⟨opc, buf, slba, nlb, hl.readWrite, rfl⟩

/-- **The driver agrees with the store in memory**, for blocks of 512 bytes and requests of less than 4 GiB
    inside the array, as long as no request fails: medium and client memory are what the `memcpy` version
    has after the same calls, in every interleaving, except for what requests under way are still to
    fill. -/
theorem memory_store_agrees (hbs : E.ns.blockshift = 9) (hrun : Trace D.Act (D.boot mem disk) log S)
    (hok : ∀ k r, .polled k r false ∉ log)
    (hin : ∀ k x, .submitted k x ∈ log → x.pos + x.len ≤ kStorageSize ∧ x.len < 2 ^ 32) :
    ∃ m, Follows (MemStore.Step E.ns) ⟨disk, mem⟩ log m ∧
      (∀ b, (∀ i, ∀ d ∈ (S.sys i).q.usedDescs, ¬ (transfer E.ns ((S.sys i).q.desc d)).Fills b) →
        S.disk b = m.memBuf b) ∧
      ∀ a, (∀ i, ¬ (D.ioqs i).InList a) →
        (∀ i, ∀ d ∈ (S.sys i).q.usedDescs, ¬ (transfer E.ns ((S.sys i).q.desc d)).Loads a) →
        S.mem a = m.mem a := by
  obtain ⟨t, hflat, hr⟩ := D.simulates.trace (D.refines_boot mem disk) hrun
  have hstart : MemStore.Ahead (Flat.start disk mem) ⟨disk, mem⟩ := by
    refine ⟨?_, ?_, fun _ _ => rfl, fun _ _ => rfl⟩
    · intro k x hx
      cases hx
    · intro k x hx
      cases hx
  have hwf : (Flat.start disk mem : Flat ℕ).Wf := (D.refines_boot mem disk).wf
  obtain ⟨m, hfollows, hahead⟩ := hstart.run hwf hflat hok (by
    intro k x hx m
    obtain ⟨opc, buf, slba, nlb, hopc, rfl⟩ := BlockDevice.submitted_request hrun hx
    exact MemStore.Step.of_request hbs hopc (hin k _ hx).1 (hin k _ hx).2)
  -- the requests under way are the descriptors in use
  have hquiet : ∀ P : Transfer → Prop,
      (∀ i, ∀ d ∈ (S.sys i).q.usedDescs, ¬ P (transfer E.ns ((S.sys i).q.desc d))) →
      ∀ k x, t.pending k = some x → ¬ P x := by
    intro P hP k x hx
    obtain ⟨i, d, rfl⟩ := hr.handles k x hx
    obtain ⟨hd, rfl⟩ := (hr.agrees.pending i d x).1 hx
    exact hP i d hd
  refine ⟨m, hfollows, ?_, ?_⟩
  · intro b hb
    have hb' := hquiet (fun x => x.Fills b) hb
    rw [hr.disk b hb', hahead.store b hb']
  · intro a hlist ha
    have ha' := hquiet (fun x => x.Loads a) ha
    rw [hr.mem a hlist ha', hahead.mem a ha']

end

/-- A write of queue 0 has been carried out and polled: the media are equal. -/
theorem memory_store_agrees_written : ∃ m, Follows (MemStore.Step storeEnv.ns) ⟨fun _ => 0, fun a => a⟩
    [.submitted (handle (0 : Fin 2) 0) (request storeEnv.ns nvmeCmdWrite (2 ^ 30 + 1 * 2 ^ 15) 8 40),
      .polled (handle (0 : Fin 2) 0) 0 true] m ∧ ∀ b, sharedWritten.disk b = m.memBuf b := by
  have r₀ := storeDevice.refines_boot (fun a => a) (fun _ => 0)
  obtain ⟨h₁, -, S₂, h₂, -, hwritten⟩ := r₀.serve (i := (0 : Fin 2)) rfl storeQueues_fit writeSubmitted_eq
    [CtlAct.fetch, .fetch, .loadPrps 1, .loadPrps 0, .execute 1, .execute 0, .post 1 0 0, .post 0 0 0]
    writePolled_eq (by decide +kernel)
  have hrun : Trace storeDevice.Act (storeDevice.boot (fun a => a) (fun _ => 0)) _ sharedWritten :=
    (h₁.append h₂).step hwritten
  obtain ⟨m, hfollows, hdisk, -⟩ := memory_store_agrees rfl hrun
    (by
      intro k r hin
      simp only [List.append_nil, Option.toList_some, List.mem_append, List.mem_singleton] at hin
      rcases hin with hin | hin
      · cases hin
      · have herr : ((writePolled.q.desc 0).error == 0) = true := by decide +kernel
        rw [herr, Event.polled.injEq] at hin
        cases hin.2.2)
    (by
      intro k x hin
      simp only [List.append_nil, Option.toList_some, List.mem_append, List.mem_singleton] at hin
      rcases hin with hin | hin
      · rw [Event.submitted.injEq] at hin
        rw [hin.2]
        decide
      · cases hin)
  have herr : ((writePolled.q.desc 0).error == 0) = true := by decide +kernel
  rw [herr] at hfollows
  refine ⟨m, hfollows, fun b => hdisk b ?_⟩
  have hnil : ∀ i, (sharedWritten.sys i).q.usedDescs = [] := by decide +kernel
  intro i d hd
  rw [hnil i] at hd
  cases hd

end Unvme.Store
