import Unvme.Aurora.Dma

set_option autoImplicit false

/-! # The memory of a queue (`unvme_queue_init`)

A queue has three blocks of DMA memory: the rings of its submission and completion entries, and a page
for the PRP list of every command id. A request of more than 2 MB, the largest block, stops the process,
so there is no queue of more than 32768 entries; and the size of the PRP lists is computed in an `int`. -/

namespace Unvme.Core

open Unvme.Lib Unvme.Aurora

/-- A queue with its memory. -/
structure DmaQueue where
  sqdma : Dma
  cqdma : Dma
  queue : Queue

/-- The PRP lists of the queue. -/
def DmaQueue.prplist (Q : DmaQueue) : Dma := Q.queue.prplist

/-- `qsize << dev->ns.pageshift`, an `int`, as a `size_t`. -/
def prplistSize (qsize pageshift : ℕ) : ℕ := (toInt32 (qsize <<< pageshift) % 2 ^ 64).toNat

/-- Initialize a queue of `qsize` entries of 64 and 16 bytes, in thread `t`. -/
def unvmeQueueInit (E : Env) (t qsize pageshift : ℕ) : HeapM DmaQueue := do
  let sqdma ← auroraMemAllocDma E t (qsize * 64)
  let cqdma ← auroraMemAllocDma E t (qsize * 16)
  let prplist ← auroraMemAllocDma E t (prplistSize qsize pageshift)
  pure ⟨sqdma, cqdma, Queue.setup qsize prplist⟩

/-- The allocator has blocks for such a request. -/
def Provided (size : ℕ) : Prop := ∃ tsize, dmaSize size = some tsize ∧ tsize ≤ maxbytes

section

variable {E : Env} {t qsize pageshift size : ℕ} {h h' : Heap} {d : Dma} {Q : DmaQueue}

theorem tsizeLoop_le {fuel tsize r : ℕ} (h : tsizeLoop size fuel tsize = some r) : size ≤ r := by
  induction fuel generalizing tsize with
  | zero => cases h
  | succ fuel ih =>
      rw [tsizeLoop] at h
      split at h
      · exact ih h
      · cases h
        omega

theorem Provided.le (h : Provided size) : size ≤ maxbytes := by
  obtain ⟨tsize, hsize, hle⟩ := h
  exact (tsizeLoop_le hsize).trans hle

/-- A block that was handed out has the size the doubling loop finds, which is at most 2 MB. -/
theorem auroraMemAllocDma_size (hr : auroraMemAllocDma E t size h = .ok d h') :
    dmaSize size = some d.size ∧ d.size ≤ maxbytes := by
  obtain ⟨n, a, hn, hm, ha, rfl⟩ := auroraMemAllocDma_ok hr
  refine ⟨hn, ?_⟩
  -- for any other size `buddy_malloc` returns NULL
  cases hidx : getIndexFromSize n with
  | none =>
      rw [entryMax, buddyMalloc, hidx] at hm
      cases hm
      exact absurd rfl ha
  | some i =>
      obtain ⟨hi, rfl⟩ := getIndexFromSize_eq_some.1 hidx
      exact blockSize_le_iff.2 (show i ≤ 12 from Nat.le_of_lt_succ hi)

/-- **What an initialized queue has**: all three requests were served. -/
theorem unvmeQueueInit_ok (hr : unvmeQueueInit E t qsize pageshift h = .ok Q h') :
    ∃ h₁ h₂ prplist, auroraMemAllocDma E t (qsize * 64) h = .ok Q.sqdma h₁ ∧
      auroraMemAllocDma E t (qsize * 16) h₁ = .ok Q.cqdma h₂ ∧
      auroraMemAllocDma E t (prplistSize qsize pageshift) h₂ = .ok prplist h' ∧
      Q.queue = Queue.setup qsize prplist := by
  obtain ⟨sqdma, h₁, hsq, hr⟩ := bind_eq_ok hr
  obtain ⟨cqdma, h₂, hcq, hr⟩ := bind_eq_ok hr
  obtain ⟨prplist, h₃, hprp, hr⟩ := bind_eq_ok hr
  cases hr
  exact ⟨h₁, h₂, prplist, hsq, hcq, hprp, rfl⟩

/-- Three requests that are served make a queue. -/
theorem unvmeQueueInit_of_ok {h₁ h₂ : Heap} {sqdma cqdma prplist : Dma}
    (hsq : auroraMemAllocDma E t (qsize * 64) h = .ok sqdma h₁)
    (hcq : auroraMemAllocDma E t (qsize * 16) h₁ = .ok cqdma h₂)
    (hprp : auroraMemAllocDma E t (prplistSize qsize pageshift) h₂ = .ok prplist h') :
    unvmeQueueInit E t qsize pageshift h =
      .ok ⟨sqdma, cqdma, Queue.setup qsize prplist⟩ h' := by
  show EStateM.bind _ _ h = _
  rw [EStateM.bind, hsq]
  show EStateM.bind _ _ h₁ = _
  rw [EStateM.bind, hcq]
  show EStateM.bind _ _ h₂ = _
  rw [EStateM.bind, hprp]
  rfl

/-- A queue that can be initialized has at most 32768 entries. -/
theorem unvmeQueueInit_qsize (hr : unvmeQueueInit E t qsize pageshift h = .ok Q h') :
    qsize ≤ 32768 := by
  obtain ⟨h₁, -, -, hsq, -⟩ := unvmeQueueInit_ok hr
  have hle := Provided.le ⟨_, auroraMemAllocDma_size hsq⟩
  unfold maxbytes at hle
  omega

/-- The shifts for which the PRP list of a queue of 256 entries can be allocated: it needs at most 2 MB,
    or its size is a multiple of 2^32 that the `int` has lost. -/
theorem pageshift_of_provided {ps : ℕ} (hlo : 12 ≤ ps) (hhi : ps ≤ 27)
    (h : Provided (prplistSize 256 ps)) : ps ≤ 13 ∨ 24 ≤ ps := by
  obtain ⟨tsize, hsize, hle⟩ := h
  by_contra hno
  have hall : ∀ n ∈ List.range' 14 10, ∀ t ∈ dmaSize (prplistSize 256 n), ¬ t ≤ maxbytes := by
    decide +kernel
  refine hall ps ?_ tsize hsize hle
  rw [List.mem_range'_1]
  omega

end

end Unvme.Core
