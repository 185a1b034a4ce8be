import Unvme.Lib.Wp
import Mathlib.Algebra.Group.Nat.Defs
import Mathlib.Logic.Function.Basic
import Mathlib.Data.Nat.Notation

set_option autoImplicit false

/-! # The buddy allocator (`aurora_pci.c`)

The DMA region is handed out in blocks of 512 bytes to 2 MiB. Every thread has a free list for each
size, kept in ascending order of addresses; free blocks of the largest size that belong to no thread
are on a global list behind a spin lock. The lists are threaded through the free blocks: the first word
of a free block is the address of the next one, 0 at the end.

Calls are taken one after the other: all that two threads share is the global list, and it is only
touched with the lock held. So a lock found taken is one that was never released. -/

namespace Unvme.Aurora

open Unvme.Lib

/-- Why a call of the allocator does not return: more than 16 threads, no memory left for
    `aurora_mem_alloc`, or a loop that does not end. -/
inductive Stop where
  | tooManyThreads
  | exhausted
  | hang
  deriving DecidableEq, Repr

def maxbytes : ℕ := 2 * 1024 * 1024

def kFreeListIndexMax : ℕ := 16

/-- The number of block sizes. -/
def entryMax : ℕ := 13

/-- The allocator and the memory it manages. `freelist x i` is `freelist_list[x][i]`,
    `freelistIndex t` the thread-local index of thread `t`, and `limit` bounds the length of a list:
    more steps than that mean that the list does not end. -/
structure Heap where
  mem : ℕ → ℕ
  startAddr : ℕ
  limit : ℕ
  freelist : ℕ → ℕ → ℕ
  freelistCurrentIndex : ℕ
  freelistIndex : ℕ → Option ℕ
  globalFreelist : ℕ
  lock : ℕ

abbrev HeapM := EStateM Stop Heap

/-- A place that holds the address of a block: the head of a thread's list, of the global list, or the
    first word of a block. -/
inductive Cell where
  | head (x i : ℕ)
  | global
  | node (p : ℕ)
  deriving DecidableEq, Repr

def Heap.read (h : Heap) : Cell → ℕ
  | .head x i => h.freelist x i
  | .global => h.globalFreelist
  | .node p => h.mem p

def Heap.write (h : Heap) (c : Cell) (v : ℕ) : Heap :=
  match c with
  | .head x i =>
      { h with freelist := Function.update h.freelist x (Function.update (h.freelist x) i v) }
  | .global => { h with globalFreelist := v }
  | .node p => { h with mem := Function.update h.mem p v }

/-! ## Sizes -/

/-- The loop of `get_index_from_size`. -/
def indexLoop (size : ℕ) : ℕ → ℕ → ℕ → Option ℕ
  | 0, _, _ => none
  | fuel + 1, i, r =>
      if i ≤ maxbytes then
        if i = size then some r else indexLoop size fuel (i * 2) (r + 1)
      else none

def getIndexFromSize (size : ℕ) : Option ℕ := indexLoop size (entryMax + 1) 512 0

def Heap.isLeft (h : Heap) (p size : ℕ) : Bool := (p - h.startAddr) % (size * 2) == 0

/-- The size `aurora_mem_alloc` asks for: the doubling loop, in 64-bit arithmetic. -/
def tsizeLoop (size : ℕ) : ℕ → ℕ → Option ℕ
  | 0, _ => none
  | fuel + 1, tsize =>
      if tsize < size then tsizeLoop size fuel (tsize * 2 % 2 ^ 64) else some tsize

def dmaSize (size : ℕ) : Option ℕ := tsizeLoop size 64 4096

/-! ## The functions -/

/-- Link the blocks of the region into the global list. -/
def linkBlocks (addr size : ℕ) (h : Heap) : Heap :=
  let r := (List.range (size / maxbytes)).foldl
    (fun (hc : Heap × Cell) k =>
      (hc.1.write hc.2 (addr + k * maxbytes), Cell.node (addr + k * maxbytes)))
    (h, Cell.global)
  r.1.write r.2 0

/-- Start with the region of `size` bytes at `addr`. Threads keep their list indexes. -/
@[irreducible] def buddyInit (addr size : ℕ) (h : Heap) : Heap :=
  linkBlocks addr size
    { h with startAddr := addr, limit := size / 512 + 1, freelist := fun _ _ => 0 }

/-- The free lists of thread `t`, created on its first call. -/
def getFreelist (t : ℕ) : HeapM ℕ := do
  let h ← get
  match h.freelistIndex t with
  | some x => pure x
  | none =>
      let x := h.freelistCurrentIndex
      if kFreeListIndexMax ≤ x then throw .tooManyThreads
      else do
        set { h with
          freelistCurrentIndex := x + 1
          freelistIndex := Function.update h.freelistIndex t (some x)
          freelist := Function.update h.freelist x (fun _ => 0) }
        pure x

/-- Up to `n` blocks further along a list. -/
def walk (mem : ℕ → ℕ) : ℕ → ℕ → ℕ
  | 0, p => p
  | n + 1, p => if p = 0 then 0 else walk mem n (mem p)

/-- Take a block of the largest size from the global list, and up to 65 more for list `i` of the
    thread; on an empty list the lock is not released. -/
def refill (x i : ℕ) : HeapM ℕ := do
  let h ← get
  if h.lock ≠ 0 then throw .hang
  else if h.globalFreelist = 0 then do
    set { h with lock := 1 }
    pure 0
  else
    let rval := h.globalFreelist
    let first := h.mem rval
    let last := walk h.mem 64 first
    let h := h.write (.head x i) first
    if last = 0 then do
      set { h with globalFreelist := 0, lock := 0 }
      pure rval
    else do
      set { h.write (.node last) 0 with globalFreelist := h.mem last, lock := 0 }
      pure rval

/-- A block of `size` bytes for thread `t`, or 0. -/
def buddyMalloc (t : ℕ) : ℕ → ℕ → HeapM ℕ
  | 0, _ => throw .hang
  | fuel + 1, size =>
      match getIndexFromSize size with
      | none => pure 0
      | some i => do
          let x ← getFreelist t
          let h ← get
          let rval := h.freelist x i
          if rval ≠ 0 then do
            set (h.write (.head x i) (h.mem rval))
            pure rval
          else if size = maxbytes then refill x i
          else do
            let rval ← buddyMalloc t fuel (size * 2)
            if rval ≠ 0 then do
              modify fun h => (h.write (.head x i) (rval + size)).write (.node (rval + size)) 0
              pure rval
            else pure 0

/-- Where the loop of `buddy_free` stops: it inserts the block, or merges it with the block to the
    right or to the left of it. -/
inductive Spot where
  | insert (c : Cell)
  | right (c : Cell)
  | left (c : Cell)
  deriving DecidableEq, Repr

/-- The loop of `buddy_free`, from the cell `fle`. -/
def findSpot (h : Heap) (buf size : ℕ) (doCompaction : Bool) : ℕ → Cell → Option Spot
  | 0, _ => none
  | fuel + 1, fle =>
      if h.read fle = 0 ∨ buf < h.read fle then
        if doCompaction ∧ buf + size = h.read fle ∧ h.isLeft buf size then some (.right fle)
        else some (.insert fle)
      else if doCompaction ∧ h.read fle + size = buf ∧ h.isLeft (h.read fle) size then
        some (.left fle)
      else findSpot h buf size doCompaction fuel (.node (h.read fle))

/-- Thread `t` gives back the block of `size` bytes at `buf`. -/
def buddyFree (t : ℕ) : ℕ → ℕ → ℕ → HeapM Unit
  | 0, _, _ => throw .hang
  | fuel + 1, buf, size =>
      match getIndexFromSize size with
      | none => pure ()
      | some i => do
          let x ← getFreelist t
          let h ← get
          match findSpot h buf size (decide (size ≠ maxbytes)) h.limit (.head x i) with
          | none => throw .hang
          | some (.insert fle) => set ((h.write (.node buf) (h.read fle)).write fle buf)
          | some (.right fle) => do
              set (h.write fle (h.mem (h.read fle)))
              buddyFree t fuel buf (size * 2)
          | some (.left fle) => do
              set (h.write fle (h.mem (h.read fle)))
              buddyFree t fuel (h.read fle) (size * 2)

/-- Thread `t` allocates at least `size` bytes of DMA memory: address and size of the block. -/
def auroraMemAlloc (t size : ℕ) : HeapM (ℕ × ℕ) :=
  match dmaSize size with
  | none => throw .hang
  | some tsize => do
      let p ← buddyMalloc t entryMax tsize
      if p = 0 then throw .exhausted else pure (p, tsize)

def auroraMemFree (t buf size : ℕ) : HeapM Unit := buddyFree t entryMax buf size

end Unvme.Aurora
