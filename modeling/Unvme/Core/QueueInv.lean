import Mathlib.Algebra.BigOperators.Group.Finset.Basic
import Mathlib.Algebra.BigOperators.Ring.Finset
import Unvme.Core.Queue

set_option autoImplicit false

/-! # Command-id and descriptor accounting on one queue

`Queue.Wf q used free`: the two circular lists of `q` are `used` and `free` (`Queue.Lists`), and the
redundant records of what is pending agree (`Queue.Masks`): queue mask, queue count, descriptor
masks, descriptor counts, list membership. One lemma per operation of `Queue.lean` says that it
keeps `Wf` and what else it does, so that nothing above this file looks into a mask or follows a
list pointer. -/

namespace Unvme.Core

open Unvme.Lib

/-- The pending command ids of descriptor `d`. -/
def Queue.pending (q : Queue) (d : ℕ) : Finset ℕ := (q.desc d).cidmask.bits

/-- The descriptors on `desclist`. -/
def Queue.usedDescs (q : Queue) : List ℕ := ringNodes q.links.next q.desclist q.nalloc

/-- The descriptors on `descfree`. -/
def Queue.freeDescs (q : Queue) : List ℕ := ringNodes q.links.next q.descfree q.nalloc

/-- The two descriptor lists. -/
structure Queue.Lists (q : Queue) (used free : List ℕ) : Prop where
  listHead : q.desclist = used.head?
  freeHead : q.descfree = free.head?
  usedRing : q.links.Ring used
  freeRing : q.links.Ring free
  disj : ∀ d ∈ used, d ∉ free
  alloc : ∀ d, d ∈ used ∨ d ∈ free → d < q.nalloc
  count : q.desccount = used.length
  pend : used ≠ [] → ∃ p ∈ used, q.descpend = some p

/-- The number of command ids of a queue, which has no more than 16 bits for one. -/
def Queue.ids (q : Queue) : ℕ := min q.size 65536

theorem Queue.lt_two_pow_of_lt_ids {q : Queue} {c : ℕ} (h : c < q.ids) : c < 2 ^ 16 :=
  lt_of_lt_of_le h (Nat.min_le_right _ _)

theorem Queue.lt_size_of_lt_ids {q : Queue} {c : ℕ} (h : c < q.ids) : c < q.size :=
  lt_of_lt_of_le h (Nat.min_le_left _ _)

/-- The masks and counts. -/
structure Queue.Masks (q : Queue) (used free : List ℕ) : Prop where
  two_le : 2 ≤ q.size
  words : q.size ≤ 64 * (q.masksize >>> 3)
  maskLen : q.cidmask.length = q.masksize >>> 3
  descLen : ∀ d, d ∈ used ∨ d ∈ free → (q.desc d).cidmask.length = q.masksize >>> 3
  bits : ∀ c, c ∈ q.cidmask.bits ↔ ∃ d ∈ used, c ∈ q.pending d
  owner : ∀ d ∈ used, ∀ d' ∈ used, ∀ c, c ∈ q.pending d → c ∈ q.pending d' → d = d'
  cidcount : q.cidcount = q.cidmask.bits.card
  descCount : ∀ d, d ∈ used ∨ d ∈ free → (q.desc d).cidcount = (q.pending d).card
  freeBits : ∀ d ∈ free, q.pending d = ∅
  below : ∀ c ∈ q.cidmask.bits, c < q.ids
  cid : q.cid < q.ids
  bound : q.cidcount + 1 ≤ q.size

/-- The queue's bookkeeping is consistent. -/
structure Queue.Wf (q : Queue) (used free : List ℕ) : Prop extends
  Queue.Lists q used free, Queue.Masks q used free

/-- `q'` has the lists of `q`. -/
structure Queue.SameLists (q q' : Queue) : Prop where
  desclist : q'.desclist = q.desclist
  descfree : q'.descfree = q.descfree
  descpend : q'.descpend = q.descpend
  links : q'.links = q.links
  desccount : q'.desccount = q.desccount

/-- `q'` has the queue-level command-id records of `q`. -/
structure Queue.SameMasks (q q' : Queue) : Prop where
  size : q'.size = q.size
  masksize : q'.masksize = q.masksize
  cidmask : q'.cidmask = q.cidmask
  cidcount : q'.cidcount = q.cidcount
  cid : q'.cid = q.cid

theorem Queue.SameMasks.trans {q q' q'' : Queue} (h : q.SameMasks q') (h' : q'.SameMasks q'') :
    q.SameMasks q'' :=
  ⟨h'.size.trans h.size, h'.masksize.trans h.masksize, h'.cidmask.trans h.cidmask,
    h'.cidcount.trans h.cidcount, h'.cid.trans h.cid⟩

/-- A descriptor as `unvme_desc_get` returns it: no status and no pending ids. -/
structure Desc.IsReset (words : ℕ) (x : Desc) : Prop where
  error : x.error = 0
  cidcount : x.cidcount = 0
  cidmask : x.cidmask = WordMask.zeros words
  cmds : x.cmds = []

variable {q : Queue} {used free : List ℕ}

/-! ## Lists -/

namespace Queue.Lists

theorem used_lt (h : q.Lists used free) {d : ℕ} (hd : d ∈ used) : d < q.nalloc :=
  h.alloc d (Or.inl hd)

theorem used_nodup (h : q.Lists used free) : used.Nodup := h.usedRing.1

theorem used_length_le (h : q.Lists used free) : used.length ≤ q.nalloc :=
  h.usedRing.length_le (fun _ hd => h.used_lt hd)

theorem usedDescs_eq (h : q.Lists used free) : q.usedDescs = used :=
  ringNodes_eq h.usedRing h.listHead h.used_length_le

theorem freeDescs_eq (h : q.Lists used free) : q.freeDescs = free :=
  ringNodes_eq h.freeRing h.freeHead
    (h.freeRing.length_le (fun d hd => h.alloc d (Or.inr hd)))

/-- The use list, read from the pending pointer on. -/
theorem from_pend (h : q.Lists used free) {d : ℕ} (hd : d ∈ used) :
    ∃ p ps, q.descpend = some p ∧ q.links.Ring (p :: ps) ∧ (∀ x, x ∈ p :: ps ↔ x ∈ used) ∧
      ps.length < used.length ∧ used.length ≤ q.nalloc := by
  obtain ⟨p, hp, hpp⟩ := h.pend (List.ne_nil_of_mem hd)
  obtain ⟨xs, ys, rfl⟩ := List.append_of_mem hp
  refine ⟨p, ys ++ xs, hpp, by simpa using h.usedRing.rotate, fun x => ?_, ?_, h.used_length_le⟩
  · simp only [List.mem_cons, List.mem_append]
    tauto
  · simp only [List.length_append, List.length_cons]
    omega

/-- Appending a descriptor to the use list. -/
theorem addUsed (h : q.Lists used free) {d : ℕ} (hd : d ∉ used) (hf : d ∉ free) {q' : Queue}
    (hq' : q.SameLists q') (halloc : q.nalloc ≤ q'.nalloc) (hdn : d < q'.nalloc) :
    (q'.addUsed d).Lists (used ++ [d]) free := by
  have hadd := listAdd_ring h.usedRing h.listHead hd
  have hframe := listAdd_frame h.usedRing h.listHead h.freeRing hf h.disj
  refine ⟨?_, ?_, ?_, ?_, ?_, ?_, ?_, ?_⟩
  · simp only [Queue.addUsed, hq'.desclist, hq'.links]; exact hadd.1
  · show q'.descfree = _
    rw [hq'.descfree]; exact h.freeHead
  · simp only [Queue.addUsed, hq'.desclist, hq'.links]; exact hadd.2
  · simp only [Queue.addUsed, hq'.desclist, hq'.links]; exact hframe
  · intro x hx
    rcases List.mem_append.1 hx with hx | hx
    · exact h.disj x hx
    · rw [List.mem_singleton.1 hx]; exact hf
  · intro x hx
    show x < q'.nalloc
    rcases hx with hx | hx
    · rcases List.mem_append.1 hx with hx | hx
      · exact lt_of_lt_of_le (h.alloc x (Or.inl hx)) halloc
      · rw [List.mem_singleton.1 hx]; exact hdn
    · exact lt_of_lt_of_le (h.alloc x (Or.inr hx)) halloc
  · show q'.desccount + 1 = _
    rw [hq'.desccount, List.length_append, List.length_singleton]
    push_cast
    rw [← h.count]
  · intro _
    -- the only node of its ring becomes the pending pointer, otherwise the old one stays valid
    simp only [Queue.addUsed, hq'.desclist, hq'.links]
    split
    · exact ⟨d, by simp, rfl⟩
    · next hnext =>
        cases used with
        | nil => exact absurd ((Links.Ring.next_self_iff (x := d) hadd.2).2 rfl) hnext
        | cons u us =>
            obtain ⟨p, hp, hpp⟩ := h.pend (by simp)
            refine ⟨p, List.mem_append_left _ hp, ?_⟩
            rw [hq'.descpend]; exact hpp

/-- Moving a descriptor from the use list to the end of the free list. -/
theorem descPut (h : q.Lists used free) {d : ℕ} (hd : d ∈ used) :
    (unvmeDescPut q d).Lists (used.erase d) (free ++ [d]) := by
  have hdf := h.disj d hd
  have hnd := h.used_nodup
  obtain ⟨xs, ys, rfl⟩ := List.append_of_mem hd
  have hdx : d ∉ xs := fun hx => (List.nodup_append.1 hnd).2.2 d hx d (by simp) rfl
  have herase : (xs ++ d :: ys).erase d = xs ++ ys := by
    rw [List.erase_append_right _ hdx, List.erase_cons_head]
  have hnd' : (d :: (ys ++ xs)).Nodup := by
    have := h.usedRing.rotate.1
    simpa using this
  have hdel := listDel_ring h.usedRing h.listHead
  have hfree : (listDel q.desclist d q.links).2.Ring free :=
    listDel_frame h.usedRing h.freeRing h.disj
  have hadd := listAdd_ring hfree h.freeHead hdf
  have hframe : (listAdd q.descfree d (listDel q.desclist d q.links).2).2.Ring (xs ++ ys) := by
    refine listAdd_frame hfree h.freeHead hdel.2 ?_ ?_
    · have := (List.nodup_cons.1 hnd').1
      simp only [List.mem_append] at this ⊢
      tauto
    · intro a haf ha
      exact h.disj a (by simp only [List.mem_append, List.mem_cons] at ha ⊢; tauto) haf
  rw [herase]
  refine ⟨hdel.1, hadd.1, hframe, hadd.2, ?_, ?_, ?_, ?_⟩
  · intro x hx hmem
    rcases List.mem_append.1 hmem with hmem | hmem
    · exact h.disj x (by simp only [List.mem_append, List.mem_cons] at hx ⊢; tauto) hmem
    · rw [List.mem_singleton] at hmem
      subst hmem
      have := (List.nodup_cons.1 hnd').1
      simp only [List.mem_append] at this hx
      tauto
  · intro x hx
    refine h.alloc x ?_
    simp only [List.mem_append, List.mem_cons, List.not_mem_nil, or_false] at hx ⊢
    tauto
  · show q.desccount - 1 = _
    rw [h.count]
    simp only [List.length_append, List.length_cons]
    push_cast
    omega
  · intro hne
    obtain ⟨p, hp, hpp⟩ := h.pend (by simp)
    have hrot : q.links.Ring (d :: (ys ++ xs)) := by simpa using h.usedRing.rotate
    simp only [unvmeDescPut, hpp, Option.some.injEq]
    by_cases hpd : p = d
    · -- the pending pointer moves on to the successor, which stays in use
      subst hpd
      obtain ⟨y, ws, hyw⟩ : ∃ y ws, ys ++ xs = y :: ws := by
        cases hc : ys ++ xs with
        | nil =>
            obtain ⟨rfl, rfl⟩ := List.append_eq_nil_iff.1 hc
            exact absurd rfl hne
        | cons y ws => exact ⟨y, ws, rfl⟩
      rw [hyw] at hrot
      have hnext : q.links.next p = y := by
        have hch := (Links.ring_cons.1 hrot).2
        rw [List.cons_append, List.cons_append, List.isChain_cons_cons] at hch
        exact hch.1.1
      have hself : q.links.next p ≠ p := by
        intro he
        have := (hrot.next_self_iff).1 he
        simp at this
      refine ⟨y, ?_, ?_⟩
      · have hy : y ∈ ys ++ xs := by rw [hyw]; simp
        simp only [List.mem_append] at hy ⊢
        tauto
      · rw [if_pos rfl, if_pos hself, hnext]
    · refine ⟨p, ?_, by rw [if_neg hpd]⟩
      simp only [List.mem_append, List.mem_cons] at hp ⊢
      tauto

/-- **`unvme_desc_get` moves the head of the free list, or a new descriptor, to the end of the use
    list** and resets it. -/
theorem descGet (h : q.Lists used free) :
    ∃ d q', unvmeDescGet q = (d, q') ∧ q'.Lists (used ++ [d]) free.tail ∧ d ∉ used ∧
      free.head?.getD q.nalloc = d ∧ q'.nalloc = max q.nalloc (d + 1) ∧ q.SameMasks q' ∧
      q'.prplist = q.prplist ∧ (∀ x, x ≠ d → q'.desc x = q.desc x) ∧
      (q'.desc d).IsReset (q.masksize >>> 3) := by
  cases free with
  | nil =>
      -- the free list is empty: a new descriptor is allocated
      have hfree : q.descfree = none := h.freeHead
      have hd : q.nalloc ∉ used := fun hm => absurd (h.used_lt hm) (lt_irrefl _)
      have hget : unvmeDescGet q = (q.nalloc, (Queue.setDesc { q with nalloc := q.nalloc + 1 }
          q.nalloc (fun _ => Desc.zero (q.masksize >>> 3))).addUsed q.nalloc) := by
        simp only [unvmeDescGet, hfree]
      refine ⟨q.nalloc, _, hget, ?_, hd, rfl, ?_, ⟨rfl, rfl, rfl, rfl, rfl⟩, rfl, ?_, ?_⟩
      · exact h.addUsed hd (by simp) ⟨rfl, rfl, rfl, rfl, rfl⟩ (Nat.le_succ _) (Nat.lt_succ_self _)
      · show q.nalloc + 1 = _
        omega
      · intro x hx
        rw [Queue.addUsed_desc]
        exact Queue.setDesc_of_ne hx
      · rw [Queue.addUsed_desc, Queue.setDesc_self]
        exact ⟨rfl, rfl, rfl, rfl⟩
  | cons d fs =>
      have hfree : q.descfree = some d := h.freeHead
      have hd : d ∉ used := fun hm => h.disj d hm (by simp)
      have hdfs : d ∉ fs := (List.nodup_cons.1 h.freeRing.1).1
      have hdel : (listDel q.descfree d q.links).1 = ([] ++ fs).head? ∧
          (listDel q.descfree d q.links).2.Ring ([] ++ fs) :=
        listDel_ring h.freeRing h.freeHead
      have hframe : (listDel q.descfree d q.links).2.Ring used :=
        listDel_frame (show q.links.Ring ([] ++ d :: fs) from h.freeRing) h.usedRing
          (fun a ha hu => h.disj a hu ha)
      -- without `d` the rest of the free list is still a free list
      have hrest : Queue.Lists { q with
          descfree := (listDel q.descfree d q.links).1
          links := (listDel q.descfree d q.links).2 } used fs := by
        refine ⟨h.listHead, hdel.1, hframe, hdel.2, ?_, ?_, h.count, h.pend⟩
        · intro x hx hf
          exact h.disj x hx (by simp [hf])
        · intro x hx
          exact h.alloc x (by simp only [List.mem_cons]; tauto)
      have hget : unvmeDescGet q = (d, (Queue.setDesc { q with
          descfree := (listDel q.descfree d q.links).1
          links := (listDel q.descfree d q.links).2 } d
            (Desc.reset (q.masksize >>> 3))).addUsed d) := by
        simp only [unvmeDescGet, hfree]
      have hlt : d < q.nalloc := h.alloc d (by simp)
      refine ⟨d, _, hget, ?_, hd, rfl, ?_, ⟨rfl, rfl, rfl, rfl, rfl⟩, rfl, ?_, ?_⟩
      · exact hrest.addUsed hd hdfs ⟨rfl, rfl, rfl, rfl, rfl⟩ le_rfl hlt
      · show q.nalloc = _
        omega
      · intro x hx
        rw [Queue.addUsed_desc]
        exact Queue.setDesc_of_ne hx
      · rw [Queue.addUsed_desc, Queue.setDesc_self]
        exact ⟨rfl, rfl, rfl, rfl⟩

end Queue.Lists

/-! ## Masks and counts -/

namespace Queue.Masks

/-- A command id of the queue has its word in every mask. -/
theorem word_lt (h : q.Masks used free) {c : ℕ} (hc : c < q.size) : c / 64 < q.masksize >>> 3 := by
  have := h.words
  omega

/-- The queue count is the sum of the descriptor counts. -/
theorem cidcount_eq_sum (h : q.Masks used free) :
    q.cidcount = ∑ d ∈ used.toFinset, (q.desc d).cidcount := by
  have hbits : q.cidmask.bits = used.toFinset.biUnion q.pending := by
    ext c
    simp only [h.bits, Finset.mem_biUnion, List.mem_toFinset]
  have hdisj : (used.toFinset : Set ℕ).PairwiseDisjoint q.pending := by
    intro d hd d' hd' hne
    rw [Function.onFun, Finset.disjoint_left]
    intro c hc hc'
    exact hne (h.owner d (by simpa using hd) d' (by simpa using hd') c hc hc')
  rw [h.cidcount, hbits, Finset.card_biUnion hdisj, Nat.cast_sum]
  refine Finset.sum_congr rfl (fun d hd => ?_)
  rw [h.descCount d (Or.inl (by simpa using hd))]

/-- A descriptor without pending command ids, by its count. -/
theorem pending_eq_empty_iff (h : q.Masks used free) {d : ℕ} (hd : d ∈ used) :
    (q.desc d).cidcount = 0 ↔ q.pending d = ∅ := by
  rw [h.descCount d (Or.inl hd), Nat.cast_eq_zero, Finset.card_eq_zero]

/-- Operations on the lists and on descriptors without pending ids: what they have to respect. -/
theorem congr (h : q.Masks used free) {q' : Queue} {used' free' : List ℕ}
    (hq' : q.SameMasks q')
    (hlen : ∀ d, d ∈ used' ∨ d ∈ free' → (q'.desc d).cidmask.length = q.masksize >>> 3)
    (hcnt : ∀ d, d ∈ used' ∨ d ∈ free' → (q'.desc d).cidcount = (q'.pending d).card)
    (hnew : ∀ d ∈ used', ∀ c ∈ q'.pending d, d ∈ used ∧ c ∈ q.pending d)
    (hold : ∀ d ∈ used, ∀ c ∈ q.pending d, d ∈ used' ∧ c ∈ q'.pending d)
    (hfree : ∀ d ∈ free', q'.pending d = ∅) : q'.Masks used' free' := by
  obtain ⟨e1, e2, e3, e4, e5⟩ := hq'
  refine ⟨?_, ?_, ?_, ?_, ?_, ?_, ?_, hcnt, hfree, ?_, ?_, ?_⟩
  · rw [e1]; exact h.two_le
  · rw [e1, e2]; exact h.words
  · rw [e3, e2]; exact h.maskLen
  · intro d hd
    rw [e2]; exact hlen d hd
  · intro c
    rw [e3, h.bits]
    exact ⟨fun ⟨d, hd, hc⟩ => ⟨d, hold d hd c hc⟩, fun ⟨d, hd, hc⟩ => ⟨d, hnew d hd c hc⟩⟩
  · intro a ha b hb c hca hcb
    obtain ⟨ha', hca'⟩ := hnew a ha c hca
    obtain ⟨hb', hcb'⟩ := hnew b hb c hcb
    exact h.owner a ha' b hb' c hca' hcb'
  · rw [e3, e4]; exact h.cidcount
  · rw [e3, Queue.ids, e1]; exact h.below
  · rw [e5, Queue.ids, e1]; exact h.cid
  · rw [e1, e4]; exact h.bound

/-- A change of one bit, made in the mask of descriptor `d` and in the queue's. -/
theorem change (h : q.Masks used free) {q' : Queue} {d : ℕ} (hd : d ∈ used) (hf : d ∉ free)
    (hsize : q'.size = q.size) (hwords : q'.masksize = q.masksize)
    (hother : ∀ x, x ≠ d → q'.desc x = q.desc x)
    (hlen : (q'.desc d).cidmask.length = (q.desc d).cidmask.length)
    (hqlen : q'.cidmask.length = q.cidmask.length)
    (hbits : ∀ c, c ∈ q'.cidmask.bits ↔
      c ∈ q'.pending d ∨ ∃ x ∈ used, x ≠ d ∧ c ∈ q.pending x)
    (hown : ∀ c ∈ q'.pending d, ∀ x ∈ used, c ∈ q.pending x → x = d)
    (hcnt : q'.cidcount = q'.cidmask.bits.card)
    (hdcnt : (q'.desc d).cidcount = (q'.pending d).card)
    (hbelow : ∀ c ∈ q'.pending d, c < q.ids) (hcid : q'.cid < q.ids)
    (hbound : q'.cidcount + 1 ≤ q.size) : q'.Masks used free := by
  have hpend : ∀ x, x ≠ d → q'.pending x = q.pending x := fun x hx => by
    rw [Queue.pending, hother x hx, Queue.pending]
  refine ⟨?_, ?_, ?_, ?_, ?_, ?_, hcnt, ?_, ?_, ?_, ?_, ?_⟩
  · rw [hsize]; exact h.two_le
  · rw [hsize, hwords]; exact h.words
  · rw [hqlen, hwords]; exact h.maskLen
  · intro x hx
    rw [hwords]
    by_cases hxd : x = d
    · subst hxd; rw [hlen]; exact h.descLen x hx
    · rw [hother x hxd]; exact h.descLen x hx
  · intro c
    rw [hbits]
    constructor
    · rintro (hc | ⟨x, hx, hxd, hc⟩)
      · exact ⟨d, hd, hc⟩
      · exact ⟨x, hx, by rw [hpend x hxd]; exact hc⟩
    · rintro ⟨x, hx, hc⟩
      by_cases hxd : x = d
      · subst hxd; exact Or.inl hc
      · exact Or.inr ⟨x, hx, hxd, by rw [← hpend x hxd]; exact hc⟩
  · intro a ha b hb c hca hcb
    by_cases had : a = d
    · subst had
      by_cases hbd : b = a
      · exact hbd.symm
      · rw [hpend b hbd] at hcb
        exact (hown c hca b hb hcb).symm
    · rw [hpend a had] at hca
      by_cases hbd : b = d
      · subst hbd; exact hown c hcb a ha hca
      · rw [hpend b hbd] at hcb
        exact h.owner a ha b hb c hca hcb
  · intro x hx
    by_cases hxd : x = d
    · subst hxd; exact hdcnt
    · rw [hother x hxd, hpend x hxd]; exact h.descCount x hx
  · intro x hx
    have hxd : x ≠ d := fun he => hf (he ▸ hx)
    rw [hpend x hxd]; exact h.freeBits x hx
  · intro c hc
    rw [Queue.ids, hsize]
    rcases (hbits c).1 hc with hc | ⟨x, hx, -, hc⟩
    · exact hbelow c hc
    · exact h.below c ((h.bits c).2 ⟨x, hx, hc⟩)
  · rw [Queue.ids, hsize]; exact hcid
  · rw [hsize]; exact hbound

theorem setCid (h : q.Masks used free) {d c : ℕ} (hd : d ∈ used) (hf : d ∉ free) (hc : c < q.ids)
    (hfresh : c ∉ q.cidmask.bits) (hroom : q.cidcount + 1 < q.size) (hnext : nextCid q.size c < q.ids) :
    (q.setCid d c).Masks used free ∧ (q.setCid d c).pending d = insert c (q.pending d) := by
  have hw := h.word_lt (Queue.lt_size_of_lt_ids hc)
  have hwq : c / 64 < q.cidmask.length := by rw [h.maskLen]; exact hw
  have hwd : c / 64 < (q.desc d).cidmask.length := by rw [h.descLen d (Or.inl hd)]; exact hw
  have hnone : ∀ x ∈ used, c ∉ q.pending x := fun x hx hm => hfresh ((h.bits c).2 ⟨x, hx, hm⟩)
  have hdesc := Queue.setCid_desc_self q d c
  have hself : (q.setCid d c).pending d = insert c (q.pending d) := by
    rw [Queue.pending, hdesc]
    exact WordMask.bits_set hwd
  have hmask : (q.setCid d c).cidmask.bits = insert c q.cidmask.bits := WordMask.bits_set hwq
  refine ⟨h.change hd hf rfl rfl (fun x hx => Queue.setCid_desc_of_ne hx) ?_ ?_ ?_ ?_ ?_ ?_ ?_ hnext ?_,
    hself⟩
  · rw [hdesc]; exact WordMask.length_set _ _
  · exact WordMask.length_set _ _
  · intro c'
    rw [hmask, hself, Finset.mem_insert, Finset.mem_insert, h.bits]
    constructor
    · rintro (rfl | ⟨x, hx, hm⟩)
      · exact Or.inl (Or.inl rfl)
      · by_cases hxd : x = d
        · subst hxd; exact Or.inl (Or.inr hm)
        · exact Or.inr ⟨x, hx, hxd, hm⟩
    · rintro ((rfl | hm) | ⟨x, hx, -, hm⟩)
      · exact Or.inl rfl
      · exact Or.inr ⟨d, hd, hm⟩
      · exact Or.inr ⟨x, hx, hm⟩
  · intro c' hc' x hx hm
    rw [hself, Finset.mem_insert] at hc'
    rcases hc' with rfl | hc'
    · exact absurd hm (hnone x hx)
    · exact h.owner x hx d hd c' hm hc'
  · rw [hmask, Finset.card_insert_of_notMem hfresh]
    show q.cidcount + 1 = _
    rw [h.cidcount]
    push_cast; rfl
  · rw [hself, hdesc, Finset.card_insert_of_notMem (hnone d hd)]
    show (q.desc d).cidcount + 1 = _
    rw [h.descCount d (Or.inl hd)]
    push_cast; rfl
  · intro c' hc'
    rw [hself, Finset.mem_insert] at hc'
    rcases hc' with rfl | hc'
    · exact hc
    · exact h.below c' ((h.bits c').2 ⟨d, hd, hc'⟩)
  · show q.cidcount + 1 + 1 ≤ (q.size : ℤ)
    omega

theorem clearCid (h : q.Masks used free) {d c : ℕ} (hd : d ∈ used) (hf : d ∉ free)
    (hcd : c ∈ q.pending d) (err : ℕ) :
    (q.clearCid d c err).Masks used free ∧
      (q.clearCid d c err).pending d = (q.pending d).erase c := by
  have hcq : c ∈ q.cidmask.bits := (h.bits c).2 ⟨d, hd, hcd⟩
  have hc := h.below c hcq
  have hw := h.word_lt (Queue.lt_size_of_lt_ids hc)
  have hwq : c / 64 < q.cidmask.length := by rw [h.maskLen]; exact hw
  have hwd : c / 64 < (q.desc d).cidmask.length := by rw [h.descLen d (Or.inl hd)]; exact hw
  have hdesc := Queue.clearCid_desc_self q d c err
  have hself : (q.clearCid d c err).pending d = (q.pending d).erase c := by
    rw [Queue.pending, hdesc]
    exact WordMask.bits_clear hwd
  have hmask : (q.clearCid d c err).cidmask.bits = q.cidmask.bits.erase c :=
    WordMask.bits_clear hwq
  refine ⟨h.change hd hf rfl rfl (fun x hx => Queue.clearCid_desc_of_ne hx) ?_ ?_ ?_ ?_ ?_ ?_ ?_ hc ?_,
    hself⟩
  · rw [hdesc]; exact WordMask.length_clear _ _
  · exact WordMask.length_clear _ _
  · intro c'
    rw [hmask, hself, Finset.mem_erase, Finset.mem_erase, h.bits]
    constructor
    · rintro ⟨hne, x, hx, hm⟩
      by_cases hxd : x = d
      · subst hxd; exact Or.inl ⟨hne, hm⟩
      · exact Or.inr ⟨x, hx, hxd, hm⟩
    · rintro (⟨hne, hm⟩ | ⟨x, hx, hxd, hm⟩)
      · exact ⟨hne, d, hd, hm⟩
      · refine ⟨?_, x, hx, hm⟩
        rintro rfl
        exact hxd (h.owner x hx d hd c' hm hcd)
  · intro c' hc' x hx hm
    rw [hself, Finset.mem_erase] at hc'
    exact h.owner x hx d hd c' hm hc'.2
  · rw [hmask, Finset.card_erase_of_mem hcq]
    show q.cidcount - 1 = _
    rw [h.cidcount, Nat.cast_sub (Finset.card_pos.2 ⟨c, hcq⟩)]
    rfl
  · rw [hself, hdesc, Finset.card_erase_of_mem hcd]
    show (q.desc d).cidcount - 1 = _
    rw [h.descCount d (Or.inl hd), Nat.cast_sub (Finset.card_pos.2 ⟨c, hcd⟩)]
    rfl
  · intro c' hc'
    rw [hself, Finset.mem_erase] at hc'
    exact h.below c' ((h.bits c').2 ⟨d, hd, hc'.2⟩)
  · have := h.bound
    show q.cidcount - 1 + 1 ≤ (q.size : ℤ)
    omega

end Queue.Masks

/-! ## The operations -/

namespace Queue.Wf

theorem usedDescs_eq (h : q.Wf used free) : q.usedDescs = used := h.toLists.usedDescs_eq

theorem freeDescs_eq (h : q.Wf used free) : q.freeDescs = free := h.toLists.freeDescs_eq

/-- Fields other than the mask and the count do not matter. -/
theorem setDesc (h : q.Wf used free) (d : ℕ) {f : Desc → Desc}
    (hm : (f (q.desc d)).cidmask = (q.desc d).cidmask)
    (hc : (f (q.desc d)).cidcount = (q.desc d).cidcount) : (q.setDesc d f).Wf used free := by
  have hmask : ∀ x, ((q.setDesc d f).desc x).cidmask = (q.desc x).cidmask := by
    intro x
    by_cases hxd : x = d
    · subst hxd; rw [Queue.setDesc_self, hm]
    · rw [Queue.setDesc_of_ne hxd]
  have hcnt : ∀ x, ((q.setDesc d f).desc x).cidcount = (q.desc x).cidcount := by
    intro x
    by_cases hxd : x = d
    · subst hxd; rw [Queue.setDesc_self, hc]
    · rw [Queue.setDesc_of_ne hxd]
  have hpend : ∀ x, (q.setDesc d f).pending x = q.pending x := fun x => by
    rw [Queue.pending, hmask, Queue.pending]
  refine ⟨⟨h.listHead, h.freeHead, h.usedRing, h.freeRing, h.disj, h.alloc, h.count, h.pend⟩,
    h.toMasks.congr ⟨rfl, rfl, rfl, rfl, rfl⟩ ?_ ?_ ?_ ?_ ?_⟩
  · intro x hx; rw [hmask]; exact h.descLen x hx
  · intro x hx; rw [hcnt, hpend]; exact h.descCount x hx
  · intro x hx c hc; rw [hpend] at hc; exact ⟨hx, hc⟩
  · intro x hx c hc; rw [hpend]; exact ⟨hx, hc⟩
  · intro x hx; rw [hpend]; exact h.freeBits x hx

/-- **`unvme_desc_get` takes a descriptor that was not in use and owns nothing.** -/
theorem descGet (h : q.Wf used free) :
    ∃ d q', unvmeDescGet q = (d, q') ∧ q'.Wf (used ++ [d]) free.tail ∧ d ∉ used ∧
      q.SameMasks q' ∧ q'.prplist = q.prplist ∧ (∀ x, x ≠ d → q'.desc x = q.desc x) ∧ q'.pending d = ∅ ∧
      (q'.desc d).error = 0 ∧ (q'.desc d).cmds = [] := by
  obtain ⟨d, q', hget, hlists, hd, hhead, -, hsame, hprp, hother, hreset⟩ := h.toLists.descGet
  have hp : ∀ x, x ≠ d → q'.pending x = q.pending x := fun x hx => by
    rw [Queue.pending, hother x hx, Queue.pending]
  have hbits : q'.pending d = ∅ := by
    rw [Queue.pending, hreset.cidmask]
    exact WordMask.bits_zeros _
  have hold : ∀ x, x ∈ used ++ [d] ∨ x ∈ free.tail → x ≠ d → x ∈ used ∨ x ∈ free := by
    intro x hx hxd
    rcases hx with hx | hx
    · simp only [List.mem_append, List.mem_singleton] at hx
      tauto
    · exact Or.inr (List.mem_of_mem_tail hx)
  have htail : ∀ x ∈ free.tail, x ≠ d := by
    rintro x hx rfl
    exact hlists.disj x (by simp) hx
  refine ⟨d, q', hget, ⟨hlists, h.toMasks.congr hsame ?_ ?_ ?_ ?_ ?_⟩, hd, hsame, hprp, hother, hbits,
    hreset.error, hreset.cmds⟩
  · intro x hx
    by_cases hxd : x = d
    · subst hxd
      rw [hreset.cidmask]
      exact WordMask.length_zeros _
    · rw [hother x hxd]; exact h.descLen x (hold x hx hxd)
  · intro x hx
    by_cases hxd : x = d
    · subst hxd
      rw [hbits, hreset.cidcount]
      rfl
    · rw [hother x hxd, hp x hxd]; exact h.descCount x (hold x hx hxd)
  · intro x hx c hc
    by_cases hxd : x = d
    · subst hxd
      rw [hbits] at hc
      exact absurd hc (Finset.notMem_empty c)
    · rw [hp x hxd] at hc
      refine ⟨?_, hc⟩
      simpa [hxd] using hx
  · intro x hx c hc
    have hxd : x ≠ d := fun he => hd (he ▸ hx)
    refine ⟨List.mem_append_left _ hx, ?_⟩
    rw [hp x hxd]; exact hc
  · intro x hx
    rw [hp x (htail x hx)]; exact h.freeBits x (List.mem_of_mem_tail hx)

/-- `unvme_desc_put` releases a descriptor without pending ids. -/
theorem descPut (h : q.Wf used free) {d : ℕ} (hd : d ∈ used) (h0 : (q.desc d).cidcount = 0) :
    (unvmeDescPut q d).Wf (used.erase d) (free ++ [d]) := by
  have hempty := (h.toMasks.pending_eq_empty_iff hd).1 h0
  refine ⟨h.toLists.descPut hd, h.toMasks.congr ⟨rfl, rfl, rfl, rfl, rfl⟩ ?_ ?_ ?_ ?_ ?_⟩
  · intro x hx
    refine h.descLen x ?_
    rcases hx with hx | hx
    · exact Or.inl (List.mem_of_mem_erase hx)
    · rcases List.mem_append.1 hx with hx | hx
      · exact Or.inr hx
      · rw [List.mem_singleton.1 hx]; exact Or.inl hd
  · intro x hx
    refine h.descCount x ?_
    rcases hx with hx | hx
    · exact Or.inl (List.mem_of_mem_erase hx)
    · rcases List.mem_append.1 hx with hx | hx
      · exact Or.inr hx
      · rw [List.mem_singleton.1 hx]; exact Or.inl hd
  · intro x hx c hc
    exact ⟨List.mem_of_mem_erase hx, hc⟩
  · intro x hx c hc
    have hxd : x ≠ d := by
      rintro rfl
      rw [hempty] at hc
      exact Finset.notMem_empty c hc
    exact ⟨(List.mem_erase_of_ne hxd).2 hx, hc⟩
  · intro x hx
    rcases List.mem_append.1 hx with hx | hx
    · exact h.freeBits x hx
    · rw [List.mem_singleton.1 hx]; exact hempty

end Queue.Wf

/-! ## `unvme_get_cid`: the scan -/

/-- The successor of an id wraps around at the end of the queue or of the 16 bits. -/
theorem nextCid_eq {size c : ℕ} (hs : 0 < size) (hc : c < min size 65536) :
    nextCid size c = (c + 1) % min size 65536 := by
  unfold nextCid
  rcases Nat.le_total size 65536 with h16 | h16
  · rw [Nat.min_eq_left h16] at hc ⊢
    rcases Nat.lt_or_ge (c + 1) size with h | h
    · rw [Nat.mod_eq_of_lt h, Nat.mod_eq_of_lt (by omega : c + 1 < 65536), if_neg (by omega)]
    · have heq : c + 1 = size := by omega
      rw [heq, Nat.mod_self]
      split <;> omega
  · rw [Nat.min_eq_right h16] at hc ⊢
    have := Nat.mod_lt (c + 1) (show 0 < 65536 by decide)
    rw [if_neg (by omega)]

theorem nextCid_lt {size : ℕ} (hs : 0 < size) {c : ℕ} (hc : c < min size 65536) :
    nextCid size c < min size 65536 := by
  rw [nextCid_eq hs hc]
  exact Nat.mod_lt _ (by omega)

/-- A scan that ends has found an id that is not pending. -/
theorem scanCid_some {mask : WordMask} {size : ℕ} (hs : 0 < size) :
    ∀ (fuel c c' : ℕ), c < min size 65536 → scanCid mask size fuel c = some c' →
      c' < min size 65536 ∧ mask.test c' = false := by
  intro fuel
  induction fuel with
  | zero => intro c c' _ h; simp [scanCid] at h
  | succ fuel ih =>
      intro c c' hc h
      rw [scanCid] at h
      split at h
      · exact ih _ _ (nextCid_lt hs hc) h
      · next ht =>
          obtain rfl := Option.some.inj h
          exact ⟨hc, by simpa using ht⟩

/-- A scan that does not end has seen only pending ids. -/
theorem scanCid_none {mask : WordMask} {size : ℕ} :
    ∀ (fuel c : ℕ), scanCid mask size fuel c = none →
      ∀ i < fuel, mask.test ((nextCid size)^[i] c) = true := by
  intro fuel
  induction fuel with
  | zero => intro c _ i hi; omega
  | succ fuel ih =>
      intro c h i hi
      rw [scanCid] at h
      split at h
      · next ht =>
          cases i with
          | zero => exact ht
          | succ i => exact ih _ h i (by omega)
      · exact absurd h (by simp)

/-- The scan goes round all ids. -/
theorem nextCid_iterate {size : ℕ} (hs : 0 < size) {c : ℕ} (hc : c < min size 65536) (i : ℕ) :
    (nextCid size)^[i] c = (c + i) % min size 65536 := by
  induction i with
  | zero => rw [Nat.add_zero, Nat.mod_eq_of_lt hc]; rfl
  | succ i ih =>
      have hlt : (c + i) % min size 65536 < min size 65536 := Nat.mod_lt _ (by omega)
      rw [Function.iterate_succ_apply', ih, nextCid_eq hs hlt, Nat.mod_add_mod]
      rfl

/-- **The scan ends within as many steps as there are ids**, from any id, if one is not pending. -/
theorem scanCid_ends {mask : WordMask} {size fuel c x : ℕ} (hc : c < min size 65536)
    (hx : x < min size 65536) (hfree : mask.test x = false) (hfuel : min size 65536 ≤ fuel) :
    scanCid mask size fuel c ≠ none := by
  intro hnone
  generalize hm : min size 65536 = m at hc hx hfuel
  have hs : 0 < size := by omega
  -- `x` is reached from `c` after so many steps, going round if need be
  have hi : (c + (x + m - c) % m) % m = x := by
    rw [Nat.add_mod_mod, show c + (x + m - c) = x + m by omega, Nat.add_mod_right,
      Nat.mod_eq_of_lt hx]
  have hlt := Nat.mod_lt (x + m - c) (show 0 < m by omega)
  have htest := scanCid_none fuel c hnone ((x + m - c) % m) (by omega)
  rw [nextCid_iterate hs (by omega), hm, hi, hfree] at htest
  cases htest

/-- Fewer pending ids than ids leave one that is not pending. -/
theorem Queue.Masks.exists_free (h : q.Masks used free) (hlt : q.cidcount < q.ids) :
    ∃ x < q.ids, q.cidmask.test x = false := by
  by_contra hall
  push Not at hall
  have hsub : Finset.range q.ids ⊆ q.cidmask.bits := by
    intro c hc
    rw [WordMask.mem_bits]
    simpa using hall c (Finset.mem_range.1 hc)
  have hcard := Finset.card_le_card hsub
  rw [Finset.card_range] at hcard
  have := h.cidcount
  omega

namespace Queue.Wf

/-- **A claimed command id is one that was not pending**; the scan can only go on for ever with all
    2^16 ids pending. -/
theorem claim (h : q.Wf used free) {d : ℕ} (hd : d ∈ used) (hroom : q.cidcount + 1 < q.size) :
    (q.claim d = .error .hang ∧ 65536 ≤ q.cidcount) ∨
    ∃ c, q.claim d = .ok (c, q.setCid d c) ∧ (q.setCid d c).Wf used free ∧ c < q.size ∧
      c ∉ q.cidmask.bits ∧ (q.setCid d c).pending d = insert c (q.pending d) := by
  have hs : 0 < q.size := by have := h.two_le; omega
  cases hscan : scanCid q.cidmask q.size 65536 q.cid with
  | none =>
      refine Or.inl ⟨by rw [Queue.claim, hscan], ?_⟩
      by_contra hfew
      obtain ⟨x, hx, hfree⟩ := h.toMasks.exists_free (by unfold Queue.ids; omega)
      exact scanCid_ends h.cid hx hfree (Nat.min_le_right _ _) hscan
  | some c =>
      obtain ⟨hc, htest⟩ := scanCid_some hs _ _ _ h.cid hscan
      have hfresh : c ∉ q.cidmask.bits := by simp [htest]
      have hword : ¬ q.masksize >>> 3 ≤ c >>> 6 := by
        have := h.toMasks.word_lt (Queue.lt_size_of_lt_ids hc)
        rw [Nat.shiftRight_eq_div_pow c]
        omega
      obtain ⟨hmasks, hpend⟩ :=
        h.toMasks.setCid hd (h.disj d hd) hc hfresh hroom (nextCid_lt hs hc)
      refine Or.inr ⟨c, ?_, ⟨⟨h.listHead, h.freeHead, h.usedRing, h.freeRing, h.disj, h.alloc,
        h.count, h.pend⟩, hmasks⟩, Queue.lt_size_of_lt_ids hc, hfresh, hpend⟩
      simp only [Queue.claim, hscan]
      rw [if_neg hword]

/-- Moving the pending pointer within the use list. -/
theorem setPend (h : q.Wf used free) {p : ℕ} (hp : p ∈ used) :
    Queue.Wf { q with descpend := some p } used free :=
  ⟨⟨h.listHead, h.freeHead, h.usedRing, h.freeRing, h.disj, h.alloc, h.count, fun _ => ⟨p, hp, rfl⟩⟩,
    ⟨h.two_le, h.words, h.maskLen, h.descLen, h.bits, h.owner, h.cidcount, h.descCount, h.freeBits,
      h.below, h.cid, h.bound⟩⟩

/-- The pending pointer is advanced to a descriptor with pending ids, if there is one. -/
theorem advancePend (h : q.Wf used free) :
    ∃ p, q.advancePend = .ok { q with descpend := p } ∧
      Queue.Wf { q with descpend := p } used free ∧
      (q.cidcount ≠ 0 → ∃ x ∈ used, p = some x ∧ 0 < (q.desc x).cidcount) := by
  by_cases h0 : q.cidcount = 0
  · exact ⟨q.descpend, by rw [Queue.advancePend, if_neg (not_not.2 h0)], h, fun hne => absurd h0 hne⟩
  · -- some descriptor owns a pending id, so the walk ends
    obtain ⟨d, hd, hdc⟩ : ∃ d ∈ used, (q.desc d).cidcount ≠ 0 := by
      by_contra hall
      push Not at hall
      apply h0
      rw [h.toMasks.cidcount_eq_sum]
      exact Finset.sum_eq_zero (fun d hd => hall d (by simpa using hd))
    obtain ⟨p, ps, hpp, hring, hmem, hps, hle⟩ := h.toLists.from_pend hd
    have hex : ∃ y ∈ p :: ps, ((q.desc y).cidcount != 0) = true :=
      ⟨d, (hmem d).2 hd, by simpa using hdc⟩
    have hseek := ringSeek_eq_find hring (hps.trans_le hle) hex
    obtain ⟨p', hp'⟩ := Option.isSome_iff_exists.1 (List.find?_isSome.2 hex)
    have hused : p' ∈ used := (hmem p').1 (List.mem_of_find?_eq_some hp')
    have hne : (q.desc p').cidcount ≠ 0 := by simpa using List.find?_some hp'
    have hcount := h.descCount p' (Or.inl hused)
    refine ⟨some p', ?_, h.setPend hused, fun _ => ⟨p', hused, rfl, by omega⟩⟩
    rw [Queue.advancePend, if_pos h0, hpp]
    simp only [hseek, hp']

/-- The search from the pending pointer finds the owner of a pending id before it is back. -/
theorem search (h : q.Wf used free) {c : ℕ} (hc : c ∈ q.cidmask.bits) :
    ∃ p ∈ used, ∃ d ∈ used, q.descpend = some p ∧ c ∈ q.pending d ∧
      ∀ fuel, used.length ≤ fuel →
        ringFind q.links.next (fun x => (q.desc x).cidmask.test c) p fuel p = some (some d) := by
  obtain ⟨d, hd, hcd⟩ := (h.bits c).1 hc
  obtain ⟨p, ps, hpp, hring, hmem, hps, -⟩ := h.toLists.from_pend hd
  have hex : ∃ y ∈ p :: ps, (q.desc y).cidmask.test c = true :=
    ⟨d, (hmem d).2 hd, WordMask.mem_bits.1 hcd⟩
  obtain ⟨y, hy⟩ := Option.isSome_iff_exists.1 (List.find?_isSome.2 hex)
  have hyu : y ∈ used := (hmem y).1 (List.mem_of_find?_eq_some hy)
  have hyc : c ∈ q.pending y := WordMask.mem_bits.2 (by simpa using List.find?_some hy)
  refine ⟨p, (hmem p).1 List.mem_cons_self, y, hyu, hpp, hyc, ?_⟩
  intro fuel hfuel
  rw [ringFind_eq_find hring (hps.trans_le hfuel), hy]

/-- **The descriptor that owns a completed command id is found**, and only that id is cleared. -/
theorem retire (h : q.Wf used free) {c : ℕ} (hc : c ∈ q.cidmask.bits) (err : ℕ) :
    ∃ d ∈ used, c ∈ q.pending d ∧ ∃ p,
      q.retire c err = .ok { q.clearCid d c err with descpend := p } ∧
      Queue.Wf { q.clearCid d c err with descpend := p } used free ∧
      (q.clearCid d c err).pending d = (q.pending d).erase c ∧
      ((q.clearCid d c err).cidcount ≠ 0 →
        ∃ x ∈ used, p = some x ∧ 0 < ((q.clearCid d c err).desc x).cidcount) := by
  obtain ⟨p, -, d, hd, hpp, hcd, hfind⟩ := h.search hc
  have hword : ¬ q.masksize >>> 3 ≤ c >>> 6 := by
    have := h.toMasks.word_lt (Queue.lt_size_of_lt_ids (h.below c hc))
    rw [Nat.shiftRight_eq_div_pow c]
    omega
  obtain ⟨hmasks, hpend⟩ := h.toMasks.clearCid hd (h.disj d hd) hcd err
  have hclear : (q.clearCid d c err).Wf used free :=
    ⟨⟨h.listHead, h.freeHead, h.usedRing, h.freeRing, h.disj, h.alloc, h.count, h.pend⟩, hmasks⟩
  obtain ⟨p', hadv, hwf, hpos⟩ := hclear.advancePend
  refine ⟨d, hd, hcd, p', ?_, hwf, hpend, hpos⟩
  rw [Queue.retire, hpp]
  simp only [if_neg hword, hfind _ h.toLists.used_length_le, hadv]

end Queue.Wf

/-! ## `unvme_queue_init` -/

/-- Descriptors taken from an empty free list are allocated one after the other. -/
theorem Queue.Wf.descGet_iterate (h : q.Wf used []) (n : ℕ) :
    ∃ used', ((fun q => (unvmeDescGet q).2)^[n] q).Wf used' [] ∧
      q.SameMasks ((fun q => (unvmeDescGet q).2)^[n] q) ∧
      ((fun q => (unvmeDescGet q).2)^[n] q).prplist = q.prplist := by
  induction n with
  | zero => exact ⟨used, h, ⟨rfl, rfl, rfl, rfl, rfl⟩, rfl⟩
  | succ n ih =>
      obtain ⟨us, hwf, hsame, hprp⟩ := ih
      obtain ⟨d, q', hget, hwf', -, hsame', hprp', -⟩ := hwf.descGet
      rw [Function.iterate_succ_apply', hget]
      exact ⟨_, hwf', hsame.trans hsame', hprp'.trans hprp⟩

/-- Handing the use list of a queue without pending ids to the free list. -/
theorem Queue.Wf.allFree (h : q.Wf used []) (h0 : q.cidcount = 0) :
    Queue.Wf { q with descfree := q.desclist, desclist := none, desccount := 0 } [] used := by
  have hnone : ∀ d ∈ used, q.pending d = ∅ := by
    intro d hd
    rw [← h.toMasks.pending_eq_empty_iff hd, h.descCount d (Or.inl hd), Nat.cast_eq_zero]
    have hle : (q.pending d).card ≤ q.cidmask.bits.card :=
      Finset.card_le_card (fun c hc => (h.bits c).2 ⟨d, hd, hc⟩)
    have := h.cidcount
    omega
  refine ⟨⟨rfl, h.listHead, Links.ring_nil _, h.usedRing, ?_, ?_, rfl, ?_⟩,
    h.toMasks.congr ⟨rfl, rfl, rfl, rfl, rfl⟩ ?_ ?_ ?_ ?_ hnone⟩
  · intro d hd; exact absurd hd (List.not_mem_nil)
  · intro d hd; exact h.alloc d (by simpa using hd)
  · intro hne; exact absurd rfl hne
  · intro d hd; exact h.descLen d (by simpa using hd)
  · intro d hd; exact h.descCount d (by simpa using hd)
  · intro d hd; exact absurd hd (List.not_mem_nil)
  · intro d hd c hc
    rw [hnone d hd] at hc
    exact absurd hc (Finset.notMem_empty c)

/-- A new queue has nothing pending, and all its descriptors are free. -/
theorem Queue.setup_wf {qsize : ℕ} (hq : 2 ≤ qsize) (prplist : Dma) :
    (Queue.setup qsize prplist).size = qsize ∧ (Queue.setup qsize prplist).cidcount = 0 ∧
      (Queue.setup qsize prplist).prplist = prplist ∧
      ∃ free, (Queue.setup qsize prplist).Wf [] free := by
  have hempty : (Queue.zeroed qsize prplist).Wf [] [] := by
    refine ⟨⟨rfl, rfl, by simp, by simp, by simp, by simp, rfl, by simp⟩,
      ⟨hq, ?_, by simp [Queue.zeroed], by simp, by simp [Queue.zeroed], by simp,
        by simp [Queue.zeroed], by simp, by simp, by simp [Queue.zeroed], ?_, ?_⟩⟩
    · simp only [Queue.zeroed, Nat.shiftRight_eq_div_pow, Nat.shiftLeft_eq]
      omega
    · show 0 < min qsize 65536; omega
    · show (0 : ℤ) + 1 ≤ qsize; omega
  obtain ⟨us, hwf, hsame, hprp⟩ := hempty.descGet_iterate 16
  rw [Queue.setup]
  generalize (fun q => (unvmeDescGet q).2)^[16] (Queue.zeroed qsize prplist) = q at hwf hsame hprp ⊢
  exact ⟨hsame.size, hsame.cidcount, hprp, us, hwf.allFree hsame.cidcount⟩

end Unvme.Core
