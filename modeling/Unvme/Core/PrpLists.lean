import Unvme.Core.Runs

set_option autoImplicit false

/-! # The PRP lists of a queue

`unvme_map_prps` writes the PRP list of a command into the page of its command id. As long as a list
fits into one page, the lists of different ids do not touch each other, and since an id in flight is not
given out again, the list of a command stays as it was composed until the command is reaped.

`R` stands for the addresses that belong to the queue's PRP list allocation. That the controller leaves them
alone is a hypothesis on its next step, which follows where what it has read for its commands are buffers of
clients (`QueueTraffic.act_mem`); that the driver's writes stay inside is a condition on the writes made so
far (`LogIn`), which holds or fails by the size of the allocation. -/

namespace Unvme.Core

open Unvme.Lib Unvme.Nvme

/-! ## Stores -/

section

variable {α β : Type} [DecidableEq α]

theorem foldl_update_of_not_mem {ws : List (α × β)} {a : α} (h : ∀ w ∈ ws, w.1 ≠ a) (m : α → β) :
    ws.foldl (fun m w => Function.update m w.1 w.2) m a = m a := by
  induction ws generalizing m with
  | nil => rfl
  | cons w ws ih =>
      rw [List.foldl_cons, ih (fun v hv => h v (List.mem_cons_of_mem _ hv)),
        Function.update_of_ne (h w (List.mem_cons_self ..)).symm]

theorem foldl_update_of_mem {ws : List (α × β)} (hnd : (ws.map Prod.fst).Nodup) {w : α × β}
    (hw : w ∈ ws) (m : α → β) :
    ws.foldl (fun m w => Function.update m w.1 w.2) m w.1 = w.2 := by
  induction ws generalizing m with
  | nil => cases hw
  | cons v ws ih =>
      rw [List.map_cons, List.nodup_cons] at hnd
      rw [List.foldl_cons]
      rcases List.mem_cons.1 hw with hv | hw
      · subst hv
        rw [foldl_update_of_not_mem, Function.update_self]
        intro u hu heq
        exact hnd.1 (List.mem_map.2 ⟨u, hu, heq⟩)
      · exact ih hnd.2 hw _

end

/-! ## The page of a command id -/

/-- The word at `a` lies in the PRP list page of `cid`. -/
def InSlot (ns : Ns) (prplist : Dma) (cid a : ℕ) : Prop :=
  prplist.buf + cid <<< ns.pageshift ≤ a ∧ a + 8 ≤ prplist.buf + (cid + 1) <<< ns.pageshift

/-- The word at `a` lies in the allocation. -/
def Dma.Holds (dma : Dma) (a : ℕ) : Prop := dma.buf ≤ a ∧ a + 8 ≤ dma.buf + dma.size

/-- A buffer of this size needs no PRP list, or one that fits into a page. The size of a page is a `u16`. -/
def Ns.FitsList (ns : Ns) (bufsz : ℕ) : Prop :=
  ns.numpages bufsz ≤ 2 ∨ ns.pageshift ≤ 15 ∧ ns.numpages bufsz ≤ 2 ^ ns.pageshift / 8 + 1

variable {ns : Ns} {prplist : Dma} {cid cid' addr bufsz a : ℕ}

theorem InSlot.cid_eq (h : InSlot ns prplist cid a) (h' : InSlot ns prplist cid' a) : cid = cid' := by
  obtain ⟨h1, h2⟩ := h
  obtain ⟨h1', h2'⟩ := h'
  simp only [Nat.shiftLeft_eq, Nat.succ_mul] at h1 h2 h1' h2'
  by_contra hne
  rcases Nat.lt_or_gt_of_ne hne with hlt | hlt
  · have := Nat.mul_le_mul_right (2 ^ ns.pageshift) (Nat.succ_le_of_lt hlt)
    rw [Nat.succ_mul] at this
    omega
  · have := Nat.mul_le_mul_right (2 ^ ns.pageshift) (Nat.succ_le_of_lt hlt)
    rw [Nat.succ_mul] at this
    omega

/-- The number of pages of a buffer, where neither the 64-bit sum nor the `int` overflows. -/
theorem Ns.numpages_eq {ns : Ns} (hp : ns.pagesize = 2 ^ ns.pageshift) (bufsz : ℕ)
    (h : bufsz + 2 ^ ns.pageshift ≤ 2 ^ 64)
    (hn : (bufsz + 2 ^ ns.pageshift - 1) / 2 ^ ns.pageshift < 2 ^ 31) :
    ns.numpages bufsz = ((bufsz + 2 ^ ns.pageshift - 1) / 2 ^ ns.pageshift : ℕ) := by
  have hpos : 0 < 2 ^ ns.pageshift := Nat.two_pow_pos _
  unfold Ns.numpages toInt32
  rw [hp, Nat.shiftRight_eq_div_pow]
  generalize 2 ^ ns.pageshift = p at h hn hpos ⊢
  have hmod : (bufsz + p + (2 ^ 64 - 1)) % 2 ^ 64 = bufsz + p - 1 := by omega
  rw [hmod]
  generalize (bufsz + p - 1) / p = n at hn ⊢
  have hsmall : n % 2 ^ 32 = n := Nat.mod_eq_of_lt (by omega)
  rw [hsmall, if_pos hn]
  exact Int.emod_eq_of_lt (by omega) (by omega)

/-- Pages are of less than 64 KB, and ids of 16 bits: the offset of a list page is no negative `int`. -/
theorem Ns.prpoff_eq {ns : Ns} {cid : ℕ} (hps : ns.pageshift ≤ 15) (hcid : cid < 2 ^ 16) :
    ns.prpoff cid = (cid <<< ns.pageshift : ℕ) := by
  have hpow : 2 ^ ns.pageshift ≤ 2 ^ 15 := Nat.pow_le_pow_right (by decide) hps
  have hmul : cid * 2 ^ ns.pageshift ≤ (2 ^ 16 - 1) * 2 ^ 15 := Nat.mul_le_mul (by omega) hpow
  unfold Ns.prpoff toInt32
  rw [Nat.shiftLeft_eq]
  generalize cid * 2 ^ ns.pageshift = prpoff at hmul ⊢
  rw [Nat.mod_eq_of_lt (by omega), if_pos (by omega)]
  omega

/-- Where the PRP list of `cid` is written. -/
def listStart (ns : Ns) (prplist : Dma) (cid : ℕ) : ℕ := (prplist.buf + ns.prpoff cid).toNat

theorem listStart_eq (hps : ns.pageshift ≤ 15) (hcid : cid < 2 ^ 16) :
    listStart ns prplist cid = prplist.buf + cid <<< ns.pageshift := by
  unfold listStart
  rw [Ns.prpoff_eq hps hcid, ← Nat.cast_add, Int.toNat_natCast]

/-- The words of a PRP list of `n` pages. -/
def listWords (ns : Ns) (prplist : Dma) (cid addr : ℕ) (n : ℤ) : List (ℕ × ℕ) :=
  if 2 < n then
    (List.range (n.toNat - 1)).map (fun i =>
      (listStart ns prplist cid + 8 * i, (addr + (i + 1) * ns.pagesize) % 2 ^ 64))
  else []

theorem listWords_eq (ns : Ns) (prplist : Dma) (cid addr : ℕ) (n : ℤ) :
    (if n = 2 then (addr, (addr + ns.pagesize) % 2 ^ 64, ([] : List (ℕ × ℕ)))
      else if 2 < n then
        (addr, ((prplist.addr + ns.prpoff cid) % 2 ^ 64).toNat,
          (List.range (n.toNat - 1)).map (fun i =>
            ((prplist.buf + ns.prpoff cid).toNat + 8 * i, (addr + (i + 1) * ns.pagesize) % 2 ^ 64)))
      else (addr, 0, [])).2.2 = listWords ns prplist cid addr n := by
  unfold listWords listStart
  by_cases h2 : n = 2
  · rw [if_pos h2, if_neg (by omega)]
  · rw [if_neg h2]
    by_cases h3 : 2 < n
    · rw [if_pos h3, if_pos h3]
    · rw [if_neg h3, if_neg h3]

theorem composePrps_words (ns : Ns) (prplist : Dma) (cid addr bufsz : ℕ) :
    (composePrps ns prplist cid addr bufsz).2.2
      = listWords ns prplist cid addr (ns.numpages bufsz) := by
  unfold composePrps
  exact listWords_eq ns prplist cid addr (ns.numpages bufsz)

theorem mem_listWords {n : ℤ} {st : ℕ × ℕ} (h : st ∈ listWords ns prplist cid addr n) :
    ∃ i : ℕ, (i : ℤ) + 1 < n ∧ 2 < n ∧
      st = (listStart ns prplist cid + 8 * i, (addr + (i + 1) * ns.pagesize) % 2 ^ 64) := by
  unfold listWords at h
  split at h
  · next h3 =>
      obtain ⟨i, hi, rfl⟩ := List.mem_map.1 h
      rw [List.mem_range] at hi
      exact ⟨i, by omega, h3, rfl⟩
  · exact absurd h List.not_mem_nil

theorem listWords_first {n : ℤ} (h : 2 < n) :
    (listStart ns prplist cid, (addr + ns.pagesize) % 2 ^ 64) ∈ listWords ns prplist cid addr n := by
  unfold listWords
  rw [if_pos h]
  exact List.mem_map.2 ⟨0, List.mem_range.2 (by omega), by simp⟩

theorem listWords_nodup (n : ℤ) : ((listWords ns prplist cid addr n).map Prod.fst).Nodup := by
  unfold listWords
  split
  · rw [List.map_map]
    refine List.Nodup.map ?_ List.nodup_range
    intro i j hij
    simp only [Function.comp_apply] at hij
    omega
  · exact List.nodup_nil

theorem composePrps_inSlot (hfit : ns.FitsList bufsz) (hcid : cid < 2 ^ 16) {st : ℕ × ℕ}
    (h : st ∈ (composePrps ns prplist cid addr bufsz).2.2) : InSlot ns prplist cid st.1 := by
  rw [composePrps_words] at h
  unfold Ns.FitsList at hfit
  generalize ns.numpages bufsz = n at h hfit
  obtain ⟨i, hi, hn, rfl⟩ := mem_listWords h
  obtain ⟨hps, hfit⟩ := hfit.resolve_left (by omega)
  rw [listStart_eq hps hcid]
  have hcast : ((2 ^ ns.pageshift / 8 : ℕ) : ℤ) = 2 ^ ns.pageshift / 8 := by push_cast; rfl
  rw [← hcast] at hfit
  have hlt : 8 * (i + 1) ≤ 2 ^ ns.pageshift := by omega
  constructor
  · exact Nat.le_add_right _ _
  · simp only [Nat.shiftLeft_eq, Nat.succ_mul]
    omega

theorem composePrps_nodup (ns : Ns) (prplist : Dma) (cid addr bufsz : ℕ) :
    ((composePrps ns prplist cid addr bufsz).2.2.map Prod.fst).Nodup := by
  rw [composePrps_words]
  exact listWords_nodup _

/-! ## Lists in memory -/

/-- The PRP list of a buffer mapped for `cid` is in memory, in the page of `cid` and in `R`. -/
def Sys.Kept (E : Env) (R : ℕ → Prop) (s : Sys) (cid buf bufsz : ℕ) : Prop :=
  ∀ addr, unvmeMapDma E buf bufsz = .ok addr →
    ∀ st ∈ (composePrps E.ns s.q.prplist cid addr bufsz).2.2,
      InSlot E.ns s.q.prplist cid st.1 ∧ R st.1 ∧ s.dev.mem st.1 = st.2

/-- The buffer mapped for the command id in hand. -/
def Pc.buffer : Pc → Option (ℕ × ℕ × ℕ)
  | .mapped _ cid buf bufsz _ | .filled _ cid buf bufsz _ _ => some (cid, buf, bufsz)
  | _ => none

/-- The lists of all commands in flight, and of the one in hand, are in memory. -/
structure Sys.ListsKept (E : Env) (R : ℕ → Prop) (s : Sys) (pc : Pc) : Prop where
  pending : ∀ k c sub, s.dev.hist.Pending k c → s.dev.hist.subs[k]? = some sub →
    s.Kept E R c sub.buf sub.bufsz
  hand : ∀ cid buf bufsz, pc.buffer = some (cid, buf, bufsz) → s.Kept E R cid buf bufsz

/-- Every word written by `unvme_map_prps` so far is in `R`. -/
def Sys.LogIn (R : ℕ → Prop) (s : Sys) : Prop :=
  ∀ call ∈ s.dev.hist.prpCalls, ∀ st ∈ call.stores, R st.1

/-- Every call of `unvme_map_prps` so far was for an id of the queue and a buffer that was allowed, and
    wrote into the page of the id. -/
def Sys.LogSlots (E : Env) (G : Guards) (s : Sys) : Prop :=
  ∀ call ∈ s.dev.hist.prpCalls, call.cid < s.q.ids ∧ (∃ q d, G.map q d call.buf call.bufsz) ∧
    (∃ addr, call.stores = (composePrps E.ns s.q.prplist call.cid addr call.bufsz).2.2) ∧
    ∀ st ∈ call.stores, InSlot E.ns s.q.prplist call.cid st.1

section

variable {E : Env} {G : Guards} {R : ℕ → Prop} {s s' : Sys} {pc pc' : Pc}

theorem Sys.Kept.congr {cid buf bufsz : ℕ} (h : s.Kept E R cid buf bufsz)
    (hq : s'.q.prplist = s.q.prplist)
    (hm : ∀ a, R a → InSlot E.ns s.q.prplist cid a → s'.dev.mem a = s.dev.mem a) :
    s'.Kept E R cid buf bufsz := by
  intro addr ha st hst
  rw [hq] at hst ⊢
  obtain ⟨hslot, hR, hmem⟩ := h addr ha st hst
  exact ⟨hslot, hR, (hm st.1 hR hslot).trans hmem⟩

/-- The lists do not depend on the part of the state that changes. -/
theorem Sys.ListsKept.congr (h : s.ListsKept E R pc) (hq : s'.q.prplist = s.q.prplist)
    (hm : ∀ a, R a → s'.dev.mem a = s.dev.mem a) (hs : s'.dev.hist.subs = s.dev.hist.subs)
    (hp : ∀ k c, s'.dev.hist.Pending k c → s.dev.hist.Pending k c)
    (hpc : ∀ x, pc'.buffer = some x → pc.buffer = some x) : s'.ListsKept E R pc' := by
  constructor
  · intro k c sub hk hsub
    rw [hs] at hsub
    exact (h.pending k c sub (hp k c hk) hsub).congr hq (fun a hR _ => hm a hR)
  · intro cid buf bufsz hb
    exact (h.hand cid buf bufsz (hpc _ hb)).congr hq (fun a hR _ => hm a hR)

theorem call_mem_storePrps (d : Device) (call : PrpCall) :
    call ∈ (d.storePrps call).hist.prpCalls :=
  List.mem_append_right _ (List.mem_singleton_self _)

theorem storePrps_prpCalls (d : Device) (call : PrpCall) :
    (d.storePrps call).hist.prpCalls = d.hist.prpCalls ++ [call] := rfl

theorem storePrps_subs (d : Device) (call : PrpCall) : (d.storePrps call).hist.subs = d.hist.subs := rfl

theorem storePrps_inflight (d : Device) (call : PrpCall) : (d.storePrps call).inflight = d.inflight := rfl

theorem logIn_storePrps {cid buf bufsz : ℕ} {words : List (ℕ × ℕ)}
    (h : Sys.LogIn R ⟨s.q, s.dev.storePrps ⟨cid, buf, bufsz, words⟩⟩) :
    s.LogIn R ∧ ∀ st ∈ words, R st.1 :=
  ⟨fun c hc => h c (List.mem_append_left _ hc),
    h ⟨cid, buf, bufsz, words⟩ (List.mem_append_right _ (List.mem_singleton_self _))⟩

theorem logSlots_storePrps {cid buf bufsz : ℕ} {words : List (ℕ × ℕ)} (h : s.LogSlots E G)
    (hcid : cid < s.q.ids) (hmap : ∃ q d, G.map q d buf bufsz)
    (hwords : ∃ addr, words = (composePrps E.ns s.q.prplist cid addr bufsz).2.2)
    (hslot : ∀ st ∈ words, InSlot E.ns s.q.prplist cid st.1) :
    Sys.LogSlots E G ⟨s.q, s.dev.storePrps ⟨cid, buf, bufsz, words⟩⟩ := by
  intro call hcall
  rcases List.mem_append.1 hcall with hcall | hcall
  · exact h call hcall
  · rw [List.mem_singleton] at hcall
    subst hcall
    exact ⟨hcid, hmap, hwords, hslot⟩

theorem mem_storePrps {cid buf bufsz a : ℕ} {words : List (ℕ × ℕ)} (h : ∀ st ∈ words, st.1 ≠ a) :
    (s.dev.storePrps ⟨cid, buf, bufsz, words⟩).mem a = s.dev.mem a :=
  foldl_update_of_not_mem h s.dev.mem

/-- Composing a list for the id in hand touches no other list. -/
theorem Sys.ListsKept.storePrps {d cid buf bufsz addr : ℕ} {words : List (ℕ × ℕ)}
    (h : s.ListsKept E R (.claimed d cid)) (hnew : ∀ k, ¬ s.dev.hist.Pending k cid)
    (hslot : ∀ st ∈ words, InSlot E.ns s.q.prplist cid st.1) (hR : ∀ st ∈ words, R st.1)
    (hnd : (words.map Prod.fst).Nodup)
    (hwords : ∀ addr, unvmeMapDma E buf bufsz = .ok addr →
      (composePrps E.ns s.q.prplist cid addr bufsz).2.2 = words) :
    Sys.ListsKept E R ⟨s.q, s.dev.storePrps ⟨cid, buf, bufsz, words⟩⟩
      (.mapped d cid buf bufsz addr) := by
  constructor
  · -- another command's list is in another page
    intro k c sub hk hsub
    have hne : cid ≠ c := by
      intro he
      subst he
      exact hnew k hk
    refine (h.pending k c sub hk hsub).congr rfl ?_
    intro a _ ha
    refine mem_storePrps ?_
    intro st hst heq
    exact hne ((hslot st hst).cid_eq (heq ▸ ha))
  · intro cid' buf' bufsz' hb addr' ha st hst
    cases hb
    rw [hwords addr' ha] at hst
    exact ⟨hslot st hst, hR st hst, foldl_update_of_mem hnd hst s.dev.mem⟩

/-- A command id in hand is one of the queue's. -/
theorem Sys.Inv.hand_lt (h : s.Inv pc) {d cid : ℕ} (hh : pc.hand = some (d, cid)) :
    cid < s.q.ids := by
  obtain ⟨hd, -⟩ := h.acc.inHand d cid hh
  have hbit := (h.acc.bits d hd cid).2 (Or.inr hh)
  exact h.acc.wf.below cid ((h.acc.wf.bits cid).2 ⟨d, hd, hbit⟩)

/-- **One step keeps the lists**, if it writes inside `R` and the controller leaves `R` alone. -/
theorem Step.listsKept
    (hact : ∀ a x, R x → (s.dev.act E.media a).mem x = s.dev.mem x)
    (hG : ∀ q d buf bufsz, G.map q d buf bufsz → E.ns.FitsList bufsz)
    (h : s.Inv pc) (hstep : Step E G (s, pc) (s', pc')) (hl : s.LogIn R → s.ListsKept E R pc) :
    s'.LogIn R → s'.ListsKept E R pc' := by
  intro hlog
  have hsame := hstep.sameQueue h
  cases hstep with
  | act _ _ a =>
      have hlater := Device.Later.act s.dev E.media a
      have hlog₀ : s.LogIn R := by
        unfold Sys.LogIn at hlog ⊢
        rwa [hlater.prpCalls] at hlog
      exact (hl hlog₀).congr rfl (fun x hx => hact a x hx) hlater.subs
        (fun k c => (hlater.same h.dev.reaped_le_posted).pending_iff.1) (fun _ hx => hx)
  | sched _ _ σ => exact (hl hlog).congr rfl (fun _ _ => rfl) rfl (fun _ _ hp => hp) (fun _ hx => hx)
  | advance _ hp => exact (hl hlog).congr rfl (fun _ _ => rfl) rfl (fun _ _ hp => hp) nofun
  | ring _ => exact (hl hlog).congr rfl (fun _ _ => rfl) rfl (fun _ _ hp => hp) nofun
  | reap _ k e q' hp hq =>
      exact (hl hlog).congr hsame.prplist (fun _ _ => rfl) rfl
        (fun k' c hk => ((History.pending_reap hp).1 hk).1) nofun
  | take _ d q' f hget hf hs hG =>
      exact (hl hlog).congr hsame.prplist (fun _ _ => rfl) rfl (fun _ _ hp => hp) nofun
  | put _ d hd h0 => exact (hl hlog).congr rfl (fun _ _ => rfl) rfl (fun _ _ hp => hp) nofun
  | claim _ d cid q' hd hroom hq =>
      exact (hl hlog).congr hsame.prplist (fun _ _ => rfl) rfl (fun _ _ hp => hp) nofun
  | map _ d cid buf bufsz addr ha hmap =>
      have hfit := hG _ _ _ _ hmap
      obtain ⟨hlog₀, hnew⟩ := logIn_storePrps hlog
      refine (hl hlog₀).storePrps (h.acc.inHand d cid rfl).2
        (fun st hst => composePrps_inSlot hfit (Queue.lt_two_pow_of_lt_ids (h.hand_lt rfl)) hst) hnew
        (composePrps_nodup ..) ?_
      intro addr' ha'
      rw [ha] at ha'
      cases ha'
      rfl
  | fill _ d cid buf bufsz addr e hc h1 h2 hG =>
      exact (hl hlog).congr rfl (fun _ _ => rfl) rfl (fun _ _ hp => hp) (fun _ hx => hx)
  | submit _ d cid buf bufsz addr e =>
      have hk := hl hlog
      have hold := h.dev.new_not_reaped
      obtain ⟨-, hc⟩ := h.filled cid e rfl
      constructor
      · intro k c sub hp hsub
        rcases (History.pending_submit hold).1 hp with hp | ⟨rfl, rfl⟩
        · obtain ⟨⟨sub', hsub', -⟩, -⟩ := id hp
          have hlt := (List.getElem?_eq_some_iff.1 hsub').1
          have heq : sub' = sub := by
            change (s.dev.hist.subs ++ [_])[k]? = some sub at hsub
            rw [List.getElem?_append_left hlt, hsub'] at hsub
            exact Option.some.inj hsub
          subst heq
          exact (hk.pending k c sub' hp hsub').congr rfl (fun _ _ _ => rfl)
        · change (s.dev.hist.subs ++ [_])[s.dev.hist.subs.length]? = some sub at hsub
          rw [List.getElem?_concat_length] at hsub
          cases hsub
          refine Sys.Kept.congr ?_ rfl (fun _ _ _ => rfl)
          show s.Kept E R e.cid buf bufsz
          rw [hc]
          exact hk.hand cid buf bufsz rfl
      · nofun

/-- **One step writes into the page of the id in hand.** -/
theorem Step.logSlots (hG : ∀ q d buf bufsz, G.map q d buf bufsz → E.ns.FitsList bufsz)
    (h : s.Inv pc) (hstep : Step E G (s, pc) (s', pc')) (hl : s.LogSlots E G) :
    s'.LogSlots E G := by
  have hsame := hstep.sameQueue h
  have hold : s'.dev.hist.prpCalls = s.dev.hist.prpCalls → s'.LogSlots E G := by
    intro hc call hcall
    rw [hc] at hcall
    rw [hsame.ids, hsame.prplist]
    exact hl call hcall
  cases hstep with
  | act _ _ a => exact hold (Device.Later.act s.dev E.media a).prpCalls
  | map _ d cid buf bufsz addr ha hmap =>
      have hfit := hG _ _ _ _ hmap
      have hlt := h.hand_lt rfl
      exact logSlots_storePrps hl hlt ⟨_, _, hmap⟩ ⟨addr, rfl⟩
        (fun st hst => composePrps_inSlot hfit (Queue.lt_two_pow_of_lt_ids hlt) hst)
  | sched _ _ σ => exact hold rfl
  | advance _ hp => exact hold rfl
  | ring _ => exact hold rfl
  | reap _ k e q' hp hq => exact hold rfl
  | take _ d q' f hget hf hs hG => exact hold rfl
  | put _ d hd h0 => exact hold rfl
  | claim _ d cid q' hd hroom hq => exact hold rfl
  | fill _ d cid buf bufsz addr e hc h1 h2 hG => exact hold rfl
  | submit _ d cid buf bufsz addr e => exact hold rfl

/-- The words written so far are not unwritten. -/
theorem Step.prpCalls_prefix (hstep : Step E G (s, pc) (s', pc')) :
    s.dev.hist.prpCalls <+: s'.dev.hist.prpCalls := by
  cases hstep with
  | act _ _ a => rw [(Device.Later.act s.dev E.media a).prpCalls]
  | map _ d cid buf bufsz addr ha hmap => exact List.prefix_append _ _
  | sched _ _ σ => exact List.prefix_rfl
  | advance _ hp => exact List.prefix_rfl
  | ring _ => exact List.prefix_rfl
  | reap _ k e q' hp hq => exact List.prefix_rfl
  | take _ d q' f hget hf hs hG => exact List.prefix_rfl
  | put _ d hd h0 => exact List.prefix_rfl
  | claim _ d cid q' hd hroom hq => exact List.prefix_rfl
  | fill _ d cid buf bufsz addr e hc h1 h2 hG => exact List.prefix_rfl
  | submit _ d cid buf bufsz addr e => exact List.prefix_rfl

end

end Unvme.Core
