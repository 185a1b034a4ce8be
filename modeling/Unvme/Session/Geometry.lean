import Unvme.Session.Lifetime
import Unvme.Core.PrpRegion
import Unvme.Core.QueueInit

set_option autoImplicit false

/-! # Controller geometry and request splitting

The shifts and limits of a namespace are computed from what the controller reports and stored in 16-bit
fields; `maxbpio`, the last of them, is the step of the loop that splits a request. Here the fields are
computed for every controller that the driver accepts, and put together with the specification of the
loop. -/

namespace Unvme.Session

open Unvme.Lib

/-- What the I/O path reads of the attributes. -/
def UnvmeNs.io (ns : UnvmeNs) : Core.Ns :=
  ⟨ns.id, ns.pagesize, ns.pageshift, ns.blockshift, ns.maxbpio⟩

/-- **Requests are split as they should be**: the limits are those of the controller, and from every
    state of a queue every read or write submits as many commands as it needs, with block counts that
    the command can hold. It does not end if it runs into the deadline or is given a buffer outside the
    DMA region, and in no other case. -/
structure Splits (c : Ctlr) (ns : UnvmeNs) : Prop where
  maxppio : ns.maxppio =
    if c.mdts = 0 then ns.pagesize / 8 else min (ns.pagesize / 8) (2 ^ c.mdts)
  maxbpio : ns.maxbpio <<< ns.blockshift = ns.maxppio <<< ns.pageshift
  pos : 1 ≤ ns.maxbpio
  rw : ∀ E : Core.Env, E.ns = ns.io → ∀ prplist mem disk s σ,
    Core.Run E (fun s r => r.Legal s) (Core.Sys.boot ns.qsize prplist mem disk) s →
    ∀ qid opc buf slba nlb, wp (Core.unvmeDoRw E qid opc buf slba nlb) (s.withSched σ)
      (fun _ s' => ∃ new, s'.dev.hist.subs = s.dev.hist.subs ++ new ∧
        new.length = (nlb + ns.maxbpio - 1) / ns.maxbpio ∧
        ∀ sub ∈ new, ∃ n, 1 ≤ n ∧ n ≤ ns.maxbpio ∧ n - 1 < 2 ^ 16 ∧
          sub.entry.cdw10_15[2] = n - 1)
      (fun e _ => e = .timeout ∨ e = .nonIoRegion)

/-! ## The loop -/

section

open Unvme.Core

variable {E : Env}

/-- As many chunks as blocks divided by the step, rounded up. -/
theorem chunks_length (hmax : 0 < E.ns.maxbpio) (fuel buf slba nlb : ℕ) (hfuel : nlb ≤ fuel) :
    (chunks E fuel buf slba nlb).length = (nlb + E.ns.maxbpio - 1) / E.ns.maxbpio := by
  induction fuel generalizing buf slba nlb with
  | zero =>
      obtain rfl : nlb = 0 := by omega
      rw [chunks, List.length_nil, Nat.div_eq_of_lt (by omega)]
  | succ fuel ih =>
      cases nlb with
      | zero => rw [chunks, List.length_nil, Nat.div_eq_of_lt (by omega)]
      | succ rest =>
          rw [chunks, List.length_cons]
          split
          · next hlt =>
              rw [Nat.sub_self, chunks, List.length_nil]
              exact (Nat.div_eq_of_lt_le (by omega) (by omega)).symm
          · next hle =>
              rw [ih _ _ _ (by omega)]
              obtain ⟨k, hk⟩ : ∃ k, rest + 1 = k + E.ns.maxbpio := ⟨rest + 1 - E.ns.maxbpio, by omega⟩
              rw [hk, Nat.add_sub_cancel, ← Nat.add_div_right _ hmax]
              congr 1
              omega

theorem rwEntry_nlb (opc cid nsid slba nlb prp1 prp2 : ℕ) :
    (rwEntry opc cid nsid slba nlb prp1 prp2).cdw10_15[2] = (nlb + 65535) % 65536 := by
  simp [rwEntry]

theorem unvmeDoRw_splits {E : Env} (hmax : 1 ≤ E.ns.maxbpio) (hword : E.ns.maxbpio ≤ 2 ^ 16) {s : Sys}
    (h : s.Inv .idle) (hsize : s.q.size ≤ 65537) (qid : ℤ) (opc buf slba nlb : ℕ) :
    wp (unvmeDoRw E qid opc buf slba nlb) s
      (fun _ s' => ∃ new, s'.dev.hist.subs = s.dev.hist.subs ++ new ∧
        new.length = (nlb + E.ns.maxbpio - 1) / E.ns.maxbpio ∧
        ∀ sub ∈ new, ∃ n, 1 ≤ n ∧ n ≤ E.ns.maxbpio ∧ n - 1 < 2 ^ 16 ∧
          sub.entry.cdw10_15[2] = n - 1)
      (fun e _ => e = .timeout ∨ e = .nonIoRegion) := by
  refine wp_mono (unvmeDoRw_spec (G := Guards.any) h (fun _ _ _ => trivial)
    (fun _ _ _ c _ => ⟨fun _ _ => trivial, fun _ _ _ _ _ => trivial⟩)) ?_ ?_
  · rintro d s' ⟨-, s₁, new, -, ht, -, hw, hall⟩
    have hcover := chunks_cover hmax nlb buf slba nlb le_rfl
    refine ⟨new, by rw [hw.subs, ht.dev], ?_, ?_⟩
    · rw [← hall.length_eq, chunks_length hmax nlb buf slba nlb le_rfl]
    · intro sub hsub
      obtain ⟨c, hc, hcs⟩ := exists_left_of_mem hall hsub
      obtain ⟨hpos, hle, -⟩ := hcover c hc
      obtain ⟨addr, -, hentry⟩ := hcs.entry
      refine ⟨c.nlb, hpos, hle, by omega, ?_⟩
      rw [hentry, Chunk.entry, rwEntry_nlb]
      omega
  · rintro e s' ⟨he, -⟩
    rcases he with rfl | rfl | ⟨rfl, hbad⟩
    · exact Or.inl rfl
    · exact Or.inr rfl
    · omega

end

/-! ## The fields -/

/-- The page limit from `mdts`, in 32-bit arithmetic. -/
theorem mdtsPages {mdts : ℕ} (h0 : mdts ≠ 0) : wrap32 (2 * 2 ^ (mdts - 1)) =
    if mdts ≤ 30 then (2 : ℤ) ^ mdts else if mdts = 31 then -2 ^ 31 else 0 := by
  have hpow : (2 : ℤ) * 2 ^ (mdts - 1) = 2 ^ mdts := by
    rw [← pow_succ', Nat.sub_add_cancel (by omega)]
  rw [hpow]
  by_cases h30 : mdts ≤ 30
  · rw [if_pos h30]
    have hle : (2 : ℤ) ^ mdts ≤ 2 ^ 30 := pow_le_pow_right₀ (by omega) h30
    have hpos : (0 : ℤ) < 2 ^ mdts := by positivity
    exact wrap32_of_isInt ⟨by omega, by omega⟩
  rw [if_neg h30]
  by_cases h31 : mdts = 31
  · subst h31
    decide
  · rw [if_neg h31]
    obtain ⟨k, rfl⟩ : ∃ k, mdts = 32 + k := ⟨mdts - 32, by omega⟩
    rw [pow_add]
    exact Int.bmod_eq_zero_of_dvd ⟨2 ^ k, rfl⟩

section

variable {c : Ctlr} (pci qcount : ℤ)

/-- A page size or a page limit that does not fit leaves no pages per I/O. -/
theorem ctlrNs_maxppio_zero (h : 16 ≤ c.pageshift ∨ 31 ≤ c.mdts) :
    (ctlrNs c pci qcount).maxppio = 0 := by
  have hmdts : ∀ m, m ≠ 0 → 31 ≤ m → wrap32 (2 * 2 ^ (m - 1)) ≤ 0 ∧
      toU16 (wrap32 (2 * 2 ^ (m - 1))) = 0 := by
    intro m hm0 hm
    rw [mdtsPages hm0, if_neg (by omega)]
    split
    · decide
    · decide
  have hpages : 16 ≤ c.pageshift → 2 ^ c.pageshift % 2 ^ 16 / 8 = 0 := by
    intro h16
    rw [Nat.mod_eq_zero_of_dvd (Nat.pow_dvd_pow 2 h16)]
  simp only [ctlrNs]
  split
  · next hlt =>
      by_cases h31 : 31 ≤ c.mdts
      · exact (hmdts c.mdts hlt.1 h31).2
      · rw [hpages (by omega)] at hlt
        have hpos : (0 : ℤ) < 2 ^ c.mdts := by positivity
        rw [mdtsPages hlt.1, if_pos (by omega)] at hlt
        have := hlt.2
        omega
  · next hge =>
      by_cases h31 : 31 ≤ c.mdts
      · have hle := (hmdts c.mdts (by omega) h31).1
        have hnot : ¬ wrap32 (2 * 2 ^ (c.mdts - 1)) < ((2 ^ c.pageshift % 2 ^ 16 / 8 : ℕ) : ℤ) :=
          fun hlt => hge ⟨by omega, hlt⟩
        omega
      · exact hpages (by omega)

/-- The limit on pages per I/O of a controller with small pages. -/
theorem ctlrNs_maxppio (hps : c.pageshift ≤ 13) (hm : c.mdts ≤ 30) :
    (ctlrNs c pci qcount).pagesize = 2 ^ c.pageshift ∧
      (ctlrNs c pci qcount).maxppio =
        if c.mdts = 0 then 2 ^ c.pageshift / 8 else min (2 ^ c.pageshift / 8) (2 ^ c.mdts) := by
  have hpow : 2 ^ c.pageshift ≤ 2 ^ 13 := Nat.pow_le_pow_right (by omega) hps
  have hpage : 2 ^ c.pageshift % 2 ^ 16 = 2 ^ c.pageshift := Nat.mod_eq_of_lt (by omega)
  refine ⟨hpage, ?_⟩
  simp only [ctlrNs, hpage]
  by_cases h0 : c.mdts = 0
  · rw [if_neg (fun h => h.1 h0), if_pos h0]
  rw [if_neg h0, mdtsPages h0, if_pos hm]
  have hcast : ((2 : ℤ) ^ c.mdts) = ((2 ^ c.mdts : ℕ) : ℤ) := by push_cast; rfl
  rw [hcast]
  have hbound : 2 ^ c.pageshift / 8 ≤ 1024 := by omega
  generalize 2 ^ c.mdts = mp
  generalize 2 ^ c.pageshift / 8 = maxppio at hbound ⊢
  split
  · next hlt =>
      unfold toU16
      omega
  · next hge => omega

end

/-- The limit on blocks per I/O of a namespace with small pages: no field is cut off. -/
theorem initNs_maxbpio {c : Ctlr} (pci qcount nsid : ℤ) {idns : IdNs} (hlo : 12 ≤ c.pageshift)
    (hps : c.pageshift ≤ 13) (hm : c.mdts ≤ 30) (h9 : 9 ≤ idns.lbads)
    (hle : idns.lbads ≤ c.pageshift) :
    (initNs (ctlrNs c pci qcount) nsid idns).maxbpio =
        (ctlrNs c pci qcount).maxppio <<< (c.pageshift - idns.lbads) ∧
      1 ≤ (initNs (ctlrNs c pci qcount) nsid idns).maxbpio ∧
      (initNs (ctlrNs c pci qcount) nsid idns).maxbpio ≤ 2 ^ 14 := by
  obtain ⟨-, hmax⟩ := ctlrNs_maxppio pci qcount hps hm
  have hpow : 2 ^ c.pageshift ≤ 2 ^ 13 := Nat.pow_le_pow_right (by omega) hps
  have hpow' : 2 ^ 12 ≤ 2 ^ c.pageshift := Nat.pow_le_pow_right (by omega) hlo
  have hmdts : 1 ≤ 2 ^ c.mdts := Nat.one_le_two_pow
  have hbounds : 1 ≤ (ctlrNs c pci qcount).maxppio ∧ (ctlrNs c pci qcount).maxppio ≤ 2 ^ 10 := by
    rw [hmax]
    split <;> omega
  have hshift : toU16 ((c.pageshift : ℤ) - idns.lbads) = c.pageshift - idns.lbads := by
    unfold toU16
    omega
  have hval : (initNs (ctlrNs c pci qcount) nsid idns).maxbpio =
      ((ctlrNs c pci qcount).maxppio <<< (c.pageshift - idns.lbads)) % 2 ^ 16 := by
    rw [← hshift]
    rfl
  have h16 : 2 ^ (c.pageshift - idns.lbads) ≤ 2 ^ 4 := Nat.pow_le_pow_right (by omega) (by omega)
  have h1 : 1 ≤ 2 ^ (c.pageshift - idns.lbads) := Nat.one_le_two_pow
  have hupper : (ctlrNs c pci qcount).maxppio <<< (c.pageshift - idns.lbads) ≤ 2 ^ 10 * 2 ^ 4 := by
    rw [Nat.shiftLeft_eq]
    exact Nat.mul_le_mul hbounds.2 h16
  have hlower : 1 ≤ (ctlrNs c pci qcount).maxppio <<< (c.pageshift - idns.lbads) := by
    rw [Nat.shiftLeft_eq]
    exact Nat.mul_le_mul hbounds.1 h1
  rw [hval, Nat.mod_eq_of_lt (by omega)]
  exact ⟨rfl, hlower, by omega⟩

/-- **Splitting is right exactly for pages of at most 8 KB and a transfer limit below 2^31 pages**, on
    every namespace that is open after any successful opens and closes. The hypotheses are what the
    controller can report and what the allocator provides: the page shift is 12 plus four bits, and the
    PRP list of a queue can be allocated. -/
theorem splits_iff {H : Host} {L : List ℕ → Prop} {w : World} {ses : List ℕ}
    (hrun : Sessions H L w ses) {x : ℕ} (hx : x ∈ ses) {c : Ctlr} (hc : H.ctlr (w.session x).ns.pci = c)
    (hlo : 12 ≤ c.pageshift) (hhi : c.pageshift ≤ 27)
    (hmem : Core.Provided (Core.prplistSize 256 c.pageshift))
    (h9 : 9 ≤ (w.session x).ns.blockshift) (hle : (w.session x).ns.blockshift ≤ c.pageshift) :
    Splits c (w.session x).ns ↔ c.pageshift ≤ 13 ∧ c.mdts ≤ 30 := by
  have h := hrun.life
  obtain ⟨nsid, idns, -, hns⟩ := h.ns x hx
  obtain ⟨qcount, hdev⟩ := h.ctlr _ (h.wf.dev x hx)
  rw [← h.devPci hx, hc] at hdev
  rw [hdev] at hns
  generalize (w.device (w.session x).dev).pci = pci at hns
  rw [hns] at h9 hle ⊢
  constructor
  · intro hsplit
    by_contra hno
    have hzero : (ctlrNs c pci qcount).maxppio = 0 := by
      refine ctlrNs_maxppio_zero pci qcount ?_
      have := Core.pageshift_of_provided hlo hhi hmem
      omega
    have hpos := hsplit.pos
    have hmax : (initNs (ctlrNs c pci qcount) nsid idns).maxbpio = 0 := by
      simp only [initNs, hzero, Nat.zero_shiftLeft, Nat.zero_mod]
    omega
  · rintro ⟨hps, hm⟩
    obtain ⟨hpage, hmax⟩ := ctlrNs_maxppio pci qcount hps hm
    obtain ⟨hbpio, hpos, hupper⟩ := initNs_maxbpio pci qcount nsid hlo hps hm h9 hle
    refine ⟨?_, ?_, hpos, ?_⟩
    · show (ctlrNs c pci qcount).maxppio = if c.mdts = 0 then (ctlrNs c pci qcount).pagesize / 8
        else min ((ctlrNs c pci qcount).pagesize / 8) (2 ^ c.mdts)
      rw [hpage, hmax]
    · rw [hbpio]
      show (ctlrNs c pci qcount).maxppio <<< (c.pageshift - idns.lbads) <<< idns.lbads =
        (ctlrNs c pci qcount).maxppio <<< c.pageshift
      have hle' : idns.lbads ≤ c.pageshift := hle
      rw [← Nat.shiftLeft_add, Nat.sub_add_cancel hle']
    · intro E hE prplist mem disk s σ hrun' qid opc buf slba nlb
      have hqsize : (initNs (ctlrNs c pci qcount) nsid idns).qsize = 256 := rfl
      obtain ⟨hinv, hsize, -⟩ := hrun'.boot (fun _ _ hl => hl) (by omega)
      have hmaxE : E.ns.maxbpio = (initNs (ctlrNs c pci qcount) nsid idns).maxbpio := by
        rw [hE]
        rfl
      have hq : (s.withSched σ).q.size ≤ 65537 := by
        show s.q.size ≤ 65537
        omega
      rw [← hmaxE] at hpos hupper ⊢
      exact unvmeDoRw_splits hpos (by omega) (hinv.withSched σ) hq qid opc buf slba nlb

/-- A namespace of 512-byte blocks on a controller with 4 KB pages and no limit of its own. -/
theorem splits_small :
    Splits (sampleHost.ctlr 0xb30000) ((sampleRun [(0xb30000, 1)] []).session 0).ns := by
  have h0 : Sessions sampleHost (fun _ => True) (sampleRun [] []) [] := Sessions.init
  have h1 := h0.openNext (0xb30000, 1) 0 (by decide) (fun _ => trivial) (by decide +kernel)
  refine (splits_iff h1 (List.mem_singleton.2 rfl) rfl ?_ ?_ ?_ ?_ ?_).2 ?_
  · decide
  · decide
  · exact ⟨2 ^ 20, by decide +kernel, by decide⟩
  · decide +kernel
  · decide +kernel
  · decide

/-- A controller that allows transfers of 2^31 pages. -/
def mdtsHost : Host where
  ctlr := fun _ => ⟨256, 12, 4, 31, 0, 0, true, fun _ => true, fun _ => some ⟨1000, 9⟩⟩
  log := true

/-- On it the limit on blocks per I/O is 0, and a read or write of one block never returns. -/
theorem splits_never_advances :
    returns (unvmeDoOpen mdtsHost 0xb30000 1 0 0) World.init (fun r _ => r = some 0) = true ∧
      ¬ Splits (mdtsHost.ctlr 0xb30000)
        ((final (unvmeDoOpen mdtsHost 0xb30000 1 0 0) World.init).session 0).ns ∧
      ∀ E : Core.Env,
        E.ns = ((final (unvmeDoOpen mdtsHost 0xb30000 1 0 0) World.init).session 0).ns.io →
        ∀ qid opc buf slba s d s', Core.unvmeDoRw E qid opc buf slba 1 s ≠ .ok d s' := by
  have hzero : ((final (unvmeDoOpen mdtsHost 0xb30000 1 0 0) World.init).session 0).ns.maxbpio =
      0 := by decide +kernel
  refine ⟨by decide +kernel, ?_, ?_⟩
  · intro hsplit
    have := hsplit.pos
    omega
  · intro E hE qid opc buf slba s d s' hr
    have hmax : E.ns.maxbpio = 0 := by rw [hE]; exact hzero
    unfold Core.unvmeDoRw Core.unvmeDoRwBy at hr
    obtain ⟨s₀, s₁, hget, hr⟩ := bind_eq_ok hr
    obtain ⟨u, s₂, hset, hr⟩ := bind_eq_ok hr
    obtain ⟨u', s₃, hloop, hr⟩ := bind_eq_ok hr
    have := Core.rwLoop_pos (by decide) hloop
    omega

end Unvme.Session
