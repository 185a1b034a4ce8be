import Unvme.Lib.Bytes
import Unvme.Nvme.Device

set_option autoImplicit false

/-! # Command builders (`unvme_nvme.c`)

A submission queue entry is a 64-byte slot of the ring. Every builder overlays its own struct on the
slot at the tail, zeroes `sizeof` that struct, assigns members and rings the doorbell; what the struct
does not reach keeps the bytes of the command that used the slot before. `Layout` is a builder's struct
size with the members it assigns, in order, and `Layout.build` what becomes of a slot.

`submitted_history_free_iff` says when the entry that is submitted depends on the ring's history. -/

namespace Unvme.Nvme

open Unvme.Lib

/-- One submission queue slot. -/
abbrev Slot := Block 64

/-- A member of a command struct: offset, width in bytes and the value assigned. -/
structure Field where
  off : ℕ
  len : ℕ
  val : ℕ
  deriving DecidableEq, Repr

/-- What a builder writes: `sizeof` of its struct, and the assignments. -/
structure Layout where
  size : ℕ
  fields : List Field

/-- The members are assigned one after the other. -/
def putFields (fs : List Field) (s : Slot) : Slot :=
  fs.foldl (fun s f => s.putField f.off f.len f.val) s

/-- `memset(cmd, 0, sizeof(*cmd))` and the assignments. -/
def Layout.build (b : Layout) (slot : Slot) : Slot := putFields b.fields (slot.clear b.size)

/-- The byte belongs to the member. -/
def covers (i : ℕ) (f : Field) : Bool := decide (f.off ≤ i ∧ i < f.off + f.len)

/-- The byte belongs to a member that is assigned. -/
def Layout.sets (b : Layout) (i : ℕ) : Bool := b.fields.any (covers i)

/-! ## Structs

`nvme_command_common_t` is 40 bytes: `opc` at 0, `cid` at 2, `nsid` at 4, `prp1` at 24, `prp2` at 32. -/

def opcField (opc : ℕ) : Field := ⟨0, 1, opc⟩

def cidField (cid : ℕ) : Field := ⟨2, 2, cid⟩

def nsidField (nsid : ℕ) : Field := ⟨4, 4, nsid⟩

def prp1Field (prp1 : ℕ) : Field := ⟨24, 8, prp1⟩

def prp2Field (prp2 : ℕ) : Field := ⟨32, 8, prp2⟩

/-- The header members that most builders assign. -/
def commonFields (opc cid nsid prp1 prp2 : ℕ) : List Field :=
  [opcField opc, cidField cid, nsidField nsid, prp1Field prp1, prp2Field prp2]

/-- `sizeof` of a struct that ends with dword 15. -/
def sizeofFull : ℕ := 64

/-- `sizeof(nvme_acmd_get_features_t)`: 44 bytes of members, and padding to the alignment of `u64`. -/
def sizeofGetFeatures : ℕ := 48

/-- `sizeof(nvme_acmd_set_features_t)`: it ends with dword 11. -/
def sizeofSetFeatures : ℕ := 48

/-! ## Builders -/

def nvmeAcmdIdentify (cid : ℕ) (nsid : BitVec 32) (prp1 prp2 : BitVec 64) : Layout :=
  ⟨sizeofFull, commonFields 0x6 cid nsid.toNat prp1.toNat prp2.toNat ++
    [⟨40, 4, if nsid = 0 then 1 else 0⟩]⟩

/-- `numd` is a bit field of 12 bits. -/
def nvmeAcmdGetLogPage (cid : ℕ) (nsid lid numd : BitVec 32) (prp1 prp2 : BitVec 64) : Layout :=
  ⟨sizeofFull, commonFields 0x2 cid nsid.toNat prp1.toNat prp2.toNat ++
    [⟨40, 1, lid.toNat⟩, ⟨42, 2, numd.toNat % 2 ^ 12⟩]⟩

def nvmeAcmdGetFeatures (cid : ℕ) (nsid fid : BitVec 32) (prp1 prp2 : BitVec 64) : Layout :=
  ⟨sizeofGetFeatures, commonFields 0xA cid nsid.toNat prp1.toNat prp2.toNat ++ [⟨40, 1, fid.toNat⟩]⟩

def nvmeAcmdSetFeatures (cid : ℕ) (nsid fid : BitVec 32) (prp1 prp2 : BitVec 64) (res : BitVec 32) :
    Layout :=
  ⟨sizeofSetFeatures, commonFields 0x9 cid nsid.toNat prp1.toNat prp2.toNat ++
    [⟨40, 1, fid.toNat⟩, ⟨44, 4, res.toNat⟩]⟩

/-- `pc` is bit 0 of the 16 bits at 44. -/
def nvmeAcmdCreateCq (cid : ℕ) (id size : BitVec 32) (prp : BitVec 64) : Layout :=
  ⟨sizeofFull, [opcField 0x5, cidField cid, prp1Field prp.toNat, ⟨44, 2, 1⟩, ⟨40, 2, id.toNat⟩,
    ⟨42, 2, (size - 1).toNat⟩]⟩

/-- `pc` is bit 0 and `qprio` bits 1 and 2 of the 16 bits at 44. -/
def nvmeAcmdCreateSq (cid : ℕ) (id size : BitVec 32) (prp : BitVec 64) : Layout :=
  ⟨sizeofFull, [opcField 0x1, cidField cid, prp1Field prp.toNat, ⟨44, 2, 1 + 2 * 2⟩, ⟨40, 2, id.toNat⟩,
    ⟨46, 2, id.toNat⟩, ⟨42, 2, (size - 1).toNat⟩]⟩

def nvmeAcmdDeleteIoq (cid : ℕ) (id opc : BitVec 32) : Layout :=
  ⟨sizeofFull, [opcField opc.toNat, cidField cid, ⟨40, 2, id.toNat⟩]⟩

/-- Command dwords 10 to 15. -/
def cdwFields (cdw10_15 : Vector (BitVec 32) 6) : List Field :=
  [⟨40, 4, (cdw10_15.get 0).toNat⟩, ⟨44, 4, (cdw10_15.get 1).toNat⟩, ⟨48, 4, (cdw10_15.get 2).toNat⟩,
    ⟨52, 4, (cdw10_15.get 3).toNat⟩, ⟨56, 4, (cdw10_15.get 4).toNat⟩, ⟨60, 4, (cdw10_15.get 5).toNat⟩]

/-- A null `cdw10_15` leaves zeros. -/
def nvmeCmdVsLayout (opc : BitVec 32) (cid : BitVec 16) (nsid : BitVec 32) (prp1 prp2 : BitVec 64)
    (cdw10_15 : Option (Vector (BitVec 32) 6)) : Layout :=
  ⟨sizeofFull, commonFields opc.toNat cid.toNat nsid.toNat prp1.toNat prp2.toNat ++
    (cdw10_15.map cdwFields).getD []⟩

def nvmeCmdRwLayout (opc : BitVec 32) (cid : BitVec 16) (nsid : BitVec 32) (slba : BitVec 64)
    (nlb : BitVec 32) (prp1 prp2 : BitVec 64) : Layout :=
  ⟨sizeofFull, commonFields opc.toNat cid.toNat nsid.toNat prp1.toNat prp2.toNat ++
    [⟨40, 8, slba.toNat⟩, ⟨48, 2, (nlb - 1).toNat⟩]⟩

/-- A call of a builder. -/
inductive Command where
  | identify (nsid : BitVec 32) (prp1 prp2 : BitVec 64)
  | getLogPage (nsid lid numd : BitVec 32) (prp1 prp2 : BitVec 64)
  | getFeatures (nsid fid : BitVec 32) (prp1 prp2 : BitVec 64)
  | setFeatures (nsid fid : BitVec 32) (prp1 prp2 : BitVec 64) (res : BitVec 32)
  | createCq (id size : BitVec 32) (prp : BitVec 64)
  | createSq (id size : BitVec 32) (prp : BitVec 64)
  | deleteIoq (id opc : BitVec 32)
  | vs (opc : BitVec 32) (cid : BitVec 16) (nsid : BitVec 32) (prp1 prp2 : BitVec 64)
      (cdw10_15 : Option (Vector (BitVec 32) 6))
  | rw (opc : BitVec 32) (cid : BitVec 16) (nsid : BitVec 32) (slba : BitVec 64) (nlb : BitVec 32)
      (prp1 prp2 : BitVec 64)

/-- The admin builders take the tail as the command id. -/
def Command.layout (sqTail : ℕ) : Command → Layout
  | .identify nsid prp1 prp2 => nvmeAcmdIdentify sqTail nsid prp1 prp2
  | .getLogPage nsid lid numd prp1 prp2 => nvmeAcmdGetLogPage sqTail nsid lid numd prp1 prp2
  | .getFeatures nsid fid prp1 prp2 => nvmeAcmdGetFeatures sqTail nsid fid prp1 prp2
  | .setFeatures nsid fid prp1 prp2 res => nvmeAcmdSetFeatures sqTail nsid fid prp1 prp2 res
  | .createCq id size prp => nvmeAcmdCreateCq sqTail id size prp
  | .createSq id size prp => nvmeAcmdCreateSq sqTail id size prp
  | .deleteIoq id opc => nvmeAcmdDeleteIoq sqTail id opc
  | .vs opc cid nsid prp1 prp2 cdw10_15 => nvmeCmdVsLayout opc cid nsid prp1 prp2 cdw10_15
  | .rw opc cid nsid slba nlb prp1 prp2 => nvmeCmdRwLayout opc cid nsid slba nlb prp1 prp2

/-- The two builders with the short structs. -/
def Command.features : Command → Bool
  | .getFeatures .. | .setFeatures .. => true
  | _ => false

/-- The submission half of a queue, byte by byte. -/
structure SqRing where
  size : ℕ
  sqTail : ℕ
  sq : ℕ → Slot

/-- A ring of zeros. -/
def SqRing.zeroed (size : ℕ) : SqRing := ⟨size, 0, fun _ _ => 0⟩

/-- Fill the slot at the tail and advance the tail (`nvme_submit_cmd`). -/
def Command.submit (c : Command) (r : SqRing) : SqRing :=
  { r with
    sq := Function.update r.sq r.sqTail ((c.layout r.sqTail).build (r.sq r.sqTail))
    sqTail := if r.sqTail + 1 = r.size then 0 else r.sqTail + 1 }

/-- The entry submitted: the slot at the tail when the doorbell is rung. -/
def Command.submitted (c : Command) (r : SqRing) : Slot := (c.submit r).sq r.sqTail

/-! ## Which bytes a builder decides -/

section

variable {b : Layout} {s s' : Slot} {i : Fin 64}

theorem putFields_of_not_covered {fs : List Field} (h : fs.any (covers i) = false) :
    putFields fs s i = s i := by
  induction fs generalizing s with
  | nil => rfl
  | cons f fs ih =>
      rw [List.any_cons, Bool.or_eq_false_iff] at h
      have hf : ¬ (f.off ≤ i.val ∧ i.val < f.off + f.len) := of_decide_eq_false h.1
      show putFields fs (s.putField f.off f.len f.val) i = s i
      rw [ih h.2, Block.putField, if_neg hf]

theorem putFields_of_covered {fs : List Field} (h : fs.any (covers i) = true) :
    putFields fs s i = putFields fs s' i := by
  induction fs generalizing s s' with
  | nil => cases h
  | cons f fs ih =>
      show putFields fs (s.putField f.off f.len f.val) i
        = putFields fs (s'.putField f.off f.len f.val) i
      cases hrest : fs.any (covers i) with
      | true => exact ih hrest
      | false =>
          -- `f` is the last member assigned at this byte
          rw [List.any_cons, hrest, Bool.or_false] at h
          have hf : f.off ≤ i.val ∧ i.val < f.off + f.len := of_decide_eq_true h
          rw [putFields_of_not_covered hrest, putFields_of_not_covered hrest, Block.putField,
            Block.putField, if_pos hf, if_pos hf]

/-- Beyond the struct the slot keeps its bytes, provided that the members lie in the struct. -/
theorem Layout.build_of_le (hb : ∀ f ∈ b.fields, f.off + f.len ≤ b.size) (hi : b.size ≤ i.val) :
    b.build s i = s i := by
  have hnot : b.fields.any (covers i) = false := by
    rw [List.any_eq_false]
    intro f hf hc
    have := of_decide_eq_true hc
    have := hb f hf
    omega
  show putFields b.fields (s.clear b.size) i = s i
  rw [putFields_of_not_covered hnot, Block.clear, if_neg (by omega)]

/-- Inside the struct a byte is assigned, or zero. -/
theorem Layout.build_of_lt (hi : i.val < b.size) :
    b.build s i = b.build s' i ∧ (b.sets i = true ∨ b.build s i = 0) := by
  show putFields b.fields (s.clear b.size) i = putFields b.fields (s'.clear b.size) i ∧
    (b.fields.any (covers i) = true ∨ putFields b.fields (s.clear b.size) i = 0)
  cases hc : b.fields.any (covers i) with
  | true => exact ⟨putFields_of_covered hc, Or.inl rfl⟩
  | false =>
      have hzero : ∀ s : Slot, putFields b.fields (s.clear b.size) i = 0 := by
        intro s
        rw [putFields_of_not_covered hc, Block.clear, if_pos hi]
      exact ⟨by rw [hzero, hzero], Or.inr (hzero s)⟩

theorem Layout.sets_lt (hb : ∀ f ∈ b.fields, f.off + f.len ≤ b.size) (h : b.sets i = true) :
    i.val < b.size := by
  obtain ⟨f, hf, hc⟩ := List.any_eq_true.1 h
  have := of_decide_eq_true hc
  have := hb f hf
  omega

/-- Two slots become the same entry exactly if they agree beyond the struct. -/
theorem Layout.build_eq_iff (hb : ∀ f ∈ b.fields, f.off + f.len ≤ b.size) :
    b.build s = b.build s' ↔ ∀ i : Fin 64, b.size ≤ i.val → s i = s' i := by
  constructor
  · intro h i hi
    rw [← Layout.build_of_le (s := s) hb hi, ← Layout.build_of_le (s := s') hb hi, h]
  · intro h
    funext i
    by_cases hi : i.val < b.size
    · exact (Layout.build_of_lt hi).1
    · rw [Layout.build_of_le hb (by omega), Layout.build_of_le hb (by omega)]
      exact h i (by omega)

/-- An entry is made of assigned bytes and zeros exactly if the slot is zero beyond the struct. -/
theorem Layout.build_zero_iff (hb : ∀ f ∈ b.fields, f.off + f.len ≤ b.size) :
    (∀ i : Fin 64, b.sets i = true ∨ b.build s i = 0) ↔ ∀ i : Fin 64, b.size ≤ i.val → s i = 0 := by
  constructor
  · intro h i hi
    rcases h i with hset | hzero
    · have := Layout.sets_lt hb hset
      omega
    · rw [← Layout.build_of_le (s := s) hb hi, hzero]
  · intro h i
    by_cases hi : i.val < b.size
    · have hlow : b.build s i = b.build s i ∧ (b.sets i = true ∨ b.build s i = 0) :=
        Layout.build_of_lt hi
      exact hlow.2
    · rw [Layout.build_of_le hb (by omega)]
      exact Or.inr (h i (by omega))

end

/-! ## The builders -/

/-- The members of every struct lie in it. -/
theorem Command.layout_fields_le (c : Command) (sqTail : ℕ) :
    ∀ f ∈ (c.layout sqTail).fields, f.off + f.len ≤ (c.layout sqTail).size := by
  -- offsets and widths are literals, whatever the values assigned
  have hall : (c.layout sqTail).fields.all
      (fun f => decide (f.off + f.len ≤ (c.layout sqTail).size)) = true := by
    cases c with
    | vs opc cid nsid prp1 prp2 cdw10_15 => cases cdw10_15 <;> rfl
    | _ => rfl
  intro f hf
  exact of_decide_eq_true (List.all_eq_true.1 hall f hf)

/-- Only the feature structs are shorter than a slot. -/
theorem Command.layout_size (c : Command) (sqTail : ℕ) :
    (c.layout sqTail).size = if c.features then 48 else 64 := by
  cases c <;> rfl

/-- **A submitted command depends on the ring's history exactly through the last 16 bytes of a feature
    command.** Two rings with the same tail give the same entry, and an entry is made of assigned bytes
    and zeros, exactly if the builder is not one of the two or the slots agree there. -/
theorem submitted_history_free_iff (c : Command) (r r' : SqRing) (h : r.sqTail = r'.sqTail) :
    (c.submitted r = c.submitted r' ↔
      c.features = false ∨
        ∀ i : Fin 64, 48 ≤ i.val → r.sq r.sqTail i = r'.sq r'.sqTail i) ∧
    ((∀ i : Fin 64, (c.layout r.sqTail).sets i = true ∨ c.submitted r i = 0) ↔
      c.features = false ∨ ∀ i : Fin 64, 48 ≤ i.val → r.sq r.sqTail i = 0) := by
  have hsub : ∀ r : SqRing, c.submitted r = (c.layout r.sqTail).build (r.sq r.sqTail) := by
    intro r
    exact Function.update_self ..
  have hfields := c.layout_fields_le r.sqTail
  have hsize := c.layout_size r.sqTail
  rw [hsub, hsub, ← h, Layout.build_eq_iff hfields, Layout.build_zero_iff hfields, hsize]
  cases c.features with
  | true => simp
  | false =>
      constructor
      · exact ⟨fun _ => Or.inl rfl, fun _ i hi => absurd i.isLt (Nat.not_lt.2 hi)⟩
      · exact ⟨fun _ => Or.inl rfl, fun _ i hi => absurd i.isLt (Nat.not_lt.2 hi)⟩

/-! ## What the controller reads -/

/-- An entry from its header fields and dwords 10 to 15. -/
def sqEntry (opc cid nsid prp1 prp2 d10 d11 d12 d13 d14 d15 : ℕ) : SqEntry :=
  ⟨opc, cid, nsid, prp1, prp2, #v[d10, d11, d12, d13, d14, d15]⟩

/-- The entry in a slot, by the offsets of the common header and of dwords 10 to 15. -/
def slotEntry (s : Slot) : SqEntry :=
  sqEntry (s.getField 0 1) (s.getField 2 2) (s.getField 4 4) (s.getField 24 8) (s.getField 32 8)
    (s.getField 40 4) (s.getField 44 4) (s.getField 48 4) (s.getField 52 4) (s.getField 56 4)
    (s.getField 60 4)

theorem putFields_nil (s : Slot) : putFields [] s = s := rfl

theorem putFields_cons (f : Field) (fs : List Field) (s : Slot) :
    putFields (f :: fs) s = putFields fs (s.putField f.off f.len f.val) := rfl

/-- A value that has the width of its member is stored as it is. -/
theorem mod_width {w : ℕ} (x : BitVec w) (len : ℕ) (h : w = 8 * len) :
    x.toNat % 256 ^ len = x.toNat := by
  subst h
  have hlt := x.isLt
  rw [Nat.pow_mul] at hlt
  exact Nat.mod_eq_of_lt hlt

/-- The entry of a read or write command, whatever was in the slot. -/
theorem slotEntry_rw (opc : BitVec 32) (cid : BitVec 16) (nsid : BitVec 32) (slba : BitVec 64)
    (nlb : BitVec 32) (prp1 prp2 : BitVec 64) (s : Slot) :
    slotEntry ((nvmeCmdRwLayout opc cid nsid slba nlb prp1 prp2).build s)
      = sqEntry (opc.toNat % 2 ^ 8) cid.toNat nsid.toNat prp1.toNat prp2.toNat
          (slba.toNat % 2 ^ 32) (slba.toNat / 2 ^ 32) ((nlb - 1).toNat % 2 ^ 16) 0 0 0 := by
  -- dwords 10 and 11 are the halves of one member, dword 12 has a member in its low half
  have hsplit : ∀ t : Slot, t.getField 48 4 = t.getField 48 2 + 256 ^ 2 * t.getField 50 2 :=
    fun t => t.getField_add 2 2
  have hlow : ∀ t : Slot, (t.putField 40 8 slba.toNat).getField 40 4
      = slba.toNat / 256 ^ 0 % 256 ^ 4 :=
    fun t => Block.getField_putField_sub (k := 0) (by decide) (by decide)
  have hhigh : ∀ t : Slot, (t.putField 40 8 slba.toNat).getField 44 4
      = slba.toNat / 256 ^ 4 % 256 ^ 4 :=
    fun t => Block.getField_putField_sub (k := 4) (by decide) (by decide)
  have hslba : slba.toNat / 256 ^ 4 % 256 ^ 4 = slba.toNat / 2 ^ 32 := by
    have := slba.isLt
    omega
  simp only [slotEntry, Layout.build, nvmeCmdRwLayout, sizeofFull, commonFields, opcField, cidField,
    nsidField, prp1Field, prp2Field, List.cons_append, List.nil_append, putFields_cons, putFields_nil,
    hsplit]
  simp (disch := decide) only [Block.getField_putField_of_disjoint, Block.getField_putField,
    Block.getField_clear, hlow, hhigh]
  rw [mod_width cid 2 rfl, mod_width nsid 4 rfl, mod_width prp1 8 rfl, mod_width prp2 8 rfl, hslba,
    Nat.pow_zero, Nat.div_one, Nat.mul_zero, Nat.add_zero]
  rfl

/-- The entry of a generic command, whatever was in the slot. -/
theorem slotEntry_vs (opc : BitVec 32) (cid : BitVec 16) (nsid : BitVec 32) (prp1 prp2 : BitVec 64)
    (cdw10_15 : Option (Vector (BitVec 32) 6)) (s : Slot) :
    let cdw := fun k => (cdw10_15.map (fun v => (v.get k).toNat)).getD 0
    slotEntry ((nvmeCmdVsLayout opc cid nsid prp1 prp2 cdw10_15).build s)
      = sqEntry (opc.toNat % 2 ^ 8) cid.toNat nsid.toNat prp1.toNat prp2.toNat
          (cdw 0) (cdw 1) (cdw 2) (cdw 3) (cdw 4) (cdw 5) := by
  cases cdw10_15 with
  | none =>
      simp only [slotEntry, Layout.build, nvmeCmdVsLayout, sizeofFull, commonFields, opcField, cidField,
        nsidField, prp1Field, prp2Field, List.cons_append, List.nil_append, putFields_cons,
        putFields_nil, Option.map_none, Option.getD_none]
      simp (disch := decide) only [Block.getField_putField_of_disjoint, Block.getField_putField,
        Block.getField_clear]
      rw [mod_width cid 2 rfl, mod_width nsid 4 rfl, mod_width prp1 8 rfl, mod_width prp2 8 rfl]
      rfl
  | some cdw =>
      simp only [slotEntry, Layout.build, nvmeCmdVsLayout, cdwFields, sizeofFull, commonFields, opcField,
        cidField, nsidField, prp1Field, prp2Field, List.cons_append, List.nil_append, putFields_cons,
        putFields_nil, Option.map_some, Option.getD_some]
      simp (disch := decide) only [Block.getField_putField_of_disjoint, Block.getField_putField]
      rw [mod_width cid 2 rfl, mod_width nsid 4 rfl, mod_width prp1 8 rfl, mod_width prp2 8 rfl,
        mod_width (cdw.get 0) 4 rfl, mod_width (cdw.get 1) 4 rfl, mod_width (cdw.get 2) 4 rfl,
        mod_width (cdw.get 3) 4 rfl, mod_width (cdw.get 4) 4 rfl, mod_width (cdw.get 5) 4 rfl]
      rfl

/-- The bytes of an entry. -/
def entrySlot (e : SqEntry) : Slot :=
  putFields (commonFields e.opc e.cid e.nsid e.prp1 e.prp2 ++
    [⟨40, 4, e.cdw10_15.get 0⟩, ⟨44, 4, e.cdw10_15.get 1⟩, ⟨48, 4, e.cdw10_15.get 2⟩,
      ⟨52, 4, e.cdw10_15.get 3⟩, ⟨56, 4, e.cdw10_15.get 4⟩, ⟨60, 4, e.cdw10_15.get 5⟩]) (fun _ => 0)

/-- The entry that a builder leaves in a slot with the entry `old`. -/
@[irreducible] def Command.entry (c : Command) (cid : ℕ) (old : SqEntry) : SqEntry :=
  slotEntry ((c.layout cid).build (entrySlot old))

/-- The commands with the tail as their id, whose builders wait for the completion. -/
def Command.sync : Command → Bool
  | .vs .. | .rw .. => false
  | _ => true

/-- The id is stored in 16 bits. -/
theorem Command.entry_cid {c : Command} (h : c.sync = true) (cid : ℕ) (old : SqEntry) :
    (c.entry cid old).cid = cid % 2 ^ 16 := by
  unfold Command.entry
  generalize entrySlot old = slot
  show ((c.layout cid).build slot).getField 2 2 = cid % 256 ^ 2
  cases c with
  | vs | rw => cases h
  | identify | getLogPage | getFeatures | setFeatures | createCq | createSq | deleteIoq =>
      simp only [Command.layout, nvmeAcmdIdentify, nvmeAcmdGetLogPage, nvmeAcmdGetFeatures,
        nvmeAcmdSetFeatures, nvmeAcmdCreateCq, nvmeAcmdCreateSq, nvmeAcmdDeleteIoq, Layout.build,
        commonFields, opcField, cidField, nsidField, prp1Field, prp2Field, List.cons_append,
        List.nil_append, putFields_cons, putFields_nil]
      simp (disch := decide) only [Block.getField_putField_of_disjoint, Block.getField_putField]

/-- A ring of 64 slots after a full lap that began with a generic command. -/
def lapRing : SqRing :=
  (List.replicate 63 (Command.identify 1 0 0)).foldl (fun r c => c.submit r)
    ((Command.vs 0xC1 0 1 0 0 (some #v[0, 0, 7, 0, 0, 0])).submit (SqRing.zeroed 64))

/-- After a lap, reading the number of queues sends dword 12 of the generic command again, while an
    identify command does not. -/
theorem submitted_history_free_lap :
    lapRing.sqTail = (SqRing.zeroed 64).sqTail ∧
      (Command.identify 0 0 0).submitted lapRing
        = (Command.identify 0 0 0).submitted (SqRing.zeroed 64) ∧
      (Command.getFeatures 0 7 0 0).submitted lapRing
        ≠ (Command.getFeatures 0 7 0 0).submitted (SqRing.zeroed 64) := by
  have htail : lapRing.sqTail = (SqRing.zeroed 64).sqTail := by decide +kernel
  refine ⟨htail, (submitted_history_free_iff _ _ _ htail).1.2 (Or.inl rfl), ?_⟩
  intro heq
  rcases (submitted_history_free_iff _ _ _ htail).1.1 heq with hf | hslot
  · cases hf
  · exact absurd (hslot 48 (by decide)) (by decide +kernel)

/-- Two rings with the same tail for which the same command is submitted differently. -/
theorem get_features_depends_on_history :
    ¬ ∀ (c : Command) (r r' : SqRing), r.sqTail = r'.sqTail → c.submitted r = c.submitted r' := by
  intro h
  have heq := congrFun (h (.getFeatures 0 7 0 0) lapRing (SqRing.zeroed 64) (by decide +kernel)) 48
  exact absurd heq (by decide +kernel)

end Unvme.Nvme
