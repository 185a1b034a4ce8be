import Unvme.Session.Lifetime

set_option autoImplicit false

/-! # Device names

`unvme_do_open` writes the PCI part of `ns->device` in hexadecimal and `unvme_ns_init` appends the
namespace id in decimal; `unvme_openq` reads all four numbers as hexadecimal. What the reader makes of a
written name is computed here for every name, and with it when a name reads back as the session it
belongs to. -/

namespace Unvme.Session

open Unvme.Lib

/-! ## Hexadecimal digits -/

theorem hexDigit_digitChar {n : ℕ} (h : n < 16) : hexDigit n.digitChar = some n := by
  have hall : ∀ i : Fin 16, hexDigit (i : ℕ).digitChar = some (i : ℕ) := by decide
  exact hall ⟨n, h⟩

/-- What may follow a number: nothing, or a character that does not go on with it. -/
def Ends (rest : List Char) : Prop :=
  ∀ c ∈ rest.head?, hexDigit c = none ∧ c ≠ 'x' ∧ c ≠ 'X'

/-- Only hexadecimal digits. -/
def IsHex (cs : List Char) : Prop := ∀ c ∈ cs, (hexDigit c).isSome

theorem scanDigits_append (cs rest : List Char) (hcs : IsHex cs) (acc : ℕ) :
    scanDigits acc (cs ++ rest) = scanDigits (scanDigits acc cs).1 rest := by
  induction cs generalizing acc with
  | nil => rfl
  | cons c cs ih =>
      obtain ⟨v, hv⟩ := Option.isSome_iff_exists.1 (hcs c List.mem_cons_self)
      simp only [List.cons_append, scanDigits, hv]
      exact ih (fun x hx => hcs x (List.mem_cons_of_mem _ hx)) _

theorem scanDigits_ends {rest : List Char} (h : Ends rest) (acc : ℕ) :
    scanDigits acc rest = (acc, rest) := by
  cases rest with
  | nil => rfl
  | cons c rest => simp only [scanDigits, (h c rfl).1]

/-- The number that the digits of `n` in base `b` are read as in base 16. -/
def readHex (b n : ℕ) : ℕ := (scanDigits 0 (Nat.toDigits b n)).1

theorem isHex_toDigits {b : ℕ} (hb : 1 < b) (hb16 : b ≤ 16) (n : ℕ) : IsHex (Nat.toDigits b n) := by
  induction n using Nat.strong_induction_on with
  | _ n ih =>
      rw [Nat.toDigits_eq_if hb]
      split
      · intro c hc
        rw [List.mem_singleton.1 hc, hexDigit_digitChar (by omega)]
        rfl
      · intro c hc
        rcases List.mem_append.1 hc with hc | hc
        · exact ih (n / b) (Nat.div_lt_self (by omega) hb) c hc
        · have hlt : n % b < 16 := (Nat.mod_lt n (by omega)).trans_le hb16
          rw [List.mem_singleton.1 hc, hexDigit_digitChar hlt]
          rfl

theorem readHex_of_lt {b n : ℕ} (hn : n < b) (hb16 : b ≤ 16) : readHex b n = n := by
  rw [readHex, Nat.toDigits_of_lt_base hn]
  simp [scanDigits, hexDigit_digitChar (hn.trans_le hb16)]

theorem readHex_of_le {b n : ℕ} (hb : 1 < b) (hb16 : b ≤ 16) (hn : b ≤ n) :
    readHex b n = 16 * readHex b (n / b) + n % b := by
  have hlt : n % b < 16 := (Nat.mod_lt n (by omega)).trans_le hb16
  rw [readHex, Nat.toDigits_of_base_le hb hn, scanDigits_append _ _ (isHex_toDigits hb hb16 _)]
  simp [scanDigits, hexDigit_digitChar hlt, readHex]

/-- Hexadecimal digits are read as the number they were written for. -/
theorem readHex_hex (n : ℕ) : readHex 16 n = n := by
  induction n using Nat.strong_induction_on with
  | _ n ih =>
      by_cases hn : n < 16
      · exact readHex_of_lt hn le_rfl
      · rw [readHex_of_le (by omega) le_rfl (by omega), ih (n / 16) (by omega)]
        omega

/-- Decimal digits are read as a larger number, from two digits on. -/
theorem readHex_decimal (n : ℕ) : n ≤ readHex 10 n ∧ (10 ≤ n → n < readHex 10 n) := by
  induction n using Nat.strong_induction_on with
  | _ n ih =>
      by_cases hn : n < 10
      · rw [readHex_of_lt hn (by omega)]
        omega
      · rw [readHex_of_le (by omega) (by omega) (by omega)]
        have := (ih (n / 10) (by omega)).1
        omega

/-- `k` decimal digits are read as a number of at most `k` hexadecimal digits. -/
theorem readHex_decimal_lt {n k : ℕ} (h : n < 10 ^ k) : readHex 10 n < 16 ^ k := by
  induction k generalizing n with
  | zero =>
      obtain rfl : n = 0 := by simpa using h
      rw [readHex_of_lt (by omega) (by omega)]
      decide
  | succ k ih =>
      by_cases hn : n < 10
      · rw [readHex_of_lt hn (by omega)]
        have : 0 < 16 ^ k := Nat.pow_pos (by omega)
        rw [pow_succ]
        omega
      · rw [readHex_of_le (by omega) (by omega) (by omega)]
        have hdiv : n / 10 < 10 ^ k := by rw [pow_succ] at h; omega
        have := ih hdiv
        rw [pow_succ]
        omega

/-! ## Reading a number -/

theorem hexDigit_isSome_le {c : Char} (h : (hexDigit c).isSome) : 48 ≤ c.val.toNat := by
  unfold hexDigit at h
  simp only [Char.le_def, UInt32.le_iff_toNat_le] at h
  split at h
  · next hc => exact hc.1
  split at h
  · next hc => exact le_trans (by decide) hc.1
  split at h
  · next hc => exact le_trans (by decide) hc.1
  · cases h

theorem not_isSpace_of_hex {c : Char} (h : (hexDigit c).isSome) : isSpace c = false := by
  have hlo := hexDigit_isSome_le h
  have hblank : c ≠ ' ' := by
    rintro rfl
    cases h
  have hcontrol : ¬ c ≤ '\r' := by
    rw [Char.le_def, UInt32.le_iff_toNat_le]
    have hr : ('\r').val.toNat = 13 := rfl
    omega
  simp [isSpace, hblank, hcontrol]

theorem scanSign_of_hex {c : Char} (h : (hexDigit c).isSome) (cs : List Char) :
    scanSign (c :: cs) = (false, c :: cs) := by
  have hminus : c ≠ '-' := by
    rintro rfl
    cases h
  have hplus : c ≠ '+' := by
    rintro rfl
    cases h
  unfold scanSign
  split
  · next heq => exact absurd (List.cons.inj heq).1 hminus
  · next heq => exact absurd (List.cons.inj heq).1 hplus
  · rfl

theorem scanBase_of_hex {c : Char} {cs rest : List Char} (hcs : IsHex cs) (hrest : Ends rest) :
    scanBase (c :: (cs ++ rest)) = c :: (cs ++ rest) := by
  have hx : ∀ x ∈ (cs ++ rest).head?, x ≠ 'x' ∧ x ≠ 'X' := by
    intro x hx
    cases cs with
    | nil => exact (hrest x hx).2
    | cons d cs =>
        obtain rfl : d = x := Option.some.inj hx
        have hd := hcs d List.mem_cons_self
        constructor
        · rintro rfl
          cases hd
        · rintro rfl
          cases hd
  unfold scanBase
  split
  · next heq => exact absurd rfl (hx 'x' (by rw [(List.cons.inj heq).2]; rfl)).1
  · next heq => exact absurd rfl (hx 'X' (by rw [(List.cons.inj heq).2]; rfl)).2
  · rfl

/-- The digits of a number are read to their end, after its sign. -/
theorem scanHex_signed (pre : List Char) {cs : List Char} (rest : List Char) (neg : Bool)
    (hcs : IsHex cs) (hne : cs ≠ []) (hrest : Ends rest)
    (hsign : scanSign ((pre ++ (cs ++ rest)).dropWhile isSpace) = (neg, cs ++ rest)) :
    scanHex (pre ++ (cs ++ rest)) = some (wrap32 (strtoul neg (scanDigits 0 cs).1), rest) := by
  obtain ⟨c, cs, rfl⟩ := List.exists_cons_of_ne_nil hne
  obtain ⟨v, hv⟩ := Option.isSome_iff_exists.1 (hcs c List.mem_cons_self)
  have hcs' : IsHex cs := fun x hx => hcs x (List.mem_cons_of_mem _ hx)
  unfold scanHex
  rw [hsign]
  simp only [List.cons_append, scanBase_of_hex hcs' hrest, hv, scanDigits_append cs rest hcs',
    scanDigits_ends hrest, scanDigits, Nat.mul_zero, Nat.zero_add]

theorem scanHex_digits {cs rest : List Char} (hcs : IsHex cs) (hne : cs ≠ []) (hrest : Ends rest) :
    scanHex (cs ++ rest) = some (wrap32 (strtoul false (scanDigits 0 cs).1), rest) := by
  refine scanHex_signed [] rest false hcs hne hrest ?_
  obtain ⟨c, cs, rfl⟩ := List.exists_cons_of_ne_nil hne
  have hc := hcs c List.mem_cons_self
  simp only [List.nil_append, List.cons_append, List.dropWhile_cons, not_isSpace_of_hex hc]
  exact scanSign_of_hex hc _

theorem scanHex_minus {cs : List Char} (hcs : IsHex cs) (hne : cs ≠ []) :
    scanHex ('-' :: cs) = some (wrap32 (strtoul true (scanDigits 0 cs).1), []) := by
  have h := scanHex_signed ['-'] [] true hcs hne nofun rfl
  simpa using h

/-! ## Written numbers -/

theorem hexPad_toList (n x : ℕ) : (hexPad n x).toList =
    List.replicate (n - (Nat.toDigits 16 x).length) '0' ++ Nat.toDigits 16 x := by
  simp [hexPad]

theorem isHex_zeros (n : ℕ) : IsHex (List.replicate n '0') := by
  intro c hc
  rw [(List.mem_replicate.1 hc).2]
  rfl

theorem scanDigits_zeros (n : ℕ) : (scanDigits 0 (List.replicate n '0')).1 = 0 := by
  induction n with
  | zero => rfl
  | succ n ih => exact ih

theorem isHex_hexPad (n x : ℕ) : IsHex (hexPad n x).toList := by
  rw [hexPad_toList]
  intro c hc
  rcases List.mem_append.1 hc with hc | hc
  · exact isHex_zeros _ c hc
  · exact isHex_toDigits (by omega) le_rfl x c hc

theorem hexPad_ne_nil (n x : ℕ) : (hexPad n x).toList ≠ [] := by
  rw [hexPad_toList]
  simp

/-- Padding does not change the number. -/
theorem scanDigits_hexPad (n x : ℕ) : (scanDigits 0 (hexPad n x).toList).1 = x := by
  rw [hexPad_toList, scanDigits_append _ _ (isHex_zeros _), scanDigits_zeros]
  exact readHex_hex x

/-- `%02x` of a byte has two characters. -/
theorem hexPad_two_length {x : ℕ} (hx : x ≤ 0xff) : (hexPad 2 x).toList.length = 2 := by
  have hlen : (Nat.toDigits 16 x).length ≤ 2 :=
    (Nat.length_toDigits_le_iff (by omega) (by omega)).2 (by omega)
  rw [hexPad_toList, List.length_append, List.length_replicate]
  omega

/-- `%x` of a byte has one or two characters. -/
theorem hexPad_one_length {x : ℕ} (hx : x ≤ 0xff) :
    1 ≤ (hexPad 1 x).toList.length ∧ (hexPad 1 x).toList.length ≤ 2 := by
  have hlen : (Nat.toDigits 16 x).length ≤ 2 :=
    (Nat.length_toDigits_le_iff (by omega) (by omega)).2 (by omega)
  have hpos : 0 < (Nat.toDigits 16 x).length := Nat.length_toDigits_pos
  rw [hexPad_toList, List.length_append, List.length_replicate]
  omega

/-- A namespace id in decimal. -/
theorem toString_nsid (nsid : ℤ) : (toString nsid).toList =
    (if nsid < 0 then ['-'] else []) ++ Nat.toDigits 10 nsid.natAbs := by
  rw [Int.toString_eq_repr, Int.repr_eq_if]
  split
  · next h =>
      have habs : nsid.natAbs = nsid.toNat := by omega
      simp [habs, not_lt.2 h]
  · next h =>
      have habs : nsid.natAbs = (-nsid).toNat := by omega
      simp [habs, not_le.1 h]

/-- What `/%x` makes of it. -/
theorem scanNsid_written (nsid : ℤ) : scanNsid ('/' :: (toString nsid).toList) =
    some (wrap32 (strtoul (decide (nsid < 0)) (readHex 10 nsid.natAbs))) := by
  have hhex := isHex_toDigits (b := 10) (by omega) (by omega) nsid.natAbs
  have hne : Nat.toDigits 10 nsid.natAbs ≠ [] := Nat.toDigits_ne_nil
  rw [toString_nsid]
  by_cases hneg : nsid < 0
  · simp [scanNsid, scanChar, hneg, scanHex_minus hhex hne, readHex]
  · have hends : Ends [] := by
      intro c hc
      cases hc
    have hplain := scanHex_digits hhex hne hends
    rw [List.append_nil] at hplain
    simp [scanNsid, scanChar, hneg, hplain, readHex]

/-! ## Names -/

/-- The name of namespace `nsid` of the device at bus `b`, device `d` and function `f`. -/
def deviceName (b d f : ℕ) (nsid : ℤ) : String :=
  hexPad 2 b ++ ":" ++ hexPad 2 d ++ "." ++ hexPad 1 f ++ "/" ++ toString nsid

/-- The PCI id of bus `b`, device `d` and function `f`. -/
def pciOf (b d f : ℕ) : ℤ := b * 2 ^ 16 + d * 2 ^ 8 + f

theorem deviceName_toList (b d f : ℕ) (nsid : ℤ) : (deviceName b d f nsid).toList =
    (hexPad 2 b).toList ++ ':' :: ((hexPad 2 d).toList ++ '.' :: ((hexPad 1 f).toList ++
      '/' :: (toString nsid).toList)) := by
  simp [deviceName]

theorem strtoul_byte {x : ℕ} (hx : x ≤ 0xff) : wrap32 (strtoul false x) = x := by
  have hv : strtoul false x = x := by
    unfold strtoul
    rw [if_neg (by omega)]
    rfl
  rw [hv]
  exact wrap32_of_isInt (by unfold IsInt; omega)

/-- What `unvme_openq` makes of a name. -/
theorem parsePciName_deviceName {b d f : ℕ} (hb : b ≤ 0xff) (hd : d ≤ 0xff) (hf : f ≤ 0xff)
    (nsid : ℤ) : parsePciName (deviceName b d f nsid) =
      some (pciOf b d f, wrap32 (strtoul (decide (nsid < 0)) (readHex 10 nsid.natAbs))) := by
  have hcolon : ∀ rest, Ends (':' :: rest) := by
    rintro rest c ⟨⟩
    decide
  have hdot : ∀ rest, Ends ('.' :: rest) := by
    rintro rest c ⟨⟩
    decide
  have hslash : ∀ rest, Ends ('/' :: rest) := by
    rintro rest c ⟨⟩
    decide
  have hread : ∀ {n x : ℕ} {rest : List Char}, x ≤ 0xff → Ends rest →
      scanHex ((hexPad n x).toList ++ rest) = some ((x : ℤ), rest) := by
    intro n x rest hx hrest
    rw [scanHex_digits (isHex_hexPad n x) (hexPad_ne_nil n x) hrest, scanDigits_hexPad,
      strtoul_byte hx]
  have hpci : wrap32 ((b : ℤ) * 2 ^ 16 + d * 2 ^ 8 + f) = pciOf b d f :=
    wrap32_of_isInt (by unfold IsInt; omega)
  simp only [parsePciName, scanBdf, deviceName_toList, hread hb (hcolon _), hread hd (hdot _),
    hread hf (hslash _), scanChar, if_true, Option.bind_eq_bind, Option.bind_some, Option.pure_def,
    scanNsid_written, Option.getD_some, hpci]

theorem strtoul_small {v : ℕ} (neg : Bool) (hv : v < 2 ^ 31) :
    wrap32 (strtoul neg v) = if neg then -(v : ℤ) else v := by
  have hval : strtoul neg v = if neg then -(v : ℤ) else v := by
    unfold strtoul
    rw [if_neg (by omega)]
  rw [hval]
  refine wrap32_of_isInt ?_
  unfold IsInt
  split <;> omega

/-- A name fits into its 16 bytes and reads back as its device and namespace. -/
def RoundTrips (name : String) (pci nsid : ℤ) : Prop :=
  name.length + 1 ≤ 16 ∧ parsePciName name = some (pci, nsid)

/-- **A name round-trips exactly if its namespace id has one digit.** -/
theorem deviceName_roundTrips_iff {b d f : ℕ} (hb : b ≤ 0xff) (hd : d ≤ 0xff) (hf : f ≤ 0xff)
    (nsid : ℤ) : RoundTrips (deviceName b d f nsid) (pciOf b d f) nsid ↔ -9 ≤ nsid ∧ nsid ≤ 9 := by
  have hlen : (deviceName b d f nsid).length =
      7 + (hexPad 1 f).toList.length + (toString nsid).toList.length := by
    rw [← String.length_toList, deviceName_toList]
    simp only [List.length_append, List.length_cons, hexPad_two_length hb, hexPad_two_length hd]
    omega
  have hfl := hexPad_one_length hf
  unfold RoundTrips
  rw [hlen, parsePciName_deviceName hb hd hf, toString_nsid, List.length_append]
  have hsign : (if nsid < 0 then ['-'] else []).length ≤ 1 := by split <;> simp
  constructor
  · rintro ⟨hfits, hparse⟩
    have hdigits : nsid.natAbs < 10 ^ 7 :=
      (Nat.length_toDigits_le_iff (by omega) (by omega)).1 (by omega)
    have hread := readHex_decimal_lt hdigits
    rw [strtoul_small _ (by omega)] at hparse
    have hnsid := (Prod.mk.inj (Option.some.inj hparse)).2
    have hlarger := (readHex_decimal nsid.natAbs).2
    by_cases hneg : nsid < 0
    · simp only [hneg, decide_true, if_true] at hnsid
      omega
    · simp only [hneg, decide_false, Bool.false_eq_true, if_false] at hnsid
      omega
  · intro hsmall
    have hdigit : (Nat.toDigits 10 nsid.natAbs).length ≤ 1 :=
      (Nat.length_toDigits_le_iff (by omega) (by omega)).2 (by omega)
    refine ⟨by omega, ?_⟩
    rw [readHex_of_lt (by omega) (by omega), strtoul_small _ (by omega)]
    by_cases hneg : nsid < 0
    · simp only [hneg, decide_true, if_true, Option.some.injEq, Prod.mk.injEq, true_and]
      omega
    · simp only [hneg, decide_false, Bool.false_eq_true, if_false, Option.some.injEq,
        Prod.mk.injEq, true_and]
      omega

/-- The name of a session that was just opened. -/
theorem World.Life.device_name {H : Host} {w w' : World} {ses : List ℕ} (h : w.Life H ses)
    {b d f : ℕ} (hb : b ≤ 0xff) (hd : d ≤ 0xff) (hf : f ≤ 0xff) {nsid qcount qsize : ℤ} {x : ℕ}
    (hr : unvmeDoOpen H (pciOf b d f) nsid qcount qsize w = .ok (some x) w') :
    (w'.session x).ns.device = deviceName b d f nsid := by
  obtain ⟨dev, idns, ho⟩ := unvmeDoOpen_ok h.wf hr
  have hint : IsInt (pciOf b d f) := by
    unfold IsInt pciOf
    omega
  have ht := h.takes hint ho.devices
  obtain ⟨qc, hns⟩ := ht.ctlr
  rw [ho.session, Function.update_self, initNs, hns, ht.id]
  have h1 : toU32 (pciOf b d f / 2 ^ 16) = b := by
    unfold toU32 pciOf
    omega
  have h2 : (pciOf b d f / 2 ^ 8 % 256).toNat = d := by
    unfold pciOf
    omega
  have h3 : (pciOf b d f % 256).toNat = f := by
    unfold pciOf
    omega
  simp only [ctlrNs, h1, h2, h3, deviceName]

/-- **Device names round-trip exactly for namespace ids of one digit**: whenever an open succeeds, after
    any successful opens and closes, the name of the new session fits its 16 bytes and is read back by
    `unvme_openq` as the same PCI id and namespace id if and only if the namespace id is from -9 to
    9. -/
theorem device_name_roundtrip_iff {H : Host} {L : List ℕ → Prop} {w w' : World} {ses : List ℕ}
    (hrun : Sessions H L w ses) {b d f : ℕ} (hb : b ≤ 0xff) (hd : d ≤ 0xff) (hf : f ≤ 0xff)
    {nsid qcount qsize : ℤ} {x : ℕ}
    (hr : unvmeDoOpen H (pciOf b d f) nsid qcount qsize w = .ok (some x) w') :
    RoundTrips (w'.session x).ns.device (pciOf b d f) nsid ↔ -9 ≤ nsid ∧ nsid ≤ 9 := by
  rw [hrun.life.device_name hb hd hf hr]
  exact deviceName_roundTrips_iff hb hd hf nsid

/-- Namespace 2 of `b3:00.0`. -/
theorem device_name_roundtrip_two :
    RoundTrips ((sampleRun [(0xb30000, 2)] []).session 0).ns.device 0xb30000 2 := by
  have hr : unvmeDoOpen sampleHost (pciOf 0xb3 0 0) 2 0 0 World.init =
      .ok (some 0) (sampleRun [(0xb30000, 2)] []) := eq_ok_of_returns (by decide +kernel)
  have hrun : Sessions sampleHost (fun _ => True) World.init [] := Sessions.init
  exact (device_name_roundtrip_iff hrun (by decide) (by decide) (by decide) hr).2 (by decide)

/-- A controller with twenty namespaces. -/
def twentyHost : Host where
  ctlr := fun _ => ⟨256, 12, 20, 0, 0, 0, true, fun _ => true, fun _ => some ⟨1000, 9⟩⟩
  log := true

/-- Namespace 10 of `b3:00.0` is opened, and its name is that of namespace 16. -/
theorem device_name_ten :
    returns (unvmeDoOpen twentyHost 0xb30000 10 0 0) World.init
      (fun r w => r = some 0 ∧ (w.session 0).ns.device = "b3:00.0/10") = true ∧
      parsePciName "b3:00.0/10" = some (0xb30000, 16) ∧ ¬ RoundTrips "b3:00.0/10" 0xb30000 10 := by
  have hparse : parsePciName "b3:00.0/10" = some (0xb30000, 16) := by decide +kernel
  refine ⟨by decide +kernel, hparse, ?_⟩
  rintro ⟨-, h⟩
  rw [hparse] at h
  cases h

end Unvme.Session
