import Mathlib.Data.Int.Bitwise
import Mathlib.Algebra.Order.Ring.Int

set_option autoImplicit false

/-! # PCI device names (`unvme_openq`)

The name given to `unvme_openq` has the format `%x:%x.%x[/NSID]` and is read with `sscanf`. Conversion
`%x` skips white space, takes an optional sign and an optional `0x`, and reads hexadecimal digits with
`strtoul`; the value is stored in an `int`. -/

namespace Unvme.Session

/-- The value of an `int` computed as `x`. -/
def wrap32 (x : ℤ) : ℤ := Int.bmod x (2 ^ 32)

/-- An `int` converted to `u32`. -/
def toU32 (x : ℤ) : ℕ := (x % 2 ^ 32).toNat

/-- The range of an `int`. -/
def IsInt (x : ℤ) : Prop := -2 ^ 31 ≤ x ∧ x < 2 ^ 31

instance (x : ℤ) : Decidable (IsInt x) := inferInstanceAs (Decidable (_ ∧ _))

/-- An `int` stored in a `u16`. -/
def toU16 (x : ℤ) : ℕ := (x % 2 ^ 16).toNat

/-! ## Scanning -/

def isSpace (c : Char) : Bool := c == ' ' || ('\t' ≤ c && c ≤ '\r')

/-- The value of a hexadecimal digit. -/
def hexDigit (c : Char) : Option ℕ :=
  if '0' ≤ c ∧ c ≤ '9' then some (c.toNat - '0'.toNat)
  else if 'a' ≤ c ∧ c ≤ 'f' then some (c.toNat - 'a'.toNat + 10)
  else if 'A' ≤ c ∧ c ≤ 'F' then some (c.toNat - 'A'.toNat + 10)
  else none

/-- Hexadecimal digits from the front, with the number read so far. -/
def scanDigits (acc : ℕ) : List Char → ℕ × List Char
  | [] => (acc, [])
  | c :: cs =>
      match hexDigit c with
      | some v => scanDigits (16 * acc + v) cs
      | none => (acc, c :: cs)

def scanSign : List Char → Bool × List Char
  | '-' :: cs => (true, cs)
  | '+' :: cs => (false, cs)
  | cs => (false, cs)

/-- An optional `0x`; it counts as the digit 0. -/
def scanBase : List Char → List Char
  | '0' :: 'x' :: cs | '0' :: 'X' :: cs => '0' :: cs
  | cs => cs

/-- `strtoul` saturates, and negates what it has read. -/
def strtoul (neg : Bool) (v : ℕ) : ℤ :=
  if 2 ^ 64 ≤ v then 2 ^ 64 - 1 else if neg then -(v : ℤ) else v

/-- Conversion `%x` into an `int`: the value and the rest of the input, if there is a digit. -/
def scanHex (cs : List Char) : Option (ℤ × List Char) :=
  let sign := scanSign (cs.dropWhile isSpace)
  match scanBase sign.2 with
  | [] => none
  | c :: rest =>
      match hexDigit c with
      | none => none
      | some v =>
          let digits := scanDigits v rest
          some (wrap32 (strtoul sign.1 digits.1), digits.2)

/-- A literal character of the format. -/
def scanChar (c : Char) : List Char → Option (List Char)
  | [] => none
  | x :: cs => if x = c then some cs else none

/-- `%x:%x.%x`, and the rest of the input. -/
def scanBdf (cs : List Char) : Option ((ℤ × ℤ × ℤ) × List Char) := do
  let (b, cs) ← scanHex cs
  let cs ← scanChar ':' cs
  let (d, cs) ← scanHex cs
  let cs ← scanChar '.' cs
  let (f, cs) ← scanHex cs
  pure ((b, d, f), cs)

/-- `/%x` -/
def scanNsid (cs : List Char) : Option ℤ := do
  let cs ← scanChar '/' cs
  let (nsid, _) ← scanHex cs
  pure nsid

/-- The PCI id and the namespace id (1 if none is given) of a device name. -/
def parsePciName (pciname : String) : Option (ℤ × ℤ) := do
  let ((b, d, f), cs) ← scanBdf pciname.toList
  pure (wrap32 (b * 2 ^ 16 + d * 2 ^ 8 + f), (scanNsid cs).getD 1)

example : parsePciName "b3:00.0" = some (0xb30000, 1) := by decide +kernel

example : parsePciName "b3:00.0/2" = some (0xb30000, 2) := by decide +kernel

/-! ## Ranges -/

theorem IsInt.eq_of_toU32 {x y : ℤ} (hx : IsInt x) (hy : IsInt y) (h : toU32 x = toU32 y) :
    x = y := by
  unfold IsInt toU32 at *
  omega

theorem wrap32_of_isInt {x : ℤ} (hx : IsInt x) : wrap32 x = x := by
  unfold IsInt at hx
  exact Int.bmod_eq_of_le (by omega) (by omega)

theorem wrap32_bounds (x : ℤ) : -2 ^ 31 ≤ wrap32 x ∧ wrap32 x < 2 ^ 31 := by
  have h1 := Int.le_bmod (x := x) (m := 2 ^ 32) (by decide)
  have h2 := Int.bmod_lt (x := x) (m := 2 ^ 32) (by decide)
  unfold wrap32
  omega

theorem scanHex_bounds {cs rest : List Char} {x : ℤ} (h : scanHex cs = some (x, rest)) :
    -2 ^ 31 ≤ x ∧ x < 2 ^ 31 := by
  unfold scanHex at h
  dsimp only at h
  split at h
  · cases h
  · split at h
    · cases h
    · cases h
      exact wrap32_bounds _

theorem scanNsid_bounds {cs : List Char} {x : ℤ} (h : scanNsid cs = some x) :
    -2 ^ 31 ≤ x ∧ x < 2 ^ 31 := by
  simp only [scanNsid, Option.bind_eq_bind, Option.bind_eq_some_iff] at h
  obtain ⟨cs₁, -, ⟨y, cs₂⟩, hy, hx⟩ := h
  cases hx
  exact scanHex_bounds hy

/-- The namespace id is an `int`. -/
theorem parsePciName_nsid {pciname : String} {pci nsid : ℤ}
    (h : parsePciName pciname = some (pci, nsid)) : -2 ^ 31 ≤ nsid ∧ nsid < 2 ^ 31 := by
  simp only [parsePciName, Option.bind_eq_bind, Option.bind_eq_some_iff] at h
  obtain ⟨⟨⟨b, d, f⟩, cs⟩, -, hp⟩ := h
  cases hp
  cases hn : scanNsid cs with
  | none => decide
  | some x => exact scanNsid_bounds hn

end Unvme.Session
