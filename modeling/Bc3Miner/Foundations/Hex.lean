import Mathlib.Data.List.Basic
import Mathlib.Tactic.IntervalCases

/-!
# Hexadecimal text

Bytes written as hex and read back, numbers written in hex with leading zeros up to a width, and a
number read from hex the way a bounded integer is parsed: an optional plus sign, digits of either
case, and nothing when the text is empty, has any other character, or exceeds the bound. What was
written is read back (`hexDecode_hexEncode`, `parseHex_paddedHex`).

A program that leaves bytes to a library takes the library as a `HexCodec`, and what it relies on
as hypotheses: `RoundTrips`, that the library reads what it wrote, and `TwoDigits`, that it reads
two digits for every byte. `HexCodec.plain` is such a library.

Nothing of a library's error messages is in a codec: a text that is not hex is refused with nothing
at all, and what a caller says of it is the caller's.
-/

set_option autoImplicit false
set_option relaxedAutoImplicit false

namespace Bc3Miner.Foundations

/-! ### Digits -/

/-- The value of a hex digit of either case. -/
def hexValue (digit : Char) : Option ℕ :=
  if '0' ≤ digit ∧ digit ≤ '9' then some (digit.toNat - '0'.toNat)
  else if 'a' ≤ digit ∧ digit ≤ 'f' then some (digit.toNat - 'a'.toNat + 10)
  else if 'A' ≤ digit ∧ digit ≤ 'F' then some (digit.toNat - 'A'.toNat + 10)
  else none

theorem hexValue_digitChar {value : ℕ} (hvalue : value < 16) :
    hexValue value.digitChar = some value := by
  interval_cases value <;> rfl

/-! ### Bytes -/

/-- The two digits of a byte. -/
def hexByte (byte : UInt8) : List Char :=
  [(byte.toNat / 16).digitChar, (byte.toNat % 16).digitChar]

/-- Bytes as hex, two digits each. -/
def hexEncode (bytes : List UInt8) : List Char := bytes.flatMap hexByte

/-- The bytes of a hex text; none when a digit is missing or is none. -/
def hexDecode : List Char → Option (List UInt8)
  | [] => some []
  | [_] => none
  | high :: low :: rest => do
    let high ← hexValue high
    let low ← hexValue low
    let bytes ← hexDecode rest
    return UInt8.ofNat (high * 16 + low) :: bytes

/-- Bytes written as hex are read back. -/
theorem hexDecode_hexEncode (bytes : List UInt8) : hexDecode (hexEncode bytes) = some bytes := by
  induction bytes with
  | nil => rfl
  | cons byte bytes ih =>
    have hbyte := byte.toNat_lt
    have hhigh : hexValue (byte.toNat / 16).digitChar = some (byte.toNat / 16) :=
      hexValue_digitChar (by omega)
    have hlow : hexValue (byte.toNat % 16).digitChar = some (byte.toNat % 16) :=
      hexValue_digitChar (by omega)
    have hsplit : byte.toNat / 16 * 16 + byte.toNat % 16 = byte.toNat := Nat.div_add_mod' _ _
    show hexDecode ((byte.toNat / 16).digitChar :: (byte.toNat % 16).digitChar ::
      hexEncode bytes) = some (byte :: bytes)
    rw [hexDecode, hhigh, hlow, ih]
    simp only [Option.bind_eq_bind, Option.bind_some, hsplit, UInt8.ofNat_toNat]
    rfl

/-- Two digits a byte. -/
theorem length_hexDecode {text : List Char} {bytes : List UInt8}
    (hdecode : hexDecode text = some bytes) : text.length = 2 * bytes.length := by
  induction text using hexDecode.induct generalizing bytes with
  | case1 =>
    obtain rfl := Option.some.inj hdecode
    rfl
  | case2 digit => cases hdecode
  | case3 high low rest ih =>
    simp only [hexDecode, Option.bind_eq_bind, Option.bind_eq_some_iff] at hdecode
    obtain ⟨_, _, _, _, tail, htail, hbytes⟩ := hdecode
    obtain rfl := Option.some.inj hbytes
    rw [List.length_cons, List.length_cons, List.length_cons, ih htail]
    omega

/-! ### Libraries for bytes -/

/-- A library that writes bytes as hex, and reads the bytes of a text that is hex. -/
structure HexCodec where
  encode : List UInt8 → List Char
  decode : List Char → Option (List UInt8)

namespace HexCodec

/-- What the library writes it reads back. -/
def RoundTrips (hex : HexCodec) : Prop := ∀ bytes, hex.decode (hex.encode bytes) = some bytes

/-- The library reads two digits for every byte. -/
def TwoDigits (hex : HexCodec) : Prop :=
  ∀ text bytes, hex.decode text = some bytes → text.length = 2 * bytes.length

/-- Lower case digits are written, and digits of either case are read. -/
def plain : HexCodec := ⟨hexEncode, hexDecode⟩

theorem plain_roundTrips : plain.RoundTrips := hexDecode_hexEncode

theorem plain_twoDigits : plain.TwoDigits := fun _ _ ↦ length_hexDecode

end HexCodec

/-! ### Numbers -/

/-- Digits read onto a number, as long as it stays below the bound. -/
def hexNumber (bound : ℕ) : List Char → ℕ → Option ℕ
  | [], number => some number
  | digit :: rest, number => do
    let value ← hexValue digit
    if number * 16 + value < bound then hexNumber bound rest (number * 16 + value) else none

/-- A number below the bound, as an unsigned integer is parsed in base 16. -/
def parseHex (bound : ℕ) : List Char → Option ℕ
  | [] => none
  | '+' :: [] => none
  | '+' :: rest => hexNumber bound rest 0
  | text => hexNumber bound text 0

/-- A number in hex, with zeros in front up to a width. -/
def paddedHex (width number : ℕ) : List Char := (Nat.toDigits 16 number).leftpad width '0'

/-- A number in hex is read digit by digit, so what is read of a first part is the start for the
rest; the bound is checked in both. -/
theorem hexNumber_append (bound : ℕ) (first last : List Char) (number : ℕ) :
    hexNumber bound (first ++ last) number =
      (hexNumber bound first number).bind (hexNumber bound last) := by
  induction first generalizing number with
  | nil => rfl
  | cons digit first ih =>
    simp only [List.cons_append, hexNumber]
    cases hexValue digit with
    | none => rfl
    | some value =>
      simp only [Option.bind_eq_bind, Option.bind_some]
      by_cases hbound : number * 16 + value < bound
      · rw [if_pos hbound, if_pos hbound, ih]
      · rw [if_neg hbound, if_neg hbound, Option.bind_none]

/-- The digits of a number are read back. -/
theorem hexNumber_toDigits {bound number : ℕ} (hbound : number < bound) :
    hexNumber bound (Nat.toDigits 16 number) 0 = some number := by
  induction number using Nat.strong_induction_on with
  | _ number ih =>
    rw [Nat.toDigits_eq_if (by omega)]
    by_cases hsmall : number < 16
    · rw [if_pos hsmall, hexNumber, hexValue_digitChar hsmall]
      simp only [Option.bind_eq_bind, Option.bind_some, Nat.zero_mul, Nat.zero_add, if_pos hbound]
      rfl
    · have hshorter : number / 16 < number := Nat.div_lt_self (by omega) (by omega)
      have hlast : hexValue (number % 16).digitChar = some (number % 16) :=
        hexValue_digitChar (Nat.mod_lt _ (by omega))
      have hsplit : number / 16 * 16 + number % 16 = number := Nat.div_add_mod' _ _
      rw [if_neg hsmall, hexNumber_append, ih _ hshorter (hshorter.trans hbound), Option.bind_some,
        hexNumber, hlast]
      simp only [Option.bind_eq_bind, Option.bind_some, hsplit, if_pos hbound]
      rfl

/-- Zeros read as zero, however many there are. -/
theorem hexNumber_zeros {bound : ℕ} (hbound : 0 < bound) (count : ℕ) :
    hexNumber bound (List.replicate count '0') 0 = some 0 := by
  induction count with
  | zero => rfl
  | succ count ih =>
    have hzero : hexValue '0' = some 0 := rfl
    rw [List.replicate_succ, hexNumber, hzero]
    simp only [Option.bind_eq_bind, Option.bind_some, Nat.zero_mul, Nat.zero_add, if_pos hbound]
    exact ih

/-- Digits without a sign are parsed as they are read. -/
theorem parseHex_of_hexNumber {bound number : ℕ} {text : List Char} (htext : text ≠ [])
    (hnumber : hexNumber bound text 0 = some number) : parseHex bound text = some number := by
  cases text with
  | nil => exact absurd rfl htext
  | cons digit rest =>
    have hsign : digit ≠ '+' := by
      rintro rfl
      cases hnumber
    unfold parseHex
    split
    · rename_i hnil
      cases hnil
    · rename_i hplus
      exact absurd (List.cons.inj hplus).1 hsign
    · rename_i hplus
      exact absurd (List.cons.inj hplus).1 hsign
    · exact hnumber

/-- A number written with leading zeros is read back. -/
theorem parseHex_paddedHex {bound number : ℕ} (hbound : number < bound) (width : ℕ) :
    parseHex bound (paddedHex width number) = some number := by
  apply parseHex_of_hexNumber
  · unfold paddedHex
    simp [List.leftpad]
  · unfold paddedHex
    rw [List.leftpad, hexNumber_append, hexNumber_zeros (by omega), Option.bind_some,
      hexNumber_toDigits hbound]

end Bc3Miner.Foundations
