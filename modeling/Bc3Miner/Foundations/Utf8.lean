import Mathlib.Data.List.Basic
import Mathlib.Data.Nat.Notation

/-!
# Lossy decoding of UTF-8

`fromUtf8Lossy` is `String::from_utf8_lossy`: what is well formed UTF-8 is decoded, and each longest
prefix of a character that could not be continued becomes one replacement character. Text that was
encoded comes back as it was (`fromUtf8Lossy_encode`).

The decoder is total: every list of bytes has a text. That a text comes back is proved character by
character, by the number of bytes its encoding has (`lossyChars_one` to `lossyChars_four`).
-/

set_option autoImplicit false
set_option relaxedAutoImplicit false

namespace Bc3Miner.Foundations

/-! ### The decoder -/

/-- U+FFFD. -/
def replacementCharacter : Char := Char.ofNat 0xFFFD

/-- A byte that continues a character. -/
def isContinuation (byte : UInt8) : Bool := 0x80 ≤ byte.toNat ∧ byte.toNat ≤ 0xBF

/-- The second bytes that a first byte of a longer character allows: no overlong forms, no
surrogates and nothing above U+10FFFF. -/
def secondAllowed (first second : UInt8) : Bool :=
  if first.toNat = 0xE0 then 0xA0 ≤ second.toNat ∧ second.toNat ≤ 0xBF
  else if first.toNat = 0xED then 0x80 ≤ second.toNat ∧ second.toNat ≤ 0x9F
  else if first.toNat = 0xF0 then 0x90 ≤ second.toNat ∧ second.toNat ≤ 0xBF
  else if first.toNat = 0xF4 then 0x80 ≤ second.toNat ∧ second.toNat ≤ 0x8F
  else isContinuation second

/-- The characters of a byte string. -/
def lossyChars : List UInt8 → List Char
  | [] => []
  | first :: rest =>
    if first.toNat < 0x80 then Char.ofNat first.toNat :: lossyChars rest
    else if 0xC2 ≤ first.toNat ∧ first.toNat ≤ 0xDF then
      match rest with
      | [] => [replacementCharacter]
      | second :: afterSecond =>
        if isContinuation second then
          Char.ofNat (first.toNat % 32 * 64 + second.toNat % 64) :: lossyChars afterSecond
        else replacementCharacter :: lossyChars (second :: afterSecond)
    else if 0xE0 ≤ first.toNat ∧ first.toNat ≤ 0xEF then
      match rest with
      | [] => [replacementCharacter]
      | second :: afterSecond =>
        if secondAllowed first second then
          match afterSecond with
          | [] => [replacementCharacter]
          | third :: afterThird =>
            if isContinuation third then
              Char.ofNat (first.toNat % 16 * 4096 + second.toNat % 64 * 64 + third.toNat % 64) ::
                lossyChars afterThird
            else replacementCharacter :: lossyChars (third :: afterThird)
        else replacementCharacter :: lossyChars (second :: afterSecond)
    else if 0xF0 ≤ first.toNat ∧ first.toNat ≤ 0xF4 then
      match rest with
      | [] => [replacementCharacter]
      | second :: afterSecond =>
        if secondAllowed first second then
          match afterSecond with
          | [] => [replacementCharacter]
          | third :: afterThird =>
            if isContinuation third then
              match afterThird with
              | [] => [replacementCharacter]
              | fourth :: afterFourth =>
                if isContinuation fourth then
                  Char.ofNat (first.toNat % 8 * 262144 + second.toNat % 64 * 4096 +
                    third.toNat % 64 * 64 + fourth.toNat % 64) :: lossyChars afterFourth
                else replacementCharacter :: lossyChars (fourth :: afterFourth)
            else replacementCharacter :: lossyChars (third :: afterThird)
        else replacementCharacter :: lossyChars (second :: afterSecond)
    else replacementCharacter :: lossyChars rest

/-- `String::from_utf8_lossy`. -/
def fromUtf8Lossy (bytes : List UInt8) : String := String.ofList (lossyChars bytes)

/-- The bytes of a text. -/
def encodeUtf8 (text : String) : List UInt8 := text.toList.flatMap String.utf8EncodeChar

/-! ### Encoded text -/

theorem toNat_ofNat_of_lt {value : ℕ} (hvalue : value < 256) : (UInt8.ofNat value).toNat = value :=
  UInt8.toNat_ofNat_of_lt' hvalue

/-- A character of one byte. -/
theorem lossyChars_one {value : ℕ} (hvalue : value < 0x80) (rest : List UInt8) :
    lossyChars (UInt8.ofNat value :: rest) = Char.ofNat value :: lossyChars rest := by
  have hfirst : (UInt8.ofNat value).toNat = value := toNat_ofNat_of_lt (by omega)
  rw [lossyChars.eq_def]
  dsimp only
  rw [hfirst, if_pos hvalue]

/-- A continuing byte. -/
theorem isContinuation_ofNat (value : ℕ) :
    isContinuation (UInt8.ofNat (value % 64 + 0x80)) = true := by
  have hbyte : (UInt8.ofNat (value % 64 + 0x80)).toNat = value % 64 + 0x80 :=
    toNat_ofNat_of_lt (by omega)
  unfold isContinuation
  rw [hbyte, decide_eq_true_iff]
  omega

/-- A character of two bytes. -/
theorem lossyChars_two {value : ℕ} (hlow : 0x80 ≤ value) (hhigh : value ≤ 0x7FF)
    (rest : List UInt8) :
    lossyChars (UInt8.ofNat (value / 64 % 32 + 0xC0) :: UInt8.ofNat (value % 64 + 0x80) :: rest) =
      Char.ofNat value :: lossyChars rest := by
  have hfirst : (UInt8.ofNat (value / 64 % 32 + 0xC0)).toNat = value / 64 % 32 + 0xC0 :=
    toNat_ofNat_of_lt (by omega)
  have hsecond : (UInt8.ofNat (value % 64 + 0x80)).toNat = value % 64 + 0x80 :=
    toNat_ofNat_of_lt (by omega)
  rw [lossyChars.eq_def]
  dsimp only
  rw [hfirst, hsecond, if_neg (by omega), if_pos (by omega), if_pos (isContinuation_ofNat value)]
  congr 2
  omega

/-- A character of three bytes, that is with a code point from 0x800 to 0xFFFF that is no surrogate,
is decoded from its three bytes, and the rest after it. -/
theorem lossyChars_three {value : ℕ} (hlow : 0x800 ≤ value) (hhigh : value ≤ 0xFFFF)
    (hvalid : value < 0xD800 ∨ 0xDFFF < value) (rest : List UInt8) :
    lossyChars (UInt8.ofNat (value / 4096 % 16 + 0xE0) :: UInt8.ofNat (value / 64 % 64 + 0x80) ::
      UInt8.ofNat (value % 64 + 0x80) :: rest) = Char.ofNat value :: lossyChars rest := by
  have hfirst : (UInt8.ofNat (value / 4096 % 16 + 0xE0)).toNat = value / 4096 % 16 + 0xE0 :=
    toNat_ofNat_of_lt (by omega)
  have hsecond : (UInt8.ofNat (value / 64 % 64 + 0x80)).toNat = value / 64 % 64 + 0x80 :=
    toNat_ofNat_of_lt (by omega)
  have hthird : (UInt8.ofNat (value % 64 + 0x80)).toNat = value % 64 + 0x80 :=
    toNat_ofNat_of_lt (by omega)
  have hallowed : secondAllowed (UInt8.ofNat (value / 4096 % 16 + 0xE0))
      (UInt8.ofNat (value / 64 % 64 + 0x80)) = true := by
    unfold secondAllowed
    rw [hfirst, hsecond, isContinuation_ofNat]
    split_ifs <;> simp <;> omega
  rw [lossyChars.eq_def]
  dsimp only
  rw [hfirst, if_neg (by omega), if_neg (by omega), if_pos (by omega), if_pos hallowed,
    hsecond, hthird,
    if_pos (isContinuation_ofNat value)]
  congr 2
  omega

/-- A character of four bytes, that is with a code point from 0x10000 on, is decoded from its four
bytes, and the rest after it. -/
theorem lossyChars_four {value : ℕ} (hlow : 0x10000 ≤ value) (hhigh : value < 0x110000)
    (rest : List UInt8) :
    lossyChars (UInt8.ofNat (value / 262144 % 8 + 0xF0) :: UInt8.ofNat (value / 4096 % 64 + 0x80) ::
      UInt8.ofNat (value / 64 % 64 + 0x80) :: UInt8.ofNat (value % 64 + 0x80) :: rest) =
        Char.ofNat value :: lossyChars rest := by
  have hfirst : (UInt8.ofNat (value / 262144 % 8 + 0xF0)).toNat = value / 262144 % 8 + 0xF0 :=
    toNat_ofNat_of_lt (by omega)
  have hsecond : (UInt8.ofNat (value / 4096 % 64 + 0x80)).toNat = value / 4096 % 64 + 0x80 :=
    toNat_ofNat_of_lt (by omega)
  have hthird : (UInt8.ofNat (value / 64 % 64 + 0x80)).toNat = value / 64 % 64 + 0x80 :=
    toNat_ofNat_of_lt (by omega)
  have hfourth : (UInt8.ofNat (value % 64 + 0x80)).toNat = value % 64 + 0x80 :=
    toNat_ofNat_of_lt (by omega)
  have hallowed : secondAllowed (UInt8.ofNat (value / 262144 % 8 + 0xF0))
      (UInt8.ofNat (value / 4096 % 64 + 0x80)) = true := by
    unfold secondAllowed
    rw [hfirst, hsecond, isContinuation_ofNat]
    split_ifs <;> simp <;> omega
  rw [lossyChars.eq_def]
  dsimp only
  rw [hfirst, if_neg (by omega), if_neg (by omega), if_neg (by omega), if_pos (by omega),
    if_pos hallowed,
    hsecond, hthird, hfourth, if_pos (isContinuation_ofNat _), if_pos (isContinuation_ofNat value)]
  congr 2
  omega

/-- The encoding of a character is decoded to that character. -/
theorem lossyChars_encodeChar (char : Char) (rest : List UInt8) :
    lossyChars (String.utf8EncodeChar char ++ rest) = char :: lossyChars rest := by
  have hback : Char.ofNat char.val.toNat = char := Char.ofNat_toNat char
  have hvalid : char.val.toNat < 0xD800 ∨ 0xDFFF < char.val.toNat ∧ char.val.toNat < 0x110000 :=
    char.valid
  unfold String.utf8EncodeChar
  dsimp only
  by_cases hone : char.val.toNat ≤ 0x7F
  · rw [if_pos hone]
    exact (lossyChars_one (by omega) rest).trans (by rw [hback])
  rw [if_neg hone]
  by_cases htwo : char.val.toNat ≤ 0x7FF
  · rw [if_pos htwo]
    exact (lossyChars_two (by omega) htwo rest).trans (by rw [hback])
  rw [if_neg htwo]
  by_cases hthree : char.val.toNat ≤ 0xFFFF
  · rw [if_pos hthree]
    exact (lossyChars_three (by omega) hthree (by omega) rest).trans (by rw [hback])
  rw [if_neg hthree]
  exact (lossyChars_four (by omega) (by omega) rest).trans (by rw [hback])

/-- Text that was encoded comes back as it was. -/
theorem lossyChars_encode (chars : List Char) :
    lossyChars (chars.flatMap String.utf8EncodeChar) = chars := by
  induction chars with
  | nil => rfl
  | cons char rest ih => rw [List.flatMap_cons, lossyChars_encodeChar, ih]

theorem fromUtf8Lossy_encode (text : String) : fromUtf8Lossy (encodeUtf8 text) = text := by
  unfold fromUtf8Lossy encodeUtf8
  rw [lossyChars_encode, String.ofList_toList]

end Bc3Miner.Foundations
