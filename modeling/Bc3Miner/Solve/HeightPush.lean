import Bc3Miner.Solve.Template

/-!
# The height that is written and the height that is read

Solve mode writes the block height at the start of the scriptSig (`bip34_height` of `src/solve.rs`),
and the miner reads it from there (`bip34_height` of `src/consensus.rs`). The writer takes every
height above 16 and pushes as many bytes as the script number needs, five from `2 ^ 31` on; the
reader takes a push of at most four bytes, and so reads back exactly the heights below `2 ^ 31`.

`template_height_is_read` is for every accepted job file. The heights of the two witnesses come from
the text of a file, through the reader: one at which the block format changed, and `2 ^ 31`, the
first that is not read back (`height_two_pow_31_is_not_read`).
-/

set_option autoImplicit false
set_option relaxedAutoImplicit false

namespace Bc3Miner.Solve

open Consensus Foundations Mining

/-! ### Script numbers -/

/-- The bytes of a number are read back, least significant first. -/
theorem littleEndian_numberBytes (number : ℕ) : littleEndian (numberBytes number) = number := by
  induction number using numberBytes.induct with
  | case1 => rw [numberBytes]; rfl
  | case2 number hpos ih =>
    have hbyte : (UInt8.ofNat number).toNat = number % 256 := UInt8.toNat_ofNat'
    rw [numberBytes, if_neg hpos, littleEndian_cons, ih, hbyte, Nat.add_comm]
    exact Nat.div_add_mod number 256

/-- A number below `256 ^ count` takes at most `count` bytes. -/
theorem length_numberBytes_le {number count : ℕ} (hnumber : number < 256 ^ count) :
    (numberBytes number).length ≤ count := by
  induction count generalizing number with
  | zero =>
    rw [pow_zero] at hnumber
    rw [numberBytes, if_pos (by omega)]
    exact le_rfl
  | succ count ih =>
    rw [numberBytes]
    split_ifs with hzero
    · exact Nat.zero_le _
    · rw [pow_succ] at hnumber
      have hrest := ih (Nat.div_lt_of_lt_mul (by rwa [Nat.mul_comm] at hnumber))
      rw [List.length_cons]
      exact Nat.succ_le_succ hrest

/-- A number takes more bytes than a power it reaches. -/
theorem lt_length_numberBytes {number count : ℕ} (hnumber : 256 ^ count ≤ number) :
    count < (numberBytes number).length := by
  have hvalue := littleEndian_lt (numberBytes number)
  rw [littleEndian_numberBytes] at hvalue
  exact (Nat.pow_lt_pow_iff_right (by decide)).mp (hnumber.trans_lt hvalue)

/-- The top bit of a byte. -/
theorem topBit_ne_zero_iff (byte : UInt8) : byte &&& 0x80 ≠ 0 ↔ 128 ≤ byte.toNat := by
  have hall : ∀ value : Fin 256, UInt8.ofNat value &&& 0x80 ≠ 0 ↔
    128 ≤ (UInt8.ofNat value).toNat := by
    decide +kernel
  have hbyte := hall ⟨byte.toNat, byte.toNat_lt⟩
  rwa [UInt8.ofNat_toNat] at hbyte

/-- The bytes of a number that is not zero end with a byte that weighs what is left of it. -/
theorem numberBytes_split {number : ℕ} (hpos : 0 < number) :
    ∃ low last, numberBytes number = low ++ [last] ∧
      number = littleEndian low + 256 ^ low.length * last.toNat := by
  have hlength : 0 < (numberBytes number).length := by
    refine lt_length_numberBytes ?_
    rw [pow_zero]
    exact hpos
  have hne : numberBytes number ≠ [] := List.ne_nil_of_length_pos hlength
  refine ⟨(numberBytes number).dropLast, (numberBytes number).getLast hne,
    (List.dropLast_append_getLast hne).symm, ?_⟩
  have hvalue := littleEndian_numberBytes number
  have hlast (last : UInt8) : littleEndian [last] = last.toNat := by
    rw [littleEndian_cons, show littleEndian [] = 0 from rfl, Nat.mul_zero, Nat.add_zero]
  rw [← List.dropLast_append_getLast hne, littleEndian_append, hlast] at hvalue
  exact hvalue.symm

/-- What the reader needs to know of a script number: its value, its sign and its size. -/
structure ReadsAsHeight (number : List UInt8) (height : ℕ) : Prop where
  value : littleEndian number = height
  positive : (number.getLastD 0) &&& 0x80 = 0
  nonempty : 0 < number.length
  short : number.length ≤ 4 ↔ height < 2 ^ 31
  bounded : number.length ≤ 5

/-- A height above zero and below `2 ^ 32` is read back from the number in the script. -/
theorem scriptNumber_readsAsHeight {height : ℕ} (hpos : 0 < height) (hheight : height < 2 ^ 32) :
    ReadsAsHeight (scriptNumber height) height := by
  obtain ⟨low, last, hsplit, hweight⟩ := numberBytes_split hpos
  have hle : (numberBytes height).length ≤ 4 := length_numberBytes_le (by omega)
  have hlast : (numberBytes height).getLastD 0 = last := by rw [hsplit, List.getLastD_concat]
  have hlow := littleEndian_lt low
  rw [hsplit, List.length_append, List.length_singleton] at hle
  have hlow4 : low.length = 3 ∨ low.length ≤ 2 := by omega
  unfold scriptNumber
  simp only [hlast]
  by_cases hbit : last &&& 0x80 ≠ 0
  · rw [if_pos hbit, hsplit]
    have hlarge := (topBit_ne_zero_iff last).mp hbit
    refine ⟨?_, ?_, ?_, ?_, ?_⟩
    · rw [littleEndian_append, ← hsplit, littleEndian_numberBytes]
      simp [littleEndian]
    · rw [List.getLastD_concat]
      decide
    · simp
    · simp only [List.length_append, List.length_singleton]
      rcases hlow4 with hthree | htwo
      · rw [hthree] at hweight
        constructor <;> intro <;> omega
      · have hsmall : height < 256 ^ 3 := by
          have hvalue := littleEndian_lt (numberBytes height)
          rw [littleEndian_numberBytes] at hvalue
          refine hvalue.trans_le (Nat.pow_le_pow_right (by decide) ?_)
          rw [hsplit, List.length_append, List.length_singleton]
          omega
        constructor <;> intro <;> omega
    · simp only [List.length_append, List.length_singleton]
      omega
  · rw [if_neg hbit, hsplit]
    have hsmall : last.toNat < 128 := by
      rw [topBit_ne_zero_iff, not_le] at hbit
      exact hbit
    refine ⟨?_, ?_, ?_, ?_, ?_⟩
    · rw [← hsplit, littleEndian_numberBytes]
    · rw [List.getLastD_concat]
      exact not_not.mp hbit
    · simp
    · simp only [List.length_append, List.length_singleton]
      refine iff_of_true (by omega) ?_
      have hvalue : height < 256 ^ low.length * 128 := by
        calc height = littleEndian low + 256 ^ low.length * last.toNat := hweight
          _ < 256 ^ low.length + 256 ^ low.length * last.toNat := Nat.add_lt_add_right hlow _
          _ = 256 ^ low.length * (last.toNat + 1) := by rw [Nat.mul_succ, Nat.add_comm]
          _ ≤ 256 ^ low.length * 128 := Nat.mul_le_mul_left _ hsmall
      have hpow : 256 ^ low.length ≤ 256 ^ 3 := Nat.pow_le_pow_right (by decide) (by omega)
      calc height < 256 ^ low.length * 128 := hvalue
        _ ≤ 256 ^ 3 * 128 := Nat.mul_le_mul_right _ hpow
        _ = 2 ^ 31 := by norm_num
    · simp only [List.length_append, List.length_singleton]
      omega

/-! ### Behind the length of the scriptSig -/

/-- How far the reader goes over a count that begins with a byte. -/
def countLength (first : UInt8) : ℕ :=
  if first = 0xfd then 3 else if first = 0xfe then 5 else if first = 0xff then 9 else 1

/-- The first byte of a count tells how long it is. -/
theorem pushVarint_first (number : ℕ) :
    ∃ first rest, pushVarint [] number = first :: rest ∧ rest.length + 1 = countLength first := by
  unfold pushVarint
  split_ifs with hbyte hword hdouble
  · refine ⟨UInt8.ofNat number, [], rfl, ?_⟩
    have hsize : number < UInt8.size := Nat.lt_of_le_of_lt hbyte (by decide)
    have hvalue : (UInt8.ofNat number).toNat = number := UInt8.toNat_ofNat_of_lt hsize
    have hne (marker : UInt8) (hmarker : 0xfd ≤ marker.toNat) : UInt8.ofNat number ≠ marker := by
      rintro rfl
      omega
    rw [countLength, if_neg (hne 0xfd (by decide)), if_neg (hne 0xfe (by decide)),
      if_neg (hne 0xff (by decide)), List.length_nil]
  · exact ⟨0xfd, leBytesOf 2 number, rfl, by rw [length_leBytesOf]; rfl⟩
  · exact ⟨0xfe, leBytesOf 4 number, rfl, by rw [length_leBytesOf]; rfl⟩
  · exact ⟨0xff, leBytesOf 8 number, rfl, by rw [length_leBytesOf]; rfl⟩

/-- A height pushed at the start of a scriptSig of any length is read back if its push has at most
four bytes, and else not at all. -/
theorem bip34Height_of_push {start number rest : List UInt8} {height : ℕ} (length : ℕ)
    (hstart : start.length = 41) (hnumber : ReadsAsHeight number height) :
    Consensus.bip34Height
        (start ++ pushVarint [] length ++ (UInt8.ofNat number.length :: (number ++ rest))) =
      if height < 2 ^ 31 then some (UInt32.ofNat height) else none := by
  obtain ⟨first, tail, hvarint, hcount⟩ := pushVarint_first length
  have hpush : (UInt8.ofNat number.length).toNat = number.length :=
    UInt8.toNat_ofNat_of_lt (hnumber.bounded.trans_lt (by decide))
  have hbehind : (start ++ first :: tail).length = 41 + countLength first := by
    rw [List.length_append, List.length_cons, hstart, hcount]
  have hfirst : (start ++ first :: tail ++ UInt8.ofNat number.length :: (number ++ rest))[41]? =
      some first := by
    rw [List.append_assoc, List.getElem?_append_right hstart.le, hstart]
    rfl
  have hop : (start ++ first :: tail ++
      UInt8.ofNat number.length :: (number ++ rest))[41 + countLength first]? =
      some (UInt8.ofNat number.length) := by
    rw [List.getElem?_append_right hbehind.le, hbehind, Nat.sub_self]
    rfl
  have hbytes : ((start ++ first :: tail ++ UInt8.ofNat number.length :: (number ++ rest)).drop
      (41 + countLength first + 1)).take number.length = number := by
    rw [← List.drop_drop, List.drop_left' hbehind, List.drop_succ_cons, List.drop_zero,
      List.take_left' rfl]
  have hzero : UInt8.ofNat number.length ≠ 0x00 := by
    intro hsame
    rw [hsame] at hpush
    exact hnumber.nonempty.ne hpush
  have hopcode : ¬ (0x51 ≤ UInt8.ofNat number.length ∧ UInt8.ofNat number.length ≤ 0x60) := by
    rintro ⟨hlow, -⟩
    have hlow' : 0x51 ≤ number.length := by
      rw [← hpush]
      exact hlow
    exact absurd (hlow'.trans hnumber.bounded) (by decide)
  have hsign : ¬ (number.length < number.length ∨ number.getLastD 0 &&& 0x80 ≠ 0) := by
    rintro (hshort | hnegative)
    · exact lt_irrefl _ hshort
    · exact hnegative hnumber.positive
  rw [hvarint]
  unfold Consensus.bip34Height
  simp only [Nat.reduceAdd, Option.bind_eq_bind]
  unfold countLength at hop hbytes
  rw [hfirst, Option.bind_some, hop, Option.bind_some, if_neg hzero, if_neg hopcode, hpush, hbytes]
  by_cases hshort : number.length ≤ 4
  · have hlong : ¬ (number.length = 0 ∨ 4 < number.length) := by
      rintro (hnone | hmany)
      · exact hnumber.nonempty.ne hnone.symm
      · exact absurd hmany (Nat.not_lt.mpr hshort)
    rw [if_neg hlong, if_neg hsign, if_pos (hnumber.short.mp hshort), hnumber.value]
    rfl
  · rw [if_pos (Or.inr (Nat.lt_of_not_le hshort)),
      if_neg fun hlow ↦ hshort (hnumber.short.mpr hlow)]

/-- The pushed height is a script number behind its length. -/
theorem bip34Height_eq_ok {height : UInt32} {push : List UInt8}
    (hpush : bip34Height height = .ok push) :
    ∃ number, push = UInt8.ofNat number.length :: number ∧ ReadsAsHeight number height.toNat := by
  unfold bip34Height at hpush
  split_ifs at hpush with hlow
  obtain rfl := Except.ok.inj hpush
  have hpos : 0 < height.toNat := by
    rw [UInt32.le_iff_toNat_le] at hlow
    exact Nat.lt_of_le_of_lt (Nat.zero_le _) (Nat.lt_of_not_le hlow)
  exact ⟨scriptNumber height.toNat, rfl, scriptNumber_readsAsHeight hpos height.toNat_lt⟩

section Template

variable (libraries : Libraries) (deserialize : String → Except String JobFile)
variable (fromUtf8Lossy : List UInt8 → String)

/-- The height a template was made for is read back from its coinbase exactly if it is below
`2 ^ 31`: from there on its push has five bytes, which the reader refuses. The same goes for a
pushed height behind any 41 bytes and any scriptSig length. -/
theorem template_height_is_read {json : String} {template : Template}
    (hparse : Template.parse libraries deserialize fromUtf8Lossy json = .ok template) :
    Consensus.bip34Height template.coinb1 =
      (if template.height.toNat < 2 ^ 31 then some template.height else none) ∧
    ∀ (height : UInt32) (push start rest : List UInt8) (length : ℕ),
      Solve.bip34Height height = .ok push → start.length = 41 →
      Consensus.bip34Height (start ++ pushVarint [] length ++ (push ++ rest)) =
        if height.toNat < 2 ^ 31 then some height else none := by
  have hread : ∀ (height : UInt32) (push start rest : List UInt8) (length : ℕ),
      Solve.bip34Height height = .ok push → start.length = 41 →
      Consensus.bip34Height (start ++ pushVarint [] length ++ (push ++ rest)) =
        if height.toNat < 2 ^ 31 then some height else none := by
    intro height push start rest length hpush hstart
    obtain ⟨number, rfl, hnumber⟩ := bip34Height_eq_ok hpush
    rw [List.cons_append, bip34Height_of_push length hstart hnumber,
      UInt32.ofNat_toNat]
  refine ⟨?_, hread⟩
  obtain ⟨file, text, push, outputs, -, hdecoded⟩ := Template.decoded_of_parse hparse
  rw [hdecoded.coinb1, coinbaseStart, pushVarint_eq, List.append_assoc, hdecoded.height]
  exact hread file.height push _ text _ hdecoded.pushes rfl

end Template

/-- The template of a job file for the height of the fork. Reading the height back from its coinbase
gives that height, which is below `2 ^ 31`. -/
theorem forkHeight_is_read :
    ∃ template, Template.parse sampleLibraries (readsSample 64360) fromUtf8Lossy
        (sampleText 64360) = .ok template ∧
      Consensus.bip34Height template.coinb1 =
        (if template.height.toNat < 2 ^ 31 then some template.height else none) ∧
      (if template.height.toNat < 2 ^ 31 then some template.height else none) = some 64360 := by
  have hsome : (((sampleFile 64360).template sampleLibraries fromUtf8Lossy).toOption.map
      Template.height) = some 64360 := by decide +kernel
  obtain ⟨template, hparse, hheight⟩ := Option.map_eq_some_iff.mp hsome
  cases hresult : (sampleFile 64360).template sampleLibraries fromUtf8Lossy with
  | error why =>
    rw [hresult] at hparse
    cases hparse
  | ok made =>
    rw [hresult] at hparse
    obtain rfl : made = template := Option.some.inj hparse
    have hmade := (parse_sampleText sampleLibraries fromUtf8Lossy 64360).trans hresult
    refine ⟨made, hmade, (template_height_is_read sampleLibraries _ _ hmade).1, ?_⟩
    rw [hheight]
    rfl

/-- A template is made for height `2 ^ 31`, and no height is read of its coinbase. -/
theorem height_two_pow_31_is_not_read :
    ((Template.parse sampleLibraries (readsSample 0x80000000) fromUtf8Lossy
        (sampleText 0x80000000)).toOption.map fun template ↦
      (template.height, Consensus.bip34Height template.coinb1)) = some (0x80000000, none) := by
  rw [parse_sampleText]
  decide +kernel

end Bc3Miner.Solve
