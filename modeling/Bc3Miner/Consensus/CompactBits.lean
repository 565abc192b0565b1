import Bc3Miner.Consensus.Target
import Mathlib.Tactic.NormNum

/-!
# What nBits stand for

Compact nBits are a mantissa `m` of 23 bits, a sign bit, and an exponent byte `e`; they stand for
`m * 256 ^ (e - 3)` where that is an integer below `2 ^ 256` (`compactValue`). `compactToTarget`
writes the three mantissa bytes from byte `32 - e` of the target on. Up to exponent 32 that is the
number (`compactToTarget_of_le`); exponents 33 and 34, which pass the function's own bound, leave no
place for the first mantissa byte, and it gives up even where that byte is zero
(`compactToTarget_of_lt`).

`compactToTarget_exact_iff` puts the two together: within the bound the function states, it gives
exactly the number that the nBits stand for, and nothing where they stand for none, except where the
mantissa would have had room (`RoomyMantissa`). `exponent33_refused` is such an input.
`diff1Bits_exact` is the nBits of difficulty one, which every share target starts from.
-/

set_option autoImplicit false
set_option relaxedAutoImplicit false

namespace Bc3Miner.Consensus

/-! ### The number -/

/-- The exponent byte of nBits. -/
def compactExponent (bits : UInt32) : ℕ := (bits >>> 24).toNat

/-- The mantissa of nBits. -/
def compactMantissa (bits : UInt32) : ℕ := (bits &&& 0x007fffff).toNat

/-- The number nBits stand for, if they are not negative and it is an integer of 256 bits. -/
def compactValue (bits : UInt32) : Option ℕ :=
  let scaled := compactMantissa bits * 256 ^ compactExponent bits
  if bits &&& 0x00800000 = 0 ∧ 256 ^ 3 ∣ scaled ∧ scaled / 256 ^ 3 < 2 ^ 256 then
    some (scaled / 256 ^ 3)
  else none

/-- The mantissa has 23 bits, the sign bit is not one of them. -/
theorem compactMantissa_lt (bits : UInt32) : compactMantissa bits < 2 ^ 23 := by
  have hmask : compactMantissa bits = bits.toNat % 2 ^ 23 := by
    unfold compactMantissa
    rw [UInt32.toNat_and]
    exact Nat.and_two_pow_sub_one_eq_mod bits.toNat 23
  rw [hmask]
  exact Nat.mod_lt _ (Nat.two_pow_pos 23)

/-- The mantissa is its three bytes. -/
theorem compactMantissa_bytes (bits : UInt32) :
    compactMantissa bits = ((bits &&& 0x007fffff) >>> 16).toUInt8.toNat * 65536 +
      ((bits &&& 0x007fffff) >>> 8).toUInt8.toNat * 256 +
      (bits &&& 0x007fffff).toUInt8.toNat := by
  have hlt := compactMantissa_lt bits
  unfold compactMantissa at hlt ⊢
  generalize bits &&& 0x007fffff = mantissa at hlt ⊢
  have hbyte (shift : UInt32) (width : ℕ) (hwidth : shift.toNat % 32 = width) :
      (mantissa >>> shift).toUInt8.toNat = mantissa.toNat / 2 ^ width % 2 ^ 8 := by
    rw [UInt32.toNat_toUInt8, UInt32.toNat_shiftRight, hwidth, Nat.shiftRight_eq_div_pow]
  rw [hbyte 16 16 rfl, hbyte 8 8 rfl, UInt32.toNat_toUInt8]
  omega

/-! ### The bytes -/

/-- A byte set where there was a zero adds its place value. -/
theorem bigEndian_set (bytes : List UInt8) (position : ℕ) (byte : UInt8)
    (hposition : position < bytes.length) (hzero : bytes[position] = 0) :
    bigEndian (bytes.set position byte) =
      bigEndian bytes + byte.toNat * 256 ^ (bytes.length - 1 - position) := by
  induction bytes generalizing position with
  | nil => exact absurd hposition (Nat.not_lt_zero _)
  | cons first bytes ih =>
    cases position with
    | zero =>
      rw [List.getElem_cons_zero] at hzero
      rw [List.set_cons_zero, bigEndian_cons, bigEndian_cons, hzero]
      simp [Nat.add_comm]
    | succ position =>
      have hrest : position < bytes.length := Nat.lt_of_succ_lt_succ hposition
      rw [List.getElem_cons_succ] at hzero
      have hplace : bytes.length + 1 - 1 - (position + 1) = bytes.length - 1 - position := by
        omega
      rw [List.set_cons_succ, bigEndian_cons, bigEndian_cons, List.length_set,
        ih position hrest hzero, List.length_cons, hplace, Nat.add_assoc]

/-- The number a target stands for. -/
def Target.value (target : Target) : ℕ := bigEndian target.toList

/-- A byte put where there was a zero adds its value at that place. -/
theorem Target.value_set (target : Target) (position : ℕ) (byte : UInt8) (hposition : position < 32)
    (hzero : target[position] = 0) :
    Target.value (target.set position byte hposition) =
      Target.value target + byte.toNat * 256 ^ (31 - position) := by
  unfold Target.value
  rw [Vector.toList_set, bigEndian_set _ _ _ (by simpa using hposition) (by simpa using hzero)]
  simp

theorem Target.value_zero : Target.value (Vector.replicate 32 0) = 0 := by
  decide

/-- A mantissa byte with a place in the target goes there. -/
theorem placeByte_inside {exponent index : ℕ} (hexponent : exponent ≤ 32)
    (hindex : index < exponent)
    (target : Target) (byte : UInt8) :
    placeByte exponent target index byte =
      some (target.set (32 - exponent + index) byte (by omega)) := by
  have hposition : 32 - exponent + index < 32 := by omega
  unfold placeByte
  rw [if_pos hexponent]
  exact dif_pos hposition

/-- One without a place has to be zero. -/
theorem placeByte_outside {exponent index : ℕ} (hexponent : exponent ≤ 32)
    (hindex : exponent ≤ index)
    (target : Target) (byte : UInt8) :
    placeByte exponent target index byte = if byte = 0 then some target else none := by
  have hposition : ¬32 - exponent + index < 32 := by omega
  unfold placeByte
  rw [if_pos hexponent]
  simp only [dif_neg hposition, ne_eq, ite_not]

/-! ### The function -/

/-- The three mantissa bytes placed one after the other. -/
def placeBytes (exponent : ℕ) (first second third : UInt8) : Option Target := do
  let target ← placeByte exponent (Vector.replicate 32 0) 0 first
  let target ← placeByte exponent target 1 second
  placeByte exponent target 2 third

theorem compactToTarget_eq (bits : UInt32) :
    compactToTarget bits =
      if bits &&& 0x00800000 ≠ 0 ∨ 34 < compactExponent bits then none
      else placeBytes (compactExponent bits) ((bits &&& 0x007fffff) >>> 16).toUInt8
        ((bits &&& 0x007fffff) >>> 8).toUInt8 (bits &&& 0x007fffff).toUInt8 := rfl

/-- Past exponent 32 nothing is decoded. -/
theorem compactToTarget_of_lt {bits : UInt32} (hexponent : 32 < compactExponent bits) :
    compactToTarget bits = none := by
  rw [compactToTarget_eq]
  by_cases hrefused : bits &&& 0x00800000 ≠ 0 ∨ 34 < compactExponent bits
  · rw [if_pos hrefused]
  · rw [if_neg hrefused, placeBytes, placeByte, if_neg (Nat.not_le.mpr hexponent)]
    rfl

/-- With a place for each byte, the bytes stand for the mantissa times the power of the exponent. -/
theorem placeBytes_inside {exponent : ℕ} (hexponent : exponent ≤ 32) (hplaces : 3 ≤ exponent)
    (first second third : UInt8) :
    (placeBytes exponent first second third).map Target.value =
      some ((first.toNat * 65536 + second.toNat * 256 + third.toNat) * 256 ^ (exponent - 3)) := by
  unfold placeBytes
  rw [placeByte_inside hexponent (by omega : 0 < exponent), Option.bind_eq_bind, Option.bind_some,
    placeByte_inside hexponent (by omega : 1 < exponent), Option.bind_some,
    placeByte_inside hexponent (by omega : 2 < exponent), Option.map_some]
  rw [Target.value_set _ _ third (by omega) (by simp),
    Target.value_set _ _ second (by omega) (by simp),
    Target.value_set _ _ first (by omega) (by simp), Target.value_zero]
  obtain ⟨power, rfl⟩ : ∃ power, exponent = power + 3 := ⟨exponent - 3, by omega⟩
  have hfirst : 31 - (32 - (power + 3) + 0) = power + 2 := by omega
  have hsecond : 31 - (32 - (power + 3) + 1) = power + 1 := by omega
  have hthird : 31 - (32 - (power + 3) + 2) = power := by omega
  rw [hfirst, hsecond, hthird, Nat.add_sub_cancel]
  congr 1
  ring

/-- With a place for the first two bytes alone, the third has to be zero. -/
theorem placeBytes_two (first second third : UInt8) :
    (placeBytes 2 first second third).map Target.value =
      if third = 0 then some (first.toNat * 256 + second.toNat) else none := by
  unfold placeBytes
  rw [placeByte_inside (by omega) (by omega), Option.bind_eq_bind, Option.bind_some,
    placeByte_inside (by omega) (by omega), Option.bind_some,
    placeByte_outside (by omega) (by omega)]
  by_cases hthird : third = 0
  · rw [if_pos hthird, if_pos hthird, Option.map_some,
      Target.value_set _ _ second (by omega) (by simp),
      Target.value_set _ _ first (by omega) (by simp), Target.value_zero]
    simp
  · rw [if_neg hthird, if_neg hthird, Option.map_none]

/-- With a place for the first byte alone, the other two have to be zero. -/
theorem placeBytes_one (first second third : UInt8) :
    (placeBytes 1 first second third).map Target.value =
      if second = 0 ∧ third = 0 then some first.toNat else none := by
  unfold placeBytes
  rw [placeByte_inside (by omega) (by omega), Option.bind_eq_bind, Option.bind_some,
    placeByte_outside (by omega) (by omega)]
  by_cases hsecond : second = 0
  · rw [if_pos hsecond, Option.bind_some,
      placeByte_outside (by omega) (by omega)]
    by_cases hthird : third = 0
    · rw [if_pos hthird, if_pos ⟨hsecond, hthird⟩, Option.map_some,
        Target.value_set _ _ first (by omega) (by simp), Target.value_zero]
      simp
    · rw [if_neg hthird, if_neg (fun hboth ↦ hthird hboth.2), Option.map_none]
  · rw [if_neg hsecond, if_neg (fun hboth ↦ hsecond hboth.1)]
    rfl

/-- With no place at all, every byte has to be zero. -/
theorem placeBytes_zero (first second third : UInt8) :
    (placeBytes 0 first second third).map Target.value =
      if first = 0 ∧ second = 0 ∧ third = 0 then some 0 else none := by
  unfold placeBytes
  simp only [placeByte_outside (Nat.zero_le 32) (Nat.zero_le _)]
  by_cases hfirst : first = 0
  · by_cases hsecond : second = 0
    · by_cases hthird : third = 0
      · simp [hfirst, hsecond, hthird, Target.value_zero]
      · simp [hfirst, hsecond, hthird]
    · simp [hfirst, hsecond]
  · simp [hfirst]

/-- A byte is zero when its number is. -/
theorem byte_eq_zero_iff (byte : UInt8) : byte = 0 ↔ byte.toNat = 0 := by
  rw [← UInt8.toNat_inj]
  rfl

/-- Placed bytes stand for the mantissa times the power of the exponent, where the bytes that fall
off the low end are zero; otherwise there is no target. -/
theorem placeBytes_value {exponent : ℕ} (hexponent : exponent ≤ 32) (first second third : UInt8) :
    (placeBytes exponent first second third).map Target.value =
      let scaled := (first.toNat * 65536 + second.toNat * 256 + third.toNat) * 256 ^ exponent
      if 256 ^ 3 ∣ scaled then some (scaled / 256 ^ 3) else none := by
  have hfirst := first.toNat_lt
  have hsecond := second.toNat_lt
  have hthird := third.toNat_lt
  by_cases hplaces : 3 ≤ exponent
  · rw [placeBytes_inside hexponent hplaces]
    obtain ⟨power, rfl⟩ : ∃ power, exponent = power + 3 := ⟨exponent - 3, by omega⟩
    simp only [Nat.add_sub_cancel, pow_add, ← Nat.mul_assoc]
    rw [if_pos (Nat.dvd_mul_left _ _), Nat.mul_div_cancel _ (by norm_num)]
  · have hcases : exponent = 0 ∨ exponent = 1 ∨ exponent = 2 := by omega
    rcases hcases with rfl | rfl | rfl
    · rw [placeBytes_zero]
      simp only [byte_eq_zero_iff]
      split_ifs with hzero hdivides hdivides
      · exact congrArg some (by omega)
      · exact absurd hdivides (by omega)
      · exact absurd hzero (by omega)
      · rfl
    · rw [placeBytes_one]
      simp only [byte_eq_zero_iff]
      split_ifs with hzero hdivides hdivides
      · exact congrArg some (by omega)
      · exact absurd hdivides (by omega)
      · exact absurd hzero (by omega)
      · rfl
    · rw [placeBytes_two]
      simp only [byte_eq_zero_iff]
      split_ifs with hzero hdivides hdivides
      · exact congrArg some (by omega)
      · exact absurd hdivides (by omega)
      · exact absurd hzero (by omega)
      · rfl

/-- Up to exponent 32 the mantissa scaled by the exponent has at most 255 bits. -/
theorem scaled_lt {bits : UInt32} (hexponent : compactExponent bits ≤ 32) :
    compactMantissa bits * 256 ^ compactExponent bits / 256 ^ 3 < 2 ^ 256 := by
  have hmantissa := compactMantissa_lt bits
  have hpower : 256 ^ compactExponent bits ≤ 256 ^ 32 :=
    Nat.pow_le_pow_right (by norm_num) hexponent
  have hscaled : compactMantissa bits * 256 ^ compactExponent bits ≤ 2 ^ 23 * 256 ^ 32 :=
    Nat.mul_le_mul hmantissa.le hpower
  calc compactMantissa bits * 256 ^ compactExponent bits / 256 ^ 3
      ≤ 2 ^ 23 * 256 ^ 32 / 256 ^ 3 := Nat.div_le_div_right hscaled
    _ < 2 ^ 256 := by norm_num

/-- Up to exponent 32 the function decodes exactly the number. -/
theorem compactToTarget_of_le {bits : UInt32} (hexponent : compactExponent bits ≤ 32) :
    (compactToTarget bits).map Target.value = compactValue bits := by
  rw [compactToTarget_eq, compactValue]
  by_cases hsign : bits &&& 0x00800000 = 0
  · have haccepted : ¬(bits &&& 0x00800000 ≠ 0 ∨ 34 < compactExponent bits) := by
      rintro (hnegative | hlarge)
      · exact hnegative hsign
      · omega
    rw [if_neg haccepted, placeBytes_value hexponent, ← compactMantissa_bytes]
    simp only [hsign, scaled_lt hexponent, and_true, true_and]
  · rw [if_pos (Or.inl hsign)]
    simp [hsign]

/-- nBits that stand for a number although their exponent is 33 or 34: the leading mantissa bytes
are zero. -/
def RoomyMantissa (bits : UInt32) : Prop :=
  bits &&& 0x00800000 = 0 ∧
    (compactExponent bits = 33 ∧ compactMantissa bits < 2 ^ 16 ∨
      compactExponent bits = 34 ∧ compactMantissa bits < 2 ^ 8)

instance (bits : UInt32) : Decidable (RoomyMantissa bits) := by
  unfold RoomyMantissa
  infer_instance

/-- Past exponent 32 nBits stand for a number exactly when enough leading mantissa bytes are
zero. -/
theorem compactValue_isSome_iff {bits : UInt32} (hlarge : 32 < compactExponent bits)
    (hbound : compactExponent bits ≤ 34) :
    (compactValue bits).isSome = true ↔ RoomyMantissa bits := by
  have hcases : compactExponent bits = 33 ∨ compactExponent bits = 34 := by omega
  unfold compactValue RoomyMantissa
  rcases hcases with hexponent | hexponent
  · simp only [hexponent, Option.isSome_ite, true_and, Nat.reduceEqDiff, false_and, or_false]
    refine and_congr_right fun _ ↦ ?_
    omega
  · simp only [hexponent, Option.isSome_ite, true_and, Nat.reduceEqDiff, false_and, false_or]
    refine and_congr_right fun _ ↦ ?_
    omega

/-- Within the bound the function states, exponents up to 34: `compact_to_target` decodes exactly
the number that the nBits stand for, and nothing where they stand for none, if and only if the
exponent is not 33 or 34 with leading mantissa bytes of zero. Those stand for a number and are
refused. -/
theorem compactToTarget_exact_iff {bits : UInt32} (hbound : compactExponent bits ≤ 34) :
    (compactToTarget bits).map Target.value = compactValue bits ↔ ¬RoomyMantissa bits := by
  by_cases hexponent : compactExponent bits ≤ 32
  · refine iff_of_true (compactToTarget_of_le hexponent) ?_
    rintro ⟨-, ⟨heq, -⟩ | ⟨heq, -⟩⟩
    · omega
    · omega
  · have hlarge : 32 < compactExponent bits := by omega
    rw [compactToTarget_of_lt hlarge, ← compactValue_isSome_iff hlarge hbound, Option.map_none]
    cases compactValue bits with
    | none => simp
    | some number => simp

/-- nBits of difficulty one are decoded exactly. -/
theorem diff1Bits_exact : (compactToTarget diff1Bits).map Target.value = compactValue diff1Bits :=
  (compactToTarget_exact_iff (by decide)).mpr (by decide)

/-- The mantissa 1 with exponent 33 stands for `256 ^ 30`, and is refused. -/
theorem exponent33_refused :
    compactValue 0x21000001 = some (256 ^ 30) ∧ compactToTarget 0x21000001 = none := by
  decide +kernel

end Bc3Miner.Consensus
