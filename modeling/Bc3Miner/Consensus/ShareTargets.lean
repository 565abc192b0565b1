import Bc3Miner.Consensus.CompactBits
import Mathlib.Tactic.IntervalCases
import Mathlib.Tactic.LinearCombination

/-!
# Share targets

The target of a share difficulty is the difficulty-one target, shifted up by `scaleBits` and divided
by the scaled difficulty. Both are done byte by byte: a shift whose bytes each take bits of two
neighbours (`shl_value`), and a long division whose remainder stays below the divisor
(`longDivision_quotient`), so that no digit leaves a byte and no step the 128 bits it is done in.

The divisor comes from a difficulty in double precision, scaled, truncated and at least one
(`difficultyDivisor`). So every difficulty has a target, the exact quotient by that divisor
(`targetForDifficulty_value`). `quotientTarget_exact` is for every divisor below `2 ^ 120`: the
target is the exact quotient, the remainder stays below the divisor at every byte, and a larger
divisor has no larger target. `quotientTarget_exact_214` is the division at a divisor that a pool
can ask for.
-/

set_option autoImplicit false
set_option relaxedAutoImplicit false

namespace Bc3Miner.Consensus

open Foundations

/-! ### Bytes of a number -/

/-- Byte `i` of a number, counted from the most significant one. -/
theorem bigEndian_digit {bytes : List UInt8} {i : ℕ} (hi : i < bytes.length) :
    bytes[i].toNat = bigEndian bytes / 256 ^ (bytes.length - 1 - i) % 256 := by
  induction bytes generalizing i with
  | nil => exact absurd hi (Nat.not_lt_zero _)
  | cons byte bytes ih =>
    rw [bigEndian_cons, List.length_cons, Nat.add_sub_cancel]
    rcases i with _ | i
    · have hbyte : byte.toNat < 256 := byte.toNat_lt
      rw [List.getElem_cons_zero, Nat.sub_zero, Nat.add_comm, Nat.mul_comm,
        Nat.add_mul_div_left _ _ (by positivity), Nat.div_eq_of_lt (bigEndian_lt bytes),
        Nat.zero_add, Nat.mod_eq_of_lt hbyte]
    · have hrest : i < bytes.length := Nat.lt_of_succ_lt_succ hi
      have hpow : 256 ^ bytes.length = 256 ^ (bytes.length - (i + 1)) * (256 * 256 ^ i) := by
        rw [← pow_succ', ← pow_add, Nat.sub_add_cancel hrest]
      have hplace : bytes.length - (i + 1) = bytes.length - 1 - i := by omega
      rw [List.getElem_cons_succ, ih hrest, hpow, Nat.mul_left_comm,
        Nat.mul_add_div (by positivity), hplace, Nat.mul_left_comm byte.toNat,
        Nat.mul_add_mod]

/-- Bytes that are those of a number make it up, as far as they reach. -/
theorem bigEndian_of_digits {bytes : List UInt8} {number : ℕ}
    (hdigits : ∀ (i : ℕ) (hi : i < bytes.length),
      bytes[i].toNat = number / 256 ^ (bytes.length - 1 - i) % 256) :
    bigEndian bytes = number % 256 ^ bytes.length := by
  induction bytes with
  | nil => rw [List.length_nil, pow_zero, Nat.mod_one]; rfl
  | cons byte bytes ih =>
    have hfirst := hdigits 0 (Nat.zero_lt_succ _)
    have hrest : bigEndian bytes = number % 256 ^ bytes.length := by
      refine ih fun i hi ↦ ?_
      have hdigit := hdigits (i + 1) (Nat.succ_lt_succ hi)
      rw [List.getElem_cons_succ, List.length_cons, Nat.add_sub_cancel] at hdigit
      have hplace : bytes.length - (i + 1) = bytes.length - 1 - i := by omega
      rw [hdigit, hplace]
    rw [List.getElem_cons_zero, List.length_cons, Nat.add_sub_cancel, Nat.sub_zero] at hfirst
    rw [bigEndian_cons, hfirst, hrest, List.length_cons, pow_succ, Nat.mod_mul, Nat.add_comm,
      Nat.mul_comm]

/-! ### The shift -/

/-- Byte `i` of a number of 32 bytes, zero past the last one. -/
theorem byte_eq_div (x : Bytes32) (i : ℕ) :
    (x[i]?.getD 0).toNat = if i < 32 then bigEndian x.toList / 256 ^ (31 - i) % 256 else 0 := by
  by_cases hi : i < 32
  · have hlength : i < x.toList.length := by rwa [Vector.length_toList]
    have hdigit := bigEndian_digit hlength
    rw [Vector.length_toList] at hdigit
    rw [if_pos hi, ← hdigit]
    simp [hi]
  · rw [if_neg hi]
    simp [hi]

/-- A byte of the shifted number takes the low bits of one byte and the high bits of the next. -/
theorem shifted_byte (high low : UInt8) {bits : ℕ} (hpos : 0 < bits) (hlt : bits < 8) :
    (high <<< UInt8.ofNat bits ||| low >>> (8 - UInt8.ofNat bits)).toNat =
      (high.toNat * 256 + low.toNat) * 2 ^ bits / 256 % 256 := by
  have hhigh := high.toNat_lt
  have hlow := low.toNat_lt
  have hsplit : 2 ^ bits * 2 ^ (8 - bits) = 256 := by
    rw [← pow_add, Nat.add_sub_cancel' hlt.le]
    rfl
  have hcount : (UInt8.ofNat bits).toNat % 8 = bits := by
    rw [UInt8.toNat_ofNat']
    omega
  have hrest : (8 - UInt8.ofNat bits).toNat % 8 = 8 - bits := by
    rw [UInt8.toNat_sub, UInt8.toNat_ofNat']
    show (2 ^ 8 - bits % 2 ^ 8 + 8) % 2 ^ 8 % 8 = 8 - bits
    omega
  have hdiv : low.toNat / 2 ^ (8 - bits) = low.toNat * 2 ^ bits / 256 := by
    rw [← hsplit, Nat.mul_comm low.toNat, Nat.mul_div_mul_left _ _ (by positivity)]
  have hsmall : low.toNat * 2 ^ bits / 256 < 2 ^ bits := by
    rw [Nat.div_lt_iff_lt_mul (by norm_num), Nat.mul_comm]
    exact Nat.mul_lt_mul_of_pos_left hlow (by positivity)
  have hmod : high.toNat * 2 ^ bits % 256 = 2 ^ bits * (high.toNat % 2 ^ (8 - bits)) := by
    rw [← hsplit, Nat.mul_comm, Nat.mul_mod_mul_left]
  have htotal : (high.toNat * 256 + low.toNat) * 2 ^ bits / 256 =
      high.toNat * 2 ^ bits + low.toNat * 2 ^ bits / 256 := by
    have hexpand : (high.toNat * 256 + low.toNat) * 2 ^ bits =
        low.toNat * 2 ^ bits + 256 * (high.toNat * 2 ^ bits) := by ring
    rw [hexpand, Nat.add_mul_div_left _ _ (by norm_num), Nat.add_comm]
  have hbelow : 2 ^ bits * (high.toNat % 2 ^ (8 - bits)) + low.toNat * 2 ^ bits / 256 < 256 := by
    have hlast := Nat.mod_lt high.toNat (Nat.two_pow_pos (8 - bits))
    have hmul := Nat.mul_le_mul_left (2 ^ bits) (Nat.succ_le_of_lt hlast)
    rw [hsplit, Nat.mul_succ] at hmul
    omega
  rw [UInt8.toNat_or, UInt8.toNat_shiftLeft, UInt8.toNat_shiftRight, hcount, hrest,
    Nat.shiftLeft_eq, Nat.shiftRight_eq_div_pow, hdiv]
  show high.toNat * 2 ^ bits % 256 ||| _ = _
  rw [hmod, ← Nat.two_pow_add_eq_or_of_lt hsmall, htotal, ← Nat.mod_add_mod, hmod,
    Nat.mod_eq_of_lt hbelow]

/-- Whole bytes of a shift move the bytes of a number up. -/
theorem shifted_digit (number bytes bits place : ℕ) :
    number * 2 ^ (8 * bytes + bits) / 256 ^ place % 256 =
      if bytes ≤ place then number * 2 ^ bits / 256 ^ (place - bytes) % 256 else 0 := by
  have hpow : number * 2 ^ (8 * bytes + bits) = 256 ^ bytes * (number * 2 ^ bits) := by
    rw [pow_add, pow_mul]
    show number * (256 ^ bytes * 2 ^ bits) = _
    ring
  rw [hpow]
  by_cases hle : bytes ≤ place
  · have hplace : 256 ^ place = 256 ^ bytes * 256 ^ (place - bytes) := by
      rw [← pow_add, Nat.add_sub_cancel' hle]
    rw [if_pos hle, hplace, Nat.mul_div_mul_left _ _ (by positivity)]
  · have hplace : 256 ^ bytes = 256 ^ place * (256 * 256 ^ (bytes - place - 1)) := by
      rw [← pow_succ', ← pow_add]
      congr 1
      omega
    rw [if_neg hle, hplace, Nat.mul_assoc, Nat.mul_div_cancel_left _ (by positivity), Nat.mul_assoc,
      Nat.mul_mod_right]

/-- Bits of a shift carry the high bits of each byte into the one above it. -/
theorem shifted_bits (number : ℕ) {bits : ℕ} (hlt : bits < 8) (place : ℕ) :
    number * 2 ^ bits / 256 ^ (place + 1) % 256 =
      (number / 256 ^ (place + 1) % 256 * 256 + number / 256 ^ place % 256) * 2 ^ bits / 256 %
        256 := by
  have hsplit : 256 = 2 ^ (8 - bits) * 2 ^ bits := by
    rw [← pow_add, Nat.sub_add_cancel hlt.le]
    rfl
  have hshift : number * 2 ^ bits / 256 ^ (place + 1) = number / 256 ^ place / 2 ^ (8 - bits) := by
    have hpow : 256 ^ (place + 1) = 256 ^ place * 2 ^ (8 - bits) * 2 ^ bits := by
      rw [Nat.mul_assoc, ← hsplit, pow_succ]
    rw [hpow, Nat.mul_div_mul_right _ _ (by positivity), Nat.div_div_eq_div_mul]
  have hnext : number / 256 ^ (place + 1) = number / 256 ^ place / 256 := by
    rw [pow_succ, Nat.div_div_eq_div_mul]
  rw [hshift, hnext]
  generalize number / 256 ^ place = rest
  interval_cases bits <;> omega

/-- A byte of the shifted number. -/
theorem shl_byte (x : Bytes32) (n : ℕ) {i : ℕ} (hi : i < 32) :
    ((shl x n)[i]).toNat = bigEndian x.toList * 2 ^ n / 256 ^ (31 - i) % 256 := by
  have hbits : n % 8 < 8 := Nat.mod_lt _ (by norm_num)
  have hhigh := byte_eq_div x (i + n / 8)
  have hlow := byte_eq_div x (i + n / 8 + 1)
  have hdigit := shifted_digit (bigEndian x.toList) (n / 8) (n % 8) (31 - i)
  rw [Nat.div_add_mod] at hdigit
  rw [hdigit]
  simp only [shl, Vector.getElem_ofFn]
  by_cases hzero : n % 8 = 0
  · rw [hzero, if_pos (by decide : UInt8.ofNat 0 = 0), hhigh, pow_zero, Nat.mul_one]
    by_cases hinside : i + n / 8 < 32
    · have hplace : 31 - (i + n / 8) = 31 - i - n / 8 := by omega
      rw [if_pos hinside, if_pos (by omega), hplace]
    · rw [if_neg hinside, if_neg (by omega)]
  · have hnonzero : UInt8.ofNat (n % 8) ≠ 0 := by
      intro heq
      have hvalue := congrArg UInt8.toNat heq
      rw [UInt8.toNat_ofNat'] at hvalue
      change n % 8 % 256 = 0 at hvalue
      omega
    rw [if_neg hnonzero, shifted_byte _ _ (Nat.pos_of_ne_zero hzero) hbits, hhigh, hlow]
    by_cases hnext : i + n / 8 + 1 < 32
    · have hplace : 31 - i - n / 8 = 31 - (i + n / 8 + 1) + 1 := by omega
      have hplace' : 31 - (i + n / 8) = 31 - (i + n / 8 + 1) + 1 := by omega
      rw [if_pos hnext, if_pos (by omega), if_pos (by omega), hplace, shifted_bits _ hbits, hplace']
    · rw [if_neg hnext, Nat.add_zero]
      by_cases hinside : i + n / 8 < 32
      · have hplace : 31 - (i + n / 8) = 0 := by omega
        have hplace' : 31 - i - n / 8 = 0 := by omega
        rw [if_pos hinside, if_pos (by omega), hplace, hplace', pow_zero, Nat.div_one, Nat.div_one,
          Nat.mul_right_comm, Nat.mul_div_cancel _ (by norm_num), Nat.mod_mul_mod]
      · rw [if_neg hinside, if_neg (by omega), Nat.zero_mul, Nat.zero_div,
          Nat.zero_mod]

/-- The shift is a product modulo `2 ^ 256`. -/
theorem shl_value (x : Bytes32) (n : ℕ) :
    bigEndian (shl x n).toList = bigEndian x.toList * 2 ^ n % 2 ^ 256 := by
  have hlength : (shl x n).toList.length = 32 := Vector.length_toList
  have hdigits : ∀ (i : ℕ) (hi : i < (shl x n).toList.length), (shl x n).toList[i].toNat =
      bigEndian x.toList * 2 ^ n / 256 ^ ((shl x n).toList.length - 1 - i) % 256 := by
    intro i hi
    rw [hlength] at hi ⊢
    rw [Vector.getElem_toList, shl_byte x n hi]
  rw [bigEndian_of_digits hdigits, hlength]
  rfl

/-! ### The division -/

/-- What is left of a number after its first bytes are divided. -/
def divisionRemainder (divisor : ℕ) : ℕ → List UInt8 → ℕ
  | remainder, [] => remainder
  | remainder, byte :: rest =>
    divisionRemainder divisor ((remainder * 256 % 2 ^ 128 + byte.toNat) % divisor) rest

/-- The bounds of one step: the remainder stays below the divisor, the shifted one in 128 bits, and
the digit in a byte. -/
theorem division_step {divisor remainder : ℕ} (hle : divisor ≤ 2 ^ 120 - 1)
    (hremainder : remainder < divisor) (byte : UInt8) :
    remainder * 256 + byte.toNat < 2 ^ 128 ∧ (remainder * 256 + byte.toNat) / divisor < 256 := by
  have hbyte := byte.toNat_lt
  refine ⟨by omega, ?_⟩
  rw [Nat.div_lt_iff_lt_mul (Nat.zero_lt_of_lt hremainder)]
  have hmul := Nat.mul_le_mul_left 256 (Nat.succ_le_of_lt hremainder)
  omega

theorem divisionRemainder_lt {divisor remainder : ℕ} (hremainder : remainder < divisor)
    (bytes : List UInt8) : divisionRemainder divisor remainder bytes < divisor := by
  induction bytes generalizing remainder with
  | nil => exact hremainder
  | cons byte rest ih => exact ih (Nat.mod_lt _ (Nat.zero_lt_of_lt hremainder))

/-- Long division: the digits are the quotient. -/
theorem longDivision_quotient {divisor remainder : ℕ} (hle : divisor ≤ 2 ^ 120 - 1)
    (hremainder : remainder < divisor) (bytes : List UInt8) :
    bigEndian (longDivision divisor remainder bytes) * divisor +
        divisionRemainder divisor remainder bytes =
      remainder * 256 ^ bytes.length + bigEndian bytes := by
  induction bytes generalizing remainder with
  | nil => simp [longDivision, divisionRemainder, bigEndian]
  | cons byte rest ih =>
    rcases division_step hle hremainder byte with ⟨hfits, hdigit⟩
    have hsmall : remainder * 256 < 2 ^ 128 := (Nat.le_add_right _ _).trans_lt hfits
    have hshifted : remainder * 256 % 2 ^ 128 + byte.toNat = remainder * 256 + byte.toNat := by
      rw [Nat.mod_eq_of_lt hsmall]
    have hrest := ih (Nat.mod_lt (remainder * 256 + byte.toNat) (Nat.zero_lt_of_lt hremainder))
    have hsplit := Nat.div_add_mod (remainder * 256 + byte.toNat) divisor
    have hbyte : (UInt8.ofNat ((remainder * 256 + byte.toNat) / divisor)).toNat =
        (remainder * 256 + byte.toNat) / divisor := by
      rw [UInt8.toNat_ofNat']
      exact Nat.mod_eq_of_lt hdigit
    rw [longDivision, divisionRemainder, hshifted, bigEndian_cons, bigEndian_cons, hbyte,
      length_longDivision, List.length_cons, pow_succ]
    linear_combination hrest + 256 ^ rest.length * hsplit

/-! ### The target -/

/-- The difficulty-one target shifted by `scaleBits` and divided. -/
def quotientTarget (divisor : ℕ) : Target :=
  ⟨(longDivision divisor 0 (shl diff1 scaleBits).toList).toArray, by
    simp [length_longDivision]⟩

/-- The target of a difficulty is the quotient by its divisor. -/
theorem targetForDifficulty_eq (difficulty : Binary64) :
    targetForDifficulty difficulty = quotientTarget (difficultyDivisor difficulty) := rfl

/-- The larger of a double and one is at least one, also when the double is no number. -/
theorem one_le_truncate_max_one (x : Binary64) :
    1 ≤ (x.max (.ofNat 1)).truncate (2 ^ 128 - 1) := by
  have hone : Binary64.ofNat 1 = .finite 1 := by decide +kernel
  rw [hone]
  rcases x with _ | negative | value
  · decide
  · cases negative <;> decide
  · have hmax : (Binary64.finite value).max (.finite 1) =
        if value < 1 then .finite 1 else .finite value := by
      have hcompare : (Binary64.finite value).lt (.finite 1) = decide (value < 1) := rfl
      unfold Binary64.max
      simp only [hcompare, decide_eq_true_eq]
    rw [hmax]
    by_cases hlt : value < 1
    · rw [if_pos hlt]
      decide
    · have hnum : (value.den : ℤ) ≤ value.num := by
        have hle : (1 : ℚ) ≤ value := not_lt.mp hlt
        rwa [Rat.le_iff, Rat.num_ofNat, Rat.den_ofNat, one_mul, Nat.cast_one, mul_one] at hle
      have hquotient : 1 ≤ value.num.toNat / value.den := by
        rw [Nat.one_le_div_iff value.den_pos]
        omega
      rw [if_neg hlt]
      show 1 ≤ min (value.num.toNat / value.den) (2 ^ 128 - 1)
      exact le_min hquotient (by norm_num)

/-- Every difficulty divides by a number in the range of the division. -/
theorem difficultyDivisor_range (difficulty : Binary64) :
    1 ≤ difficultyDivisor difficulty ∧ difficultyDivisor difficulty ≤ 2 ^ 120 - 1 :=
  ⟨le_min (one_le_truncate_max_one _) (by norm_num), Nat.min_le_right _ _⟩

theorem scaledDiff1_value : Target.value (shl diff1 scaleBits) = Target.value diff1 * 2 ^ 31 := by
  have hsmall : bigEndian diff1.toList * 2 ^ scaleBits < 2 ^ 256 := by decide +kernel
  unfold Target.value
  rw [shl_value, Nat.mod_eq_of_lt hsmall]
  rfl

/-- The target of a divisor in range is the exact quotient, rounded down. -/
theorem quotientTarget_value {divisor : ℕ} (hpos : 1 ≤ divisor) (hle : divisor ≤ 2 ^ 120 - 1) :
    Target.value (quotientTarget divisor) = Target.value diff1 * 2 ^ 31 / divisor := by
  have hquotient := longDivision_quotient hle hpos (shl diff1 scaleBits).toList
  have hremainder := divisionRemainder_lt hpos (shl diff1 scaleBits).toList
  have hvalue : bigEndian (shl diff1 scaleBits).toList = Target.value diff1 * 2 ^ 31 :=
    scaledDiff1_value
  rw [hvalue, Nat.zero_mul, Nat.zero_add] at hquotient
  show bigEndian (longDivision divisor 0 (shl diff1 scaleBits).toList) = _
  rw [← hquotient, Nat.add_comm, Nat.add_mul_div_right _ _ hpos, Nat.div_eq_of_lt hremainder,
    Nat.zero_add]

/-- The target of every difficulty, also of one that is no number, is the exact quotient of the
shifted difficulty-one target by its divisor, which is never zero. -/
theorem targetForDifficulty_value (difficulty : Binary64) :
    0 < difficultyDivisor difficulty ∧
      Target.value (targetForDifficulty difficulty) =
        Target.value diff1 * 2 ^ 31 / difficultyDivisor difficulty := by
  obtain ⟨hpos, hle⟩ := difficultyDivisor_range difficulty
  refine ⟨hpos, ?_⟩
  rw [targetForDifficulty_eq]
  exact quotientTarget_value hpos hle

/-- For every divisor the target is the exact quotient of `diff1 * 2 ^ 31`, of which the shift loses
no bit; at every byte of the division the remainder is below the divisor, the shifted one in 128
bits and the digit in a byte; and a larger divisor has no larger target. -/
theorem quotientTarget_exact {divisor : ℕ} (hpos : 1 ≤ divisor) (hle : divisor ≤ 2 ^ 120 - 1) :
    Target.value (shl diff1 scaleBits) = Target.value diff1 * 2 ^ 31 ∧
      Target.value (quotientTarget divisor) * divisor ≤ Target.value diff1 * 2 ^ 31 ∧
      Target.value diff1 * 2 ^ 31 < (Target.value (quotientTarget divisor) + 1) * divisor ∧
      (∀ (i : ℕ) (hi : i < (shl diff1 scaleBits).toList.length),
        let remainder := divisionRemainder divisor 0 ((shl diff1 scaleBits).toList.take i)
        let byte := (shl diff1 scaleBits).toList[i]
        remainder < divisor ∧ remainder * 256 + byte.toNat < 2 ^ 128 ∧
          (remainder * 256 + byte.toNat) / divisor < 256) ∧
      ∀ larger, divisor ≤ larger → larger ≤ 2 ^ 120 - 1 →
        Target.value (quotientTarget larger) ≤ Target.value (quotientTarget divisor) := by
  have hvalue := quotientTarget_value hpos hle
  refine ⟨scaledDiff1_value, ?_, ?_, fun i hi ↦ ?_, fun larger hlarger hbound ↦ ?_⟩
  · rw [hvalue]
    exact Nat.div_mul_le_self _ _
  · rw [hvalue, Nat.succ_mul]
    exact Nat.lt_div_mul_add hpos
  · have hremainder := divisionRemainder_lt hpos ((shl diff1 scaleBits).toList.take i)
    exact ⟨hremainder, division_step hle hremainder _⟩
  · rw [hvalue, quotientTarget_value (hpos.trans hlarger) hbound]
    exact Nat.div_le_div_left hlarger hpos

/-- The divisor of a difficulty of one ten-millionth. -/
theorem quotientTarget_exact_214 :
    Target.value (quotientTarget 214) * 214 ≤ Target.value diff1 * 2 ^ 31 ∧
      Target.value diff1 * 2 ^ 31 < (Target.value (quotientTarget 214) + 1) * 214 ∧
      Target.value (quotientTarget 215) ≤ Target.value (quotientTarget 214) := by
  rcases quotientTarget_exact (by norm_num : 1 ≤ 214) (by norm_num) with
    ⟨-, hlow, hhigh, -, hantitone⟩
  exact ⟨hlow, hhigh, hantitone 215 (by norm_num) (by norm_num)⟩

end Bc3Miner.Consensus
