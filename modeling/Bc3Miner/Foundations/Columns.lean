import Mathlib.Data.Nat.Digits.Defs
import Mathlib.Data.Nat.Digits.Lemmas
import Mathlib.Data.UInt
import Mathlib.Tactic.LinearCombination

/-!
# Sums by columns

A product of numbers in words of 32 bits is a sum of columns of 64 bits, and what remains is to
carry from each column into the next. `carryPass` does that in one pass, and `carryPass_sum` says
that nothing is lost as long as no column is within a carry of overflowing.

`columnValue` is the number that columns stand for and `value` the one that words stand for. A
number below the place of a carry has none (`no_carry`), and the columns of a product, row by row,
are bounded by the number of rows (`rowColumns_le`), which is why a product of eight words needs no
wider accumulators.
-/

set_option autoImplicit false
set_option relaxedAutoImplicit false

namespace Bc3Miner.Foundations.Columns

/-- The value of words of 32 bits, least significant first. -/
def value (words : List UInt32) : ℕ := Nat.ofDigits (2 ^ 32) (words.map UInt32.toNat)

/-- The value of columns before they are carried. -/
def columnValue (columns : List UInt64) : ℕ := Nat.ofDigits (2 ^ 32) (columns.map UInt64.toNat)

@[simp] theorem value_nil : value [] = 0 := rfl

@[simp] theorem columnValue_nil : columnValue [] = 0 := rfl

theorem value_cons (word : UInt32) (words : List UInt32) :
    value (word :: words) = word.toNat + 2 ^ 32 * value words := by
  unfold value
  rw [List.map_cons, Nat.ofDigits_cons]

theorem columnValue_cons (column : UInt64) (columns : List UInt64) :
    columnValue (column :: columns) = column.toNat + 2 ^ 32 * columnValue columns := by
  unfold columnValue
  rw [List.map_cons, Nat.ofDigits_cons]

theorem value_append (low high : List UInt32) :
    value (low ++ high) = value low + 2 ^ (32 * low.length) * value high := by
  unfold value
  rw [List.map_append, Nat.ofDigits_append, List.length_map, ← pow_mul]

/-- A number of `n` words is below `2 ^ (32 * n)`. -/
theorem value_lt (words : List UInt32) : value words < 2 ^ (32 * words.length) := by
  have hdigits : ∀ digit ∈ words.map UInt32.toNat, digit < 2 ^ 32 := by
    intro digit hmem
    rcases List.mem_map.mp hmem with ⟨word, -, rfl⟩
    exact word.toNat_lt
  have hlt := Nat.ofDigits_lt_base_pow_length (by norm_num : 1 < 2 ^ 32) hdigits
  rwa [List.length_map, ← pow_mul] at hlt

/-- Words that are all zero stand for zero. -/
theorem value_replicate_zero (count : ℕ) : value (List.replicate count 0) = 0 := by
  induction count with
  | zero => rfl
  | succ count ih =>
    rw [List.replicate_succ, value_cons, ih]
    rfl

/-- Each column and what is carried into it, the low word kept and the high one carried on. -/
def carryPass : List UInt64 → UInt64 → List UInt32 × UInt64
  | [], carry => ([], carry)
  | column :: columns, carry =>
    let sum := carry + column
    let rest := carryPass columns (sum >>> 32)
    (sum.toUInt32 :: rest.1, rest.2)

theorem length_carryPass (columns : List UInt64) (carry : UInt64) :
    (carryPass columns carry).1.length = columns.length := by
  induction columns generalizing carry with
  | nil => rfl
  | cons column columns ih => rw [carryPass, List.length_cons, ih, List.length_cons]

/-- A pass of carries over columns that leave room for one keeps the value: the words, and the carry
that goes out above them, stand for the columns and the carry that came in; and the carry that goes
out fits in 32 bits again. -/
theorem carryPass_sum {columns : List UInt64} (carry : UInt64)
    (hcolumns : ∀ column ∈ columns, column.toNat ≤ 2 ^ 64 - 2 ^ 32)
    (hcarry : carry.toNat < 2 ^ 32) :
    value (carryPass columns carry).1 +
        2 ^ (32 * columns.length) * (carryPass columns carry).2.toNat =
      columnValue columns + carry.toNat ∧ (carryPass columns carry).2.toNat < 2 ^ 32 := by
  induction columns generalizing carry with
  | nil => simpa [carryPass] using hcarry
  | cons column columns ih =>
    have hcolumn := hcolumns column List.mem_cons_self
    have hsum : (carry + column).toNat = carry.toNat + column.toNat := by
      rw [UInt64.toNat_add, Nat.mod_eq_of_lt (by omega)]
    have hhigh : ((carry + column) >>> 32).toNat = (carry.toNat + column.toNat) / 2 ^ 32 := by
      rw [UInt64.toNat_shiftRight, hsum, Nat.shiftRight_eq_div_pow]
      rfl
    have hnext : ((carry + column) >>> 32).toNat < 2 ^ 32 := by
      have hlt := (carry + column).toNat_lt
      omega
    have hlow : (carry + column).toUInt32.toNat = (carry.toNat + column.toNat) % 2 ^ 32 := by
      rw [UInt64.toNat_toUInt32, hsum]
    rcases ih _ (fun column hmem ↦ hcolumns column (List.mem_cons_of_mem _ hmem)) hnext with
      ⟨hrest, hlast⟩
    refine ⟨?_, hlast⟩
    have hsplit := Nat.mod_add_div (carry.toNat + column.toNat) (2 ^ 32)
    rw [carryPass, value_cons, columnValue_cons, List.length_cons, Nat.mul_succ, pow_add, hlow]
    rw [hhigh] at hrest
    linear_combination hsplit + 2 ^ 32 * hrest

/-- A total below the bound leaves nothing to carry. -/
theorem no_carry {out bound carry total : ℕ} (hsum : out + bound * carry = total)
    (htotal : total < bound) : carry = 0 ∧ out = total := by
  have hcarry : carry = 0 := by
    by_contra hne
    have hmul := Nat.mul_le_mul_left bound (Nat.one_le_iff_ne_zero.mpr hne)
    omega
  refine ⟨hcarry, ?_⟩
  rwa [hcarry, Nat.mul_zero, Nat.add_zero] at hsum

/-- Columns added to the words from the lowest on. -/
def addColumns : List UInt32 → List UInt64 → List UInt64
  | words, [] => words.map UInt32.toUInt64
  | [], _ :: _ => []
  | word :: words, column :: columns => (word.toUInt64 + column) :: addColumns words columns

/-- Adding columns to words changes no word count. -/
theorem length_addColumns (words : List UInt32) (columns : List UInt64) :
    (addColumns words columns).length = words.length := by
  induction words generalizing columns with
  | nil => rcases columns with _ | ⟨column, columns⟩ <;> rfl
  | cons word words ih =>
    rcases columns with _ | ⟨column, columns⟩
    · simp [addColumns]
    · rw [addColumns, List.length_cons, ih, List.length_cons]

/-- Words widened to columns stand for the same number, and leave room for a word more in every
column. -/
theorem columnValue_words (words : List UInt32) :
    columnValue (words.map UInt32.toUInt64) = value words ∧
      ∀ column ∈ words.map UInt32.toUInt64, column.toNat ≤ 2 ^ 64 - 2 ^ 32 := by
  induction words with
  | nil => simp
  | cons word words ih =>
    have hword := word.toNat_lt
    refine ⟨?_, fun column hmem ↦ ?_⟩
    · rw [List.map_cons, columnValue_cons, value_cons, ih.1, UInt32.toNat_toUInt64]
    · rcases List.mem_cons.mp hmem with rfl | hmem
      · rw [UInt32.toNat_toUInt64]
        omega
      · exact ih.2 column hmem

/-- Columns below `2 ^ 63` can be added to words, if there are no more of them than words: no column
overflows, each leaves room for a carry, and the value is the sum of the two. -/
theorem addColumns_value {words : List UInt32} {columns : List UInt64}
    (hlength : columns.length ≤ words.length)
    (hcolumns : ∀ column ∈ columns, column.toNat < 2 ^ 63) :
    columnValue (addColumns words columns) = value words + columnValue columns ∧
      ∀ column ∈ addColumns words columns, column.toNat ≤ 2 ^ 64 - 2 ^ 32 := by
  induction words generalizing columns with
  | nil =>
    rw [List.length_eq_zero_iff.mp (Nat.le_zero.mp hlength)]
    simp [addColumns]
  | cons word words ih =>
    rcases columns with _ | ⟨column, columns⟩
    · have hwords := columnValue_words (word :: words)
      exact ⟨hwords.1, hwords.2⟩
    · have hword := word.toNat_lt
      have hcolumn := hcolumns column List.mem_cons_self
      have hsum : (word.toUInt64 + column).toNat = word.toNat + column.toNat := by
        rw [UInt64.toNat_add, UInt32.toNat_toUInt64, Nat.mod_eq_of_lt (by omega)]
      have hshorter : columns.length ≤ words.length := by simpa using hlength
      rcases ih hshorter fun other hmem ↦ hcolumns other (List.mem_cons_of_mem column hmem) with
        ⟨hvalue, hle⟩
      refine ⟨?_, fun other hmem ↦ ?_⟩
      · rw [addColumns, columnValue_cons, value_cons, columnValue_cons, hsum, hvalue]
        ring
      · rcases List.mem_cons.mp hmem with rfl | hmem
        · rw [hsum]
          omega
        · exact hle other hmem

/-- Columns added to words and carried: what comes out, and the carry. -/
theorem carryPass_addColumns {words : List UInt32} {columns : List UInt64}
    (hlength : columns.length ≤ words.length)
    (hcolumns : ∀ column ∈ columns, column.toNat < 2 ^ 63) :
    value (carryPass (addColumns words columns) 0).1 +
        2 ^ (32 * words.length) * (carryPass (addColumns words columns) 0).2.toNat =
      value words + columnValue columns ∧
      (carryPass (addColumns words columns) 0).1.length = words.length := by
  rcases addColumns_value hlength hcolumns with ⟨hvalue, hle⟩
  have hsum := (carryPass_sum 0 hle (by decide)).1
  rw [length_addColumns, hvalue] at hsum
  exact ⟨hsum, by rw [length_carryPass, length_addColumns]⟩

/-- The columns of one row of a product: a word times each of `words`, and what is there already. -/
def rowColumns (word : UInt32) (words sums : List UInt32) : List UInt64 :=
  List.zipWith (fun other sum ↦ word.toUInt64 * other.toUInt64 + sum.toUInt64) words sums

/-- A product of two words and a word fit in one column: the sum does not wrap, and leaves room for
the carry of the column before. -/
theorem toNat_rowColumn (word other sum : UInt32) :
    (word.toUInt64 * other.toUInt64 + sum.toUInt64).toNat =
      word.toNat * other.toNat + sum.toNat ∧
      word.toNat * other.toNat + sum.toNat ≤ 2 ^ 64 - 2 ^ 32 := by
  have hword := word.toNat_lt
  have hother := other.toNat_lt
  have hsum := sum.toNat_lt
  have hproduct : word.toNat * other.toNat ≤ (2 ^ 32 - 1) * (2 ^ 32 - 1) :=
    Nat.mul_le_mul (by omega) (by omega)
  have hle : word.toNat * other.toNat + sum.toNat ≤ 2 ^ 64 - 2 ^ 32 := by omega
  refine ⟨?_, hle⟩
  rw [UInt64.toNat_add, UInt64.toNat_mul, UInt32.toNat_toUInt64, UInt32.toNat_toUInt64,
    UInt32.toNat_toUInt64, Nat.mod_add_mod, Nat.mod_eq_of_lt (by omega)]

/-- Every column of a row leaves room for a carry. -/
theorem rowColumns_le (word : UInt32) (words sums : List UInt32) :
    ∀ column ∈ rowColumns word words sums, column.toNat ≤ 2 ^ 64 - 2 ^ 32 := by
  induction words generalizing sums with
  | nil => simp [rowColumns]
  | cons other words ih =>
    rcases sums with _ | ⟨sum, sums⟩
    · simp [rowColumns]
    · intro column hmem
      rcases List.mem_cons.mp hmem with rfl | hmem
      · rw [(toNat_rowColumn word other sum).1]
        exact (toNat_rowColumn word other sum).2
      · exact ih sums column hmem

/-- The columns of a row stand for the word times the number plus what was there, if both have the
same number of words. -/
theorem rowColumns_value (word : UInt32) {words sums : List UInt32}
    (hlength : words.length = sums.length) :
    columnValue (rowColumns word words sums) = word.toNat * value words + value sums := by
  induction words generalizing sums with
  | nil =>
    rw [List.length_eq_zero_iff.mp hlength.symm]
    simp [rowColumns]
  | cons other words ih =>
    rcases sums with _ | ⟨sum, sums⟩
    · exact absurd hlength (by simp)
    · have hrest : columnValue (rowColumns word words sums) =
          word.toNat * value words + value sums := ih (by simpa using hlength)
      have hhead := (toNat_rowColumn word other sum).1
      change columnValue (_ :: rowColumns word words sums) = _
      rw [columnValue_cons, value_cons, value_cons]
      linear_combination hhead + 2 ^ 32 * hrest

/-- A row of a product added to what is there: the words, and the carry as one more word. -/
def row (word : UInt32) (words sums : List UInt32) : List UInt32 :=
  let (out, carry) := carryPass (rowColumns word words sums) 0
  out ++ [carry.toUInt32]

theorem length_row (word : UInt32) (words sums : List UInt32) :
    (row word words sums).length = min words.length sums.length + 1 := by
  simp [row, length_carryPass, rowColumns]

/-- After its carries a row still stands for the word times the number plus what was there. -/
theorem row_value (word : UInt32) {words sums : List UInt32}
    (hlength : words.length = sums.length) :
    value (row word words sums) = word.toNat * value words + value sums := by
  rcases carryPass_sum 0 (rowColumns_le word words sums) (by decide) with ⟨hsum, hlast⟩
  have hword : (carryPass (rowColumns word words sums) 0).2.toUInt32.toNat =
      (carryPass (rowColumns word words sums) 0).2.toNat := by
    rw [UInt64.toNat_toUInt32, Nat.mod_eq_of_lt hlast]
  have hcount : (rowColumns word words sums).length =
      (carryPass (rowColumns word words sums) 0).1.length := (length_carryPass _ _).symm
  rw [rowColumns_value word hlength] at hsum
  rw [row, value_append, value_cons, value_nil, Nat.mul_zero, Nat.add_zero, hword, ← hcount, hsum]
  rfl

end Bc3Miner.Foundations.Columns
