import Bc3Miner.Foundations.Columns

/-!
# Carry chains

Words of 32 bits added one after the other, with a flag between them (`addChain`), and the two
words of a product (`wide`). What the flag carries out of a chain is all that the words lose.

Next to the chains, the pass of `carryPass` over accumulators that fail on overflow
(`checkedPass`): where it returns, no accumulator has lost a carry.

`addChain_sum` is the equation of a chain: the sum of the two numbers and the carry that comes in is
what comes out and the carry at its end, worth the next word. Columns that leave room for a carry
overflow no accumulator, so that there the two passes give the same words (`checkedPass_eq`).
-/

set_option autoImplicit false
set_option relaxedAutoImplicit false

namespace Bc3Miner.Foundations.Columns

/-! ### Values -/

/-- Words of one length are determined by their value. -/
theorem value_injective {a b : List UInt32} (hlength : a.length = b.length)
    (hvalue : value a = value b) : a = b := by
  induction a generalizing b with
  | nil => exact (List.length_eq_zero_iff.mp hlength.symm).symm
  | cons word a ih =>
    rcases b with _ | ⟨other, b⟩
    · exact absurd hlength (by simp)
    · have hword := word.toNat_lt
      have hother := other.toNat_lt
      rw [value_cons, value_cons] at hvalue
      have hhead : word = other := UInt32.toNat_inj.mp (by omega)
      have htail : a = b := ih (by simpa using hlength) (by omega)
      rw [hhead, htail]

theorem value_singleton (word : UInt32) : value [word] = word.toNat := by
  rw [value_cons, value_nil, Nat.mul_zero, Nat.add_zero]

/-- Words whose bits are all set. -/
def allOnes (words : List UInt32) : Bool := words.all (· == 0xffffffff)

/-- All words are all ones exactly when the number is the greatest of that many words. -/
theorem allOnes_iff (words : List UInt32) :
    allOnes words = true ↔ value words = 2 ^ (32 * words.length) - 1 := by
  induction words with
  | nil => simp [allOnes]
  | cons word words ih =>
    have hword := word.toNat_lt
    have hwords := value_lt words
    have hones : word = 0xffffffff ↔ word.toNat = 2 ^ 32 - 1 := UInt32.toNat_inj.symm
    have hcons : allOnes (word :: words) = true ↔ word = 0xffffffff ∧ allOnes words = true := by
      simp [allOnes]
    rw [hcons, ih, hones, value_cons, List.length_cons, Nat.mul_succ, pow_add]
    constructor
    · rintro ⟨hhead, htail⟩
      omega
    · intro hvalue
      constructor <;> omega

/-! ### Chains -/

/-- A sum of two words and a flag, and whether it runs over. -/
def addWithCarry (a b : UInt32) (carry : Bool) : UInt32 × Bool :=
  (a + b + carry.toUInt32, 2 ^ 32 ≤ a.toNat + b.toNat + carry.toNat)

/-- The word and the carry that go out stand for the sum of the two words and the carry that comes
in. -/
theorem addWithCarry_sum (a b : UInt32) (carry : Bool) :
    (addWithCarry a b carry).1.toNat + 2 ^ 32 * (addWithCarry a b carry).2.toNat =
      a.toNat + b.toNat + carry.toNat := by
  have ha := a.toNat_lt
  have hb := b.toNat_lt
  have hcarry := carry.toNat_le
  have hflag : carry.toUInt32.toNat = carry.toNat := by cases carry <;> rfl
  unfold addWithCarry
  rw [UInt32.toNat_add, UInt32.toNat_add, hflag, Nat.mod_add_mod]
  by_cases hover : 2 ^ 32 ≤ a.toNat + b.toNat + carry.toNat
  · rw [decide_eq_true hover, Bool.toNat_true]
    omega
  · rw [decide_eq_false hover, Bool.toNat_false]
    omega

def addChain : List UInt32 → List UInt32 → Bool → List UInt32 × Bool
  | a :: as, b :: bs, carry =>
    let sum := addWithCarry a b carry
    let rest := addChain as bs sum.2
    (sum.1 :: rest.1, rest.2)
  | _, _, carry => ([], carry)

/-- A chain of additions over two lists of equal length gives as many words. -/
theorem length_addChain {as bs : List UInt32} (hlength : as.length = bs.length) (carry : Bool) :
    (addChain as bs carry).1.length = as.length := by
  induction as generalizing bs carry with
  | nil => rfl
  | cons a as ih =>
    rcases bs with _ | ⟨b, bs⟩
    · exact absurd hlength (by simp)
    · rw [addChain, List.length_cons, ih (by simpa using hlength), List.length_cons]

/-- A chain keeps the sum. -/
theorem addChain_sum {as bs : List UInt32} (hlength : as.length = bs.length) (carry : Bool) :
    value (addChain as bs carry).1 + 2 ^ (32 * as.length) * (addChain as bs carry).2.toNat =
      value as + value bs + carry.toNat := by
  induction as generalizing bs carry with
  | nil =>
    rw [List.length_eq_zero_iff.mp hlength.symm]
    simp [addChain]
  | cons a as ih =>
    rcases bs with _ | ⟨b, bs⟩
    · exact absurd hlength (by simp)
    · have hsum := addWithCarry_sum a b carry
      have hrest : as.length = bs.length := by simpa using hlength
      have hchain := ih hrest (addWithCarry a b carry).2
      rw [addChain, value_cons, value_cons, value_cons, List.length_cons, Nat.mul_succ, pow_add]
      linear_combination hsum + 2 ^ 32 * hchain

/-- The two words of a product. -/
def wide (a b : UInt32) : List UInt32 :=
  let product := a.toUInt64 * b.toUInt64
  [product.toUInt32, (product >>> 32).toUInt32]

theorem toNat_product (a b : UInt32) : (a.toUInt64 * b.toUInt64).toNat = a.toNat * b.toNat := by
  have hlt : a.toNat * b.toNat < 2 ^ 32 * 2 ^ 32 := Nat.mul_lt_mul'' a.toNat_lt b.toNat_lt
  rw [UInt64.toNat_mul, UInt32.toNat_toUInt64, UInt32.toNat_toUInt64, Nat.mod_eq_of_lt]
  rwa [← pow_add] at hlt

/-- The two halves of a wide product stand for the product of the two words. -/
theorem wide_value (a b : UInt32) : value (wide a b) = a.toNat * b.toNat := by
  have hlt : a.toNat * b.toNat < 2 ^ 64 := by
    have hproduct := (a.toUInt64 * b.toUInt64).toNat_lt
    rwa [toNat_product] at hproduct
  have hshift : ((a.toUInt64 * b.toUInt64) >>> 32).toNat = a.toNat * b.toNat / 2 ^ 32 := by
    rw [UInt64.toNat_shiftRight, toNat_product, Nat.shiftRight_eq_div_pow]
    rfl
  rw [wide, value_cons, value_singleton, UInt64.toNat_toUInt32, UInt64.toNat_toUInt32, hshift,
    toNat_product]
  omega

/-- A carry that runs up the words. -/
theorem carryPass_words (words : List UInt32) {carry : UInt64} (hcarry : carry.toNat < 2 ^ 32) :
    value (carryPass (words.map UInt32.toUInt64) carry).1 +
        2 ^ (32 * words.length) * (carryPass (words.map UInt32.toUInt64) carry).2.toNat =
      value words + carry.toNat ∧
      (carryPass (words.map UInt32.toUInt64) carry).1.length = words.length := by
  obtain ⟨hvalue, hle⟩ := columnValue_words words
  have hsum := (carryPass_sum carry hle hcarry).1
  rw [hvalue, List.length_map] at hsum
  exact ⟨hsum, by rw [length_carryPass, List.length_map]⟩

/-! ### Accumulators that fail on overflow -/

def checkedAdd (a b : UInt64) : Option UInt64 :=
  if a.toNat + b.toNat < 2 ^ 64 then some (a + b) else none

def checkedMul (a b : UInt64) : Option UInt64 :=
  if a.toNat * b.toNat < 2 ^ 64 then some (a * b) else none

/-- `carryPass` with each column as the terms that the accumulator takes, one by one. -/
def checkedPass : List (List UInt64) → UInt64 → Option (List UInt32 × UInt64)
  | [], carry => some ([], carry)
  | terms :: columns, carry => do
    let sum ← terms.foldlM checkedAdd carry
    let rest ← checkedPass columns (sum >>> 32)
    some (sum.toUInt32 :: rest.1, rest.2)

/-- If the carry and all terms add up to less than `2 ^ 64`, no checked addition on the way fails,
and the outcome is their sum. -/
theorem foldlM_checkedAdd {terms : List UInt64} {carry : UInt64}
    (hfits : carry.toNat + (terms.map UInt64.toNat).sum < 2 ^ 64) :
    terms.foldlM checkedAdd carry = some (carry + terms.sum) := by
  induction terms generalizing carry with
  | nil => simp
  | cons term terms ih =>
    rw [List.map_cons, List.sum_cons] at hfits
    have hsum : (carry + term).toNat = carry.toNat + term.toNat := by
      rw [UInt64.toNat_add, Nat.mod_eq_of_lt (by omega)]
    rw [List.foldlM_cons, checkedAdd, if_pos (by omega), Option.bind_eq_bind, Option.bind_some,
      ih (by omega), List.sum_cons, UInt64.add_assoc]

/-- Columns that leave room for a carry overflow no accumulator. -/
theorem checkedPass_eq {columns : List (List UInt64)} {carry : UInt64}
    (hcolumns : ∀ terms ∈ columns, (terms.map UInt64.toNat).sum ≤ 2 ^ 64 - 2 ^ 32)
    (hcarry : carry.toNat < 2 ^ 32) :
    checkedPass columns carry = some (carryPass (columns.map List.sum) carry) := by
  induction columns generalizing carry with
  | nil => rfl
  | cons terms columns ih =>
    have hterms := hcolumns terms List.mem_cons_self
    have hnext : ((carry + terms.sum) >>> 32).toNat < 2 ^ 32 := by
      have hlt := (carry + terms.sum).toNat_lt
      rw [UInt64.toNat_shiftRight, Nat.shiftRight_eq_div_pow]
      exact Nat.div_lt_of_lt_mul hlt
    rw [checkedPass, foldlM_checkedAdd (by omega), Option.bind_eq_bind, Option.bind_some,
      ih (fun other hmem ↦ hcolumns other (List.mem_cons_of_mem _ hmem)) hnext]
    rfl

end Bc3Miner.Foundations.Columns
