import Mathlib.Algebra.Order.Group.Unbundled.Int
import Mathlib.Algebra.Order.Ring.Abs
import Mathlib.Tactic.Linarith
import Mathlib.Tactic.LinearCombination
import Mathlib.Tactic.Ring

/-!
# Numbers in signed limbs

A number is a list of whole numbers, its limbs, each worth `2 ^ bits` times the one before. Where
all limbs but the last are not negative and below `2 ^ bits` (`Normal`), the last one is the number
rounded down, and has its sign. `settle` makes such limbs of any columns, with a carry from each to
the next.

`checked bits` is a signed number of that many bits, or nothing where it does not fit.

The limbs are integers here, of any size; that they fit machine words is what `checked` says where
it is used. `settle_value` and `normal_settle` are the two facts about settling: the number is the
same, and the limbs are normal.
-/

set_option autoImplicit false
set_option relaxedAutoImplicit false

namespace Bc3Miner.Foundations

/-! ### Signed numbers of so many bits -/

/-- The number, if it fits. -/
def checked (bits : ℕ) (x : ℤ) : Option ℤ :=
  if -2 ^ (bits - 1) ≤ x ∧ x < 2 ^ (bits - 1) then some x else none

theorem checked_of_abs_lt {bits : ℕ} {x : ℤ} (hx : |x| < 2 ^ (bits - 1)) :
    checked bits x = some x := by
  obtain ⟨hlow, hhigh⟩ := abs_lt.mp hx
  exact if_pos ⟨hlow.le, hhigh⟩

namespace SignedLimbs

variable (bits : ℕ)

/-- The number that the limbs make up. -/
def value : List ℤ → ℤ
  | [] => 0
  | limb :: limbs => limb + 2 ^ bits * value limbs

/-- All limbs but the last are not negative and below `2 ^ bits`. -/
def Normal : List ℤ → Prop
  | limb :: next :: limbs => (0 ≤ limb ∧ limb < 2 ^ bits) ∧ Normal (next :: limbs)
  | _ => True

/-- A carry through the columns, with a last limb that takes what is left of it. -/
def settle (top : ℤ) : List ℤ → ℤ → List ℤ
  | [], carry => [carry + top]
  | column :: columns, carry =>
    (carry + column) % 2 ^ bits :: settle top columns ((carry + column) / 2 ^ bits)

variable {bits}

/-- The value of limbs in a row is that of the low ones and, at its place, that of the high ones. -/
theorem value_append (low high : List ℤ) :
    value bits (low ++ high) = value bits low + 2 ^ (bits * low.length) * value bits high := by
  induction low with
  | nil => simp [value]
  | cons limb low ih =>
    rw [List.cons_append, value, value, ih, List.length_cons, Nat.mul_succ, pow_add]
    ring

/-- Negating every limb negates the number. -/
theorem value_map_neg (limbs : List ℤ) : value bits (limbs.map (-·)) = -value bits limbs := by
  induction limbs with
  | nil => simp [value]
  | cons limb limbs ih =>
    rw [List.map_cons, value, value, ih]
    ring

/-- Adding limb by limb adds the numbers, if they have the same number of limbs. -/
theorem value_zipWith_add {xs ys : List ℤ} (hlength : xs.length = ys.length) :
    value bits (List.zipWith (· + ·) xs ys) = value bits xs + value bits ys := by
  induction xs generalizing ys with
  | nil =>
    obtain rfl := List.length_eq_zero_iff.mp hlength.symm
    simp [value]
  | cons x xs ih =>
    rcases ys with _ | ⟨y, ys⟩
    · cases hlength
    · rw [List.zipWith_cons_cons, value, value, value, ih (Nat.succ.inj hlength)]
      ring

@[simp] theorem length_settle (top : ℤ) (columns : List ℤ) (carry : ℤ) :
    (settle bits top columns carry).length = columns.length + 1 := by
  induction columns generalizing carry with
  | nil => rfl
  | cons column columns ih => rw [settle, List.length_cons, ih, List.length_cons]

/-- Carrying from limb to limb changes no value: the carry that comes in and the top limb are
counted at their places. -/
theorem settle_value (top : ℤ) (columns : List ℤ) (carry : ℤ) :
    value bits (settle bits top columns carry) =
      carry + value bits columns + 2 ^ (bits * columns.length) * top := by
  induction columns generalizing carry with
  | nil => simp [settle, value]
  | cons column columns ih =>
    have hdivide := Int.emod_add_mul_ediv (carry + column) (2 ^ bits)
    rw [settle, value, value, ih, List.length_cons, Nat.mul_succ, pow_add]
    linear_combination hdivide

/-- After the carries every limb below the top is in range. -/
theorem normal_settle (top : ℤ) (columns : List ℤ) (carry : ℤ) :
    Normal bits (settle bits top columns carry) := by
  have hpos : (0 : ℤ) < 2 ^ bits := by positivity
  induction columns generalizing carry with
  | nil => trivial
  | cons column columns ih =>
    have hrest := ih ((carry + column) / 2 ^ bits)
    rw [settle]
    rcases hlimbs : settle bits top columns ((carry + column) / 2 ^ bits) with _ | ⟨next, limbs⟩
    · trivial
    · rw [hlimbs] at hrest
      exact ⟨⟨Int.emod_nonneg _ hpos.ne', Int.emod_lt_of_pos _ hpos⟩, hrest⟩

/-- A number is normal if its lowest limb is in range and the rest is normal. -/
theorem normal_cons_append {limb top : ℤ} {limbs : List ℤ} :
    Normal bits (limb :: limbs ++ [top]) ↔
      (0 ≤ limb ∧ limb < 2 ^ bits) ∧ Normal bits (limbs ++ [top]) := by
  rcases limbs with _ | ⟨next, limbs⟩
  · exact Iff.rfl
  · exact Iff.rfl

/-- The limbs below the last make up less than one of the last. -/
theorem Normal.value_bounds {limbs : List ℤ} {top : ℤ} (hnormal : Normal bits (limbs ++ [top])) :
    0 ≤ value bits limbs ∧ value bits limbs < 2 ^ (bits * limbs.length) := by
  induction limbs with
  | nil => exact ⟨le_rfl, by simp [value]⟩
  | cons limb limbs ih =>
    obtain ⟨⟨hlow, hhigh⟩, hrest⟩ := normal_cons_append.mp hnormal
    obtain ⟨hvalue, hvalue'⟩ := ih hrest
    have hpos : (0 : ℤ) < 2 ^ bits := by positivity
    rw [value, List.length_cons, Nat.mul_succ, pow_add]
    constructor
    · positivity
    · have hstep : 2 ^ bits * (value bits limbs + 1) ≤ 2 ^ bits * 2 ^ (bits * limbs.length) :=
        mul_le_mul_of_nonneg_left hvalue' hpos.le
      linarith

/-- Every limb of a normal number below its top limb is in range. -/
theorem Normal.limb_bounds {limbs : List ℤ} {top : ℤ} (hnormal : Normal bits (limbs ++ [top])) :
    ∀ limb ∈ limbs, 0 ≤ limb ∧ limb < 2 ^ bits := by
  induction limbs with
  | nil => exact fun limb hmem ↦ absurd hmem List.not_mem_nil
  | cons first limbs ih =>
    obtain ⟨hfirst, hrest⟩ := normal_cons_append.mp hnormal
    intro limb hmem
    rcases List.mem_cons.mp hmem with rfl | hmem
    · exact hfirst
    · exact ih hrest limb hmem

/-- The last limb is the number rounded down. -/
theorem Normal.top_eq {limbs : List ℤ} {top : ℤ} (hnormal : Normal bits (limbs ++ [top])) :
    top = value bits (limbs ++ [top]) / 2 ^ (bits * limbs.length) := by
  obtain ⟨hlow, hhigh⟩ := hnormal.value_bounds
  have htop : value bits [top] = top := by simp [value]
  rw [value_append, htop, Int.add_mul_ediv_left _ _ (by positivity),
    Int.ediv_eq_zero_of_lt hlow hhigh,
    zero_add]

/-- The last limb has the sign of the number. -/
theorem Normal.top_neg_iff {limbs : List ℤ} {top : ℤ} (hnormal : Normal bits (limbs ++ [top])) :
    top < 0 ↔ value bits (limbs ++ [top]) < 0 := by
  have hpos : (0 : ℤ) < 2 ^ (bits * limbs.length) := by positivity
  have htop := hnormal.top_eq
  constructor
  · intro hneg
    by_contra hnot
    have hquotient := Int.ediv_nonneg (not_lt.mp hnot) hpos.le
    rw [← htop] at hquotient
    exact absurd hneg (not_lt.mpr hquotient)
  · intro hneg
    have hquotient := Int.ediv_neg_of_neg_of_pos hneg hpos
    rwa [← htop] at hquotient

/-- The digits of a number below `2 ^ (bits * count)`. -/
theorem value_digits (x count : ℕ) :
    value bits ((List.range count).map fun i ↦ ((x / 2 ^ (bits * i) % 2 ^ bits : ℕ) : ℤ)) =
      (x % 2 ^ (bits * count) : ℕ) := by
  induction count with
  | zero => simp [value, Nat.mod_one]
  | succ count ih =>
    have hlast : ∀ digit : ℤ, value bits [digit] = digit := fun digit ↦ by simp [value]
    rw [List.range_succ, List.map_append, value_append, ih, List.length_map, List.length_range,
      List.map_singleton, hlast, Nat.mul_succ, pow_add, Nat.mod_mul]
    push_cast
    ring

end SignedLimbs

end Bc3Miner.Foundations
