import Mathlib.Data.Int.GCD
import Mathlib.Tactic.LinearCombination
import Mathlib.Tactic.Linarith
import Mathlib.Tactic.Ring

/-!
# Euclid's algorithm in rows

The remainders of Euclid's algorithm as combinations of the two numbers it begins with. `EuclidRows`
is the two rows of coefficients, `After` is what `count` divisions have made of them, and
`After.next` is one more division: the rows stay those of consecutive remainders, their coefficients
alternate in sign, and from the second division on the product of the remainders is at most half of
what it was.

The quotients need not come from the remainders themselves. `quotient_of_bounds` has the quotient
of two numbers that are only known up to a scale, where the quotients of their bounds agree.

Neither file nor limbs of a program are in it: rows are of integers, and remainders are natural
numbers. `two_mul_mod_lt` is the halving, and `combination_bounds` bounds a combination of two
intervals by its corners, which `quotient_of_bounds` asks for.
-/

set_option autoImplicit false
set_option relaxedAutoImplicit false

namespace Bc3Miner.Foundations

/-- The coefficients of two numbers. -/
structure EuclidRows where
  a : ℤ
  b : ℤ
  c : ℤ
  d : ℤ
  deriving DecidableEq

namespace EuclidRows

def start : EuclidRows := ⟨1, 0, 0, 1⟩

/-- The rows after a division with a quotient. -/
def next (rows : EuclidRows) (quotient : ℤ) : EuclidRows :=
  ⟨rows.c, rows.d, rows.a - quotient * rows.c, rows.b - quotient * rows.d⟩

/-! ### Divisions -/

/-- A remainder of a number that is no smaller is less than half of it. -/
theorem two_mul_mod_lt {x y : ℕ} (hpos : 0 < y) (hle : y ≤ x) : 2 * (x % y) < x := by
  have hlt := Nat.mod_lt x hpos
  have hquotient : 1 ≤ x / y := (Nat.one_le_div_iff hpos).mpr hle
  have hsplit := Nat.div_add_mod x y
  have hscaled : y * 1 ≤ y * (x / y) := Nat.mul_le_mul_left y hquotient
  omega

/-- Opposite signs add up in absolute value. -/
theorem natAbs_sub_mul {a c : ℤ} (hsigns : a * c ≤ 0) (quotient : ℕ) :
    (a - quotient * c).natAbs = a.natAbs + quotient * c.natAbs := by
  rcases Int.le_total 0 a with ha | ha
  · rcases Int.le_total c 0 with hc | hc
    · have hscaled : (quotient : ℤ) * c ≤ 0 :=
        mul_nonpos_of_nonneg_of_nonpos (Int.natCast_nonneg _) hc
      have hproduct : (quotient * c).natAbs = quotient * c.natAbs := by
        rw [Int.natAbs_mul, Int.natAbs_natCast]
      omega
    · rcases mul_eq_zero.mp (le_antisymm hsigns (mul_nonneg ha hc)) with rfl | rfl
      · simp [Int.natAbs_mul]
      · simp
  · rcases Int.le_total c 0 with hc | hc
    · rcases mul_eq_zero.mp (le_antisymm hsigns (mul_nonneg_of_nonpos_of_nonpos ha hc)) with
        rfl | rfl
      · simp [Int.natAbs_mul]
      · simp
    · have hscaled : 0 ≤ (quotient : ℤ) * c := mul_nonneg (Int.natCast_nonneg _) hc
      have hproduct : (quotient * c).natAbs = quotient * c.natAbs := by
        rw [Int.natAbs_mul, Int.natAbs_natCast]
      omega

/-- `count` divisions from `u` and `v` have come to `x` and `y`. -/
structure After (u v count : ℕ) (rows : EuclidRows) (x y : ℕ) : Prop where
  first : rows.a * u + rows.b * v = x
  second : rows.c * u + rows.d * v = y
  gcd : x.gcd y = u.gcd v
  signs : rows.a * rows.c ≤ 0 ∧ rows.b * rows.d ≤ 0
  left : rows.c.natAbs * x + rows.a.natAbs * y = v
  right : rows.d.natAbs * x + rows.b.natAbs * y = u
  bounds : x ≤ max u v ∧ y ≤ max u v
  ordered : 0 < count → y < x
  product : x * y ≤ u * v
  half : 1 < count → 2 * (x * y) ≤ u * v

variable {u v count : ℕ} {rows : EuclidRows} {x y : ℕ}

/-- The rows start as the unit rows, with the two numbers as remainders. -/
theorem start_after (u v : ℕ) : After u v 0 start u v where
  first := by simp [start]
  second := by simp [start]
  gcd := rfl
  signs := by simp [start]
  left := by simp [start]
  right := by simp [start]
  bounds := ⟨le_max_left u v, le_max_right u v⟩
  ordered := fun hpos ↦ absurd hpos (Nat.lt_irrefl 0)
  product := le_rfl
  half := fun hpos ↦ absurd hpos (by omega)

/-- A division with a divisor that is not zero moves the rows on by its quotient. -/
theorem After.next (hafter : After u v count rows x y) (hpos : 0 < y) :
    After u v (count + 1) (rows.next (x / y : ℕ)) y (x % y) := by
  have hsplit := Nat.div_add_mod x y
  have hremainder : ((x % y : ℕ) : ℤ) = x - (x / y : ℕ) * y := by
    have hcast : ((y * (x / y) + x % y : ℕ) : ℤ) = x := by rw [hsplit]
    rw [Nat.cast_add, Nat.cast_mul] at hcast
    linarith
  have hsquare (c : ℤ) : 0 ≤ ((x / y : ℕ) : ℤ) * (c * c) :=
    mul_nonneg (Int.natCast_nonneg _) (mul_self_nonneg c)
  constructor
  · exact hafter.second
  · rw [hremainder, ← hafter.first, ← hafter.second]
    dsimp only [EuclidRows.next]
    ring
  · rw [← hafter.gcd, Nat.gcd_comm y, ← Nat.gcd_rec y x, Nat.gcd_comm]
  · obtain ⟨hac, hbd⟩ := hafter.signs
    have hc := hsquare rows.c
    have hd := hsquare rows.d
    dsimp only [EuclidRows.next]
    constructor <;> linarith
  · dsimp only [EuclidRows.next]
    rw [natAbs_sub_mul hafter.signs.1, ← hafter.left]
    conv_rhs => rw [← hsplit]
    ring
  · dsimp only [EuclidRows.next]
    rw [natAbs_sub_mul hafter.signs.2, ← hafter.right]
    conv_rhs => rw [← hsplit]
    ring
  · exact ⟨hafter.bounds.2, (Nat.mod_lt x hpos).le.trans hafter.bounds.2⟩
  · exact fun _ ↦ Nat.mod_lt x hpos
  · exact (Nat.mul_comm y _).trans_le
      ((Nat.mul_le_mul_right y (Nat.mod_le x y)).trans hafter.product)
  · intro hlater
    have hlt := hafter.ordered (by omega)
    have hhalf := two_mul_mod_lt hpos hlt.le
    calc 2 * (y * (x % y)) = 2 * (x % y) * y := by ring
      _ ≤ x * y := Nat.mul_le_mul_right y hhalf.le
      _ ≤ u * v := hafter.product

/-- Where both numbers are coprime and neither is one, none of them is zero. -/
theorem pos_of_coprime {u v : ℕ} (hcoprime : u.Coprime v) (hne : v ≠ 1) : 0 < u := by
  rcases Nat.eq_zero_or_pos u with rfl | hpos
  · exact absurd ((Nat.coprime_zero_left v).mp hcoprime) hne
  · exact hpos

/-! ### Quotients of what is known up to a scale -/

/-- A combination of two numbers of which only the upper parts are known: it lies between the
combination of the upper parts with every negative coefficient counted once more and the one with
every positive coefficient counted once more, both scaled up. -/
theorem combination_bounds {scale u v topU topV : ℕ} (hu : topU * scale ≤ u)
    (hu' : u ≤ topU * scale + scale) (hv : topV * scale ≤ v) (hv' : v ≤ topV * scale + scale)
    (a b : ℤ) :
    (a * topU + b * topV + min a 0 + min b 0) * scale ≤ a * u + b * v ∧
      a * u + b * v ≤ (a * topU + b * topV + max a 0 + max b 0) * scale := by
  have hpart : ∀ (coefficient : ℤ) (number top : ℕ), top * scale ≤ number →
      number ≤ top * scale + scale →
      (coefficient * top + min coefficient 0) * scale ≤ coefficient * number ∧
        coefficient * number ≤ (coefficient * top + max coefficient 0) * scale := by
    intro coefficient number top hlow hhigh
    obtain ⟨rest, hrest⟩ := Nat.exists_eq_add_of_le hlow
    have hsmall : (rest : ℤ) ≤ scale := by exact_mod_cast (by omega : rest ≤ scale)
    have hpos : (0 : ℤ) ≤ rest := Int.natCast_nonneg rest
    have hnumber : (number : ℤ) = top * scale + rest := by exact_mod_cast hrest
    rw [hnumber]
    rcases Int.le_total 0 coefficient with hsign | hsign
    · rw [min_eq_right hsign, max_eq_left hsign]
      have hscaled := mul_le_mul_of_nonneg_left hsmall hsign
      have hnonneg := mul_nonneg hsign hpos
      constructor <;> linarith
    · rw [min_eq_left hsign, max_eq_right hsign]
      have hscaled := mul_le_mul_of_nonpos_left hsmall hsign
      have hnonpos := mul_nonpos_of_nonpos_of_nonneg hsign hpos
      constructor <;> linarith
  obtain ⟨hlowU, hhighU⟩ := hpart a u topU hu hu'
  obtain ⟨hlowV, hhighV⟩ := hpart b v topV hv hv'
  constructor <;> linarith

/-- Bounds with one quotient have the quotient of what is between them. -/
theorem quotient_of_bounds {scale x y lowX highX lowY highY : ℕ} (hscale : 0 < scale)
    (hlowX : lowX * scale ≤ x) (hhighX : x ≤ highX * scale) (hlowY : lowY * scale ≤ y)
    (hhighY : y ≤ highY * scale) (hpos : 0 < lowY) (hsame : lowX / highY = highX / lowY) :
    x / y = lowX / highY := by
  have hy : 0 < y := (Nat.mul_pos hpos hscale).trans_le hlowY
  refine Nat.div_eq_of_lt_le ?_ ?_
  · calc lowX / highY * y ≤ lowX / highY * (highY * scale) := Nat.mul_le_mul_left _ hhighY
      _ = lowX / highY * highY * scale := (Nat.mul_assoc _ _ _).symm
      _ ≤ lowX * scale := Nat.mul_le_mul_right scale (Nat.div_mul_le_self lowX highY)
      _ ≤ x := hlowX
  · have hhigh : highX < (highX / lowY + 1) * lowY := by
      rw [Nat.mul_comm]
      exact Nat.lt_mul_div_succ highX hpos
    calc x ≤ highX * scale := hhighX
      _ < (highX / lowY + 1) * lowY * scale := Nat.mul_lt_mul_of_pos_right hhigh hscale
      _ = (lowX / highY + 1) * (lowY * scale) := by rw [hsame, Nat.mul_assoc]
      _ ≤ (lowX / highY + 1) * y := Nat.mul_le_mul_left _ hlowY

end EuclidRows

end Bc3Miner.Foundations
