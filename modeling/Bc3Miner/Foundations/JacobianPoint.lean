import Mathlib.AlgebraicGeometry.EllipticCurve.Affine.Point
import Mathlib.AlgebraicGeometry.EllipticCurve.NormalForms
import Mathlib.GroupTheory.OrderOfElement
import Mathlib.Tactic.FieldSimp
import Mathlib.Tactic.LinearCombination

/-!
# Jacobian coordinates

Points of a short Weierstrass curve as `(X, Y, Z)`, which stands for the affine point with
coordinates `X / Z ^ 2` and `Y / Z ^ 3`. `addAffine` adds an affine point and `double` doubles, the
latter on curves without a linear term. Both are the formulas of the general case only: `addAffine`
is right for a point that is neither the same nor the opposite one, which `eq_or_eq_neg_iff` tells
from the coordinates. `multiple` doubles and adds along the bits of a scalar, and `annihilates`
decides with it that a prime is the order of a point.

The formulas are over any field and any curve of the shape, with the affine points and the group law
of the library. What the caller has to know of a point is stated in coordinates only: that a
difference is zero, that a third coordinate is not. `addOrderOf_eq` turns the computation of
`annihilates` into the order of a point.
-/

set_option autoImplicit false
set_option relaxedAutoImplicit false

namespace Bc3Miner.Foundations.Jacobian

variable {F : Type} [Field F] {W : WeierstrassCurve.Affine F}

/-! ### Formulas -/

/-- The difference that is zero for the same and the opposite point. -/
def difference (X Z x : F) : F := x * (Z * Z) - X

/-- The sum with the affine point `(x, y)`. -/
def addAffine (X Y Z x y : F) : F × F × F :=
  let h := difference X Z x
  let r := y * Z * (Z * Z) - Y
  let x3 := r * r - h * (h * h) - (X * (h * h) + X * (h * h))
  (x3, r * (X * (h * h) - x3) - Y * (h * (h * h)), Z * h)

/-- The double of a point. -/
def double (X Y Z : F) : F × F × F :=
  let d := (X + Y * Y) * (X + Y * Y) - X * X - Y * Y * (Y * Y)
  let e := X * X + X * X + X * X
  let x3 := e * e - (d + d + (d + d))
  let c2 := Y * Y * (Y * Y) + Y * Y * (Y * Y)
  (x3, e * (d + d - x3) - (c2 + c2 + (c2 + c2)), Y * Z + Y * Z)

/-! ### The points they stand for -/

/-- `(X, Y, Z)` stands for the affine point `Q`. -/
structure Represents (W : WeierstrassCurve.Affine F) (X Y Z : F) (Q : W.Point) : Prop where
  z_ne_zero : Z ≠ 0
  point : ∃ h : W.Nonsingular (X / Z ^ 2) (Y / Z ^ 3), Q = .some _ _ h

/-- An affine point stands for itself. -/
theorem Represents.affine {x y : F} (h : W.Nonsingular x y) : Represents W x y 1 (.some x y h) := by
  have hx : x / 1 ^ 2 = x := by rw [one_pow, div_one]
  have hy : y / 1 ^ 3 = y := by rw [one_pow, div_one]
  refine ⟨one_ne_zero, by rwa [hx, hy], ?_⟩
  simp only [hx, hy]

theorem Represents.ne_zero {X Y Z : F} {Q : W.Point} (hrep : Represents W X Y Z Q) : Q ≠ 0 := by
  rcases hrep.point with ⟨h, rfl⟩
  exact WeierstrassCurve.Affine.Point.some_ne_zero h

theorem difference_eq_zero_iff {X Z x : F} (hz : Z ≠ 0) :
    difference X Z x = 0 ↔ X / Z ^ 2 = x := by
  unfold difference
  rw [sub_eq_zero, div_eq_iff (pow_ne_zero 2 hz), ← sq, eq_comm]

/-- The difference is zero exactly for the same and the opposite point. -/
theorem Represents.eq_or_eq_neg_iff {X Y Z x y : F} {Q : W.Point} (hrep : Represents W X Y Z Q)
    (h : W.Nonsingular x y) :
    difference X Z x = 0 ↔ Q = .some x y h ∨ Q = -.some x y h := by
  rcases hrep.point with ⟨hQ, rfl⟩
  rw [difference_eq_zero_iff hrep.z_ne_zero]
  exact WeierstrassCurve.Affine.Point.X_eq_iff

/-- With the difference zero, the second coordinates tell the same point from the opposite one. -/
theorem Represents.eq_iff {X Y Z x y : F} {Q : W.Point} (hrep : Represents W X Y Z Q)
    (h : W.Nonsingular x y) (hdifference : difference X Z x = 0) :
    y * Z * (Z * Z) - Y = 0 ↔ Q = .some x y h := by
  have hz := hrep.z_ne_zero
  have hx : X / Z ^ 2 = x := (difference_eq_zero_iff hz).mp hdifference
  have hy : y * Z * (Z * Z) - Y = 0 ↔ Y / Z ^ 3 = y := by
    have hcube : y * Z * (Z * Z) = y * Z ^ 3 := by ring
    rw [sub_eq_zero, div_eq_iff (pow_ne_zero 3 hz), hcube, eq_comm]
  rcases hrep.point with ⟨hQ, rfl⟩
  rw [hy, WeierstrassCurve.Affine.Point.some.injEq]
  exact ⟨fun heq ↦ ⟨hx, heq⟩, fun hboth ↦ hboth.2⟩

variable [DecidableEq F]

/-- The affine coordinates of a sum of a Jacobian and an affine point with different first
coordinates are those that the chord has: the third coordinate of the sum divides out, as that of
the first point does. -/
theorem addAffine_coordinates (W : WeierstrassCurve.Affine F) [W.IsShortNF] {u Z x : F} (v y : F)
    (hz : Z ≠ 0) (hne : u ≠ x) :
    (addAffine (u * Z ^ 2) (v * Z ^ 3) Z x y).1 /
        (addAffine (u * Z ^ 2) (v * Z ^ 3) Z x y).2.2 ^ 2 = W.addX u x (W.slope u x v y) ∧
      (addAffine (u * Z ^ 2) (v * Z ^ 3) Z x y).2.1 /
        (addAffine (u * Z ^ 2) (v * Z ^ 3) Z x y).2.2 ^ 3 = W.addY u x v (W.slope u x v y) := by
  have hdifference : u - x ≠ 0 := sub_ne_zero.mpr hne
  have hopposite : x - u ≠ 0 := sub_ne_zero.mpr hne.symm
  rw [WeierstrassCurve.Affine.slope_of_X_ne hne]
  simp only [addAffine, difference, WeierstrassCurve.Affine.addX, WeierstrassCurve.Affine.addY,
    WeierstrassCurve.Affine.negAddY, WeierstrassCurve.Affine.negY,
    WeierstrassCurve.a₁_of_isShortNF, WeierstrassCurve.a₂_of_isShortNF,
    WeierstrassCurve.a₃_of_isShortNF]
  have hh : x * (Z * Z) - u * Z ^ 2 = (x - u) * Z ^ 2 := by ring
  rw [hh]
  constructor
  · field_simp
    ring
  · field_simp
    ring

/-- The sum of a point with an affine one that is neither the same nor the opposite one. -/
theorem Represents.addAffine [W.IsShortNF] {X Y Z x y : F} {Q : W.Point}
    (hrep : Represents W X Y Z Q) (h : W.Nonsingular x y) (hne : difference X Z x ≠ 0) :
    Represents W (addAffine X Y Z x y).1 (addAffine X Y Z x y).2.1 (addAffine X Y Z x y).2.2
      (Q + .some x y h) := by
  rcases hrep.point with ⟨hQ, rfl⟩
  have hz := hrep.z_ne_zero
  have hx : X / Z ^ 2 ≠ x := fun heq ↦ hne ((difference_eq_zero_iff hz).mpr heq)
  have hX : X / Z ^ 2 * Z ^ 2 = X := div_mul_cancel₀ X (pow_ne_zero 2 hz)
  have hY : Y / Z ^ 3 * Z ^ 3 = Y := div_mul_cancel₀ Y (pow_ne_zero 3 hz)
  have hcoordinates := addAffine_coordinates W (Y / Z ^ 3) y hz hx
  rw [hX, hY] at hcoordinates
  refine ⟨mul_ne_zero hz hne, ?_⟩
  rw [hcoordinates.1, hcoordinates.2]
  exact ⟨_, WeierstrassCurve.Affine.Point.add_of_X_ne hx⟩

/-- The affine coordinates of a double of a Jacobian point whose second coordinate is not its own
negative are those that the tangent has, on a curve whose linear coefficient is zero. -/
theorem double_coordinates [W.IsShortNF] (ha₄ : W.a₄ = 0) (u : F) {v Z : F} (hz : Z ≠ 0)
    (hv : v + v ≠ 0) :
    (double (u * Z ^ 2) (v * Z ^ 3) Z).1 / (double (u * Z ^ 2) (v * Z ^ 3) Z).2.2 ^ 2 =
        W.addX u u (W.slope u u v v) ∧
      (double (u * Z ^ 2) (v * Z ^ 3) Z).2.1 / (double (u * Z ^ 2) (v * Z ^ 3) Z).2.2 ^ 3 =
        W.addY u u v (W.slope u u v v) := by
  have hopposite : v ≠ W.negY u v := by
    rw [WeierstrassCurve.Affine.negY, WeierstrassCurve.a₁_of_isShortNF,
      WeierstrassCurve.a₃_of_isShortNF]
    intro heq
    exact hv (by linear_combination heq)
  have htwo : (2 : F) * v ≠ 0 := by rwa [two_mul]
  have htwo' : (2 : F) ≠ 0 := left_ne_zero_of_mul htwo
  have hv' : v ≠ 0 := right_ne_zero_of_mul htwo
  have hz3 : v * Z ^ 3 * Z + v * Z ^ 3 * Z = (2 * v) * Z ^ 4 := by ring
  rw [WeierstrassCurve.Affine.slope_of_Y_ne rfl hopposite]
  simp only [double, hz3, WeierstrassCurve.Affine.addX, WeierstrassCurve.Affine.addY,
    WeierstrassCurve.Affine.negAddY, WeierstrassCurve.Affine.negY,
    WeierstrassCurve.a₁_of_isShortNF, WeierstrassCurve.a₂_of_isShortNF,
    WeierstrassCurve.a₃_of_isShortNF, ha₄]
  have hslope : v - (-v - 0 * u - 0) = 2 * v := by ring
  rw [hslope]
  constructor
  · field_simp
    ring
  · field_simp
    ring

/-- The double of a point that is not its own opposite, on a curve without a linear term. -/
theorem Represents.double [W.IsShortNF] (ha₄ : W.a₄ = 0) {X Y Z : F} {Q : W.Point}
    (hrep : Represents W X Y Z Q) (hY : Y + Y ≠ 0) :
    Represents W (double X Y Z).1 (double X Y Z).2.1 (double X Y Z).2.2 (Q + Q) := by
  rcases hrep.point with ⟨hQ, rfl⟩
  have hz := hrep.z_ne_zero
  have hX : X / Z ^ 2 * Z ^ 2 = X := div_mul_cancel₀ X (pow_ne_zero 2 hz)
  have hY' : Y / Z ^ 3 * Z ^ 3 = Y := div_mul_cancel₀ Y (pow_ne_zero 3 hz)
  have hv : Y / Z ^ 3 + Y / Z ^ 3 ≠ 0 := by
    rw [← add_div]
    exact div_ne_zero hY (pow_ne_zero 3 hz)
  have hcoordinates := double_coordinates ha₄ (X / Z ^ 2) hz hv
  rw [hX, hY'] at hcoordinates
  have hopposite : Y / Z ^ 3 ≠ W.negY (X / Z ^ 2) (Y / Z ^ 3) := by
    rw [WeierstrassCurve.Affine.negY, WeierstrassCurve.a₁_of_isShortNF,
      WeierstrassCurve.a₃_of_isShortNF]
    intro heq
    exact hv (by linear_combination heq)
  refine ⟨?_, ?_⟩
  · show Y * Z + Y * Z ≠ 0
    rw [← add_mul]
    exact mul_ne_zero hY hz
  · rw [hcoordinates.1, hcoordinates.2]
    exact ⟨_, WeierstrassCurve.Affine.Point.add_self_of_Y_ne hopposite⟩

/-- A point that is not its own opposite has a second coordinate that is not zero. -/
theorem Represents.y_add_y_ne_zero [W.IsShortNF] {X Y Z : F} {Q : W.Point}
    (hrep : Represents W X Y Z Q) (hdouble : Q + Q ≠ 0) : Y + Y ≠ 0 := by
  intro hY
  rcases hrep.point with ⟨hQ, rfl⟩
  refine hdouble (WeierstrassCurve.Affine.Point.add_self_of_Y_eq ?_)
  rw [WeierstrassCurve.Affine.negY, WeierstrassCurve.a₁_of_isShortNF,
    WeierstrassCurve.a₃_of_isShortNF]
  have hv : Y / Z ^ 3 + Y / Z ^ 3 = 0 := by rw [← add_div, hY, zero_div]
  linear_combination hv

/-! ### Multiples by doubling and adding -/

/-- The multiple of an affine point by a scalar with `bits` bits below its highest one. There is
none where an exceptional case is met. -/
def multiple (x y : F) : ℕ → ℕ → Option (F × F × F)
  | 0, _ => some (x, y, 1)
  | bits + 1, scalar =>
    match multiple x y bits (scalar / 2) with
    | none => none
    | some (X, Y, Z) =>
      if Y + Y = 0 then none
      else
        let doubled := double X Y Z
        if scalar % 2 = 0 then some doubled
        else if difference doubled.1 doubled.2.2 x = 0 then none
        else some (addAffine doubled.1 doubled.2.1 doubled.2.2 x y)

/-- On a curve with coefficient zero, double-and-add over the bits below the top one of a scalar
gives the multiple of the point, if none of its additions fails. -/
theorem multiple_represents [W.IsShortNF] (ha₄ : W.a₄ = 0) {x y : F} (h : W.Nonsingular x y)
    {bits scalar : ℕ} (hbits : scalar / 2 ^ bits = 1) {X Y Z : F}
    (hmultiple : multiple x y bits scalar = some (X, Y, Z)) :
    Represents W X Y Z (scalar • .some x y h) := by
  induction bits generalizing scalar X Y Z with
  | zero =>
    rw [pow_zero, Nat.div_one] at hbits
    rw [multiple, Option.some.injEq, Prod.mk.injEq, Prod.mk.injEq] at hmultiple
    rcases hmultiple with ⟨rfl, rfl, rfl⟩
    rw [hbits, one_nsmul]
    exact Represents.affine h
  | succ bits ih =>
    have hhalf : scalar / 2 / 2 ^ bits = 1 := by
      rw [Nat.div_div_eq_div_mul, ← pow_succ']
      exact hbits
    have hscalar := Nat.div_add_mod scalar 2
    rw [multiple] at hmultiple
    rcases hprevious : multiple x y bits (scalar / 2) with _ | ⟨X', Y', Z'⟩
    · rw [hprevious] at hmultiple
      exact absurd hmultiple (by simp)
    · rw [hprevious] at hmultiple
      dsimp only at hmultiple
      have hrep := ih hhalf hprevious
      by_cases hY : Y' + Y' = 0
      · rw [if_pos hY] at hmultiple
        exact absurd hmultiple (by simp)
      · have hdouble := hrep.double ha₄ hY
        rw [← add_nsmul, ← two_mul] at hdouble
        rw [if_neg hY] at hmultiple
        by_cases heven : scalar % 2 = 0
        · rw [if_pos heven, Option.some.injEq] at hmultiple
          rw [hmultiple] at hdouble
          rw [heven, Nat.add_zero] at hscalar
          rwa [hscalar] at hdouble
        · rw [if_neg heven] at hmultiple
          by_cases hdifference :
              difference (double X' Y' Z').1 (double X' Y' Z').2.2 x = 0
          · rw [if_pos hdifference] at hmultiple
            exact absurd hmultiple (by simp)
          · rw [if_neg hdifference, Option.some.injEq] at hmultiple
            have hadded := hdouble.addAffine h hdifference
            have hodd : 2 * (scalar / 2) + 1 = scalar := by omega
            rw [hmultiple, ← succ_nsmul, hodd] at hadded
            exact hadded

/-- Whether one multiple before `order` is the opposite point. -/
def annihilates (x y : F) (order : ℕ) : Bool :=
  match multiple x y (order - 1).log2 (order - 1) with
  | none => false
  | some (X, Y, Z) => decide (difference X Z x = 0) && decide (y * Z * (Z * Z) - Y ≠ 0)

/-- A point that a prime annihilates has it as its order. -/
theorem addOrderOf_eq [W.IsShortNF] (ha₄ : W.a₄ = 0) {x y : F} (h : W.Nonsingular x y) {order : ℕ}
    (hprime : order.Prime) (hcheck : annihilates x y order = true) :
    addOrderOf (WeierstrassCurve.Affine.Point.some x y h) = order := by
  have hone : 1 ≤ order - 1 := Nat.le_sub_one_of_lt hprime.one_lt
  have hbits : (order - 1) / 2 ^ (order - 1).log2 = 1 := by
    have hlow := Nat.log2_self_le (Nat.one_le_iff_ne_zero.mp hone)
    have hhigh : order - 1 < 2 ^ ((order - 1).log2 + 1) := Nat.lt_log2_self
    rw [pow_succ, Nat.mul_comm] at hhigh
    refine Nat.div_eq_of_lt_le ?_ ?_
    · rwa [Nat.one_mul]
    · exact hhigh
  unfold annihilates at hcheck
  rcases hmultiple : multiple x y (order - 1).log2 (order - 1) with _ | ⟨X, Y, Z⟩
  · rw [hmultiple] at hcheck
    exact absurd hcheck Bool.false_ne_true
  · rw [hmultiple, Bool.and_eq_true, decide_eq_true_iff, decide_eq_true_iff] at hcheck
    have hrep := multiple_represents ha₄ h hbits hmultiple
    have hopposite : (order - 1) • WeierstrassCurve.Affine.Point.some x y h = -.some x y h := by
      rcases (hrep.eq_or_eq_neg_iff h).mp hcheck.1 with hsame | hopposite
      · exact absurd ((hrep.eq_iff h hcheck.1).mpr hsame) hcheck.2
      · exact hopposite
    have hzero : order • WeierstrassCurve.Affine.Point.some x y h = 0 := by
      have hsucc : order - 1 + 1 = order := by omega
      rw [← hsucc, succ_nsmul, hopposite, neg_add_cancel]
    have hfact : Fact order.Prime := ⟨hprime⟩
    exact addOrderOf_eq_prime hzero (WeierstrassCurve.Affine.Point.some_ne_zero h)

end Bc3Miner.Foundations.Jacobian
