import Bc3Miner.Foundations.JacobianPoint
import Bc3Miner.Kernel.SecpField

/-!
# The curve points

The four points of `constants.hpp` whose multiples the tables hold. Each has the order of the group,
which its coordinates are checked for.

A point here is a structure with the proof that it is on the curve and that its multiple by the
order is checked, so that `addOrderOf_toPoint` holds of each without a case for it.
-/

set_option autoImplicit false
set_option relaxedAutoImplicit false

namespace Bc3Miner.Kernel

open Foundations

/-- Below the order of a point none of its multiples is the point at infinity. -/
theorem multiple_ne_zero {B : secpCurve.Point} (horder : addOrderOf B = secpN) {m : ℕ}
    (hpos : 0 < m) (hlt : m < secpN) : m • B ≠ 0 := by
  rw [Ne, ← addOrderOf_dvd_iff_nsmul_eq_zero, horder]
  exact Nat.not_dvd_of_pos_of_lt hpos hlt

/-- The coordinates of a point of the group's order. -/
structure CurvePoint where
  x : SecpField
  y : SecpField
  equation : y ^ 2 = x ^ 3 + 7
  y_ne_zero : 2 * y ≠ 0
  annihilates : Jacobian.annihilates x y secpN = true

namespace CurvePoint

/-- Each of the four base points is a nonsingular point of the curve. -/
theorem nonsingular (point : CurvePoint) : secpCurve.Nonsingular point.x point.y := by
  rw [WeierstrassCurve.Affine.nonsingular_iff', WeierstrassCurve.Affine.equation_iff]
  refine ⟨?_, Or.inr ?_⟩
  · show point.y ^ 2 + 0 * point.x * point.y + 0 * point.y =
      point.x ^ 3 + 0 * point.x ^ 2 + 0 * point.x + 7
    linear_combination point.equation
  · show 2 * point.y + 0 * point.x + 0 ≠ 0
    rw [zero_mul, add_zero, add_zero]
    exact point.y_ne_zero

def toPoint (point : CurvePoint) : secpCurve.Point := .some point.x point.y point.nonsingular

theorem addOrderOf_toPoint (point : CurvePoint) : addOrderOf point.toPoint = secpN :=
  Jacobian.addOrderOf_eq secpCurve_a₄ point.nonsingular secpN_prime point.annihilates

end CurvePoint

def pointH : CurvePoint where
  x := 0x01f2a7758a894831908da9d9fc9974a3c68d19daac88c4f29e376c2727dd1f51
  y := 0x0451ca57637f54107233f2f21a81f7dabc11f967389e16f3e63515bdc148278a
  equation := by decide +kernel
  y_ne_zero := by decide +kernel
  annihilates := by decide +kernel

def pointJ : CurvePoint where
  x := 0x5ef83d753a1c8f8b992bccdf95badacc54886da7a336b8e56c9d0eb3936b3d02
  y := 0xce9c40d1d51301d7933f6e2d1a12f2c26703e3e3b5feac898ceac5c945d05d5f
  equation := by decide +kernel
  y_ne_zero := by decide +kernel
  annihilates := by decide +kernel

def pointK : CurvePoint where
  x := 0x304053761b5b7b89577fb84108c5b1a90ed27c06fd39ac546b1be2d29086a7d4
  y := 0x2466a619190c993b840bb99184802f35f5b289ad67aa61cae821f1712c441b58
  equation := by decide +kernel
  y_ne_zero := by decide +kernel
  annihilates := by decide +kernel

def pointL : CurvePoint where
  x := 0x00830b79c191b3a74e671752e4325abb1a4dfd84ef6e506f967eeae175b44f54
  y := 0x1c79c0c4acfbe7b4adf19e234da0ef8bf5bb0790dc35d7b2dd4ceb9296544e56
  equation := by decide +kernel
  y_ne_zero := by decide +kernel
  annihilates := by decide +kernel

/-- The point of each curve's table. -/
def curvePoint : ℕ → secpCurve.Point
  | 0 => pointH.toPoint
  | 1 => pointJ.toPoint
  | 2 => pointK.toPoint
  | _ => pointL.toPoint

/-- All four have the order of the group. -/
theorem addOrderOf_curvePoint (curve : ℕ) : addOrderOf (curvePoint curve) = secpN := by
  unfold curvePoint
  split
  · exact pointH.addOrderOf_toPoint
  · exact pointJ.addOrderOf_toPoint
  · exact pointK.addOrderOf_toPoint
  · exact pointL.addOrderOf_toPoint

end Bc3Miner.Kernel
