import Bc3Miner.Foundations.JacobianPoint
import Bc3Miner.Kernel.SecpField

/-!
# Additions of points

`jac_double` and `jac_add_affine` of `src/kernels/bc3hash.cl`. What the source updates through
pointers is an `Accumulator` here, and `jacAddAffine` also says which of its four ways out it took.
`Accumulator.StandsFor` is the point that an accumulator holds: with it the additions are those of
the group, the same and the opposite point included.

`Accumulator.StandsFor.add` and `Accumulator.StandsFor.double` are the two results, without a
condition on the points; the way an addition took is in its outcome, for those who show that it is
always the general one.
-/

set_option autoImplicit false
set_option relaxedAutoImplicit false

namespace Bc3Miner.Kernel

open Foundations

/-! ### The kernel's functions -/

def jacDouble (X Y Z : U256) : U256 × U256 × U256 :=
  let a := fsq X
  let b := fsq Y
  let c := fsq b
  let d := fsub (fsub (fsq (fadd X b)) a) c
  let d := fadd d d
  let e := fadd (fadd a a) a
  let f := fsq e
  let x3 := fsub f (fadd d d)
  let c8 := fadd c c
  let c8 := fadd c8 c8
  let c8 := fadd c8 c8
  let y3 := fsub (fmul e (fsub d x3)) c8
  let z3 := fmul Y Z
  (x3, y3, fadd z3 z3)

/-- Jacobian coordinates, and whether they are the point at infinity, whatever they say. -/
structure Accumulator where
  X : U256
  Y : U256
  Z : U256
  inf : Bool
  deriving DecidableEq

/-- The ways out of an addition: the first point, the doubling of an equal point, the infinity of an
opposite one, and the general case. -/
inductive Branch
  | first
  | doubling
  | infinity
  | general
  deriving DecidableEq, Repr

/-- The accumulator plus an affine point, and the way out. -/
def jacAddAffine (acc : Accumulator) (x2 y2 : U256) : Accumulator × Branch :=
  if acc.inf then (⟨x2, y2, mk256 1 0 0 0, false⟩, .first)
  else
    let z1z1 := fsq acc.Z
    let u2 := fmul x2 z1z1
    let s2 := fmul (fmul y2 acc.Z) z1z1
    let h := fsub u2 acc.X
    let r := fsub s2 acc.Y
    if iszero256 h then
      if iszero256 r then
        let (x, y, z) := jacDouble acc.X acc.Y acc.Z
        (⟨x, y, z, acc.inf⟩, .doubling)
      else ({ acc with inf := true }, .infinity)
    else
      let hh := fsq h
      let hhh := fmul h hh
      let v := fmul acc.X hh
      let x3 := fsub (fsub (fsq r) hhh) (fadd v v)
      let y3 := fsub (fmul r (fsub v x3)) (fmul acc.Y hhh)
      let z3 := fmul acc.Z h
      (⟨x3, y3, z3, acc.inf⟩, .general)

/-! ### In the field -/

/-- Reduced coordinates and the field elements they stand for. -/
structure EncodesPoint (X Y Z : U256) (point : SecpField × SecpField × SecpField) : Prop where
  x : Encodes X point.1
  y : Encodes Y point.2.1
  z : Encodes Z point.2.2

/-- A result whose coordinates encode three field elements encodes the point with these, and carries
the flag and the branch it was given. -/
theorem EncodesPoint.of_result {result : Accumulator × Branch} {x3 y3 z3 : U256} {inf : Bool}
    {branch : Branch} (hresult : result = (⟨x3, y3, z3, inf⟩, branch)) {x y z : SecpField}
    (hx : Encodes x3 x) (hy : Encodes y3 y) (hz : Encodes z3 z) :
    EncodesPoint result.1.X result.1.Y result.1.Z (x, y, z) ∧ result.1.inf = inf ∧
      result.2 = branch := by
  subst hresult
  exact ⟨⟨hx, hy, hz⟩, rfl, rfl⟩

/-- The doubling is the field's. -/
theorem jacDouble_encodes {X Y Z : U256} {x y z : SecpField}
    (hpoint : EncodesPoint X Y Z (x, y, z)) :
    EncodesPoint (jacDouble X Y Z).1 (jacDouble X Y Z).2.1 (jacDouble X Y Z).2.2
      (Jacobian.double x y z) := by
  have ha := hpoint.x.fsq
  have hb := hpoint.y.fsq
  have hc := hb.fsq
  have hhalf := (((hpoint.x.fadd hb).fsq).fsub ha).fsub hc
  have hd := hhalf.fadd hhalf
  have he := (ha.fadd ha).fadd ha
  have hx3 := he.fsq.fsub (hd.fadd hd)
  have hc2 := hc.fadd hc
  have hc4 := hc2.fadd hc2
  have hy3 := (he.fmul (hd.fsub hx3)).fsub (hc4.fadd hc4)
  have hz := hpoint.y.fmul hpoint.z
  unfold jacDouble Jacobian.double
  dsimp only
  exact ⟨hx3, hy3, hz.fadd hz⟩

section Addition

variable {acc : Accumulator} {x2 y2 : U256} {X Y Z x y : SecpField}

theorem jacAddAffine_first (hinf : acc.inf = true) (x2 y2 : U256) :
    jacAddAffine acc x2 y2 = (⟨x2, y2, mk256 1 0 0 0, false⟩, .first) := by
  unfold jacAddAffine
  rw [if_pos hinf]

/-- What the addition of the kernel makes of words that encode elements of the field, if the
accumulator is not at infinity. With a difference of zero it doubles the point or gives the point at
infinity; else it is the addition of the field. -/
theorem jacAddAffine_encodes (hinf : acc.inf = false)
    (hacc : EncodesPoint acc.X acc.Y acc.Z (X, Y, Z)) (hx : Encodes x2 x) (hy : Encodes y2 y) :
    (Jacobian.difference X Z x = 0 →
      jacAddAffine acc x2 y2 =
        if y * Z * (Z * Z) - Y = 0 then
          (⟨(jacDouble acc.X acc.Y acc.Z).1, (jacDouble acc.X acc.Y acc.Z).2.1,
            (jacDouble acc.X acc.Y acc.Z).2.2, false⟩, .doubling)
        else ({ acc with inf := true }, .infinity)) ∧
      (Jacobian.difference X Z x ≠ 0 →
        EncodesPoint (jacAddAffine acc x2 y2).1.X (jacAddAffine acc x2 y2).1.Y
            (jacAddAffine acc x2 y2).1.Z (Jacobian.addAffine X Y Z x y) ∧
          (jacAddAffine acc x2 y2).1.inf = false ∧ (jacAddAffine acc x2 y2).2 = .general) := by
  have hz := hacc.z.fsq
  have hh := (hx.fmul hz).fsub hacc.x
  have hr := ((hy.fmul hacc.z).fmul hz).fsub hacc.y
  have hnot : ¬acc.inf = true := by rw [hinf]; exact Bool.false_ne_true
  constructor
  · intro hdifference
    have hzero : iszero256 (fsub (fmul x2 (fsq acc.Z)) acc.X) = true :=
      hh.iszero256_iff.mpr hdifference
    unfold jacAddAffine
    rw [if_neg hnot, if_pos hzero, hinf]
    simp only [hr.iszero256_iff]
  · intro hdifference
    have hnonzero : ¬iszero256 (fsub (fmul x2 (fsq acc.Z)) acc.X) = true := by
      intro hzero
      exact hdifference (hh.iszero256_iff.mp hzero)
    have hhh := hh.fmul hh.fsq
    have hv := hacc.x.fmul hh.fsq
    have hx3 := (hr.fsq.fsub hhh).fsub (hv.fadd hv)
    have hy3 := (hr.fmul (hv.fsub hx3)).fsub (hacc.y.fmul hhh)
    have hz3 := hacc.z.fmul hh
    refine EncodesPoint.of_result ?_ hx3 hy3 hz3
    unfold jacAddAffine
    rw [if_neg hnot, if_neg hnonzero, hinf]

end Addition

/-! ### In the group -/

/-- The point an accumulator holds. Its third coordinate is never zero, at infinity too. -/
structure Accumulator.StandsFor (acc : Accumulator) (Q : secpCurve.Point) : Prop where
  x : Reduced acc.X
  y : Reduced acc.Y
  z : Reduced acc.Z
  z_ne_zero : residue acc.Z ≠ 0
  point : if acc.inf then Q = 0 else
    Jacobian.Represents secpCurve (residue acc.X) (residue acc.Y) (residue acc.Z) Q

namespace Accumulator.StandsFor

variable {acc : Accumulator} {Q : secpCurve.Point}

theorem encodes (hacc : acc.StandsFor Q) :
    EncodesPoint acc.X acc.Y acc.Z (residue acc.X, residue acc.Y, residue acc.Z) :=
  ⟨hacc.x.encodes, hacc.y.encodes, hacc.z.encodes⟩

/-- An accumulator that stands for a point has its flag set exactly when the point is the one at
infinity. -/
theorem inf_iff (hacc : acc.StandsFor Q) : acc.inf = true ↔ Q = 0 := by
  have hpoint := hacc.point
  by_cases hinf : acc.inf = true
  · rw [if_pos hinf] at hpoint
    exact ⟨fun _ ↦ hpoint, fun _ ↦ hinf⟩
  · rw [if_neg hinf] at hpoint
    exact ⟨fun h ↦ absurd h hinf, fun hzero ↦ absurd hzero hpoint.ne_zero⟩

/-- Coordinates that encode those of a point are an accumulator that holds it. -/
theorem of_represents {X Y Z : SecpField}
    (hencodes : EncodesPoint acc.X acc.Y acc.Z (X, Y, Z)) (hinf : acc.inf = false)
    (hrep : Jacobian.Represents secpCurve X Y Z Q) : acc.StandsFor Q := by
  have hx := hencodes.x.residue
  have hy := hencodes.y.residue
  have hz := hencodes.z.residue
  refine ⟨hencodes.x.reduced, hencodes.y.reduced, hencodes.z.reduced, ?_, ?_⟩
  · rw [hz]
    exact hrep.z_ne_zero
  · rw [hinf, if_neg Bool.false_ne_true, hx, hy, hz]
    exact hrep

variable {x y : SecpField} {x2 y2 : U256}

/-- The first point added is the accumulator's. -/
theorem add_first (hacc : acc.StandsFor Q) (hzero : Q = 0) (hx : Encodes x2 x)
    (hy : Encodes y2 y) (h : secpCurve.Nonsingular x y) :
    (jacAddAffine acc x2 y2).1.StandsFor (Q + .some x y h) ∧
      (jacAddAffine acc x2 y2).2 = .first := by
  rw [jacAddAffine_first (hacc.inf_iff.mpr hzero), hzero, zero_add]
  exact ⟨of_represents ⟨hx, hy, encodes_one⟩ rfl (Jacobian.Represents.affine h), rfl⟩

/-- A point that is neither the accumulator's nor its opposite is added in the general case. -/
theorem add_general (hacc : acc.StandsFor Q) (hx : Encodes x2 x) (hy : Encodes y2 y)
    (h : secpCurve.Nonsingular x y) (hzero : Q ≠ 0) (hsame : Q ≠ .some x y h)
    (hopposite : Q ≠ -.some x y h) :
    (jacAddAffine acc x2 y2).1.StandsFor (Q + .some x y h) ∧
      (jacAddAffine acc x2 y2).2 = .general := by
  have hinf : ¬acc.inf = true := fun hinf ↦ hzero (hacc.inf_iff.mp hinf)
  have hrep := hacc.point
  rw [if_neg hinf] at hrep
  have hdifference : Jacobian.difference (residue acc.X) (residue acc.Z) x ≠ 0 := by
    rw [Ne, hrep.eq_or_eq_neg_iff h]
    exact not_or_intro hsame hopposite
  rcases (jacAddAffine_encodes (Bool.eq_false_iff.mpr hinf) hacc.encodes hx hy).2 hdifference with
    ⟨hencodes, hfinite, hbranch⟩
  exact ⟨of_represents hencodes hfinite (hrep.addAffine h hdifference), hbranch⟩

/-- Whatever the accumulator holds, a point that is not its own opposite is added to it. -/
theorem add (hacc : acc.StandsFor Q) (hx : Encodes x2 x) (hy : Encodes y2 y)
    (h : secpCurve.Nonsingular x y) (hown : y + y ≠ 0) :
    (jacAddAffine acc x2 y2).1.StandsFor (Q + .some x y h) := by
  by_cases hzero : Q = 0
  · exact (hacc.add_first hzero hx hy h).1
  have hinf : ¬acc.inf = true := fun hinf ↦ hzero (hacc.inf_iff.mp hinf)
  have hrep := hacc.point
  rw [if_neg hinf] at hrep
  by_cases hdifference : Jacobian.difference (residue acc.X) (residue acc.Z) x = 0
  · rw [(jacAddAffine_encodes (Bool.eq_false_iff.mpr hinf) hacc.encodes hx hy).1 hdifference]
    have hpoint := (hrep.eq_or_eq_neg_iff h).mp hdifference
    by_cases hsame : y * residue acc.Z * (residue acc.Z * residue acc.Z) - residue acc.Y = 0
    · rw [if_pos hsame]
      have hQ := (hrep.eq_iff h hdifference).mp hsame
      have hY : residue acc.Y + residue acc.Y ≠ 0 := by
        have hvalue : residue acc.Y + residue acc.Y = (y + y) * residue acc.Z ^ 3 := by
          linear_combination -2 * hsame
        rw [hvalue]
        exact mul_ne_zero hown (pow_ne_zero 3 hrep.z_ne_zero)
      have hdouble := hrep.double secpCurve_a₄ hY
      have hencodes := jacDouble_encodes hacc.encodes
      rw [← hQ]
      generalize jacDouble acc.X acc.Y acc.Z = doubled at hencodes ⊢
      exact of_represents hencodes rfl hdouble
    · rw [if_neg hsame]
      have hopposite : Q = -.some x y h := by
        rcases hpoint with hQ | hQ
        · exact absurd ((hrep.eq_iff h hdifference).mpr hQ) hsame
        · exact hQ
      refine ⟨hacc.x, hacc.y, hacc.z, hacc.z_ne_zero, ?_⟩
      rw [if_pos rfl, hopposite]
      exact neg_add_cancel _
  · have hends := (hrep.eq_or_eq_neg_iff h).not.mp hdifference
    rw [not_or] at hends
    exact (hacc.add_general hx hy h hzero hends.1 hends.2).1

/-- The double of what the accumulator holds, where that is not the point at infinity. -/
theorem double (hacc : acc.StandsFor Q) (hinf : acc.inf = false) (hdouble : Q + Q ≠ 0) :
    Accumulator.StandsFor ⟨(jacDouble acc.X acc.Y acc.Z).1, (jacDouble acc.X acc.Y acc.Z).2.1,
      (jacDouble acc.X acc.Y acc.Z).2.2, acc.inf⟩ (Q + Q) := by
  have hrep := hacc.point
  rw [hinf, if_neg Bool.false_ne_true] at hrep
  have hdoubled := hrep.double secpCurve_a₄ (hrep.y_add_y_ne_zero hdouble)
  have hencodes := jacDouble_encodes hacc.encodes
  generalize jacDouble acc.X acc.Y acc.Z = doubled at hencodes ⊢
  exact of_represents hencodes hinf hdoubled

end Accumulator.StandsFor

end Bc3Miner.Kernel
