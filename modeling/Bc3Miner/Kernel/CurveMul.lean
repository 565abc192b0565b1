import Bc3Miner.Foundations.SharedInverse
import Bc3Miner.Kernel.CurveSum
import Bc3Miner.Kernel.FieldInverses

/-!
# Scalar multiplication, one and four at a time

`curve_mul` and `curve_mul4` of `src/kernels/bc3hash.cl`: the table sums in Jacobian coordinates
made affine by an inverse of the third one, each by its own or all four by one. The four third
coordinates are never zero, that of an invalid scalar included, so that the shared inverse gives
each its own (`SharedInverse.separate_spec`), in the one number that encodes it: both write the
same.

`curveMul4_is_four_curveMul` is for any four scalars, over tables in the host's layout of points of
the group's order. `curveMul4_with_an_invalid_scalar` has the order itself among them.
-/

set_option autoImplicit false
set_option relaxedAutoImplicit false

namespace Bc3Miner.Kernel

open Foundations Finset

/-! ### The kernel's functions -/

/-- `BC3_INVALID_X`. -/
def invalidX : U256 :=
  mk256 0xfffffffefffffc2f 0xffffffffffffffff 0xffffffffffffffff 0xffffffffffffffff

/-- `BC3_INVALID_Y`. -/
def invalidY : U256 :=
  mk256 0xb0d1596d3e58acfd 0xcca6988067678d8d 0xae3609da2bb48f73 0x0f63cbbb426c5da1

def jacToAffine (X Y zi : U256) (invalid : Bool) : U256 × U256 :=
  if invalid then (invalidX, invalidY)
  else
    let zi2 := fsq zi
    (fmul X zi2, fmul (fmul Y zi2) zi)

def Build.curveMul (build : Build) (tab : List UInt64) (k : U256) : Option (U256 × U256) := do
  let s := curveSum build tab k
  let zi ← invSecp s.Z
  some (jacToAffine s.X s.Y zi s.invalid)

/-- The table of a curve from where the first curve's begins. -/
def curveOf (build : Build) (tc : List UInt64) (curve : ℕ) : List UInt64 :=
  tc.drop (curve * (build.curvePoints.toNat * 8))

/-- `curve_mul4`: the eight numbers it writes. -/
def Build.curveMul4 (build : Build) (tc : List UInt64)
    (k0 k1 k2 k3 : U256) : Option (List U256) := do
  let s0 := curveSum build (curveOf build tc 0) k0
  let s1 := curveSum build (curveOf build tc 1) k1
  let s2 := curveSum build (curveOf build tc 2) k2
  let s3 := curveSum build (curveOf build tc 3) k3
  let p01 := fmul s0.Z s1.Z
  let p012 := fmul p01 s2.Z
  let all := fmul p012 s3.Z
  let t ← invSecp all
  let z3i := fmul t p012
  let t := fmul t s3.Z
  let z2i := fmul t p01
  let t := fmul t s2.Z
  let z1i := fmul t s0.Z
  let z0i := fmul t s1.Z
  let p0 := jacToAffine s0.X s0.Y z0i s0.invalid
  let p1 := jacToAffine s1.X s1.Y z1i s1.invalid
  let p2 := jacToAffine s2.X s2.Y z2i s2.invalid
  let p3 := jacToAffine s3.X s3.Y z3i s3.invalid
  some [p0.1, p0.2, p1.1, p1.2, p2.1, p2.2, p3.1, p3.2]

/-! ### The inverse in the field -/

/-- A field element has one number. -/
theorem Encodes.unique {a b : U256} {x : SecpField} (ha : Encodes a x) (hb : Encodes b x) :
    a = b := by
  have hsame : ((a.toNat : ℕ) : SecpField) = (b.toNat : ℕ) := ha.residue.trans hb.residue.symm
  rw [ZMod.natCast_eq_natCast_iff, Nat.ModEq, Nat.mod_eq_of_lt ha.reduced,
    Nat.mod_eq_of_lt hb.reduced] at hsame
  exact Limbs.toNat_injective hsame

/-- The inversion is the field's, zero included. -/
theorem invSecp_encodes {a : U256} {x : SecpField} (ha : Encodes a x) :
    ∃ y, invSecp a = some y ∧ Encodes y x⁻¹ := by
  obtain ⟨y, hy, hlt, hnone, hinverse⟩ :=
    modinv256With_isInverse secpModulus_isOf secpP_prime true (Nat.ne_of_lt ha.reduced)
  refine ⟨y, hy, hlt, ?_⟩
  have hresidue : ((a.toNat : ℕ) : SecpField) = x := ha.residue
  by_cases hzero : a.toNat = 0
  · rw [← hresidue, hzero, Nat.cast_zero, inv_zero]
    unfold residue
    rw [hnone hzero, Nat.cast_zero]
  · refine eq_inv_of_mul_eq_one_right ?_
    have hproduct := (ZMod.natCast_eq_natCast_iff _ _ secpP).mpr (hinverse hzero)
    rwa [Nat.cast_mul, hresidue, Nat.cast_one] at hproduct

/-! ### The coordinates -/

/-- Affine coordinates by the inverse of the third one. -/
theorem jacToAffine_valid {X Y zi : U256} {x y z : SecpField} (hX : Encodes X x) (hY : Encodes Y y)
    (hzi : Encodes zi z⁻¹) :
    Encodes (jacToAffine X Y zi false).1 (x / z ^ 2) ∧
      Encodes (jacToAffine X Y zi false).2 (y / z ^ 3) := by
  have hx : x * (z⁻¹ * z⁻¹) = x / z ^ 2 := by rw [div_eq_mul_inv, ← inv_pow, pow_two]
  have hy : y * (z⁻¹ * z⁻¹) * z⁻¹ = y / z ^ 3 := by
    rw [div_eq_mul_inv, ← inv_pow, pow_succ, pow_two, mul_assoc]
  rw [jacToAffine, if_neg Bool.false_ne_true, ← hx, ← hy]
  dsimp only
  exact ⟨hX.fmul hzi.fsq, (hY.fmul hzi.fsq).fmul hzi⟩

section

variable {build : Build} {P : secpCurve.Point} {tab : List UInt64}

/-- What the sum writes is reduced, and its third coordinate is not zero. -/
theorem curveSum_reduced (hfits : build.Fits) (horder : addOrderOf P = secpN) {k : U256}
    (hread : ∀ i < build.digits, build.digit (reduceScalar k) i ≠ 0 →
      ReadsRow build P tab (reduceScalar k) i) :
    Reduced (curveSum build tab k).X ∧ Reduced (curveSum build tab k).Y ∧
      Reduced (curveSum build tab k).Z ∧ residue (curveSum build tab k).Z ≠ 0 := by
  have hstands := curveAfter_standsFor hfits horder (reduceScalar_lt k) hread le_rfl
  exact ⟨hstands.x, hstands.y, hstands.z, hstands.z_ne_zero⟩

/-- One multiplication is the coordinates by any number that encodes the inverse. -/
theorem curveMul_eq {k zi : U256} (hZ : Reduced (curveSum build tab k).Z)
    (hzi : Encodes zi (residue (curveSum build tab k).Z)⁻¹) :
    Build.curveMul build tab k =
      some (jacToAffine (curveSum build tab k).X (curveSum build tab k).Y zi
      (curveSum build tab k).invalid) := by
  obtain ⟨inverse, hinverse, hencodes⟩ := invSecp_encodes hZ.encodes
  unfold Build.curveMul
  dsimp only
  rw [hinverse, hencodes.unique hzi]
  rfl

end

/-- If the shared inversion of the four third coordinates has a result, `curve_mul4` has one too,
and it is what the four sums give with the inverses that the shared one separates into. -/
theorem curveMul4_eq (build : Build) (tc : List UInt64) (k : ℕ → U256) {s : ℕ → CurveSum}
    (hs : ∀ curve, s curve = curveSum build (curveOf build tc curve) (k curve)) {t : U256}
    (ht : invSecp (SharedInverse.partialProduct fmul (fun curve ↦ (s curve).Z) 3) = some t)
    {zi : ℕ → U256}
    (hzi : ∀ curve, zi curve = (SharedInverse.separate fmul (fun curve ↦ (s curve).Z)
      (SharedInverse.partialProduct fmul fun curve ↦ (s curve).Z) 3 t).getD curve (mk256 0 0 0 0)) :
    Build.curveMul4 build tc (k 0) (k 1) (k 2) (k 3) = some ((List.range 4).flatMap fun curve ↦
      [(jacToAffine (s curve).X (s curve).Y (zi curve) (s curve).invalid).1,
        (jacToAffine (s curve).X (s curve).Y (zi curve) (s curve).invalid).2]) := by
  obtain ⟨hproduct, h0, h1, h2, h3⟩ :=
    SharedInverse.separate_four fmul (fun curve ↦ (s curve).Z) t (mk256 0 0 0 0)
  rw [← hzi] at h0 h1 h2 h3
  rw [hproduct] at ht
  unfold Build.curveMul4
  rw [← hs 0, ← hs 1, ← hs 2, ← hs 3]
  dsimp only at ht ⊢
  rw [ht, Option.bind_eq_bind, Option.bind_some, ← h0, ← h1, ← h2, ← h3]
  have hrange : List.range 4 = [0, 1, 2, 3] := rfl
  rw [hrange, List.flatMap_cons, List.flatMap_cons, List.flatMap_cons, List.flatMap_cons,
    List.flatMap_nil]
  generalize jacToAffine (s 0).X (s 0).Y (zi 0) (s 0).invalid = p0
  generalize jacToAffine (s 1).X (s 1).Y (zi 1) (s 1).invalid = p1
  generalize jacToAffine (s 2).X (s 2).Y (zi 2) (s 2).invalid = p2
  generalize jacToAffine (s 3).X (s 3).Y (zi 3) (s 3).invalid = p3
  rfl

/-- If none of the four third coordinates is zero, the inversion of their product returns, and
separating it gives each of the four its own inverse. -/
theorem curveMul4_inverses (build : Build) (tc : List UInt64) (k : ℕ → U256) {s : ℕ → CurveSum}
    (hs : ∀ curve, s curve = curveSum build (curveOf build tc curve) (k curve))
    (hreduced : ∀ curve < 4, Reduced (s curve).Z ∧ residue (s curve).Z ≠ 0) :
    ∃ zi : ℕ → U256, (∀ curve < 4, Encodes (zi curve) (residue (s curve).Z)⁻¹) ∧
      Build.curveMul4 build tc (k 0) (k 1) (k 2) (k 3) = some ((List.range 4).flatMap fun curve ↦
        [(jacToAffine (s curve).X (s curve).Y (zi curve) (s curve).invalid).1,
          (jacToAffine (s curve).X (s curve).Y (zi curve) (s curve).invalid).2]) := by
  have hZ : ∀ curve ≤ 3, Encodes (s curve).Z (residue (s curve).Z) :=
    fun curve hcurve ↦ (hreduced curve (Nat.lt_succ_of_le hcurve)).1.encodes
  have hnonzero : ∀ curve ≤ 3, residue (s curve).Z ≠ 0 :=
    fun curve hcurve ↦ (hreduced curve (Nat.lt_succ_of_le hcurve)).2
  have hproducts : ∀ last ≤ 3, Encodes
      (SharedInverse.partialProduct fmul (fun curve ↦ (s curve).Z) last)
      (∏ curve ∈ range (last + 1), residue (s curve).Z) := fun last hlast ↦
    SharedInverse.partialProduct_spec @Encodes.fmul fun curve hcurve ↦ hZ curve (hcurve.trans hlast)
  obtain ⟨t, ht, hinverse⟩ := invSecp_encodes (hproducts 3 le_rfl)
  obtain ⟨zi, hziEq⟩ : ∃ zi : ℕ → U256, ∀ curve,
      zi curve = (SharedInverse.separate fmul (fun curve ↦ (s curve).Z)
        (SharedInverse.partialProduct fmul fun curve ↦ (s curve).Z) 3 t).getD curve
          (mk256 0 0 0 0) := ⟨_, fun _ ↦ rfl⟩
  refine ⟨zi, fun curve hcurve ↦ ?_, curveMul4_eq build tc k hs ht hziEq⟩
  rw [hziEq]
  exact SharedInverse.separate_spec @Encodes.fmul hZ hnonzero hproducts hinverse
    (Nat.le_of_lt_succ hcurve) _

/-! ### Four at a time -/

/-- For every window with a kernel and any four scalars, over tables in the host's layout of four
points whose order is the prime of the group: the product of the third coordinates is not zero, four
calls of `curve_mul` have each a result, the constants of an invalid scalar for a multiple of the
order and the coordinates of the multiple else, and `curve_mul4` writes just these four. -/
theorem curveMul4_is_four_curveMul {window : ℕ}
    (hwindow : (2 ≤ window ∧ window ≤ 20) ∨ window = 22 ∨ window = 24)
    {power : List UInt64} (hpower : power.length = Device.powerTablesU64)
    {points : ℕ → secpCurve.Point} (horder : ∀ curve < 4, addOrderOf (points curve) = secpN)
    (k : ℕ → U256) :
    ∃ (build : Build) (rows : List Device.Row), buildOf window = some build ∧
      Device.rows window = some rows ∧ ∀ tables, tables = gpuTables power points rows →
        (∏ curve ∈ range 4,
          residue (curveSum build (curvePointer build tables curve) (k curve)).Z) ≠ 0 ∧
        ∃ out : ℕ → U256 × U256,
          (∀ curve < 4,
            Build.curveMul build (curvePointer build tables curve) (k curve) = some (out curve) ∧
            (secpN ∣ (k curve).toNat → out curve = (invalidX, invalidY)) ∧
            (¬secpN ∣ (k curve).toNat → pointWords ((k curve).toNat • points curve) =
              (out curve).1.v.toList ++ (out curve).2.v.toList)) ∧
          Build.curveMul4 build (tables.drop tableCurve) (k 0) (k 1) (k 2) (k 3) =
            some ((List.range 4).flatMap fun curve ↦ [(out curve).1, (out curve).2]) := by
  obtain ⟨build, hbuild, hrows⟩ := build_and_rows hwindow
  have hfits := Build.fits_of_buildOf hbuild
  refine ⟨build, _, hbuild, hrows, ?_⟩
  intro tables htables
  obtain ⟨s, hs⟩ : ∃ s : ℕ → CurveSum, ∀ curve,
      s curve = curveSum build (curvePointer build tables curve) (k curve) := ⟨_, fun _ ↦ rfl⟩
  have hread : ∀ curve < 4, ∀ i < build.digits, build.digit (reduceScalar (k curve)) i ≠ 0 →
      ReadsRow build (points curve) (curvePointer build tables curve) (reduceScalar (k curve))
        i := by
    intro curve hcurve i hi hdigit
    rw [htables]
    exact readsRow_gpuTables hbuild hpower points hcurve hi hdigit
  have hreduced : ∀ curve < 4, Reduced (s curve).X ∧ Reduced (s curve).Y ∧ Reduced (s curve).Z ∧
      residue (s curve).Z ≠ 0 := by
    intro curve hcurve
    rw [hs curve]
    exact curveSum_reduced hfits (horder curve hcurve) (hread curve hcurve)
  have hplaces : ∀ curve,
      s curve = curveSum build (curveOf build (tables.drop tableCurve) curve) (k curve) := by
    intro curve
    rw [hs, curveOf, List.drop_drop]
    rfl
  obtain ⟨zi, hzi, hfour⟩ := curveMul4_inverses build (tables.drop tableCurve) k hplaces
    fun curve hcurve ↦ (hreduced curve hcurve).2.2
  refine ⟨?_, fun curve ↦ jacToAffine (s curve).X (s curve).Y (zi curve) (s curve).invalid, ?_,
    hfour⟩
  · simp only [← hs]
    exact prod_ne_zero_iff.mpr fun curve hmem ↦ (hreduced curve (mem_range.mp hmem)).2.2.2
  · intro curve hcurve
    obtain ⟨hX, hY, hreducedZ, -⟩ := hreduced curve hcurve
    have hinvalid := curveSum_invalid_iff build (curvePointer build tables curve) (k curve)
    have hrepresents := curveSum_represents hfits (horder curve hcurve) (hread curve hcurve)
    rw [← hs] at hinvalid hrepresents
    have hone := curveMul_eq (hs curve ▸ hreducedZ) (hs curve ▸ hzi curve hcurve)
    rw [← hs] at hone
    refine ⟨hone, fun hdvd ↦ ?_, fun hdvd ↦ ?_⟩
    · dsimp only
      rw [hinvalid.mpr hdvd]
      rfl
    · have hvalid : (s curve).invalid = false := by
        rw [Bool.eq_false_iff, Ne, hinvalid]
        exact hdvd
      obtain ⟨hx, hy⟩ := jacToAffine_valid hX.encodes hY.encodes (hzi curve hcurve)
      obtain ⟨h, hpoint⟩ := (hrepresents hvalid).point
      dsimp only
      rw [hvalid, hpoint, hx.unique (encodes_ofResidue _), hy.unique (encodes_ofResidue _)]
      rfl

/-- Four scalars at window 22 over the tables of the four curve points, the second of them the order
itself: the second output is the constants of an invalid scalar, and the others are those of four
calls of `curve_mul`. -/
theorem curveMul4_with_an_invalid_scalar :
    ∃ (build : Build) (rows : List Device.Row), buildOf 22 = some build ∧
      Device.rows 22 = some rows ∧ ∃ out : ℕ → U256 × U256, out 1 = (invalidX, invalidY) ∧
        Build.curveMul4 build ((gpuTables
          (List.replicate Device.powerTablesU64 0) curvePoint rows).drop
            tableCurve) (mk256 5 0 0 1) secpNLimbs (mk256 7 0 0 0) (mk256 0 0 0 9) =
          some ((List.range 4).flatMap fun curve ↦ [(out curve).1, (out curve).2]) := by
  have hpower : (List.replicate Device.powerTablesU64 (0 : UInt64)).length =
      Device.powerTablesU64 := List.length_replicate
  obtain ⟨build, rows, hbuild, hrows, htables⟩ :=
    curveMul4_is_four_curveMul (Or.inr (Or.inl rfl)) hpower
      (fun curve _ ↦ addOrderOf_curvePoint curve)
      fun curve ↦ [mk256 5 0 0 1, secpNLimbs, mk256 7 0 0 0, mk256 0 0 0 9].getD curve
        (mk256 0 0 0 0)
  obtain ⟨-, out, hout, hfour⟩ := htables _ rfl
  refine ⟨build, rows, hbuild, hrows, out, (hout 1 (by norm_num)).2.1 ?_, hfour⟩
  show secpN ∣ secpNLimbs.toNat
  rw [secpNLimbs_toNat]

end Bc3Miner.Kernel
