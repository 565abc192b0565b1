import Bc3Miner.Kernel.CurveMul
import Bc3Miner.Kernel.TableAssembly
import Bc3Miner.Kernel.TablePowers
import Bc3Miner.Reference.CurveTables
import Bc3Miner.Reference.Inverse256

/-!
# The primitives of the two mixes

The functions that `mix512` of `bc3hash/vendor/bc3/mix.cpp` and `bc3mix512` of
`src/kernels/bc3hash.cl` call for their modular arithmetic, over the tables that each has built
(`referenceCalls`, `kernelCalls`). `exact` is the arithmetic itself.

Every call of either returns what `exact` has, whatever the windows of the two tables
(`referenceCalls_return`, `kernelCalls_return`), and so the two mixes give the same digests
(`mixes_agree`).

Here the primitives are no longer a parameter: with them the agreement of the mixes is one of the
two programs, up to the calls of libsecp256k1, which are to compute the group law.
-/

set_option autoImplicit false
set_option relaxedAutoImplicit false

namespace Bc3Miner.Kernel

open Foundations Reference

/-! ### The functions called -/

/-- What a mix calls, with nothing where a call throws or reads past its tables. -/
structure Calls where
  exp64 : UInt64 → UInt64 → Option (UInt64 × UInt64)
  exp128 : UInt 2 → UInt 2 → Option (UInt 2 × UInt 2)
  exp256 : UInt 4 → UInt 4 → Option (UInt 4 × UInt 4)
  pow64 : UInt64 → Option UInt64
  pow128 : UInt 2 → Option (UInt 2)
  pow256 : UInt 4 → UInt 4 → Option (UInt 4 × UInt 4)
  mul64 : UInt64 → UInt64 → Option UInt64
  mul256 : UInt 4 → UInt 4 → Option (UInt 4)
  curves : UInt 4 → UInt 4 → UInt 4 → UInt 4 → Option (List (UInt 4))
  inverse256 : UInt 4 → Option (UInt 4)

/-- Every call returns what the primitives have, the four multiplications of a round together. -/
structure Calls.Return (calls : Calls) (p : Primitives) : Prop where
  exp64 (a b : UInt64) : calls.exp64 a b = some (p.exp64 a b)
  exp128 (a b : UInt 2) : calls.exp128 a b = some (p.exp128 a b)
  exp256 (a b : UInt 4) : calls.exp256 a b = some (p.exp256 a b)
  pow64 (a : UInt64) : calls.pow64 a = some (p.pow64 a)
  pow128 (a : UInt 2) : calls.pow128 a = some (p.pow128 a)
  pow256 (a b : UInt 4) : calls.pow256 a b = some (p.pow256 a b)
  mul64 (a b : UInt64) : calls.mul64 a b = some (p.mul64 a b)
  mul256 (a b : UInt 4) : calls.mul256 a b = some (p.mul256 a b)
  curves (k : Fin 4 → UInt 4) :
    calls.curves (k 0) (k 1) (k 2) (k 3) =
      some ((List.finRange 4).flatMap fun i ↦ [(p.curve i (k i)).1, (p.curve i (k i)).2])
  inverse256 (a : UInt 4) : calls.inverse256 a = some (p.inverse256 a)

/-- What the reference's tables are made of. -/
structure ReferenceTables (Pubkey : Type) where
  pow64 : List (List (UInt 1))
  pow128 : List (List (UInt 2))
  pow256 : List (List (UInt 4))
  curve : Fin 4 → CurveTable Pubkey

/-- The tables of the four points, nothing where one of them cannot be made. -/
def makeCurves {Pubkey : Type} (api : Secp256k1 Pubkey) (window : ℕ) :
    Option (Fin 4 → CurveTable Pubkey) :=
  if hmade : ∀ i, (makeCurveTable api window (curveX i) (curveY i)).isSome then
    some fun i ↦ (makeCurveTable api window (curveX i) (curveY i)).get (hmade i)
  else none

/-- `Tables` of a window. -/
def makeTables {Pubkey : Type} (api : Secp256k1Sums Pubkey) (window : ℕ) :
    Option (ReferenceTables Pubkey) := do
  let pow64 ← fixedPower 1469 g64
  let pow128 ← fixedPower 15449 g128
  let pow256 ← fixedPower 36113 g256
  let curve ← makeCurves api.toSecp256k1 window
  some ⟨pow64, pow128, pow256, curve⟩

/-- The functions of `mix512`. -/
def referenceCalls {Pubkey : Type} (api : Secp256k1Sums Pubkey) (t : ReferenceTables Pubkey)
    (limit : ℕ) : Calls where
  exp64 a b := do
    let (r, s) ← Windows.pair 59 3 (fixedExponent 3 Reference.e64) (toUInt a) (toUInt b)
    some (r.limb 0, s.limb 0)
  exp128 := Windows.pair 159 4 (fixedExponent 4 Reference.e128)
  exp256 := Windows.pair 189 4 (fixedExponent 4 Reference.e256)
  pow64 a := do return (← tablePower 1469 t.pow64 (toUInt a)).limb 0
  pow128 := tablePower 15449 t.pow128
  pow256 := tablePair 36113 t.pow256
  mul64 a b := some ((Mod.mul 59 (toUInt a) (toUInt b)).limb 0)
  mul256 a b := some (Mod.mul 189 a b)
  curves h j k l := do
    let points ← (List.finRange 4).mapM fun i ↦ (t.curve i).multiply api (![h, j, k, l] i)
    some (points.flatMap fun point ↦ [point.1, point.2])
  inverse256 := inverse256 limit

/-- The functions of `bc3mix512`. -/
def kernelCalls (build : Build) (tables : List UInt64) : Calls where
  exp64 := expfix64x2
  exp128 := expfix128x2
  exp256 := expfix256x2
  pow64 := powtab64 (tables.drop tablePow64)
  pow128 := powtab128 (tables.drop tablePow128)
  pow256 := powtab256x2 8 (tables.drop tablePow256)
  mul64 a b := some (mulmod64 a b cM64)
  mul256 a b := some (mulmod256 a b cM256)
  curves := build.curveMul4 (tables.drop tableCurve)
  inverse256 := invF256

/-! ### The arithmetic -/

/-- The least number of a residue. -/
def ofZMod {p : ℕ} (L : ℕ) (a : ZMod p) : UInt L := UInt.hex a.val

/-- The modular arithmetic of the mix. -/
noncomputable def exact : Primitives where
  exp64 a b := ((ofZMod 1 ((a.toNat : ZMod (2 ^ 64 - 59)) ^ e64.toNat)).limb 0,
    (ofZMod 1 ((b.toNat : ZMod (2 ^ 64 - 59)) ^ e64.toNat)).limb 0)
  exp128 a b := (ofZMod 2 ((a.toNat : ZMod (2 ^ 128 - 159)) ^ e128.toNat),
    ofZMod 2 ((b.toNat : ZMod (2 ^ 128 - 159)) ^ e128.toNat))
  exp256 a b := (ofZMod 4 ((a.toNat : ZMod (2 ^ 256 - 189)) ^ e256.toNat),
    ofZMod 4 ((b.toNat : ZMod (2 ^ 256 - 189)) ^ e256.toNat))
  pow64 a := (ofZMod 1 ((g64.toNat : ZMod (2 ^ 64 - 1469)) ^ a.toNat)).limb 0
  pow128 a := ofZMod 2 ((g128.toNat : ZMod (2 ^ 128 - 15449)) ^ a.toNat)
  pow256 a b := (ofZMod 4 ((g256.toNat : ZMod f256P) ^ a.toNat),
    ofZMod 4 ((g256.toNat : ZMod f256P) ^ b.toNat))
  mul64 a b := (ofZMod 1 ((a.toNat : ZMod (2 ^ 64 - 59)) * (b.toNat : ZMod (2 ^ 64 - 59)))).limb 0
  mul256 a b :=
    ofZMod 4 ((a.toNat : ZMod (2 ^ 256 - 189)) * (b.toNat : ZMod (2 ^ 256 - 189)))
  curve i k := coordinatesOf (k.toNat • curvePoint i)
  inverse256 a := ofZMod 4 (a.toNat : ZMod f256P)⁻¹

/-! ### Numbers of residues -/

section Numbers

variable {L p : ℕ} {x : UInt L}

theorem toNat_hex (L number : ℕ) : (UInt.hex number : UInt L).toNat = number % 2 ^ (64 * L) := by
  refine Limbs.toNat_of_limb fun i hi ↦ ?_
  rw [UInt.hex, Limbs.limb_ofFn _ hi, Nat.toUInt64_eq, UInt64.toNat_ofNat']

theorem eq_ofZMod {a : ZMod p} (hx : x.toNat = a.val) : x = ofZMod L a := by
  apply Limbs.toNat_injective
  rw [ofZMod, toNat_hex, ← hx, Nat.mod_eq_of_lt x.toNat_lt]

theorem eq_ofZMod_pow {a e : ℕ} (hx : x.toNat = a ^ e % p) : x = ofZMod L ((a : ZMod p) ^ e) :=
  eq_ofZMod (by rw [hx, ← Nat.cast_pow, ZMod.val_natCast])

theorem eq_ofZMod_mul {a b : ℕ} (hx : x.toNat = a * b % p) :
    x = ofZMod L ((a : ZMod p) * (b : ZMod p)) :=
  eq_ofZMod (by rw [hx, ← Nat.cast_mul, ZMod.val_natCast])

theorem eq_ofZMod_of_stands {a : ZMod p} (hx : Stands p x a) : x = ofZMod L a :=
  eq_ofZMod (by rw [← hx.residue, ZMod.val_cast_of_lt hx.canonical])

theorem eq_limb_of_toUInt_eq {word : UInt64} {number : UInt 1} (hword : toUInt word = number) :
    word = number.limb 0 := by
  rw [← hword]
  rfl

end Numbers

/-! ### The reference's calls -/

section ReferenceCalls

variable {L : ℕ} {C : UInt64} (hsmall : Mod.Small L C) {p : ℕ}
  (hp : (Mod.modulus C : UInt L).toNat = p)

include hsmall hp

/-- Two powers by windows with the same fixed exponent are exact, for any window that is not zero.
-/
theorem pair_exact {window : ℕ} (hwindow : 1 ≤ window) (e a b : UInt L) :
    Windows.pair C window (fixedExponent window e) a b =
      some (ofZMod L ((a.toNat : ZMod p) ^ e.toNat), ofZMod L ((b.toNat : ZMod p) ^ e.toNat)) := by
  subst hp
  obtain ⟨r, s, hrun, hr, hs⟩ := pair_spec hsmall hwindow e a b
  rw [hrun, eq_ofZMod_of_stands hr, eq_ofZMod_of_stands hs]

/-- A power from the tables of a base is exact for every exponent. -/
theorem tablePower_exact {base : UInt L} {table : List (List (UInt L))}
    (htable : fixedPower C base = some table) (e : UInt L) :
    tablePower C table e = some (ofZMod L ((base.toNat : ZMod p) ^ e.toNat)) := by
  subst hp
  obtain ⟨r, hrun, hr⟩ := tablePower_spec hsmall htable e
  rw [hrun, eq_ofZMod_of_stands hr]

theorem mul_exact (a b : UInt L) :
    Mod.mul C a b = ofZMod L ((a.toNat : ZMod p) * (b.toNat : ZMod p)) := by
  subst hp
  exact eq_ofZMod_mul (Mod.mul_toNat hsmall a b)

end ReferenceCalls

/-- The points of the tables. -/
theorem curve_encodes (i : Fin 4) : ∃ x y, ∃ h : secpCurve.Nonsingular x y,
    Encodes (curveX i) x ∧ Encodes (curveY i) y ∧ curvePoint i = .some x y h := by
  have hencodes {a : U256} {x : SecpField} (hreduced : a.toNat < secpP)
      (hresidue : (a.toNat : SecpField) = x) : Encodes a x := ⟨hreduced, hresidue⟩
  fin_cases i
  · exact ⟨pointH.x, pointH.y, pointH.nonsingular, hencodes (by decide +kernel) (by decide +kernel),
      hencodes (by decide +kernel) (by decide +kernel), rfl⟩
  · exact ⟨pointJ.x, pointJ.y, pointJ.nonsingular, hencodes (by decide +kernel) (by decide +kernel),
      hencodes (by decide +kernel) (by decide +kernel), rfl⟩
  · exact ⟨pointK.x, pointK.y, pointK.nonsingular, hencodes (by decide +kernel) (by decide +kernel),
      hencodes (by decide +kernel) (by decide +kernel), rfl⟩
  · exact ⟨pointL.x, pointL.y, pointL.nonsingular, hencodes (by decide +kernel) (by decide +kernel),
      hencodes (by decide +kernel) (by decide +kernel), rfl⟩

section ReferenceTables

variable {Pubkey : Type} {api : Secp256k1Sums Pubkey} {point : Pubkey → secpCurve.Point}
  (hlaw : api.ComputesGroupLaw point) {window : ℕ} (hlow : 10 ≤ window) (hhigh : window ≤ 20)

include hlow hhigh

theorem rowsOf_le : rowsOf window ≤ 26 := by
  have hall : ∀ window < 21, 10 ≤ window → rowsOf window ≤ 26 := by decide
  exact hall window (by omega) hlow

include hlaw

/-- The tables of a curve multiply by its point. -/
theorem curveTable_exact (i : Fin 4) :
    ∃ t, makeCurveTable api.toSecp256k1 window (curveX i) (curveY i) = some t ∧
      ∀ k, t.multiply api k = some (exact.curve i k) := by
  obtain ⟨x, y, h, hx, hy, hpoint⟩ := curve_encodes i
  have horder := addOrderOf_curvePoint i
  obtain ⟨t, ht, hwindow, hholds⟩ := makeCurveTable_holds hlaw.calls (by omega) hhigh hx hy
    (hpoint ▸ horder)
  rw [← hpoint] at hholds
  refine ⟨t, ht, fun k ↦ CurveTable.multiply_spec hholds horder ?_ hlaw k⟩
  rw [hwindow]
  exact rowsOf_le hlow hhigh

omit hlow hhigh hlaw in
/-- The four tables are made one after the other, and all of them are there if each is made. -/
theorem makeCurves_eq {api : Secp256k1 Pubkey} {curve : Fin 4 → CurveTable Pubkey}
    (hmake : ∀ i, makeCurveTable api window (curveX i) (curveY i) = some (curve i)) :
    makeCurves api window = some curve := by
  have hmade (i : Fin 4) : (makeCurveTable api window (curveX i) (curveY i)).isSome := by
    rw [hmake]
    rfl
  rw [makeCurves, dif_pos hmade]
  exact congrArg some (funext fun i ↦ Option.get_of_eq_some _ (hmake i))

/-- The calls of the reference return the exact arithmetic, with an inversion that is allowed at
least 1025 rounds. -/
theorem referenceCalls_return {limit : ℕ} (hlimit : 1025 ≤ limit) :
    ∃ t, makeTables api window = some t ∧ (referenceCalls api t limit).Return exact := by
  obtain ⟨t64, t128, t256, -, ht64, ht128, ht256, -⟩ := powerPart_holds g64 g128 g256
  choose curve hmake hmultiply using curveTable_exact hlaw hlow hhigh
  refine ⟨⟨t64, t128, t256, curve⟩, ?_, ?_⟩
  · rw [makeTables, ht64, ht128, ht256, makeCurves_eq hmake]
    rfl
  · have hM64 : Mod.Small 1 59 := ⟨by decide, by decide, by decide⟩
    have hM128 : Mod.Small 2 159 := ⟨by decide, by decide, by decide⟩
    have hM256 : Mod.Small 4 189 := ⟨by decide, by decide, by decide⟩
    have hp64 : (Mod.modulus 59 : UInt 1).toNat = 2 ^ 64 - 59 := modulus_eq hM64
    have hp128 : (Mod.modulus 159 : UInt 2).toNat = 2 ^ 128 - 159 := modulus_eq hM128
    have hp256 : (Mod.modulus 189 : UInt 4).toNat = 2 ^ 256 - 189 := modulus_eq hM256
    have he64 : Reference.e64.toNat = e64.toNat := by decide +kernel
    have he128 : Reference.e128.toNat = e128.toNat := by decide +kernel
    have he256 : Reference.e256.toNat = e256.toNat := by decide +kernel
    constructor
    case exp64 =>
      intro a b
      have hpair := pair_exact hM64 hp64 (by decide : 1 ≤ 3) Reference.e64 (toUInt a) (toUInt b)
      rw [he64, toNat_toUInt, toNat_toUInt] at hpair
      simp only [referenceCalls, hpair]
      rfl
    case exp128 =>
      intro a b
      have hpair := pair_exact hM128 hp128 (by decide : 1 ≤ 4) Reference.e128 a b
      rwa [he128] at hpair
    case exp256 =>
      intro a b
      have hpair := pair_exact hM256 hp256 (by decide : 1 ≤ 4) Reference.e256 a b
      rwa [he256] at hpair
    case pow64 =>
      intro a
      have hpower := tablePower_exact small64 toNat_modulus64 ht64 (toUInt a)
      rw [toNat_toUInt] at hpower
      simp only [referenceCalls, hpower]
      rfl
    case pow128 => exact fun a ↦ tablePower_exact small128 toNat_modulus128 ht128 a
    case pow256 =>
      exact fun a b ↦ tablePair_eq (tablePower_exact small256 toNat_modulus256 ht256 a)
        (tablePower_exact small256 toNat_modulus256 ht256 b)
    case mul64 =>
      intro a b
      have hproduct := mul_exact hM64 hp64 (toUInt a) (toUInt b)
      rw [toNat_toUInt, toNat_toUInt] at hproduct
      simp only [referenceCalls, hproduct]
      rfl
    case mul256 => exact fun a b ↦ congrArg some (mul_exact hM256 hp256 a b)
    case curves =>
      intro scalars
      have hall : (List.finRange 4).mapM (fun i ↦
          (curve i).multiply api (![scalars 0, scalars 1, scalars 2, scalars 3] i)) =
          some ((List.finRange 4).map fun i ↦ exact.curve i (scalars i)) := by
        refine mapM_eq_some fun i _ ↦ ?_
        rw [hmultiply]
        fin_cases i <;> rfl
      simp only [referenceCalls, hall]
      rfl
    case inverse256 =>
      intro a
      obtain ⟨r, hrun, hr⟩ := inverse256_stands hlimit a
      exact hrun.trans (congrArg some (eq_ofZMod_of_stands hr))

end ReferenceTables

/-! ### The kernel's calls -/

/-- The affine coordinates that are written for a scalar, given the inverse of the third coordinate
of its sum: the constants of an invalid scalar for a multiple of the order, and the coordinates of
the multiple of the point else. -/
theorem jacToAffine_coordinates {build : Build} {P : secpCurve.Point} {tab : List UInt64}
    (hfits : build.Fits) (horder : addOrderOf P = secpN) {k zi : U256}
    (hread : ∀ i < build.digits, build.digit (reduceScalar k) i ≠ 0 →
      ReadsRow build P tab (reduceScalar k) i)
    (hzi : Encodes zi (residue (curveSum build tab k).Z)⁻¹) :
    jacToAffine (curveSum build tab k).X (curveSum build tab k).Y zi
        (curveSum build tab k).invalid =
      coordinatesOf (k.toNat • P) := by
  have hinvalid := curveSum_invalid_iff build tab k
  obtain ⟨hX, hY, -⟩ := curveSum_reduced hfits horder hread
  by_cases hdvd : secpN ∣ k.toNat
  · have hzero : k.toNat • P = 0 := by rwa [← addOrderOf_dvd_iff_nsmul_eq_zero, horder]
    have hconstants : (invalidX, invalidY) = invalidPoint := by decide +kernel
    rw [hinvalid.mpr hdvd, hzero]
    exact hconstants
  · have hvalid : (curveSum build tab k).invalid = false := by
      rw [Bool.eq_false_iff, Ne, hinvalid]
      exact hdvd
    obtain ⟨h, hpoint⟩ := (curveSum_represents hfits horder hread hvalid).point
    obtain ⟨hx, hy⟩ := jacToAffine_valid hX.encodes hY.encodes hzi
    rw [hvalid, hpoint]
    exact Prod.ext (hx.unique (encodes_ofResidue _)) (hy.unique (encodes_ofResidue _))

section KernelTables

variable {window : ℕ} {build : Build} (hbuild : buildOf window = some build)

include hbuild

/-- Four multiplications at once over the host's tables of the four points, for any four scalars:
they return, and what they return are the coordinates that the exact arithmetic has for each curve.
-/
theorem curveMul4_exact {power : List UInt64} (hpower : power.length = Device.powerTablesU64)
    (k : Fin 4 → U256) :
    build.curveMul4
        ((gpuTables power curvePoint (Device.rowsFrom 0 build.widths)).drop tableCurve)
        (k 0) (k 1) (k 2) (k 3) =
      some ((List.finRange 4).flatMap fun i ↦
        [(exact.curve i (k i)).1, (exact.curve i (k i)).2]) := by
  have hfits := Build.fits_of_buildOf hbuild
  obtain ⟨tables, htables⟩ :
      ∃ tables, tables = gpuTables power curvePoint (Device.rowsFrom 0 build.widths) := ⟨_, rfl⟩
  obtain ⟨scalar, hscalar⟩ : ∃ scalar : ℕ → U256, ∀ i : Fin 4, scalar i = k i :=
    ⟨fun n ↦ if h : n < 4 then k ⟨n, h⟩ else k 0, fun i ↦ dif_pos i.isLt⟩
  have hread : ∀ curve < 4, ∀ i < build.digits,
      build.digit (reduceScalar (scalar curve)) i ≠ 0 → ReadsRow build (curvePoint curve)
        (curvePointer build tables curve) (reduceScalar (scalar curve)) i := by
    intro curve hcurve i hi hdigit
    rw [htables]
    exact readsRow_gpuTables hbuild hpower curvePoint hcurve hi hdigit
  have hplaces (curve : ℕ) :
      curveOf build (tables.drop tableCurve) curve = curvePointer build tables curve := by
    rw [curveOf, List.drop_drop]
    rfl
  obtain ⟨zi, hzi, hfour⟩ := curveMul4_inverses build (tables.drop tableCurve) scalar
    (fun _ ↦ rfl) fun curve hcurve ↦ by
      rw [hplaces]
      exact (curveSum_reduced hfits (addOrderOf_curvePoint curve) (hread curve hcurve)).2.2
  rw [htables.symm, ← hscalar 0, ← hscalar 1, ← hscalar 2, ← hscalar 3]
  refine hfour.trans (congrArg some ?_)
  have hcoordinates (i : Fin 4) :
      jacToAffine (curveSum build (curveOf build (tables.drop tableCurve) i) (scalar i)).X
          (curveSum build (curveOf build (tables.drop tableCurve) i) (scalar i)).Y (zi i)
          (curveSum build (curveOf build (tables.drop tableCurve) i) (scalar i)).invalid =
        exact.curve i (k i) := by
    have hinverse := hzi i i.isLt
    rw [hplaces] at hinverse ⊢
    rw [← hscalar]
    exact jacToAffine_coordinates hfits (addOrderOf_curvePoint i) (hread i i.isLt) hinverse
  have hrange : List.range 4 = (List.finRange 4).map Fin.val := by decide
  rw [hrange, List.flatMap_map]
  simp only [hcoordinates]

/-- The calls of the kernel return the exact arithmetic, for a build that fits and tables that hold
what was written. -/
theorem kernelCalls_return : ∃ part, powerPart g64 g128 g256 = some part ∧
    (kernelCalls build (gpuTables part curvePoint (Device.rowsFrom 0 build.widths))).Return
      exact := by
  obtain ⟨-, -, -, part, -, -, -, hpart, hlength, hholds⟩ := powerPart_holds g64 g128 g256
  obtain ⟨hholds64, hholds128, hholds256⟩ := hholds
    ((List.range 4).map fun curve ↦
      curveTable (curvePoint curve) (Device.rowsFrom 0 build.widths)).flatten
  refine ⟨part, hpart, ?_⟩
  constructor
  case exp64 =>
    intro a b
    obtain ⟨r, s, hrun, hr, hs⟩ := expfix64x2_spec a b
    rw [← toNat_toUInt] at hr hs
    refine hrun.trans (congrArg some (Prod.ext ?_ ?_))
    · exact eq_limb_of_toUInt_eq (eq_ofZMod_pow hr)
    · exact eq_limb_of_toUInt_eq (eq_ofZMod_pow hs)
  case exp128 =>
    intro a b
    obtain ⟨r, s, hrun, hr, hs⟩ := expfix128x2_spec a b
    exact hrun.trans (congrArg some (Prod.ext (eq_ofZMod_pow hr) (eq_ofZMod_pow hs)))
  case exp256 =>
    intro a b
    obtain ⟨r, s, hrun, hr, hs⟩ := expfix256x2_spec a b
    exact hrun.trans (congrArg some (Prod.ext (eq_ofZMod_pow hr) (eq_ofZMod_pow hs)))
  case pow64 =>
    intro a
    obtain ⟨r, hrun, hr⟩ := powtab64_spec hholds64 a
    rw [← toNat_toUInt] at hr
    exact hrun.trans (congrArg some (eq_limb_of_toUInt_eq (eq_ofZMod hr)))
  case pow128 =>
    intro a
    obtain ⟨r, hrun, hr⟩ := powtab128_spec hholds128 a
    exact hrun.trans (congrArg some (eq_ofZMod hr))
  case pow256 =>
    intro a b
    obtain ⟨r, s, hrun, hr, hs⟩ :=
      powtab256x2_spec (by decide : 1 ≤ 8) (by decide) hholds256 a b
    exact hrun.trans (congrArg some (Prod.ext (eq_ofZMod hr) (eq_ofZMod hs)))
  case mul64 =>
    intro a b
    have hproduct : (mulmod64 a b cM64).toNat = a.toNat * b.toNat % (2 ^ 64 - 59) :=
      mulmod64_toNat a b (by decide) (by decide)
    rw [← toNat_toUInt] at hproduct
    exact congrArg some (eq_limb_of_toUInt_eq (eq_ofZMod_mul hproduct))
  case mul256 =>
    intro a b
    have hproduct : (mulmod256 a b cM256).toNat = a.toNat * b.toNat % (2 ^ 256 - 189) :=
      mulmod256_toNat a b (Or.inr (by decide))
    exact congrArg some (eq_ofZMod_mul hproduct)
  case curves => exact fun k ↦ curveMul4_exact hbuild hlength k
  case inverse256 =>
    intro a
    obtain ⟨r, hrun, hr⟩ := invF256_stands a
    exact hrun.trans (congrArg some (eq_ofZMod_of_stands hr))

end KernelTables

/-! ### The two mixes -/

/-- The two mixes over their own arithmetic. Let the calls of libsecp256k1 compute the group law,
the mode be one of the reference's and the window one that there is a kernel for. Both sides can
make their tables; every function that the reference's mix calls and every one that the kernel's
calls returns the same exact arithmetic, whatever the mode and the window; and over that arithmetic
the two mixes give the same 32 bytes for every input. -/
theorem mixes_agree {Pubkey : Type} {api : Secp256k1Sums Pubkey}
    {point : Pubkey → secpCurve.Point} (hlaw : api.ComputesGroupLaw point) {mode : ℕ}
    (hlow : 10 ≤ mode) (hhigh : mode ≤ 20) {limit : ℕ} (hlimit : 1025 ≤ limit) {window : ℕ}
    (hwindow : (2 ≤ window ∧ window ≤ 20) ∨ window = 22 ∨ window = 24) :
    ∃ t part build rows, makeTables api mode = some t ∧ powerPart g64 g128 g256 = some part ∧
      buildOf window = some build ∧ Device.rows window = some rows ∧
      (referenceCalls api t limit).Return exact ∧
      (kernelCalls build (gpuTables part curvePoint rows)).Return exact ∧
      ∀ input : Vector UInt8 64, ∃ digest : List UInt8, digest.length = 32 ∧
        mix512 exact input 0 = some digest ∧ bc3mix512 exact input = some digest := by
  obtain ⟨t, ht, hreference⟩ := referenceCalls_return hlaw hlow hhigh hlimit
  obtain ⟨build, hbuild, hrows⟩ := build_and_rows hwindow
  obtain ⟨part, hpart, hkernel⟩ := kernelCalls_return hbuild
  refine ⟨t, part, build, _, ht, hpart, hbuild, hrows, hreference, hkernel, fun input ↦ ?_⟩
  refine ⟨digest exact input 0, ?_, mix512_eq input exact 0, bc3mix512_eq input exact⟩
  simp [digest, UInt.store]

open Classical in
/-- The group law itself, with points for keys, and its sums. -/
noncomputable def groupLawSums : Secp256k1Sums secpCurve.Point where
  toSecp256k1 := groupLaw
  combineAll keys := if keys.sum = 0 then none else some keys.sum

/-- The group law of the curve is a library that computes it. -/
theorem groupLawSums_computesGroupLaw : groupLawSums.ComputesGroupLaw id where
  calls := groupLaw_computesGroupLaw
  infinity {keys} hsum := by
    rw [List.map_id] at hsum
    exact if_pos hsum
  sum {keys} hsum := by
    rw [List.map_id] at hsum ⊢
    exact ⟨keys.sum, if_neg hsum, rfl⟩

/-- The fast mode and a mixed window. -/
theorem mixes_agree_fast_at_22 :
    ∃ t part build rows, makeTables groupLawSums 16 = some t ∧
      powerPart g64 g128 g256 = some part ∧ buildOf 22 = some build ∧ Device.rows 22 = some rows ∧
      (referenceCalls groupLawSums t 1025).Return exact ∧
      (kernelCalls build (gpuTables part curvePoint rows)).Return exact ∧
      ∀ input : Vector UInt8 64, ∃ digest : List UInt8, digest.length = 32 ∧
        mix512 exact input 0 = some digest ∧ bc3mix512 exact input = some digest :=
  mixes_agree groupLawSums_computesGroupLaw (by decide) (by decide) le_rfl (Or.inr (Or.inl rfl))

end Bc3Miner.Kernel
