import Bc3Miner.Kernel.CurvePoints
import Bc3Miner.Kernel.CurveTable
import Bc3Miner.Kernel.Jacobian
import Mathlib.GroupTheory.OrderOfElement

/-!
# Windowed scalar multiplication

`curve_sum` of `src/kernels/bc3hash.cl`: the scalar, reduced once by the order of the group, is cut
into digits, and the multiple of the point that each of them stands for is read from the curve's
table and added up. The digits of the scalar are `MixedRadix` digits at the host's positions, so
what has been added is always less than the multiple that comes next, and the two together at most
the scalar: neither of the exceptional cases of an addition occurs.

The main results are `curveSum_represents` and `curveSum_multiplies`. The order of the points is a
hypothesis, as is the layout; nothing is assumed of the scalar.
-/

set_option autoImplicit false
set_option relaxedAutoImplicit false

namespace Bc3Miner.Kernel

open Foundations Finset

/-! ### The kernel's function -/

/-- `SECP_N`. -/
def secpNLimbs : U256 :=
  mk256 0xBFD25E8CD0364141 0xBAAEDCE6AF48A03B 0xFFFFFFFFFFFFFFFE 0xFFFFFFFFFFFFFFFF

def reduceScalar (k : U256) : U256 := if ge256 k secpNLimbs then sub256 k secpNLimbs else k

namespace Build

/-- The bits of digit `i`. -/
def digit (build : Build) (k : U256) (i : ℕ) : UInt64 :=
  k.window (build.cut i).pos &&& (build.cut i).mask

/-- Where the point of digit `i` begins in the curve's table. -/
def place (build : Build) (k : U256) (i : ℕ) : UInt64 :=
  ((build.cut i).row + build.digit k i - 1) * 8

end Build

/-- The point of digit `i` added, unless the digit is zero, and the way out of the addition. -/
def curveStep (build : Build) (tab : List UInt64) (k : U256) (acc : Accumulator) (i : ℕ) :
    Accumulator × Option Branch :=
  if build.digit k i ≠ 0 then
    let p (j : ℕ) := tab.getD ((build.place k i).toNat + j) 0
    let (acc, branch) := jacAddAffine acc (mk256 (p 0) (p 1) (p 2) (p 3))
      (mk256 (p 4) (p 5) (p 6) (p 7))
    (acc, some branch)
  else (acc, none)

/-- The accumulator after the first `count` digits. -/
def curveAfter (build : Build) (tab : List UInt64) (k : U256) (count : ℕ) : Accumulator :=
  (List.range count).foldl (fun acc i ↦ (curveStep build tab k acc i).1)
    ⟨mk256 0 0 0 0, mk256 0 0 0 0, mk256 1 0 0 0, true⟩

/-- What `curve_sum` writes. -/
structure CurveSum where
  X : U256
  Y : U256
  Z : U256
  invalid : Bool
  deriving DecidableEq

def curveSum (build : Build) (tab : List UInt64) (k : U256) : CurveSum :=
  let k := reduceScalar k
  let acc := curveAfter build tab k build.digits
  ⟨acc.X, acc.Y, acc.Z, iszero256 k⟩

/-- The kernel's pointer to a curve's table. -/
def curvePointer (build : Build) (tables : List UInt64) (curve : ℕ) : List UInt64 :=
  tables.drop (tableCurve + curve * (build.curvePoints.toNat * 8))

/-! ### The scalar -/

theorem secpNLimbs_toNat : secpNLimbs.toNat = secpN := by decide +kernel

/-- One subtraction reduces a scalar: twice the order is more than 256 bits hold. -/
theorem reduceScalar_toNat (k : U256) : (reduceScalar k).toNat = k.toNat % secpN := by
  have hlt : k.toNat < 2 ^ 256 := k.toNat_lt
  unfold reduceScalar
  by_cases hge : ge256 k secpNLimbs = true
  · have hle : secpN ≤ k.toNat := by
      rw [ge256, Limbs.ge_iff, secpNLimbs_toNat] at hge
      exact hge
    rw [if_pos hge, sub256_toNat (by rwa [secpNLimbs_toNat]), secpNLimbs_toNat,
      Nat.mod_eq_sub_mod hle, Nat.mod_eq_of_lt]
    unfold secpN at hle ⊢
    omega
  · have hsmall : k.toNat < secpN := by
      rw [ge256, Limbs.ge_iff, secpNLimbs_toNat, not_le] at hge
      exact hge
    rw [if_neg hge, Nat.mod_eq_of_lt hsmall]

theorem reduceScalar_lt (k : U256) : (reduceScalar k).toNat < secpN := by
  rw [reduceScalar_toNat]
  exact Nat.mod_lt _ secpN_prime.pos

/-! ### The digits -/

/-- Row `i` of a list of rows. -/
def rowOf (rows : List Device.Row) (i : ℕ) : Device.Row := rows.getD i ⟨0, 0, 0⟩

section Digits

variable {build : Build} {i : ℕ}

/-- The kernel's lowest bits are the places of the digits. -/
theorem pos_eq_cutAt (hfits : build.Fits) (hi : i < build.digits) :
    (build.cut i).pos = cutAt build.widths i := by
  have hbelow := hfits.below i hi
  rw [(Build.cut_follows hfits hi).1, cutAt, Nat.min_eq_left hbelow.le]

theorem cutAt_digits (hfits : build.Fits) : cutAt build.widths build.digits = 256 := by
  rw [cutAt, List.take_of_length_le (Build.length_widths build).le]
  exact Nat.min_eq_right hfits.covers

/-- The host's rows at the kernel's digits. -/
theorem rowOf_rowsFrom (hi : i < build.digits) :
    rowOf (Device.rowsFrom 0 build.widths) i =
      rowAt (cutAt build.widths i) (build.widths.getD i 0) := by
  rw [← Build.length_widths] at hi
  rw [rowOf, rowsFrom_getD (Nat.zero_le _) hi, Nat.zero_add]
  rfl

/-- The width of a digit as a difference of cuts: the one of its row, and what is left of 256 bits
for the last. -/
theorem cutAt_succ_sub (hi : i < build.digits) :
    cutAt build.widths (i + 1) - cutAt build.widths i =
      min (build.widths.getD i 0) (256 - cutAt build.widths i) := by
  rw [← Build.length_widths] at hi
  unfold cutAt
  rw [sum_take_succ hi]
  omega

/-- The rows of a build that fits are at most 24 bits wide. -/
theorem width_le (hfits : build.Fits) {width : ℕ} (hmem : width ∈ build.widths) : width ≤ 24 := by
  have hwindow := hfits.window_le
  unfold Build.widths at hmem
  split_ifs at hmem with hwide
  · rw [(List.mem_replicate.mp hmem).2]
    omega
  · rcases List.mem_append.mp hmem with hnarrow | hwide
    · rw [(List.mem_replicate.mp hnarrow).2]
      omega
    · rw [(List.mem_replicate.mp hwide).2]
      omega

/-- The kernel's digits are those of the scalar at the host's positions. The last digit of a uniform
build has fewer bits left than its mask lets through. -/
theorem digit_toNat (hfits : build.Fits) (hi : i < build.digits) (k : U256) :
    (build.digit k i).toNat = MixedRadix.digit (cutAt build.widths) k.toNat i := by
  have hpos := pos_eq_cutAt hfits hi
  have hbelow : cutAt build.widths i < 256 := (Nat.min_le_left _ _).trans_lt (hfits.below i hi)
  have hlength : i < build.widths.length := by rwa [Build.length_widths]
  have hwidth : build.widths.getD i 0 ≤ 24 := by
    rw [List.getD_eq_getElem _ _ hlength]
    exact width_le hfits (List.getElem_mem hlength)
  have hlt : k.toNat < 2 ^ 256 := k.toNat_lt
  have hposition : (build.cut i).pos < 64 * 4 := by rwa [hpos]
  unfold Build.digit
  rw [Limbs.window_and_mask k hposition (hwidth.trans_lt (by norm_num))
    (Build.cut_follows hfits hi).2.1, hpos, MixedRadix.digit, cutAt_succ_sub hi]
  rcases Nat.le_total (build.widths.getD i 0) (256 - cutAt build.widths i) with hle | hle
  · rw [Nat.min_eq_left hle]
  · have hrest : k.toNat / 2 ^ cutAt build.widths i < 2 ^ (256 - cutAt build.widths i) := by
      rw [Nat.div_lt_iff_lt_mul (Nat.two_pow_pos _), ← pow_add, Nat.sub_add_cancel hbelow.le]
      exact hlt
    rw [Nat.min_eq_right hle, Nat.mod_eq_of_lt hrest,
      Nat.mod_eq_of_lt (hrest.trans_le (Nat.pow_le_pow_right (by norm_num) hle))]

/-- A digit has a point in its row. -/
theorem digit_le_points (hfits : build.Fits) (hi : i < build.digits) (k : U256) :
    (build.digit k i).toNat ≤ (rowOf (Device.rowsFrom 0 build.widths) i).points := by
  rw [digit_toNat hfits hi, rowOf_rowsFrom hi, MixedRadix.digit, cutAt_succ_sub hi]
  exact Nat.le_sub_one_of_lt (Nat.mod_lt _ (Nat.two_pow_pos _))

/-- What a digit stands for, at the host's position. -/
theorem digit_part (hfits : build.Fits) (hi : i < build.digits) (k : U256) :
    (build.digit k i).toNat * 2 ^ (rowOf (Device.rowsFrom 0 build.widths) i).pos =
      MixedRadix.part (cutAt build.widths) k.toNat i := by
  rw [digit_toNat hfits hi, rowOf_rowsFrom hi]
  rfl

/-- The digits below a row, at their places, are the scalar below that cut. -/
theorem sum_digits_below (hfits : build.Fits) {count : ℕ} (hcount : count ≤ build.digits)
    (k : U256) :
    ∑ i ∈ range count,
        (build.digit k i).toNat * 2 ^ (rowOf (Device.rowsFrom 0 build.widths) i).pos =
      MixedRadix.sumBelow (cutAt build.widths) k.toNat count :=
  sum_congr rfl fun _ hmem ↦ digit_part hfits ((mem_range.mp hmem).trans_le hcount) k

/-- The digits make up the scalar. -/
theorem sum_digits (hfits : build.Fits) (k : U256) :
    MixedRadix.sumBelow (cutAt build.widths) k.toNat build.digits = k.toNat := by
  rw [MixedRadix.sumBelow_eq_mod (cutAt_zero _) (cutAt_le_succ _), cutAt_digits hfits]
  exact Nat.mod_eq_of_lt k.toNat_lt

/-- The place of a digit's point is in its row. -/
theorem place_toNat (hfits : build.Fits) (hi : i < build.digits) {k : U256}
    (hdigit : build.digit k i ≠ 0) :
    (build.place k i).toNat =
      ((((Device.rowsFrom 0 build.widths).take i).map Device.Row.places).sum +
        ((build.digit k i).toNat - 1)) * 8 := by
  have hrow := (Build.cut_follows hfits hi).2.2
  have hpositive : (build.digit k i).toNat ≠ 0 := fun hzero ↦ hdigit (UInt64.toNat_inj.mp hzero)
  have hplaces : (((Device.rowsFrom 0 build.widths).take i).map Device.Row.places).sum =
      ((build.widths.take i).map fun width ↦ 2 ^ width - 1).sum := by
    rw [List.map_take, places_rowsFrom, ← List.map_take]
  have hbefore : (((build.widths.take i).map fun width ↦ 2 ^ width - 1).sum) ≤ 128 * 2 ^ 24 := by
    have hsum := List.sum_le_card_nsmul ((build.widths.take i).map fun width ↦ 2 ^ width - 1)
      (2 ^ 24) (fun count hmem ↦ by
        rcases List.mem_map.mp hmem with ⟨width, hwidth, rfl⟩
        have hle := width_le hfits (List.mem_of_mem_take hwidth)
        exact (Nat.sub_le _ _).trans (Nat.pow_le_pow_right (by norm_num) hle))
    have hcount : (build.widths.take i).length ≤ 128 := by
      rw [List.length_take]
      exact (Nat.min_le_left _ _).trans (hi.le.trans hfits.digits_le)
    rw [List.length_map, smul_eq_mul] at hsum
    exact hsum.trans (Nat.mul_le_mul_right _ hcount)
  have hsmall : (build.digit k i).toNat ≤ 2 ^ 24 := by
    have hle := digit_le_points hfits hi k
    rw [rowOf_rowsFrom hi] at hle
    have hlength : i < build.widths.length := by rwa [Build.length_widths]
    have hwidth : build.widths.getD i 0 ≤ 24 := by
      rw [List.getD_eq_getElem _ _ hlength]
      exact width_le hfits (List.getElem_mem hlength)
    refine hle.trans ((Nat.sub_le _ _).trans (Nat.pow_le_pow_right (by norm_num) ?_))
    exact (Nat.min_le_left _ _).trans hwidth
  rw [hplaces]
  unfold Build.place
  rw [UInt64.toNat_mul, UInt64.toNat_sub, UInt64.toNat_add, hrow]
  show (2 ^ 64 - 1 + (_ + _) % 2 ^ 64) % 2 ^ 64 * 8 % 2 ^ 64 = _
  omega

end Digits

/-! ### The points -/

section Points

variable {build : Build} {P : secpCurve.Point} {tab : List UInt64} {k : U256} {i : ℕ}

/-- That the kernel reads what the host has for digit `i`. -/
def ReadsRow (build : Build) (P : secpCurve.Point) (tab : List UInt64) (k : U256) (i : ℕ) : Prop :=
  ∀ j < 8, tab.getD ((build.place k i).toNat + j) 0 =
    (pointWords (((build.digit k i).toNat *
      2 ^ (rowOf (Device.rowsFrom 0 build.widths) i).pos) • P)).getD j 0

/-- No row has more points than places. -/
theorem points_le_places : ∀ row ∈ Device.rowsFrom 0 build.widths, row.points ≤ row.places := by
  intro row hmem
  rcases List.mem_iff_getElem.mp hmem with ⟨i, hi, rfl⟩
  rw [length_rowsFrom] at hi
  have hrow := rowsFrom_getD (Nat.zero_le _) hi ⟨0, 0, 0⟩
  rw [List.getD_eq_getElem _ _ (by rwa [length_rowsFrom])] at hrow
  rw [hrow]
  show 2 ^ min _ _ - 1 ≤ 2 ^ _ - 1
  exact Nat.sub_le_sub_right (Nat.pow_le_pow_right (by norm_num) (Nat.min_le_left _ _)) 1

/-- A row ends within the table. -/
theorem places_below_le (rows : List Device.Row) (i : ℕ) :
    ((rows.take i).map Device.Row.places).sum + (rowOf rows i).places ≤
      (rows.map Device.Row.places).sum := by
  have hsplit := List.sum_take_add_sum_drop (rows.map Device.Row.places) (i + 1)
  rcases Nat.lt_or_ge i rows.length with hlt | hge
  · have hnext := sum_take_succ (by simpa using hlt : i < (rows.map Device.Row.places).length)
    have hplaces : (rows.map Device.Row.places).getD i 0 = (rowOf rows i).places := by
      rw [rowOf, List.getD_eq_getElem _ _ hlt, List.getD_eq_getElem _ _ (by simpa using hlt),
        List.getElem_map]
    rw [hplaces] at hnext
    rw [List.map_take]
    omega
  · rw [rowOf, List.getD_eq_default _ _ hge, List.take_of_length_le hge]
    exact le_rfl

/-- Over the buffer of the host for a window with a kernel, the place at which the kernel looks for
a digit that is not zero holds the multiple of the curve's point that the digit stands for, in the
fourth table as in the first. -/
theorem readsRow_gpuTables {window : ℕ} (hbuild : buildOf window = some build)
    {power : List UInt64} (hpower : power.length = Device.powerTablesU64)
    (points : ℕ → secpCurve.Point) {curve : ℕ} (hcurve : curve < 4) (hi : i < build.digits)
    (hdigit : build.digit k i ≠ 0) :
    ReadsRow build (points curve)
      (curvePointer build (gpuTables power points (Device.rowsFrom 0 build.widths)) curve) k i := by
  intro j hj
  have hfits := Build.fits_of_buildOf hbuild
  have hrows : ∀ row ∈ Device.rowsFrom 0 build.widths, row.points ≤ row.places := points_le_places
  have hlength : i < (Device.rowsFrom 0 build.widths).length := by
    rwa [length_rowsFrom, Build.length_widths]
  have hrow : (Device.rowsFrom 0 build.widths)[i] = rowOf (Device.rowsFrom 0 build.widths) i := by
    rw [rowOf, List.getD_eq_getElem _ _ hlength]
  have hpositive : 1 ≤ (build.digit k i).toNat :=
    Nat.one_le_iff_ne_zero.mpr fun hzero ↦ hdigit (UInt64.toNat_inj.mp hzero)
  have hle := digit_le_points hfits hi k
  have hread := curveTable_getD (points curve) hrows hlength hpositive (by rwa [hrow]) hj
  have hsize : build.curvePoints.toNat =
      ((Device.rowsFrom 0 build.widths).map Device.Row.places).sum := by
    rw [Build.curvePoints_toNat hbuild, places_rowsFrom]
  have hstart : tableCurve = power.length := by
    rw [hpower]
    decide
  rw [hrow] at hread
  rw [← hread, place_toNat hfits hi hdigit, curvePointer, hsize, hstart]
  have hwithin := places_below_le (Device.rowsFrom 0 build.widths) i
  have hplaces := hrows _ (List.getElem_mem hlength)
  rw [hrow] at hplaces
  refine gpuTables_getD points hrows hcurve ?_
  omega

/-- The eight words of a point are its coordinates. -/
theorem point_of_words {x y : SecpField} (h : secpCurve.Nonsingular x y) {start : ℕ}
    (hread : ∀ j < 8, tab.getD (start + j) 0 = (pointWords (.some x y h)).getD j 0) :
    mk256 (tab.getD (start + 0) 0) (tab.getD (start + 1) 0) (tab.getD (start + 2) 0)
        (tab.getD (start + 3) 0) = ofResidue x ∧
      mk256 (tab.getD (start + 4) 0) (tab.getD (start + 5) 0) (tab.getD (start + 6) 0)
        (tab.getD (start + 7) 0) = ofResidue y := by
  rw [hread 0 (by norm_num), hread 1 (by norm_num), hread 2 (by norm_num), hread 3 (by norm_num),
    hread 4 (by norm_num), hread 5 (by norm_num), hread 6 (by norm_num), hread 7 (by norm_num),
    eq_mk256 (ofResidue x), eq_mk256 (ofResidue y)]
  exact ⟨rfl, rfl⟩

/-- What the first `count` digits stand for. -/
abbrev scalarBelow (build : Build) (k : U256) (count : ℕ) : ℕ :=
  MixedRadix.sumBelow (cutAt build.widths) k.toNat count

/-- For a scalar below the order and a point of that order: the multiple that a nonzero digit stands
for is neither the sum of the digits below it nor its opposite, so the addition is in its general
case. -/
theorem part_ne (hfits : build.Fits) (horder : addOrderOf P = secpN) (hk : k.toNat < secpN)
    (hi : i < build.digits) (hdigit : build.digit k i ≠ 0) :
    scalarBelow build k i • P ≠ MixedRadix.part (cutAt build.widths) k.toNat i • P ∧
      scalarBelow build k i • P ≠ -(MixedRadix.part (cutAt build.widths) k.toNat i • P) ∧
      MixedRadix.part (cutAt build.widths) k.toNat i • P ≠ 0 := by
  have hnonzero : MixedRadix.digit (cutAt build.widths) k.toNat i ≠ 0 := by
    rw [← digit_toNat hfits hi]
    exact fun hzero ↦ hdigit (UInt64.toNat_inj.mp hzero)
  have hnot := MixedRadix.not_modEq (cutAt_zero _) (cutAt_le_succ _) hnonzero hk
  have hpart := MixedRadix.sumBelow_lt_part (cutAt_zero build.widths) (cutAt_le_succ _) hnonzero
  have hle := MixedRadix.sumBelow_le (cutAt_zero build.widths) (cutAt_le_succ _) k.toNat (i + 1)
  rw [MixedRadix.sumBelow_succ] at hle
  refine ⟨fun hequal ↦ ?_, fun hopposite ↦ ?_, fun hzero ↦ ?_⟩
  · rw [nsmul_eq_nsmul_iff_modEq, horder] at hequal
    exact hnot.1 hequal
  · rw [eq_neg_iff_add_eq_zero, ← add_nsmul, ← addOrderOf_dvd_iff_nsmul_eq_zero, horder]
      at hopposite
    exact hnot.2 hopposite
  · rw [← addOrderOf_dvd_iff_nsmul_eq_zero, horder] at hzero
    have hlarge := Nat.le_of_dvd (by omega) hzero
    omega

/-- One digit of the loop. If the accumulator stands for the sum of the digits below, it stands for
the sum with this digit afterwards: a zero digit is passed over, the first point is put in as it is,
and every other is added in the general case. -/
theorem curveStep_standsFor (hfits : build.Fits) (horder : addOrderOf P = secpN)
    (hk : k.toNat < secpN) (hi : i < build.digits)
    (hread : build.digit k i ≠ 0 → ReadsRow build P tab k i) {acc : Accumulator}
    (hacc : acc.StandsFor (scalarBelow build k i • P)) :
    (curveStep build tab k acc i).1.StandsFor (scalarBelow build k (i + 1) • P) ∧
      ∀ branch, (curveStep build tab k acc i).2 = some branch →
        branch = .first ∨ branch = .general := by
  have hpart := digit_part hfits hi k
  have hsum : scalarBelow build k (i + 1) =
      scalarBelow build k i + MixedRadix.part (cutAt build.widths) k.toNat i :=
    MixedRadix.sumBelow_succ _ _ _
  rw [hsum, add_nsmul]
  unfold curveStep
  by_cases hdigit : build.digit k i = 0
  · have hnone : MixedRadix.part (cutAt build.widths) k.toNat i = 0 := by
      rw [← hpart, hdigit]
      exact Nat.zero_mul _
    rw [if_neg (not_not_intro hdigit), hnone, zero_nsmul, add_zero]
    exact ⟨hacc, fun branch hbranch ↦ absurd hbranch (by simp)⟩
  · rw [if_pos hdigit]
    rcases part_ne hfits horder hk hi hdigit with ⟨hsame, hopposite, hzero⟩
    have hwords := hread hdigit
    unfold ReadsRow at hwords
    rw [hpart] at hwords
    rcases hpoint : MixedRadix.part (cutAt build.widths) k.toNat i • P with _ | ⟨x, y, h⟩
    · exact absurd hpoint hzero
    · rw [hpoint] at hwords hsame hopposite
      rcases point_of_words h hwords with ⟨hx, hy⟩
      dsimp only
      rw [hx, hy]
      by_cases hfirst : scalarBelow build k i • P = 0
      · rcases hacc.add_first hfirst (encodes_ofResidue x) (encodes_ofResidue y) h with
          ⟨hadded, hbranch⟩
        exact ⟨hadded, fun branch heq ↦ Or.inl ((Option.some.inj heq).symm.trans hbranch)⟩
      · rcases hacc.add_general (encodes_ofResidue x) (encodes_ofResidue y) h hfirst hsame
          hopposite with ⟨hadded, hbranch⟩
        exact ⟨hadded, fun branch heq ↦ Or.inr ((Option.some.inj heq).symm.trans hbranch)⟩

theorem curveAfter_succ (build : Build) (tab : List UInt64) (k : U256) (count : ℕ) :
    curveAfter build tab k (count + 1) =
      (curveStep build tab k (curveAfter build tab k count) count).1 := by
  unfold curveAfter
  rw [List.range_succ, List.foldl_append, List.foldl_cons, List.foldl_nil]

/-- The accumulator starts at infinity. -/
theorem start_standsFor :
    Accumulator.StandsFor ⟨mk256 0 0 0 0, mk256 0 0 0 0, mk256 1 0 0 0, true⟩ 0 := by
  have hzero : Reduced (mk256 0 0 0 0) := by
    unfold Reduced
    rw [toNat_mk256]
    exact secpP_pos
  refine ⟨hzero, hzero, encodes_one.reduced, ?_, rfl⟩
  rw [encodes_one.residue]
  exact one_ne_zero

/-- After any number of digits the accumulator holds the multiple they make up. -/
theorem curveAfter_standsFor (hfits : build.Fits) (horder : addOrderOf P = secpN)
    (hk : k.toNat < secpN)
    (hread : ∀ i < build.digits, build.digit k i ≠ 0 → ReadsRow build P tab k i) {count : ℕ}
    (hcount : count ≤ build.digits) :
    (curveAfter build tab k count).StandsFor (scalarBelow build k count • P) := by
  induction count with
  | zero =>
    have hnone : scalarBelow build k 0 = 0 := rfl
    rw [hnone, zero_nsmul]
    exact start_standsFor
  | succ count ih =>
    rw [curveAfter_succ]
    exact (curveStep_standsFor hfits horder hk hcount (hread count hcount) (ih (by omega))).1

/-- Only the multiples of the order are invalid. -/
theorem curveSum_invalid_iff (build : Build) (tab : List UInt64) (k : U256) :
    (curveSum build tab k).invalid = true ↔ secpN ∣ k.toNat := by
  show iszero256 (reduceScalar k) = true ↔ _
  rw [iszero256_iff, reduceScalar_toNat]
  exact (Nat.dvd_iff_mod_eq_zero ..).symm

/-- If the scalar is not taken for invalid, the three coordinates that are written represent the
multiple of the point, for a point of the order of the group and a table that holds its multiples.
-/
theorem curveSum_represents (hfits : build.Fits) (horder : addOrderOf P = secpN) {k : U256}
    (hread : ∀ i < build.digits, build.digit (reduceScalar k) i ≠ 0 →
      ReadsRow build P tab (reduceScalar k) i)
    (hvalid : (curveSum build tab k).invalid = false) :
    Jacobian.Represents secpCurve (residue (curveSum build tab k).X)
      (residue (curveSum build tab k).Y) (residue (curveSum build tab k).Z) (k.toNat • P) := by
  have hstands := curveAfter_standsFor hfits horder (reduceScalar_lt k) hread le_rfl
  have hvalue : scalarBelow build (reduceScalar k) build.digits • P = k.toNat • P := by
    rw [scalarBelow, sum_digits hfits, reduceScalar_toNat, ← horder, mod_addOrderOf_nsmul]
  rw [hvalue] at hstands
  have hnotinf : ¬(curveAfter build tab (reduceScalar k) build.digits).inf = true := by
    rw [hstands.inf_iff, ← addOrderOf_dvd_iff_nsmul_eq_zero, horder,
      ← curveSum_invalid_iff build tab, hvalid]
    exact Bool.false_ne_true
  have hpoint := hstands.point
  rw [if_neg hnotinf] at hpoint
  exact hpoint

end Points

/-! ### The multiplication -/

/-- The windows there is a kernel for, with the host's rows. -/
theorem build_and_rows {window : ℕ}
    (hwindow : (2 ≤ window ∧ window ≤ 20) ∨ window = 22 ∨ window = 24) :
    ∃ build, buildOf window = some build ∧
      Device.rows window = some (Device.rowsFrom 0 build.widths) := by
  have hexists : ∃ build, buildOf window = some build := by
    unfold buildOf
    rcases hwindow with huniform | rfl | rfl
    · exact ⟨_, if_pos huniform⟩
    · exact ⟨_, rfl⟩
    · exact ⟨_, rfl⟩
  rcases hexists with ⟨build, hbuild⟩
  refine ⟨build, hbuild, ?_⟩
  rw [Device.rows, Build.digits_eq_widths hbuild]
  rfl

/-- For every window with a kernel and every scalar, over tables in the host's layout of four points
whose order is the prime of the group: the digits make up the reduced scalar at the host's
positions; each of them that is not zero has a point in its row, at whose place the kernel reads its
multiple; that multiple and the sum before it are neither equal nor opposite; no addition takes an
exceptional way out; and what is written is the multiple of the point, its third coordinate never
zero, with `invalid` for the multiples of the order alone. -/
theorem curveSum_multiplies {window : ℕ}
    (hwindow : (2 ≤ window ∧ window ≤ 20) ∨ window = 22 ∨ window = 24)
    {power : List UInt64} (hpower : power.length = Device.powerTablesU64)
    {points : ℕ → secpCurve.Point} {curve : ℕ} (hcurve : curve < 4)
    (horder : addOrderOf (points curve) = secpN) (k : U256) :
    ∃ (build : Build) (rows : List Device.Row), buildOf window = some build ∧
      Device.rows window = some rows ∧ rows.length = build.digits ∧
      ∀ tab scalar, tab = curvePointer build (gpuTables power points rows) curve →
        scalar = reduceScalar k →
        (∑ i ∈ range build.digits, (build.digit scalar i).toNat * 2 ^ (rowOf rows i).pos =
          k.toNat % secpN) ∧
        (∀ i < build.digits, build.digit scalar i ≠ 0 →
          (build.digit scalar i).toNat ≤ (rowOf rows i).points ∧
          (build.place scalar i).toNat = (((rows.take i).map Device.Row.places).sum +
            ((build.digit scalar i).toNat - 1)) * 8 ∧
          (∀ j < 8, tab.getD ((build.place scalar i).toNat + j) 0 =
            (pointWords (((build.digit scalar i).toNat * 2 ^ (rowOf rows i).pos) •
              points curve)).getD j 0) ∧
          ¬ (∑ j ∈ range i, (build.digit scalar j).toNat * 2 ^ (rowOf rows j).pos) ≡
            (build.digit scalar i).toNat * 2 ^ (rowOf rows i).pos [MOD secpN] ∧
          ¬ secpN ∣ (∑ j ∈ range i, (build.digit scalar j).toNat * 2 ^ (rowOf rows j).pos) +
            (build.digit scalar i).toNat * 2 ^ (rowOf rows i).pos) ∧
        (∀ i < build.digits,
          (curveStep build tab scalar (curveAfter build tab scalar i) i).2 ≠ some .doubling ∧
          (curveStep build tab scalar (curveAfter build tab scalar i) i).2 ≠ some .infinity) ∧
        (∀ count ≤ build.digits, residue (curveAfter build tab scalar count).Z ≠ 0) ∧
        ((curveSum build tab k).invalid = true ↔ secpN ∣ k.toNat) ∧
        ((curveSum build tab k).invalid = false →
          Jacobian.Represents secpCurve (residue (curveSum build tab k).X)
            (residue (curveSum build tab k).Y) (residue (curveSum build tab k).Z)
            (k.toNat • points curve)) := by
  rcases build_and_rows hwindow with ⟨build, hbuild, hrows⟩
  have hfits := Build.fits_of_buildOf hbuild
  refine ⟨build, _, hbuild, hrows, by rw [length_rowsFrom, Build.length_widths], ?_⟩
  rintro tab scalar htab rfl
  have hk := reduceScalar_lt k
  have hread : ∀ i < build.digits, build.digit (reduceScalar k) i ≠ 0 →
      ReadsRow build (points curve) tab (reduceScalar k) i := by
    intro i hi hdigit
    rw [htab]
    exact readsRow_gpuTables hbuild hpower points hcurve hi hdigit
  have hafter {count : ℕ} (hcount : count ≤ build.digits) :=
    curveAfter_standsFor hfits horder hk hread hcount
  refine ⟨?_, fun i hi hdigit ↦ ?_, fun i hi ↦ ?_, fun count hcount ↦ (hafter hcount).z_ne_zero,
    curveSum_invalid_iff build tab k, curveSum_represents hfits horder hread⟩
  · rw [sum_digits_below hfits le_rfl, sum_digits hfits, reduceScalar_toNat]
  · have hnonzero : MixedRadix.digit (cutAt build.widths) (reduceScalar k).toNat i ≠ 0 := by
      rw [← digit_toNat hfits hi]
      exact fun hzero ↦ hdigit (UInt64.toNat_inj.mp hzero)
    rw [sum_digits_below hfits hi.le, digit_part hfits hi]
    exact ⟨digit_le_points hfits hi _, place_toNat hfits hi hdigit,
      by simpa only [ReadsRow, digit_part hfits hi] using hread i hi hdigit,
      MixedRadix.not_modEq (cutAt_zero _) (cutAt_le_succ _) hnonzero hk⟩
  · have hbranch := (curveStep_standsFor hfits horder hk hi (hread i hi) (hafter hi.le)).2
    constructor
    · intro hdoubling
      exact absurd (hbranch _ hdoubling) (by simp)
    · intro hinfinity
      exact absurd (hbranch _ hinfinity) (by simp)

/-- Window 22, with rows of two widths, over the tables of the four curve points: the scalar
`2 ^ 192 + 5` is valid, and what is written for the fourth curve is its multiple of that point. -/
theorem curveSum_multiplies_fourth_curve :
    ∃ (build : Build) (rows : List Device.Row), buildOf 22 = some build ∧
      Device.rows 22 = some rows ∧
      ∀ sum, sum = curveSum build (curvePointer build
          (gpuTables (List.replicate Device.powerTablesU64 0) curvePoint rows) 3) (mk256 5 0 0 1) →
        sum.invalid = false ∧
          Jacobian.Represents secpCurve (residue sum.X) (residue sum.Y) (residue sum.Z)
            ((2 ^ 192 + 5) • curvePoint 3) := by
  have hpower : (List.replicate Device.powerTablesU64 (0 : UInt64)).length =
      Device.powerTablesU64 := List.length_replicate
  have hscalar : (mk256 5 0 0 1).toNat = 2 ^ 192 + 5 := by decide +kernel
  rcases curveSum_multiplies (Or.inr (Or.inl rfl)) hpower (by norm_num : 3 < 4)
    (addOrderOf_curvePoint 3) (mk256 5 0 0 1) with ⟨build, rows, hbuild, hrows, -, hsum⟩
  refine ⟨build, rows, hbuild, hrows, ?_⟩
  rintro sum rfl
  rcases hsum _ _ rfl rfl with ⟨-, -, -, -, hinvalid, hrepresents⟩
  rw [hscalar] at hinvalid hrepresents
  have hvalid : (curveSum build (curvePointer build
      (gpuTables (List.replicate Device.powerTablesU64 0) curvePoint rows) 3)
      (mk256 5 0 0 1)).invalid = false := by
    rw [Bool.eq_false_iff, Ne, hinvalid]
    decide +kernel
  exact ⟨hvalid, hrepresents hvalid⟩

end Bc3Miner.Kernel
