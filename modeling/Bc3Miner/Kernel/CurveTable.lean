import Bc3Miner.Device.WindowTuner
import Bc3Miner.Foundations.Blocks
import Bc3Miner.Foundations.MixedRadix
import Bc3Miner.Kernel.SecpField
import Mathlib.AlgebraicGeometry.EllipticCurve.Affine.Point

/-!
# The curve tables

A scalar of 256 bits is cut into digits, and each digit has a row of multiples in a curve's table.
The host lays the rows out from `Device.rows` (`curveTable`, and `gpuTables` with the power tables
and four curves). The kernel knows nothing of that list: it computes a digit's lowest bit, its mask
and the first place of its row from the two numbers it is built with (`Build.cut`). The two agree
digit by digit: both follow the widths of the digits, `Build.widths`.

A build has one width for all digits, or two, the narrow digits below the wide ones, as the windows
22 and 24 have it (`Build.widths`). `cut_follows` is that the kernel's cuts are where the host's
rows begin, with no multiplication that overflows 32 or 64 bits.
-/

set_option autoImplicit false
set_option relaxedAutoImplicit false

namespace Bc3Miner.Kernel

open Foundations

/-! ### What a kernel is built with -/

/-- `BC3_WINDOW` and `BC3_WIDE`. -/
structure Build where
  window : ℕ
  wide : ℕ
  deriving DecidableEq, Repr

/-- The build for each window. -/
def buildOf (window : ℕ) : Option Build :=
  if 2 ≤ window ∧ window ≤ 20 then some ⟨window, 0⟩
  else if window = 22 then some ⟨21, 4⟩
  else if window = 24 then some ⟨23, 3⟩
  else none

/-- The multiples of a digit of `width` bits, zero left out. -/
def entries (width : ℕ) : UInt32 := (1 <<< width.toUInt32) - 1

/-- What the kernel takes a digit by: its lowest bit, the mask of its bits, and the first place of
its row. -/
structure Cut where
  pos : ℕ
  mask : UInt64
  row : UInt64
  deriving DecidableEq, Repr

namespace Build

def narrow (build : Build) : ℕ := (256 - build.wide * (build.window + 1)) / build.window

def digits (build : Build) : ℕ :=
  if build.wide = 0 then (256 + build.window - 1) / build.window else build.narrow + build.wide

def curvePoints (build : Build) : UInt32 :=
  if build.wide = 0 then build.digits.toUInt32 * entries build.window
  else build.narrow.toUInt32 * entries build.window +
    build.wide.toUInt32 * entries (build.window + 1)

/-- Digit `i`. The uniform builds multiply in 32 bits. -/
def cut (build : Build) (i : ℕ) : Cut :=
  if build.wide = 0 then
    { pos := i * build.window
      mask := (entries build.window).toUInt64
      row := (i.toUInt32 * entries build.window).toUInt64 }
  else if build.narrow ≤ i then
    let j := i - build.narrow
    { pos := build.narrow * build.window + j * (build.window + 1)
      mask := (entries (build.window + 1)).toUInt64
      row := build.narrow.toUInt64 * (entries build.window).toUInt64 +
        j.toUInt64 * (entries (build.window + 1)).toUInt64 }
  else
    { pos := i * build.window
      mask := (entries build.window).toUInt64
      row := i.toUInt64 * (entries build.window).toUInt64 }

/-- The widths of the digits, least significant first. -/
def widths (build : Build) : List ℕ :=
  if build.wide = 0 then List.replicate build.digits build.window
  else List.replicate build.narrow build.window ++ List.replicate build.wide (build.window + 1)

end Build

/-- Where the curve tables begin, behind the power tables. -/
def tableCurve : ℕ := 8 * 256 * 1 + 16 * 256 * 2 + (256 + 8 - 1) / 8 * 2 ^ 8 * 4

/-! ### What the host lays out -/

/-- A point as the tables hold it. -/
def pointWords : secpCurve.Point → List UInt64
  | .zero => List.replicate 8 0
  | .some x y _ => (ofResidue x).v.toList ++ (ofResidue y).v.toList

/-- One row: the multiples of `2 ^ pos * P`, and zeros in the places that are left. -/
noncomputable def rowWords (P : secpCurve.Point) (row : Device.Row) : List UInt64 :=
  ((List.range row.points).map fun b ↦ pointWords (((b + 1) * 2 ^ row.pos) • P)).flatten ++
    List.replicate ((row.places - row.points) * 8) 0

/-- A curve's table. -/
noncomputable def curveTable (P : secpCurve.Point) (rows : List Device.Row) : List UInt64 :=
  (rows.map (rowWords P)).flatten

/-- The whole buffer: the power tables and those of four curves. -/
noncomputable def gpuTables (power : List UInt64) (points : ℕ → secpCurve.Point)
    (rows : List Device.Row) : List UInt64 :=
  power ++ ((List.range 4).map fun curve ↦ curveTable (points curve) rows).flatten

/-! ### Rows and widths -/

/-- The lowest bit of each digit, and 256 past the last one. -/
def cutAt (widths : List ℕ) (i : ℕ) : ℕ := min (widths.take i).sum 256

theorem cutAt_zero (widths : List ℕ) : cutAt widths 0 = 0 := rfl

theorem sum_take_succ {widths : List ℕ} {i : ℕ} (hi : i < widths.length) :
    (widths.take (i + 1)).sum = (widths.take i).sum + widths.getD i 0 := by
  rw [List.take_succ_eq_append_getElem hi, List.sum_append, List.sum_singleton,
    List.getD_eq_getElem _ _ hi]

/-- The cuts go up. -/
theorem cutAt_le_succ (widths : List ℕ) (i : ℕ) : cutAt widths i ≤ cutAt widths (i + 1) := by
  unfold cutAt
  rcases Nat.lt_or_ge i widths.length with hlt | hge
  · rw [sum_take_succ hlt]
    omega
  · rw [List.take_of_length_le hge, List.take_of_length_le (by omega)]

/-- The row of a digit of `width` bits from bit `pos` on. -/
def rowAt (pos width : ℕ) : Device.Row := ⟨pos, 2 ^ width - 1, 2 ^ min width (256 - pos) - 1⟩

theorem length_rowsFrom (pos : ℕ) (widths : List ℕ) :
    (Device.rowsFrom pos widths).length = widths.length := by
  induction widths generalizing pos with
  | nil => rfl
  | cons width rest ih => rw [Device.rowsFrom, List.length_cons, ih, List.length_cons]

/-- The rows one by one. -/
theorem rowsFrom_getD {pos : ℕ} (hpos : pos ≤ 256) {widths : List ℕ} {i : ℕ}
    (hi : i < widths.length) (default : Device.Row) :
    (Device.rowsFrom pos widths).getD i default =
      rowAt (min (pos + (widths.take i).sum) 256) (widths.getD i 0) := by
  induction widths generalizing pos i with
  | nil => exact absurd hi (by simp)
  | cons width rest ih =>
    rcases i with _ | i
    · have hmin : min (pos + 0) 256 = pos := by omega
      rw [List.take_zero, List.sum_nil, hmin]
      rfl
    · have hstep : pos + min width (256 - pos) = min (pos + width) 256 := by omega
      have hrest : (Device.rowsFrom (min (pos + width) 256) rest).getD i default = _ :=
        ih (by omega) (by simpa using hi)
      rw [Device.rowsFrom, List.getD_cons_succ, hstep, hrest, List.take_succ_cons, List.sum_cons,
        List.getD_cons_succ]
      congr 1
      omega

theorem places_rowsFrom (pos : ℕ) (widths : List ℕ) :
    (Device.rowsFrom pos widths).map Device.Row.places = widths.map fun width ↦ 2 ^ width - 1 := by
  induction widths generalizing pos with
  | nil => rfl
  | cons width rest ih => rw [Device.rowsFrom, List.map_cons, ih, List.map_cons]

/-! ### The kernel's cuts -/

/-- A row of a width below 32 has an entry for every digit but zero. -/
theorem entries_toNat {width : ℕ}
    (hwidth : width < 32) : (entries width).toNat = 2 ^ width - 1 := by
  have hpow : 2 ^ width < 2 ^ 32 := Nat.pow_lt_pow_right (by norm_num) hwidth
  have hone : 1 ≤ 2 ^ width := Nat.one_le_two_pow
  have hcount : width.toUInt32.toNat % 32 = width := by
    rw [Nat.toUInt32_eq, UInt32.toNat_ofNat']
    omega
  have hshift : (1 <<< width.toUInt32 : UInt32).toNat = 2 ^ width := by
    rw [UInt32.toNat_shiftLeft, hcount, Nat.shiftLeft_eq]
    show 1 * 2 ^ width % 2 ^ 32 = _
    omega
  unfold entries
  rw [UInt32.toNat_sub, hshift]
  show (2 ^ 32 - 1 + 2 ^ width) % 2 ^ 32 = _
  omega

namespace Build

/-- What all builds of kernels have in common. -/
structure Fits (build : Build) : Prop where
  window_pos : 0 < build.window
  window_le : build.window ≤ 23
  digits_le : build.digits ≤ 128
  covers : 256 ≤ build.widths.sum
  below : ∀ i < build.digits, (build.widths.take i).sum < 256

/-- A build has a width for every digit. -/
theorem length_widths (build : Build) : build.widths.length = build.digits := by
  unfold widths digits
  by_cases hwide : build.wide = 0
  · rw [if_pos hwide, if_pos hwide, List.length_replicate]
  · rw [if_neg hwide, if_neg hwide, List.length_append, List.length_replicate,
      List.length_replicate]

/-- The digits of one width cover the scalar, and only the last one reaches over its end. -/
theorem fits_uniform {window : ℕ} (hlow : 2 ≤ window) (hhigh : window ≤ 20) :
    Fits ⟨window, 0⟩ := by
  have hdigits : digits ⟨window, 0⟩ = (256 + window - 1) / window := rfl
  have hwidths : widths ⟨window, 0⟩ = List.replicate ((256 + window - 1) / window) window := rfl
  have hpos : 0 < window := by omega
  refine ⟨hpos, hhigh.trans (by norm_num), ?_, ?_, fun i hi ↦ ?_⟩
  · have hlt : (256 + window - 1) / window < 129 := by
      rw [Nat.div_lt_iff_lt_mul hpos]
      omega
    exact Nat.le_of_lt_succ hlt
  · rw [hwidths, List.sum_replicate_nat]
    have hmod := Nat.div_add_mod (256 + window - 1) window
    have hlt := Nat.mod_lt (256 + window - 1) hpos
    rw [Nat.mul_comm] at hmod
    omega
  · rw [hdigits] at hi
    have hmul := Nat.mul_le_mul_right window hi
    have hle := Nat.div_mul_le_self (256 + window - 1) window
    rw [Nat.succ_mul] at hmul
    rw [hwidths, List.take_replicate, List.sum_replicate_nat, Nat.min_eq_left hi.le]
    omega

/-- Every build there is fits. -/
theorem fits_of_buildOf {window : ℕ} {build : Build} (hbuild : buildOf window = some build) :
    build.Fits := by
  unfold buildOf at hbuild
  split_ifs at hbuild with huniform h22 h24
  · rw [← Option.some.inj hbuild]
    exact fits_uniform huniform.1 huniform.2
  · rw [← Option.some.inj hbuild]
    exact ⟨by decide, by decide, by decide, by decide, by decide⟩
  · rw [← Option.some.inj hbuild]
    exact ⟨by decide, by decide, by decide, by decide, by decide⟩

/-- The host cuts a scalar into digits of the same widths. -/
theorem digits_eq_widths {window : ℕ} {build : Build} (hbuild : buildOf window = some build) :
    Device.digits window = some build.widths := by
  unfold buildOf at hbuild
  split_ifs at hbuild with huniform h22 h24
  · rw [← Option.some.inj hbuild, Device.digits, if_pos huniform]
    rfl
  · rw [← Option.some.inj hbuild, h22]
    rfl
  · rw [← Option.some.inj hbuild, h24]
    rfl

/-- That the kernel's lowest bit, mask and row of a digit are those the widths give. -/
def CutFollows (build : Build) (i : ℕ) : Prop :=
  (build.cut i).pos = (build.widths.take i).sum ∧
    (build.cut i).mask.toNat = 2 ^ build.widths.getD i 0 - 1 ∧
    (build.cut i).row.toNat = ((build.widths.take i).map fun width ↦ 2 ^ width - 1).sum

/-- As many rows of digits of the window's width as there can be stay below `2 ^ 30` places. -/
theorem mul_entries_le {build : Build} (hfits : build.Fits) {count : ℕ} (hcount : count ≤ 128) :
    count * (2 ^ build.window - 1) ≤ 128 * (2 ^ 23 - 1) := by
  have hpow : 2 ^ build.window ≤ 2 ^ 23 := Nat.pow_le_pow_right (by norm_num) hfits.window_le
  exact Nat.mul_le_mul hcount (by omega)

theorem toNat_toUInt64_of_le {count : ℕ} (hcount : count ≤ 128) : count.toUInt64.toNat = count := by
  rw [Nat.toUInt64_eq, UInt64.toNat_ofNat']
  omega

theorem toNat_toUInt32_of_le {count : ℕ} (hcount : count ≤ 128) : count.toUInt32.toNat = count := by
  rw [Nat.toUInt32_eq, UInt32.toNat_ofNat']
  omega

/-- With rows of one width the cut of the kernel is that of the table. -/
theorem cut_follows_uniform {build : Build} (hfits : build.Fits) (hwide : build.wide = 0) {i : ℕ}
    (hi : i < build.digits) : build.CutFollows i := by
  have hcount : i ≤ 128 := hi.le.trans hfits.digits_le
  have hproduct := mul_entries_le hfits hcount
  have hentries := entries_toNat (hfits.window_le.trans_lt (by norm_num))
  unfold CutFollows cut widths
  rw [if_pos hwide, if_pos hwide, List.take_replicate, Nat.min_eq_left hi.le,
    List.sum_replicate_nat, List.map_replicate, List.sum_replicate_nat, List.getD_replicate _ hi]
  refine ⟨rfl, ?_, ?_⟩
  · rw [UInt32.toNat_toUInt64, hentries]
  · rw [UInt32.toNat_toUInt64, UInt32.toNat_mul, toNat_toUInt32_of_le hcount, hentries,
      Nat.mod_eq_of_lt (by omega)]

/-- With rows of two widths the cut of a narrow row is that of the table. -/
theorem cut_follows_narrow {build : Build} (hfits : build.Fits) (hwide : build.wide ≠ 0) {i : ℕ}
    (hi : i < build.digits) (hnarrow : i < build.narrow) : build.CutFollows i := by
  have hcount : i ≤ 128 := hi.le.trans hfits.digits_le
  have hproduct := mul_entries_le hfits hcount
  have hentries := entries_toNat (hfits.window_le.trans_lt (by norm_num))
  have hlength : i < (List.replicate build.narrow build.window).length := by
    rwa [List.length_replicate]
  unfold CutFollows cut widths
  rw [if_neg hwide, if_neg hwide, if_neg (not_le.mpr hnarrow), List.getD_append _ _ _ _ hlength,
    List.getD_replicate _ hnarrow, List.take_append_of_le_length hlength.le, List.take_replicate,
    Nat.min_eq_left hnarrow.le, List.sum_replicate_nat, List.map_replicate, List.sum_replicate_nat]
  refine ⟨rfl, ?_, ?_⟩
  · rw [UInt32.toNat_toUInt64, hentries]
  · rw [UInt64.toNat_mul, UInt32.toNat_toUInt64, toNat_toUInt64_of_le hcount, hentries,
      Nat.mod_eq_of_lt (by omega)]

/-- With rows of two widths the cut of a wide row is that of the table: the narrow rows are all
below it. -/
theorem cut_follows_wide {build : Build} (hfits : build.Fits) (hwide : build.wide ≠ 0) {i : ℕ}
    (hi : i < build.digits) (hnarrow : build.narrow ≤ i) : build.CutFollows i := by
  have hcount : i ≤ 128 := hi.le.trans hfits.digits_le
  have hdigits : build.digits = build.narrow + build.wide := if_neg hwide
  have hj : i - build.narrow < build.wide := by omega
  have hpow : 2 ^ (build.window + 1) ≤ 2 ^ 24 :=
    Nat.pow_le_pow_right (by norm_num) (Nat.succ_le_succ hfits.window_le)
  have hfirst := mul_entries_le hfits (hnarrow.trans hcount)
  have hsecond : (i - build.narrow) * (2 ^ (build.window + 1) - 1) ≤ 128 * (2 ^ 24 - 1) :=
    Nat.mul_le_mul (by omega) (by omega)
  have hentries := entries_toNat (hfits.window_le.trans_lt (by norm_num))
  have hwideEntries : (entries (build.window + 1)).toNat = 2 ^ (build.window + 1) - 1 :=
    entries_toNat ((Nat.succ_le_succ hfits.window_le).trans_lt (by norm_num))
  have hlength : (List.replicate build.narrow build.window).length ≤ i := by
    rwa [List.length_replicate]
  unfold CutFollows cut widths
  rw [if_neg hwide, if_neg hwide, if_pos hnarrow, List.getD_append_right _ _ _ _ hlength,
    List.take_append, List.take_of_length_le hlength, List.length_replicate,
    List.getD_replicate _ hj, List.take_replicate, Nat.min_eq_left hj.le, List.sum_append,
    List.sum_replicate_nat, List.sum_replicate_nat, List.map_append, List.map_replicate,
    List.map_replicate, List.sum_append, List.sum_replicate_nat, List.sum_replicate_nat]
  refine ⟨rfl, ?_, ?_⟩
  · rw [UInt32.toNat_toUInt64, hwideEntries]
  · rw [UInt64.toNat_add, UInt64.toNat_mul, UInt64.toNat_mul, UInt32.toNat_toUInt64,
      UInt32.toNat_toUInt64, toNat_toUInt64_of_le (hnarrow.trans hcount),
      toNat_toUInt64_of_le ((Nat.sub_le _ _).trans hcount), hentries, hwideEntries]
    rw [Nat.mod_eq_of_lt (by omega), Nat.mod_eq_of_lt (by omega), Nat.mod_eq_of_lt (by omega)]

/-- The kernel's lowest bits, masks and rows are those the widths give. -/
theorem cut_follows {build : Build} (hfits : build.Fits) {i : ℕ} (hi : i < build.digits) :
    build.CutFollows i := by
  by_cases hwide : build.wide = 0
  · exact cut_follows_uniform hfits hwide hi
  · rcases Nat.lt_or_ge i build.narrow with hnarrow | hnarrow
    · exact cut_follows_narrow hfits hwide hi hnarrow
    · exact cut_follows_wide hfits hwide hi hnarrow

/-- The points of a curve by the kernel's count are all places of the host's rows. -/
theorem curvePoints_toNat {window : ℕ} {build : Build} (hbuild : buildOf window = some build) :
    build.curvePoints.toNat = (build.widths.map fun width ↦ 2 ^ width - 1).sum := by
  unfold buildOf at hbuild
  split_ifs at hbuild with huniform h22 h24
  · rw [← Option.some.inj hbuild]
    have hfits := fits_uniform huniform.1 huniform.2
    have hproduct := mul_entries_le hfits hfits.digits_le
    unfold curvePoints widths
    rw [if_pos rfl, if_pos rfl, UInt32.toNat_mul, toNat_toUInt32_of_le hfits.digits_le,
      entries_toNat (hfits.window_le.trans_lt (by norm_num)), List.map_replicate,
      List.sum_replicate_nat]
    exact Nat.mod_eq_of_lt (by omega)
  · rw [← Option.some.inj hbuild]
    decide
  · rw [← Option.some.inj hbuild]
    decide

end Build

/-! ### Reads of the tables -/

theorem length_pointWords (Q : secpCurve.Point) : (pointWords Q).length = 8 := by
  rcases Q with _ | ⟨x, y, h⟩
  · rfl
  · rfl

/-- A point takes eight words. -/
theorem length_rowPoints (P : secpCurve.Point) (pos points : ℕ) :
    ((List.range points).map fun b ↦ pointWords (((b + 1) * 2 ^ pos) • P)).flatten.length =
      points * 8 := by
  have hlengths : ((List.range points).map fun b ↦ pointWords (((b + 1) * 2 ^ pos) • P)).map
      List.length = List.replicate points 8 := by
    rw [List.map_map, List.eq_replicate_iff]
    refine ⟨by simp, fun count hmem ↦ ?_⟩
    rcases List.mem_map.mp hmem with ⟨b, -, rfl⟩
    exact length_pointWords _
  rw [List.length_flatten, hlengths, List.sum_replicate_nat]

/-- A row takes eight words for each of its places, also for those it has no points for. -/
theorem length_rowWords (P : secpCurve.Point) {row : Device.Row}
    (hpoints : row.points ≤ row.places) :
    (rowWords P row).length = row.places * 8 := by
  unfold rowWords
  rw [List.length_append, length_rowPoints, List.length_replicate, ← Nat.add_mul,
    Nat.add_sub_cancel' hpoints]

/-- Multiple `b` of a row is at place `b - 1`. -/
theorem rowWords_getD (P : secpCurve.Point) (row : Device.Row) {b j : ℕ} (hpos : 1 ≤ b)
    (hle : b ≤ row.points) (hj : j < 8) :
    (rowWords P row).getD ((b - 1) * 8 + j) 0 = (pointWords ((b * 2 ^ row.pos) • P)).getD j 0 := by
  have hindex : b - 1 < row.points := by omega
  have hinside : (b - 1) * 8 + j <
      ((List.range row.points).map fun b ↦
        pointWords (((b + 1) * 2 ^ row.pos) • P)).flatten.length := by
    rw [length_rowPoints]
    omega
  have hblock : ((List.range row.points).map fun b ↦ pointWords (((b + 1) * 2 ^ row.pos) • P)).getD
      (b - 1) [] = pointWords ((b * 2 ^ row.pos) • P) := by
    rw [List.getD_eq_getElem _ _ (by simpa using hindex), List.getElem_map, List.getElem_range,
      Nat.sub_add_cancel hpos]
  have hstart : Blocks.start ((List.range row.points).map fun b ↦
      pointWords (((b + 1) * 2 ^ row.pos) • P)) (b - 1) = (b - 1) * 8 := by
    refine Blocks.start_eq_mul (fun block hmem ↦ ?_) (by simpa using hindex.le)
    rcases List.mem_map.mp hmem with ⟨b, -, rfl⟩
    exact length_pointWords _
  unfold rowWords
  rw [List.getD_append _ _ _ _ hinside, ← hstart,
    Blocks.getD_flatten _ _ (by rwa [hblock, length_pointWords]), hblock]

/-- Behind its points a row holds zeros. -/
theorem rowWords_getD_of_ge (P : secpCurve.Point) (row : Device.Row) {p j : ℕ}
    (hp : row.points ≤ p) :
    (rowWords P row).getD (p * 8 + j) 0 = 0 := by
  have hlength := length_rowPoints P row.pos row.points
  unfold rowWords
  rw [List.getD_append_right _ _ _ _ (by omega)]
  generalize p * 8 + j - _ = place
  rcases Nat.lt_or_ge place ((row.places - row.points) * 8) with hlt | hge
  · exact List.getD_replicate _ hlt
  · exact List.getD_eq_default _ _ (by rwa [List.length_replicate])

variable {rows : List Device.Row}

theorem lengths_rowWords (P : secpCurve.Point) (hrows : ∀ row ∈ rows, row.points ≤ row.places) :
    (rows.map (rowWords P)).map List.length = rows.map fun row ↦ row.places * 8 := by
  rw [List.map_map]
  exact List.map_congr_left fun row hmem ↦ length_rowWords P (hrows row hmem)

theorem length_curveTable (P : secpCurve.Point) (hrows : ∀ row ∈ rows, row.points ≤ row.places) :
    (curveTable P rows).length = (rows.map Device.Row.places).sum * 8 := by
  unfold curveTable
  rw [List.length_flatten, lengths_rowWords P hrows, ← List.sum_map_mul_right]

/-- Place `p` of row `i` in the table of a curve is behind all places of the rows before it, also
those that hold no point, eight words for each. -/
theorem curveTable_getD_row (P : secpCurve.Point) (hrows : ∀ row ∈ rows, row.points ≤ row.places)
    {i p j : ℕ} (hi : i < rows.length) (hp : p < rows[i].places) (hj : j < 8) :
    (curveTable P rows).getD ((((rows.take i).map Device.Row.places).sum + p) * 8 + j) 0 =
      (rowWords P rows[i]).getD (p * 8 + j) 0 := by
  have hblock : (rows.map (rowWords P)).getD i [] = rowWords P rows[i] := by
    rw [List.getD_eq_getElem _ _ (by simpa using hi), List.getElem_map]
  have hpoints := hrows rows[i] (List.getElem_mem hi)
  have hinside : p * 8 + j < ((rows.map (rowWords P)).getD i []).length := by
    rw [hblock, length_rowWords P hpoints]
    omega
  have hstart : Blocks.start (rows.map (rowWords P)) i =
      ((rows.take i).map Device.Row.places).sum * 8 := by
    unfold Blocks.start
    rw [lengths_rowWords P hrows, ← List.map_take, ← List.sum_map_mul_right]
  unfold curveTable
  rw [Nat.add_mul, Nat.add_assoc, ← hstart, Blocks.getD_flatten _ _ hinside, hblock]

/-- Multiple `b` of row `i` is at place `b - 1` of it. -/
theorem curveTable_getD (P : secpCurve.Point) (hrows : ∀ row ∈ rows, row.points ≤ row.places)
    {i b j : ℕ} (hi : i < rows.length) (hpos : 1 ≤ b) (hle : b ≤ rows[i].points) (hj : j < 8) :
    (curveTable P rows).getD ((((rows.take i).map Device.Row.places).sum + (b - 1)) * 8 + j) 0 =
      (pointWords ((b * 2 ^ rows[i].pos) • P)).getD j 0 := by
  have hpoints := hrows rows[i] (List.getElem_mem hi)
  rw [curveTable_getD_row P hrows hi (by omega) hj, rowWords_getD P _ hpos hle hj]

/-- In the whole buffer the table of a curve is behind the power tables and the tables of the curves
before it, which are all of one length; and it is the table of that curve's point. -/
theorem gpuTables_getD {power : List UInt64} (points : ℕ → secpCurve.Point)
    (hrows : ∀ row ∈ rows, row.points ≤ row.places) {curve place : ℕ} (hcurve : curve < 4)
    (hplace : place < (rows.map Device.Row.places).sum * 8) :
    ((gpuTables power points rows).drop
        (power.length + curve * ((rows.map Device.Row.places).sum * 8))).getD place 0 =
      (curveTable (points curve) rows).getD place 0 := by
  have hblock : ((List.range 4).map fun curve ↦ curveTable (points curve) rows).getD curve [] =
      curveTable (points curve) rows := by
    rw [List.getD_eq_getElem _ _ (by simpa using hcurve), List.getElem_map, List.getElem_range]
  have hinside : place < (((List.range 4).map fun curve ↦
      curveTable (points curve) rows).getD curve []).length := by
    rwa [hblock, length_curveTable _ hrows]
  have hstart : Blocks.start ((List.range 4).map fun curve ↦ curveTable (points curve) rows) curve =
      curve * ((rows.map Device.Row.places).sum * 8) := by
    refine Blocks.start_eq_mul (fun block hmem ↦ ?_) (by simpa using hcurve.le)
    rcases List.mem_map.mp hmem with ⟨other, -, rfl⟩
    exact length_curveTable _ hrows
  unfold gpuTables
  rw [← hstart, List.drop_append, List.drop_eq_nil_of_le (Nat.le_add_right _ _), List.nil_append,
    Nat.add_sub_cancel_left, List.getD_eq_getElem?_getD, List.getElem?_drop,
    ← List.getD_eq_getElem?_getD, Blocks.getD_flatten _ _ hinside, hblock]

end Bc3Miner.Kernel
