import Bc3Miner.Consensus.ByteOrder
import Bc3Miner.Foundations.LocalArray
import Bc3Miner.Kernel.CurvePoints
import Bc3Miner.Kernel.CurveTable
import Bc3Miner.Reference.Bytes

/-!
# The host's table builders

`curve_table` and `curve_row` of `bc3hash/src/shim.cpp`. The one takes each row's base from the row
before it, the other from the curve's point by a power of two. The calls of libsecp256k1 are a
parameter (`Secp256k1`); what they compute is the group law (`Secp256k1.ComputesGroupLaw`), and a
sum at infinity or a scalar out of range fails. The builders never meet one: the multiples of a row
stay below the order of the group (`multiple_lt`), and each writes the row of the tables' layout
(`curveTable_spec`, `curveRow_spec`).

The parameters of `Secp256k1` are the four calls the builders make, on keys of any type, and
`ComputesGroupLaw` relates a key to a point. It holds of the group law itself (`groupLaw` of
`TableAssembly`).
-/

set_option autoImplicit false
set_option relaxedAutoImplicit false

namespace Bc3Miner.Kernel

open Consensus Foundations Reference

/-! ### The library -/

/-- The calls on public keys, with nothing where one returns 0. -/
structure Secp256k1 (Pubkey : Type) where
  parse : List UInt8 → Option Pubkey
  combine : Pubkey → Pubkey → Option Pubkey
  tweakMul : Pubkey → List UInt8 → Option Pubkey
  serialize : Pubkey → Option (List UInt8)

/-- The uncompressed form of a point. -/
def uncompressed (x y : U256) : List UInt8 := 4 :: (UInt.store x ++ UInt.store y)

/-- That the calls compute the group law on the points of their keys. A sum at infinity is not
valid, nor is a scalar that is zero or not below the order. -/
structure Secp256k1.ComputesGroupLaw {Pubkey : Type} (api : Secp256k1 Pubkey)
    (point : Pubkey → secpCurve.Point) : Prop where
  parse {X Y : U256} {x y : SecpField} (hX : Encodes X x) (hY : Encodes Y y)
    (h : secpCurve.Nonsingular x y) :
    ∃ key, api.parse (uncompressed X Y) = some key ∧ point key = .some x y h
  combine_infinity {a b : Pubkey} (hsum : point a + point b = 0) : api.combine a b = none
  combine {a b : Pubkey} (hsum : point a + point b ≠ 0) :
    ∃ key, api.combine a b = some key ∧ point key = point a + point b
  tweakMul_invalid {a : Pubkey} {scalar : List UInt8}
    (hscalar : bigEndian scalar = 0 ∨ secpN ≤ bigEndian scalar) : api.tweakMul a scalar = none
  tweakMul {a : Pubkey} {scalar : List UInt8} (hlength : scalar.length = 32)
    (hpos : 0 < bigEndian scalar) (hlt : bigEndian scalar < secpN) :
    ∃ key, api.tweakMul a scalar = some key ∧ point key = bigEndian scalar • point a
  serialize {a : Pubkey} {x y : SecpField} {h : secpCurve.Nonsingular x y}
    (hpoint : point a = .some x y h) :
    api.serialize a = some (uncompressed (ofResidue x) (ofResidue y))

/-! ### The builders -/

/-- The rows of a curve's table, `bc3hash_gpu_rows`. -/
def rowsOf (window : ℕ) : ℕ := (256 + window - 1) / window

def entriesOf (window : ℕ) : ℕ := 1 <<< window - 1

/-- The points of the last row. -/
def lastEntries (window : ℕ) : ℕ := 1 <<< (256 - window * (rowsOf window - 1)) - 1

/-- The points of a row. -/
def countOf (window row : ℕ) : ℕ :=
  if row + 1 = rowsOf window then lastEntries window else entriesOf window

/-- The limbs of the coordinates in an uncompressed form. -/
def coordinates (encoded : List UInt8) : List UInt64 :=
  let x : U256 := UInt.load fun j ↦ encoded.getD (1 + j) 0
  let y : U256 := UInt.load fun j ↦ encoded.getD (33 + j) 0
  x.v.toList ++ y.v.toList

/-- A power of two as a scalar, most significant byte first. -/
def scalarOf (bit : ℕ) : List UInt8 :=
  (List.replicate 32 0).set (31 - bit / 8) (1 <<< (bit % 8) : ℕ).toUInt8

namespace Secp256k1

variable {Pubkey : Type} (api : Secp256k1 Pubkey)

def write (key : Pubkey) : Option (List UInt64) := (api.serialize key).map coordinates

/-- The row of the base up to place `j`. -/
def fillRow (base : Pubkey) : ℕ → Option (List Pubkey)
  | 0 => some [base]
  | j + 1 => do
    let row ← fillRow base j
    let next ← api.combine (row.getD j base) base
    some (row ++ [next])

/-- The base of the row after row `i`: that row's last point and its first. -/
def nextBase (window i : ℕ) (base : Pubkey) (row : List Pubkey) : Option Pubkey :=
  if i + 1 < rowsOf window then
    api.combine (row.getD (entriesOf window - 1) base) (row.getD 0 base)
  else some base

/-- The rows from row `i` on, so many of them. -/
def tableRows (window : ℕ) : ℕ → ℕ → Pubkey → Option (List UInt64)
  | 0, _, _ => some []
  | left + 1, i, base => do
    let row ← api.fillRow base (countOf window i - 1)
    let words ← row.mapM api.write
    let zeros := List.replicate ((entriesOf window - countOf window i) * 8) 0
    let next ← api.nextBase window i base row
    let rest ← tableRows window left (i + 1) next
    some (words.flatten ++ zeros ++ rest)

def curveTable (px py : U256) (window : ℕ) : Option (List UInt64) := do
  let base ← api.parse (uncompressed px py)
  api.tableRows window (rowsOf window) 0 base

/-- The point of place `j`, from that of the place before it. -/
def nextPoint (base : Pubkey) (j : ℕ) (point : Pubkey) : Option Pubkey :=
  if j = 0 then some point else api.combine point base

/-- The places of a row from place `j` on, so many of them. -/
def rowPlaces (count : ℕ) (base : Pubkey) : ℕ → ℕ → Pubkey → Option (List UInt64)
  | 0, _, _ => some []
  | left + 1, j, point => do
    if count ≤ j then
      let rest ← rowPlaces count base left (j + 1) point
      some (List.replicate 8 0 ++ rest)
    else
      let point ← api.nextPoint base j point
      let words ← api.write point
      let rest ← rowPlaces count base left (j + 1) point
      some (words ++ rest)

/-- The base of a row, from the curve's point. -/
def rowBase (window row : ℕ) (base : Pubkey) : Option Pubkey :=
  if row = 0 then some base else api.tweakMul base (scalarOf (window * row))

def curveRow (px py : U256) (window row : ℕ) : Option (List UInt64) := do
  let base ← api.parse (uncompressed px py)
  let base ← api.rowBase window row base
  api.rowPlaces (countOf window row) base (entriesOf window) 0 base

end Secp256k1

/-! ### The rows of a window -/

/-- Row `i` as the builders have it. -/
def hostRow (window i : ℕ) : Device.Row := ⟨window * i, entriesOf window, countOf window i⟩

section Rows

variable {window i : ℕ}

/-- The rows but the last one end below bit 256, and the last one there. -/
theorem rowsOf_spec (hlow : 2 ≤ window) : window * (rowsOf window - 1) < 256 ∧
    256 ≤ window * (rowsOf window - 1) + window ∧ 1 ≤ rowsOf window := by
  have hfloor := Nat.div_add_mod (256 + window - 1) window
  have hrest := Nat.mod_lt (256 + window - 1) (show 0 < window by omega)
  have hpos : 1 ≤ rowsOf window := (Nat.one_le_div_iff (by omega)).mpr (by omega)
  have hlast : window * (rowsOf window - 1) + window = window * rowsOf window := by
    rw [← Nat.mul_succ, Nat.succ_eq_add_one, Nat.sub_add_cancel hpos]
  unfold rowsOf at hlast hpos ⊢
  omega

/-- Rows that are not the last one. -/
theorem mul_succ_lt (hlow : 2 ≤ window) (hi : i + 1 < rowsOf window) :
    window * i + window < 256 := by
  have hle : window * (i + 1) ≤ window * (rowsOf window - 1) :=
    Nat.mul_le_mul_left window (by omega)
  have hend := (rowsOf_spec hlow).1
  rw [Nat.mul_succ] at hle
  omega

theorem entriesOf_eq (window : ℕ) : entriesOf window = 2 ^ window - 1 := by
  rw [entriesOf, Nat.one_shiftLeft]

/-- A row has as many points as its digit has values, zero left out. -/
theorem countOf_eq (hlow : 2 ≤ window) (hi : i < rowsOf window) :
    countOf window i = 2 ^ min window (256 - window * i) - 1 := by
  obtain ⟨-, hcovers, -⟩ := rowsOf_spec hlow
  unfold countOf
  by_cases hlast : i + 1 = rowsOf window
  · have hindex : rowsOf window - 1 = i := by omega
    rw [hindex] at hcovers
    rw [if_pos hlast, lastEntries, Nat.one_shiftLeft, hindex, Nat.min_eq_right (by omega)]
  · have hinside := mul_succ_lt hlow (show i + 1 < rowsOf window by omega)
    rw [if_neg hlast, entriesOf_eq, Nat.min_eq_left (by omega)]

/-- The rows of the layout are those of the builders. -/
theorem rows_eq (hlow : 2 ≤ window) (hhigh : window ≤ 20) :
    Device.rows window = some ((List.range (rowsOf window)).map (hostRow window)) := by
  have hdigits : Device.digits window = some (List.replicate (rowsOf window) window) :=
    if_pos ⟨hlow, hhigh⟩
  rw [Device.rows, hdigits, Option.map_some, Option.some.injEq]
  refine List.ext_getElem (by rw [length_rowsFrom]; simp) fun i hi _ ↦ ?_
  rw [length_rowsFrom, List.length_replicate] at hi
  have hle : window * i ≤ window * (rowsOf window - 1) := Nat.mul_le_mul_left window (by omega)
  have hend := (rowsOf_spec hlow).1
  have hlength : i < (List.replicate (rowsOf window) window).length := by
    rwa [List.length_replicate]
  have hrow := rowsFrom_getD (Nat.zero_le 256) hlength ⟨0, 0, 0⟩
  rw [← List.getD_eq_getElem _ ⟨0, 0, 0⟩, hrow, List.take_replicate, Nat.min_eq_left hi.le,
    List.sum_replicate_nat, List.getD_replicate _ hi, Nat.zero_add, Nat.mul_comm i,
    Nat.min_eq_left (by omega), List.getElem_map, List.getElem_range, hostRow, countOf_eq hlow hi,
    entriesOf_eq]
  rfl

/-- Every row of the host table has a point and no more than its entries. -/
theorem one_le_countOf (hlow : 2 ≤ window) (hi : i < rowsOf window) :
    1 ≤ countOf window i ∧ countOf window i ≤ entriesOf window := by
  have hle : window * i ≤ window * (rowsOf window - 1) := Nat.mul_le_mul_left window (by omega)
  have hend := (rowsOf_spec hlow).1
  have hone : 2 ^ 1 ≤ 2 ^ min window (256 - window * i) :=
    Nat.pow_le_pow_right Nat.two_pos (by omega)
  have htop : 2 ^ min window (256 - window * i) ≤ 2 ^ window :=
    Nat.pow_le_pow_right Nat.two_pos (min_le_left _ _)
  rw [countOf_eq hlow hi, entriesOf_eq]
  omega

/-- No multiple in a row reaches the order of the group, nor does the base of the next row. The last
row comes closest: it ends at `2 ^ 256 - 2 ^ (window * i)`, with at least `2 ^ 236` to spare. -/
theorem multiple_lt (hlow : 2 ≤ window) (hhigh : window ≤ 20) (hi : i < rowsOf window) :
    (∀ b ≤ countOf window i, b * 2 ^ (window * i) < secpN) ∧
      (i + 1 < rowsOf window → 2 ^ (window * (i + 1)) < secpN) := by
  obtain ⟨hend, hcovers, hpos⟩ := rowsOf_spec hlow
  have hhalf : 2 ^ 255 < secpN := by decide
  refine ⟨fun b hb ↦ ?_, fun hmore ↦ ?_⟩
  · rw [countOf_eq hlow hi] at hb
    by_cases hlast : i + 1 = rowsOf window
    · have hindex : rowsOf window - 1 = i := by omega
      rw [hindex] at hend hcovers
      rw [Nat.min_eq_right (by omega)] at hb
      have hspare : 2 ^ 236 ≤ 2 ^ (window * i) := Nat.pow_le_pow_right Nat.two_pos (by omega)
      have hproduct : 2 ^ (256 - window * i) * 2 ^ (window * i) = 2 ^ 256 := by
        rw [← pow_add]
        congr 1
        omega
      have hmul := Nat.mul_le_mul_right (2 ^ (window * i)) hb
      rw [Nat.sub_mul, hproduct, Nat.one_mul] at hmul
      have horder : 2 ^ 256 - 2 ^ 236 < secpN := by decide
      omega
    · have hinside := mul_succ_lt hlow (show i + 1 < rowsOf window by omega)
      rw [Nat.min_eq_left (by omega)] at hb
      have hproduct : 2 ^ window * 2 ^ (window * i) ≤ 2 ^ 255 := by
        rw [← pow_add]
        exact Nat.pow_le_pow_right Nat.two_pos (by omega)
      have hmul := Nat.mul_le_mul_right (2 ^ (window * i)) (hb.trans (Nat.sub_le _ _))
      exact (hmul.trans hproduct).trans_lt hhalf
  · have hinside := mul_succ_lt hlow hmore
    refine (Nat.pow_le_pow_right Nat.two_pos ?_).trans_lt hhalf
    rw [Nat.mul_succ]
    omega

end Rows

/-! ### Bytes -/

/-- The coordinates of an uncompressed form are those it was made of. -/
theorem load_uncompressed (X Y : U256) :
    (UInt.load fun j ↦ (uncompressed X Y).getD (1 + j) 0 : U256) = X ∧
      (UInt.load fun j ↦ (uncompressed X Y).getD (33 + j) 0 : U256) = Y := by
  have hlength : (UInt.store X).length = 32 := UInt.length_store X
  constructor
  · refine (UInt.load_congr fun j hj ↦ ?_).trans (UInt.load_store X)
    rw [uncompressed, Nat.add_comm, List.getD_cons_succ, List.getD_append _ _ _ _ (by omega)]
  · refine (UInt.load_congr fun j hj ↦ ?_).trans (UInt.load_store Y)
    have hplace : 33 + j = 32 + j + 1 := by omega
    rw [uncompressed, hplace, List.getD_cons_succ, List.getD_append_right _ _ _ _ (by omega),
      hlength, Nat.add_sub_cancel_left]

theorem coordinates_uncompressed (X Y : U256) :
    coordinates (uncompressed X Y) = X.v.toList ++ Y.v.toList := by
  obtain ⟨hx, hy⟩ := load_uncompressed X Y
  unfold coordinates
  rw [hx, hy]

theorem bigEndian_zeros (count : ℕ) : bigEndian (List.replicate count 0) = 0 := by
  induction count with
  | zero => rfl
  | succ count ih => rw [List.replicate_succ, bigEndian_cons, ih, UInt8.toNat_zero, Nat.zero_mul]

/-- The bytes of a power of two are the power. -/
theorem bigEndian_scalarOf {bit : ℕ} (hbit : bit < 256) :
    (scalarOf bit).length = 32 ∧ bigEndian (scalarOf bit) = 2 ^ bit := by
  refine ⟨by simp [scalarOf], ?_⟩
  have hbyte : (1 <<< (bit % 8) : ℕ).toUInt8.toNat = 2 ^ (bit % 8) := by
    have hsmall : 2 ^ (bit % 8) < 2 ^ 8 :=
      Nat.pow_lt_pow_right Nat.one_lt_two (Nat.mod_lt _ (by norm_num))
    rw [Nat.one_shiftLeft, Nat.toUInt8_eq, UInt8.toNat_ofNat']
    exact Nat.mod_eq_of_lt hsmall
  have hplace : 31 - bit / 8 < (List.replicate 32 (0 : UInt8)).length := by
    rw [List.length_replicate]
    omega
  have hbehind : 32 - (31 - bit / 8 + 1) = bit / 8 := by omega
  rw [scalarOf, List.set_eq_take_append_cons_drop, if_pos hplace, List.take_replicate,
    List.drop_replicate, bigEndian_append, bigEndian_zeros, Nat.zero_mul, Nat.zero_add,
    bigEndian_cons, bigEndian_zeros, List.length_replicate, hbyte, hbehind, Nat.add_zero]
  have hbase : (256 : ℕ) = 2 ^ 8 := rfl
  rw [hbase, ← pow_mul, ← pow_add, Nat.mod_add_div]

/-- The scalar of a row is a power of two that is neither zero nor above the order. -/
theorem scalarOf_spec {window i : ℕ} (hlow : 2 ≤ window) (hhigh : window ≤ 20)
    (hi : i < rowsOf window) : (scalarOf (window * i)).length = 32 ∧
      bigEndian (scalarOf (window * i)) = 2 ^ (window * i) ∧ 2 ^ (window * i) < secpN := by
  have hle : window * i ≤ window * (rowsOf window - 1) := Nat.mul_le_mul_left window (by omega)
  have hend := (rowsOf_spec hlow).1
  obtain ⟨hlength, hscalar⟩ := bigEndian_scalarOf (show window * i < 256 by omega)
  have hlt := (multiple_lt hlow hhigh hi).1 1 (one_le_countOf hlow hi).1
  rw [Nat.one_mul] at hlt
  exact ⟨hlength, hscalar, hlt⟩

/-! ### What the builders write -/

namespace Secp256k1

section Spec

variable {Pubkey : Type} {api : Secp256k1 Pubkey} {point : Pubkey → secpCurve.Point}
  (hlaw : api.ComputesGroupLaw point)

include hlaw

/-- A point that is not at infinity is written as the tables hold it. -/
theorem write_spec {key : Pubkey} (hne : point key ≠ 0) :
    api.write key = some (pointWords (point key)) := by
  rcases hpoint : point key with _ | ⟨x, y, h⟩
  · exact absurd hpoint hne
  · rw [write, hlaw.serialize hpoint, Option.map_some, coordinates_uncompressed]
    rfl

/-- Points that are not at infinity are written one after the other, and none of the writes fails.
-/
theorem write_all {row : List Pubkey} {points : List secpCurve.Point}
    (hmap : row.map point = points) (hne : ∀ Q ∈ points, Q ≠ 0) :
    row.mapM api.write = some (points.map pointWords) := by
  subst hmap
  rw [List.map_map]
  exact mapM_eq_some fun key hmem ↦ write_spec hlaw (hne _ (List.mem_map_of_mem hmem))

omit hlaw in
/-- Entry `k` of a row of multiples is the multiple by `k + 1`. -/
theorem point_getD {row : List Pubkey} {count : ℕ} {Q : secpCurve.Point}
    (hrow : row.map point = (List.range count).map fun k ↦ (k + 1) • Q) {k : ℕ} (hk : k < count)
    (default : Pubkey) : point (row.getD k default) = (k + 1) • Q := by
  have hlength : row.length = count := by
    have hlengths := congrArg List.length hrow
    rwa [List.length_map, List.length_map, List.length_range] at hlengths
  have hget : (row.map point)[k]? = some ((k + 1) • Q) := by
    rw [hrow, List.getElem?_map, List.getElem?_range hk]
    rfl
  rw [List.getElem?_map, List.getElem?_eq_getElem (by omega), Option.map_some,
    Option.some.injEq] at hget
  rw [List.getD_eq_getElem _ _ (by omega), hget]

/-- A row of multiples that are all finite. -/
theorem fillRow_spec {base : Pubkey} {j : ℕ} (hne : ∀ b, 1 ≤ b → b ≤ j + 1 → b • point base ≠ 0) :
    ∃ row, api.fillRow base j = some row ∧
      row.map point = (List.range (j + 1)).map fun k ↦ (k + 1) • point base := by
  induction j with
  | zero =>
    refine ⟨[base], rfl, ?_⟩
    rw [List.map_singleton, Nat.zero_add, List.range_one, List.map_singleton, Nat.zero_add,
      one_nsmul]
  | succ j ih =>
    obtain ⟨row, hrow, hpoints⟩ := ih fun b hpos hle ↦ hne b hpos (hle.trans (Nat.le_succ _))
    have hlast : point (row.getD j base) + point base = (j + 1 + 1) • point base := by
      rw [point_getD hpoints (Nat.lt_succ_self j), ← succ_nsmul]
    obtain ⟨next, hnext, hpoint⟩ :=
      hlaw.combine (hlast ▸ hne (j + 1 + 1) (Nat.le_add_left 1 _) le_rfl)
    refine ⟨row ++ [next], ?_, ?_⟩
    · rw [fillRow, hrow, Option.bind_eq_bind, Option.bind_some, hnext]
      rfl
    · rw [List.map_append, hpoints, List.map_singleton, hpoint, hlast,
        List.range_succ (n := j + 1), List.map_append, List.map_singleton]

variable {P : secpCurve.Point} (horder : addOrderOf P = secpN) {window : ℕ} (hlow : 2 ≤ window)
  (hhigh : window ≤ 20)

include horder hlow hhigh

omit hlaw in
/-- The multiples of a row are finite, and so is the base of the next row. -/
theorem multiples_ne_zero {i : ℕ} (hi : i < rowsOf window) :
    (∀ b, 1 ≤ b → b ≤ countOf window i → b • 2 ^ (window * i) • P ≠ 0) ∧
      (i + 1 < rowsOf window → 2 ^ (window * (i + 1)) • P ≠ 0) := by
  obtain ⟨hrow, hnext⟩ := multiple_lt hlow hhigh hi
  refine ⟨fun b hpos hle ↦ ?_, fun hmore ↦ ?_⟩
  · rw [← mul_nsmul']
    exact multiple_ne_zero horder (Nat.mul_pos hpos (Nat.two_pow_pos _)) (hrow b hle)
  · exact multiple_ne_zero horder (Nat.two_pow_pos _) (hnext hmore)

/-- The rows from a row on, from that row's base. -/
theorem tableRows_spec {left i : ℕ} (hleft : i + left = rowsOf window) {base : Pubkey}
    (hbase : 0 < left → point base = 2 ^ (window * i) • P) :
    api.tableRows window left i base =
      some ((List.range' i left).map fun i ↦ rowWords P (hostRow window i)).flatten := by
  induction left generalizing i base with
  | zero => rfl
  | succ left ih =>
    have hi : i < rowsOf window := by omega
    have hpoint := hbase (Nat.succ_pos left)
    obtain ⟨hone, hentries⟩ := one_le_countOf hlow hi
    obtain ⟨hmultiples, hnextBase⟩ := multiples_ne_zero horder hlow hhigh hi
    have hcount : countOf window i - 1 + 1 = countOf window i := Nat.sub_add_cancel hone
    rw [← hpoint] at hmultiples
    obtain ⟨row, hrow, hpoints⟩ := fillRow_spec hlaw (j := countOf window i - 1)
      fun b hpos hle ↦ hmultiples b hpos (hcount ▸ hle)
    rw [hcount] at hpoints
    have hwords := write_all hlaw hpoints fun Q hmem ↦ by
      obtain ⟨k, hk, rfl⟩ := List.mem_map.mp hmem
      exact hmultiples (k + 1) (Nat.le_add_left 1 k) (List.mem_range.mp hk)
    obtain ⟨next, hnext, hnextPoint⟩ : ∃ next, api.nextBase window i base row = some next ∧
        (0 < left → point next = 2 ^ (window * (i + 1)) • P) := by
      by_cases hmore : i + 1 < rowsOf window
      · have hfull : countOf window i = entriesOf window := if_neg (by omega)
        have hentry : entriesOf window - 1 + 1 = entriesOf window := by omega
        have hsum : point (row.getD (entriesOf window - 1) base) + point (row.getD 0 base) =
            2 ^ (window * (i + 1)) • P := by
          rw [point_getD hpoints (by omega), point_getD hpoints (by omega), hentry, ← add_nsmul,
            hpoint, ← mul_nsmul', Nat.zero_add, entriesOf_eq,
            Nat.sub_add_cancel Nat.one_le_two_pow, ← pow_add, Nat.mul_succ, Nat.add_comm]
        obtain ⟨next, hnext, hsumPoint⟩ := hlaw.combine (hsum ▸ hnextBase hmore)
        exact ⟨next, (if_pos hmore).trans hnext, fun _ ↦ hsumPoint.trans hsum⟩
      · exact ⟨base, if_neg hmore, fun hpos ↦ absurd hpos (by omega)⟩
    have hrest := ih (by omega) hnextPoint
    have hmade : rowWords P (hostRow window i) =
        (((List.range (countOf window i)).map fun k ↦ (k + 1) • point base).map
          pointWords).flatten ++
          List.replicate ((entriesOf window - countOf window i) * 8) 0 := by
      rw [hpoint, List.map_map]
      unfold rowWords hostRow
      simp only [Function.comp_def, mul_nsmul']
    rw [tableRows, hrow, Option.bind_eq_bind, Option.bind_some, hwords, Option.bind_eq_bind,
      Option.bind_some]
    dsimp only
    rw [hnext, Option.bind_eq_bind, Option.bind_some, hrest, Option.bind_eq_bind, Option.bind_some,
      List.range'_succ, List.map_cons, List.flatten_cons, hmade]

/-- The places of a row from place `j` on, made from the point of the place before: each is the next
multiple of the base as long as the row has points and zeros behind them, and no addition fails. -/
theorem rowPlaces_spec {i : ℕ} (hi : i < rowsOf window) {base : Pubkey}
    (hbase : point base = 2 ^ (window * i) • P) {left j : ℕ}
    (hleft : countOf window i ≤ j + left) {last : Pubkey}
    (hlast : j ≤ countOf window i → point last = max j 1 • point base) :
    api.rowPlaces (countOf window i) base left j last =
      some (((List.range' j (countOf window i - j)).map fun k ↦
        pointWords ((k + 1) • point base)).flatten ++
          List.replicate ((left - (countOf window i - j)) * 8) 0) := by
  have hmultiples := (multiples_ne_zero horder hlow hhigh hi).1
  rw [← hbase] at hmultiples
  induction left generalizing j last with
  | zero =>
    have hnone : countOf window i - j = 0 := by omega
    rw [hnone, Nat.sub_zero, Nat.zero_mul]
    rfl
  | succ left ih =>
    by_cases hover : countOf window i ≤ j
    · have hrest : api.rowPlaces (countOf window i) base left (j + 1) last = _ :=
        ih (by omega) fun hle ↦ absurd hle (by omega)
      have hnone : countOf window i - j = 0 := by omega
      have hnone' : countOf window i - (j + 1) = 0 := by omega
      rw [hnone', Nat.sub_zero] at hrest
      rw [rowPlaces, if_pos hover, hrest, hnone, Nat.sub_zero, Nat.add_mul, Nat.add_comm (left * 8),
        List.replicate_add]
      rfl
    · have hsome : countOf window i - j = countOf window i - (j + 1) + 1 := by omega
      have hfinite : (j + 1) • point base ≠ 0 :=
        hmultiples (j + 1) (Nat.le_add_left 1 j) (by omega)
      obtain ⟨next, hnext, hpoint⟩ : ∃ next, api.nextPoint base j last = some next ∧
          point next = (j + 1) • point base := by
        have hbefore := hlast (Nat.le_of_not_le hover)
        unfold nextPoint
        rcases j with _ | j
        · exact ⟨last, rfl, hbefore⟩
        · have hsum : point last + point base = (j + 1 + 1) • point base := by
            rw [hbefore, Nat.max_eq_left (Nat.le_add_left 1 j), ← succ_nsmul]
          obtain ⟨next, hnext, hpoint⟩ := hlaw.combine (hsum ▸ hfinite)
          exact ⟨next, hnext, hpoint.trans hsum⟩
      have hrest : api.rowPlaces (countOf window i) base left (j + 1) next = _ :=
        ih (by omega) fun _ ↦ by rw [hpoint, Nat.max_eq_left (Nat.le_add_left 1 j)]
      have hwords := write_spec hlaw (hpoint ▸ hfinite)
      have hleft' : left + 1 - (countOf window i - (j + 1) + 1) =
          left - (countOf window i - (j + 1)) := by omega
      rw [rowPlaces, if_neg hover, hnext, Option.bind_eq_bind, Option.bind_some, hwords,
        Option.bind_eq_bind, Option.bind_some, hrest, Option.bind_some, hsome, hleft',
        List.range'_succ, List.map_cons, List.flatten_cons, hpoint, List.append_assoc]

variable {X Y : U256} {x y : SecpField} (hX : Encodes X x) (hY : Encodes Y y)
  {h : secpCurve.Nonsingular x y} (hP : P = .some x y h)

include hX hY hP

/-- Row by row, each base from the row before: the layout of a curve. -/
theorem curveTable_spec : api.curveTable X Y window =
    some (Kernel.curveTable P ((List.range (rowsOf window)).map (hostRow window))) := by
  obtain ⟨base, hbase, hpoint⟩ := hlaw.parse hX hY h
  have hrows : api.tableRows window (rowsOf window) 0 base = _ :=
    tableRows_spec hlaw horder hlow hhigh (Nat.zero_add (rowsOf window))
      fun _ ↦ by rw [hpoint, hP, Nat.mul_zero, pow_zero, one_nsmul]
  rw [curveTable, hbase, Option.bind_eq_bind, Option.bind_some, hrows, Kernel.curveTable,
    List.map_map, List.range_eq_range']
  rfl

/-- One row, its base by a power of two: the row of the layout. -/
theorem curveRow_spec {i : ℕ} (hi : i < rowsOf window) :
    api.curveRow X Y window i = some (rowWords P (hostRow window i)) := by
  obtain ⟨first, hfirst, hpoint⟩ := hlaw.parse hX hY h
  obtain ⟨base, hbase, hbasePoint⟩ : ∃ base, api.rowBase window i first = some base ∧
      point base = 2 ^ (window * i) • P := by
    unfold rowBase
    by_cases hzero : i = 0
    · rw [if_pos hzero, hzero, Nat.mul_zero, pow_zero, one_nsmul]
      exact ⟨first, rfl, hpoint.trans hP.symm⟩
    · obtain ⟨hlength, hscalar, hlt⟩ := scalarOf_spec hlow hhigh hi
      obtain ⟨base, hbase, hbasePoint⟩ := hlaw.tweakMul (a := first) hlength
        (hscalar ▸ Nat.two_pow_pos _) (hscalar ▸ hlt)
      refine ⟨base, (if_neg hzero).trans hbase, ?_⟩
      rw [hbasePoint, hscalar, hpoint, hP]
  obtain ⟨hone, hentries⟩ := one_le_countOf hlow hi
  have hplaces : api.rowPlaces (countOf window i) base (entriesOf window) 0 base = _ :=
    rowPlaces_spec hlaw horder hlow hhigh hi hbasePoint (by omega)
      fun _ ↦ by rw [Nat.max_eq_right Nat.one_pos.le, one_nsmul]
  rw [curveRow, hfirst, Option.bind_eq_bind, Option.bind_some, hbase, Option.bind_some, hplaces,
    Nat.sub_zero, hbasePoint, ← List.range_eq_range']
  unfold rowWords hostRow
  simp only [mul_nsmul']

end Spec

end Secp256k1

end Bc3Miner.Kernel
