import Bc3Miner.Foundations.Blocks
import Bc3Miner.Kernel.HostTables
import Bc3Miner.Reference.Modular
import Bc3Miner.Reference.Parameters

/-!
# The curve tables of the reference

`CurveTable` of `bc3hash/vendor/bc3/mix.cpp`: the keys of a point's multiples, a row for each digit
of a scalar, and the multiplication that combines one key of each row whose digit is not zero. Both
take the calls of libsecp256k1, a sum of many keys among them, as a parameter.

`multiply_spec` says that the multiplication gives the coordinates of the multiple, or the constants
for a multiple of the order, whatever the window: the two modes of the reference compute the same.

The mode is the width of the digits, from 10 to 20 bits. A digit of zero is noted as none, and where
all digits are zero, or the sum is at infinity, the library refuses to combine and the constants are
returned, as the source has it.
-/

set_option autoImplicit false
set_option relaxedAutoImplicit false

namespace Bc3Miner.Reference

open Foundations Kernel

/-- The calls with a sum of any number of keys, `secp256k1_ec_pubkey_combine`. -/
structure Secp256k1Sums (Pubkey : Type) extends Secp256k1 Pubkey where
  combineAll : List Pubkey → Option Pubkey

/-- That a sum of keys is the sum of their points, and fails at infinity alone. -/
structure Secp256k1Sums.ComputesGroupLaw {Pubkey : Type} (api : Secp256k1Sums Pubkey)
    (point : Pubkey → secpCurve.Point) : Prop where
  calls : api.toSecp256k1.ComputesGroupLaw point
  infinity {keys : List Pubkey} (hsum : (keys.map point).sum = 0) : api.combineAll keys = none
  sum {keys : List Pubkey} (hsum : (keys.map point).sum ≠ 0) :
    ∃ key, api.combineAll keys = some key ∧ point key = (keys.map point).sum

/-! ### The tables -/

structure CurveTable (Pubkey : Type) where
  window : ℕ
  table : List Pubkey

section Build

variable {Pubkey : Type} (api : Secp256k1 Pubkey)

/-- The rows from row `i` on, so many of them. -/
def keyRows (window : ℕ) : ℕ → ℕ → Pubkey → Option (List (List Pubkey))
  | 0, _, _ => some []
  | left + 1, i, base => do
    let row ← api.fillRow base (countOf window i - 1)
    let next ← api.nextBase window i base row
    let rest ← keyRows window left (i + 1) next
    some (row :: rest)

/-- The constructor of `CurveTable`. -/
def makeCurveTable (window : ℕ) (x y : UInt 4) : Option (CurveTable Pubkey) := do
  let base ← api.parse (uncompressed x y)
  let rows ← keyRows api window (rowsOf window) 0 base
  some ⟨window, rows.flatten⟩

end Build

namespace CurveTable

variable {Pubkey : Type} (t : CurveTable Pubkey)

/-- The bits of digit `i`. -/
def digit (k : UInt 4) (i : ℕ) : UInt64 :=
  k.window (i * t.window) &&& (entriesOf t.window).toUInt64

/-- The key of digit `i` noted, unless the digit is zero. There is room for 26. -/
def note (k : UInt 4) (points : List Pubkey) (i : ℕ) : Option (List Pubkey) :=
  if t.digit k i ≠ 0 then do
    let key ← t.table[i * entriesOf t.window + (t.digit k i).toNat - 1]?
    if points.length < 26 then some (points ++ [key]) else none
  else some points

/-- `CurveTable::operator()`. -/
def multiply (api : Secp256k1Sums Pubkey) (k : UInt 4) : Option (UInt 4 × UInt 4) :=
  let k := if k.ge order then k - order else k
  if k.zero then some invalidPoint
  else do
    let points ← (List.range (rowsOf t.window)).foldlM (t.note k) []
    let result ← api.combineAll points
    let encoded ← api.serialize result
    some (UInt.load fun j ↦ encoded.getD (1 + j) 0, UInt.load fun j ↦ encoded.getD (33 + j) 0)

end CurveTable

/-- The coordinates of a point, or the constants for the one at infinity. -/
def coordinatesOf : secpCurve.Point → UInt 4 × UInt 4
  | .zero => invalidPoint
  | .some x y _ => (ofResidue x, ofResidue y)

/-! ### What the tables hold -/

section Rows

variable {Pubkey : Type} {api : Secp256k1 Pubkey} {point : Pubkey → secpCurve.Point}
  (hlaw : api.ComputesGroupLaw point) {P : secpCurve.Point} (horder : addOrderOf P = secpN)
  {window : ℕ} (hlow : 2 ≤ window) (hhigh : window ≤ 20)

include hlaw horder hlow hhigh

/-- From a row that holds the multiples of its base comes the base of the next row, by one more
addition or doubling that does not fail; after the last row there is none, and nothing is added. -/
theorem nextBase_spec {i : ℕ} (hi : i < rowsOf window) {base : Pubkey}
    (hbase : point base = 2 ^ (window * i) • P) {row : List Pubkey}
    (hrow : row.map point = (List.range (countOf window i)).map fun k ↦ (k + 1) • point base) :
    ∃ next, api.nextBase window i base row = some next ∧
      (i + 1 < rowsOf window → point next = 2 ^ (window * (i + 1)) • P) := by
  by_cases hmore : i + 1 < rowsOf window
  · obtain ⟨hone, hentries⟩ := one_le_countOf hlow hi
    obtain ⟨-, hfinite⟩ := Secp256k1.multiples_ne_zero horder hlow hhigh hi
    have hfull : countOf window i = entriesOf window := if_neg (by omega)
    have hentry : entriesOf window - 1 + 1 = entriesOf window := by omega
    have hsum : point (row.getD (entriesOf window - 1) base) + point (row.getD 0 base) =
        2 ^ (window * (i + 1)) • P := by
      rw [Secp256k1.point_getD hrow (by omega), Secp256k1.point_getD hrow (by omega), hentry,
        ← add_nsmul, hbase, ← mul_nsmul', Nat.zero_add, entriesOf_eq,
        Nat.sub_add_cancel Nat.one_le_two_pow, ← pow_add, Nat.mul_succ, Nat.add_comm]
    obtain ⟨next, hnext, hpoint⟩ := hlaw.combine (hsum ▸ hfinite hmore)
    exact ⟨next, (if_pos hmore).trans hnext, fun _ ↦ hpoint.trans hsum⟩
  · exact ⟨base, if_neg hmore, fun hlater ↦ absurd hlater hmore⟩

/-- The rows that are left, from the base of the first of them. All of them are made, so no addition
fails, and each holds in order the multiples of the point at its place, as many as the row counts.
-/
theorem keyRows_spec {left i : ℕ} (hleft : i + left = rowsOf window) {base : Pubkey}
    (hbase : 0 < left → point base = 2 ^ (window * i) • P) :
    ∃ rows, keyRows api window left i base = some rows ∧ ∀ n < left, ∃ row, rows[n]? = some row ∧
      row.map point = (List.range (countOf window (i + n))).map
        fun k ↦ (k + 1) • 2 ^ (window * (i + n)) • P := by
  induction left generalizing i base with
  | zero => exact ⟨[], rfl, fun n hn ↦ absurd hn (Nat.not_lt_zero n)⟩
  | succ left ih =>
    have hi : i < rowsOf window := by omega
    have hpoint := hbase (Nat.succ_pos left)
    obtain ⟨hone, -⟩ := one_le_countOf hlow hi
    obtain ⟨hmultiples, -⟩ := Secp256k1.multiples_ne_zero horder hlow hhigh hi
    have hcount : countOf window i - 1 + 1 = countOf window i := Nat.sub_add_cancel hone
    rw [← hpoint] at hmultiples
    obtain ⟨row, hrow, hpoints⟩ := Secp256k1.fillRow_spec hlaw (j := countOf window i - 1)
      fun b hpos hle ↦ hmultiples b hpos (hcount ▸ hle)
    rw [hcount] at hpoints
    obtain ⟨next, hnext, hnextPoint⟩ := nextBase_spec hlaw horder hlow hhigh hi hpoint hpoints
    obtain ⟨rest, hrest, hrows⟩ := ih (by omega) fun hpos ↦ hnextPoint (by omega)
    refine ⟨row :: rest, ?_, ?_⟩
    · rw [keyRows, hrow, Option.bind_eq_bind, Option.bind_some, hnext, Option.bind_eq_bind,
        Option.bind_some, hrest]
      rfl
    · rintro (_ | n) hn
      · refine ⟨row, rfl, ?_⟩
        rw [hpoints, hpoint, Nat.add_zero]
      · obtain ⟨later, hget, hlater⟩ := hrows n (Nat.lt_of_succ_lt_succ hn)
        rw [Nat.add_assoc, Nat.add_comm 1 n] at hlater
        exact ⟨later, hget, hlater⟩

end Rows

/-- A table of a point: its keys are the multiples by the values of each digit. -/
structure CurveTable.Holds {Pubkey : Type} (t : CurveTable Pubkey)
    (point : Pubkey → secpCurve.Point) (P : secpCurve.Point) : Prop where
  low : 2 ≤ t.window
  high : t.window ≤ 20
  key {i b : ℕ} (hi : i < rowsOf t.window) (hpos : 1 ≤ b) (hle : b ≤ countOf t.window i) :
    ∃ key, t.table[i * entriesOf t.window + b - 1]? = some key ∧
      point key = b • 2 ^ (t.window * i) • P

/-- Let the calls of libsecp256k1 compute the group law, and a point have the order of the group.
For every window from 2 to 20 its table can then be made, has that window, and holds in each row the
multiples of the point at the place of the row. -/
theorem makeCurveTable_holds {Pubkey : Type} {api : Secp256k1 Pubkey}
    {point : Pubkey → secpCurve.Point} (hlaw : api.ComputesGroupLaw point) {window : ℕ}
    (hlow : 2 ≤ window) (hhigh : window ≤ 20) {X Y : UInt 4} {x y : SecpField} (hX : Encodes X x)
    (hY : Encodes Y y) {h : secpCurve.Nonsingular x y}
    (horder : addOrderOf (.some x y h : secpCurve.Point) = secpN) :
    ∃ t, makeCurveTable api window X Y = some t ∧ t.window = window ∧
      t.Holds point (.some x y h) := by
  obtain ⟨base, hparse, hpoint⟩ := hlaw.parse hX hY h
  have hbase : point base = 2 ^ (window * 0) • .some x y h := by
    rw [hpoint, Nat.mul_zero, pow_zero, one_nsmul]
  obtain ⟨rows, hrows, hheld⟩ := keyRows_spec hlaw horder hlow hhigh
    (Nat.zero_add (rowsOf window)) fun _ ↦ hbase
  simp only [Nat.zero_add] at hheld
  have hlength {n : ℕ} {row : List Pubkey} (hn : n < rowsOf window) (hrow : rows[n]? = some row) :
      row.length = countOf window n := by
    obtain ⟨made, hmade, hpoints⟩ := hheld n hn
    obtain rfl : made = row := Option.some.inj (hmade.symm.trans hrow)
    have hlengths := congrArg List.length hpoints
    rwa [List.length_map, List.length_map, List.length_range] at hlengths
  refine ⟨⟨window, rows.flatten⟩, ?_, rfl, hlow, hhigh, 
    fun {i b} (hi : i < rowsOf window) hpos (hle : b ≤ countOf window i) ↦ ?_⟩
  · rw [makeCurveTable, hparse, Option.bind_eq_bind, Option.bind_some, hrows]
    rfl
  · obtain ⟨row, hrow, hpoints⟩ := hheld i hi
    have hcount := hlength hi hrow
    have hbefore : ∀ other ∈ rows.take i, other.length = entriesOf window := by
      intro other hmem
      obtain ⟨n, hget⟩ := List.mem_iff_getElem?.mp hmem
      have hn : n < i := by
        by_contra hge
        rw [List.getElem?_take, if_neg hge] at hget
        exact absurd hget (by simp)
      rw [List.getElem?_take, if_pos hn] at hget
      rw [hlength (hn.trans hi) hget]
      exact if_neg (by omega)
    have hplace : i * entriesOf window + b - 1 = i * entriesOf window + (b - 1) := by omega
    have hshort : b - 1 < row.length := by omega
    refine ⟨row[b - 1], ?_, ?_⟩
    · rw [hplace, Blocks.getElem?_flatten hbefore hrow hshort, List.getElem?_eq_getElem hshort]
    · have hread := Secp256k1.point_getD hpoints (by omega : b - 1 < countOf window i) base
      rwa [List.getD_eq_getElem _ _ hshort, Nat.sub_add_cancel hpos] at hread

/-! ### Multiplications -/

namespace CurveTable

variable {Pubkey : Type} {t : CurveTable Pubkey} {point : Pubkey → secpCurve.Point}
  {P : secpCurve.Point} (ht : t.Holds point P)

include ht

/-- The digit of a row is the digit of the scalar in base `2 ^ window`. -/
theorem digit_toNat (k : UInt 4) {i : ℕ} (hi : i < rowsOf t.window) :
    (t.digit k i).toNat = k.toNat / 2 ^ (t.window * i) % 2 ^ t.window := by
  have hlow := ht.low
  have hhigh := ht.high
  have hle : t.window * i ≤ t.window * (rowsOf t.window - 1) :=
    Nat.mul_le_mul_left t.window (by omega)
  have hend := (rowsOf_spec hlow).1
  have hmask : (entriesOf t.window).toUInt64.toNat = 2 ^ t.window - 1 := by
    have hsmall : 2 ^ t.window ≤ 2 ^ 20 := Nat.pow_le_pow_right (by norm_num) hhigh
    rw [entriesOf_eq, Nat.toUInt64_eq, UInt64.toNat_ofNat']
    omega
  rw [digit, Nat.mul_comm i]
  exact Limbs.window_and_mask k (by omega) (by omega) hmask

/-- A digit has a key in its row. -/
theorem digit_le_count (k : UInt 4) {i : ℕ} (hi : i < rowsOf t.window) :
    (t.digit k i).toNat ≤ countOf t.window i := by
  have hlow := ht.low
  have hle : t.window * i ≤ t.window * (rowsOf t.window - 1) :=
    Nat.mul_le_mul_left t.window (by omega)
  have hend := (rowsOf_spec hlow).1
  have hk : k.toNat < 2 ^ (256 - t.window * i) * 2 ^ (t.window * i) := by
    rw [← pow_add, Nat.sub_add_cancel (by omega)]
    exact k.toNat_lt
  have hrest : k.toNat / 2 ^ (t.window * i) < 2 ^ (256 - t.window * i) :=
    (Nat.div_lt_iff_lt_mul (Nat.two_pow_pos _)).mpr hk
  rw [digit_toNat ht k hi, countOf_eq hlow hi]
  refine Nat.le_sub_one_of_lt ?_
  rcases Nat.le_total t.window (256 - t.window * i) with hinside | hpast
  · rw [Nat.min_eq_left hinside]
    exact Nat.mod_lt _ (Nat.two_pow_pos _)
  · rw [Nat.min_eq_right hpast]
    exact (Nat.mod_le _ _).trans_lt hrest

/-- The keys noted for the lowest digits sum to the multiple these make up. -/
theorem notes_spec (hroom : rowsOf t.window ≤ 26) (k : UInt 4) {count : ℕ}
    (hcount : count ≤ rowsOf t.window) :
    ∃ points, (List.range count).foldlM (t.note k) [] = some points ∧ points.length ≤ count ∧
      (points.map point).sum = (k.toNat % 2 ^ (t.window * count)) • P := by
  induction count with
  | zero =>
    refine ⟨[], rfl, le_rfl, ?_⟩
    rw [Nat.mul_zero, pow_zero, Nat.mod_one, zero_nsmul]
    rfl
  | succ count ih =>
    obtain ⟨points, hrun, hlength, hsum⟩ := ih (by omega)
    have hi : count < rowsOf t.window := hcount
    have hdigit := digit_toNat ht k hi
    have hsplit : k.toNat % 2 ^ (t.window * (count + 1)) =
        k.toNat % 2 ^ (t.window * count) + 2 ^ (t.window * count) * (t.digit k count).toNat := by
      rw [Nat.mul_succ, pow_add, Nat.mod_mul, hdigit]
    rw [List.range_succ, List.foldlM_append, hrun, Option.bind_eq_bind, Option.bind_some,
      List.foldlM_cons, hsplit]
    by_cases hzero : t.digit k count = 0
    · have hnote : t.note k points count = some points := if_neg (not_not.mpr hzero)
      rw [hnote, hzero, UInt64.toNat_zero, Nat.mul_zero, Nat.add_zero]
      exact ⟨points, rfl, by omega, hsum⟩
    · have hpos : 1 ≤ (t.digit k count).toNat :=
        Nat.one_le_iff_ne_zero.mpr fun h ↦ hzero (UInt64.toNat_inj.mp h)
      obtain ⟨key, hkey, hpoint⟩ := ht.key hi hpos (digit_le_count ht k hi)
      have hnote : t.note k points count = some (points ++ [key]) := by
        rw [note, if_pos hzero, hkey]
        exact if_pos (by omega)
      rw [hnote]
      refine ⟨points ++ [key], rfl, ?_, ?_⟩
      · rw [List.length_append, List.length_singleton]
        omega
      · rw [List.map_append, List.sum_append, hsum, List.map_singleton, List.sum_singleton, hpoint,
          ← mul_nsmul, ← add_nsmul]

/-- The multiplication gives the coordinates of the multiple, or the constants. -/
theorem multiply_spec (horder : addOrderOf P = secpN) (hroom : rowsOf t.window ≤ 26)
    {api : Secp256k1Sums Pubkey} (hlaw : api.ComputesGroupLaw point) (k : UInt 4) :
    t.multiply api k = some (coordinatesOf (k.toNat • P)) := by
  have horderWord : order.toNat = secpN := by decide +kernel
  have hreduced : (if k.ge order then k - order else k).toNat = k.toNat % secpN := by
    have hlt : k.toNat < 2 ^ 256 := k.toNat_lt
    have hhalf : 2 ^ 255 < secpN := by decide
    by_cases hge : k.ge order = true
    · have hle := (Limbs.ge_iff k order).mp hge
      rw [if_pos hge, toNat_sub_of_le hle, horderWord, Nat.mod_eq_sub_mod (by omega),
        Nat.mod_eq_of_lt (by omega)]
    · have hless : k.toNat < secpN := by
        rw [← horderWord, ← Nat.not_le]
        exact mt (Limbs.ge_iff k order).mpr hge
      rw [if_neg hge, Nat.mod_eq_of_lt hless]
  have hmultiple : (k.toNat % secpN) • P = k.toNat • P := by rw [← horder, mod_addOrderOf_nsmul]
  unfold multiply
  generalize (if k.ge order then k - order else k) = reduced at hreduced
  dsimp only
  rw [← hmultiple]
  by_cases hzero : reduced.zero = true
  · rw [if_pos hzero, ← hreduced, (zero_iff reduced).mp hzero, zero_nsmul]
    rfl
  · have hpos : 0 < reduced.toNat := Nat.pos_of_ne_zero (mt (zero_iff reduced).mpr hzero)
    have hlt : reduced.toNat < secpN := by
      rw [hreduced]
      exact Nat.mod_lt _ secpN_prime.pos
    obtain ⟨points, hpoints, -, hsum⟩ := notes_spec ht hroom reduced le_rfl
    have hcovers : reduced.toNat < 2 ^ (t.window * rowsOf t.window) := by
      have hlow := ht.low
      obtain ⟨-, hcovers, hrows⟩ := rowsOf_spec hlow
      have hlast : t.window * (rowsOf t.window - 1) + t.window = t.window * rowsOf t.window := by
        rw [← Nat.mul_succ, Nat.succ_eq_add_one, Nat.sub_add_cancel hrows]
      exact reduced.toNat_lt.trans_le (Nat.pow_le_pow_right (by norm_num) (by omega))
    rw [Nat.mod_eq_of_lt hcovers] at hsum
    have hfinite : (points.map point).sum ≠ 0 := by
      rw [hsum]
      exact multiple_ne_zero horder hpos hlt
    obtain ⟨key, hkey, hpoint⟩ := hlaw.sum hfinite
    rw [hsum, hreduced] at hpoint
    rw [if_neg hzero, hpoints, Option.bind_eq_bind, Option.bind_some, hkey, Option.bind_eq_bind,
      Option.bind_some]
    rcases hvalue : (k.toNat % secpN) • P with _ | ⟨x, y, h⟩
    · rw [← hreduced] at hvalue
      exact absurd hvalue (multiple_ne_zero horder hpos hlt)
    · rw [hvalue] at hpoint
      obtain ⟨hloadX, hloadY⟩ := load_uncompressed (ofResidue x) (ofResidue y)
      rw [hlaw.calls.serialize hpoint, Option.bind_eq_bind, Option.bind_some, hloadX, hloadY]
      rfl

end CurveTable

end Bc3Miner.Reference
