import Bc3Miner.Device.WindowTuner
import Bc3Miner.Foundations.Blocks
import Bc3Miner.Foundations.TablePower
import Bc3Miner.Kernel.FieldInverses
import Bc3Miner.Kernel.Mix
import Bc3Miner.Kernel.WordProducts
import Bc3Miner.Reference.FieldScaling
import Bc3Miner.Reference.FixedPowers

/-!
# Powers of the fixed bases in the kernel

`powtab64`, `powtab128`, `powtab256` and `powtab256x2` of `src/kernels/bc3hash.cl`, for any
`BC3_POW256_BITS`, and the `power_table` of `bc3hash/src/shim.cpp` that lays out what they read. A
read past the end of a table is no value.

`TableHolds` is the layout: a row for each digit of an exponent, with the powers by that digit. Over
such a table each function returns the canonical power, the two chains of `powtab256x2` folded
lazily and their entries read a product ahead.

`table_powers_of_any_width` is for rows of any width that a kernel can be built with, and
`table_powers_are_fixedPower` for the tables that the host lays out, against the reference's lookups
in its own.
-/

set_option autoImplicit false
set_option relaxedAutoImplicit false

namespace Bc3Miner.Kernel

open Foundations Reference

/-! ### The kernel's functions -/

/-- `C_F64`. -/
def cF64 : UInt64 := 1469

/-- `C_F128`. -/
def cF128 : UInt64 := 15449

/-- What row `i` has for byte `i` of an exponent. -/
def entry64 (tab : List UInt64) (e : UInt64) (i : ℕ) : Option UInt64 :=
  tab[i * 256 + ((e >>> (8 * i).toUInt64) &&& 255).toNat]?

def powtab64 (tab : List UInt64) (e : UInt64) : Option UInt64 :=
  TablePower.product (mulmod64 · · cF64) (entry64 tab e) 8

def entry128 (tab : List UInt64) (e : U128) (i : ℕ) : Option U128 := do
  let b := ((e.limb (i >>> 3) >>> (8 * (i &&& 7)).toUInt64) &&& 255).toNat
  let k := (i * 256 + b) * 2
  return mk128 (← tab[k]?) (← tab[k + 1]?)

def powtab128 (tab : List UInt64) (e : U128) : Option U128 :=
  TablePower.product (mulmod128 · · cF128) (entry128 tab e) 16

/-- `BC3_POW256_ROWS`. -/
def pow256Rows (bits : ℕ) : ℕ := (256 + bits - 1) / bits

/-- `BC3_POW256_ENTRIES`. -/
def pow256Entries (bits : ℕ) : UInt32 := 1 <<< bits.toUInt32

def tab256 (bits : ℕ) (tab : List UInt64) (row b : UInt32) : Option U256 := do
  let k := (row * pow256Entries bits + b) * 4
  return mk256 (← tab[k.toNat]?) (← tab[(k + 1).toNat]?) (← tab[(k + 2).toNat]?)
    (← tab[(k + 3).toNat]?)

/-- `pow_digit`, which has a body of its own for 8 bits. -/
def powDigit (bits : ℕ) (e : U256) (i : UInt32) : UInt32 :=
  if bits = 8 then ((e.limb (i >>> 3).toNat >>> (8 * (i &&& 7)).toUInt64) &&& 255).toUInt32
  else
    let pos := i * bits.toUInt32
    let limb := pos >>> 6
    let sh := pos &&& 63
    let v := e.limb limb.toNat >>> sh.toUInt64
    let v := if 64 < sh + bits.toUInt32 ∧ limb + 1 < 4 then
      v ||| e.limb (limb + 1).toNat <<< (64 - sh).toUInt64 else v
    v.toUInt32 &&& (pow256Entries bits - 1)

def entry256 (bits : ℕ) (tab : List UInt64) (e : U256) (i : ℕ) : Option U256 :=
  tab256 bits tab i.toUInt32 (powDigit bits e i.toUInt32)

def powtab256 (bits : ℕ) (tab : List UInt64) (e : U256) : Option U256 :=
  TablePower.product (mulmod256 · · cF256) (entry256 bits tab e) (pow256Rows bits)

/-- The words of two entries. -/
def entries256 (bits : ℕ) (tab : List UInt64) (e f : U256) (i : ℕ) :
    Option (List UInt32 × List UInt32) := do
  return (split256 (← entry256 bits tab e i), split256 (← entry256 bits tab f i))

def powtab256x2 (bits : ℕ) (tab : List UInt64) (e f : U256) : Option (U256 × U256) := do
  let (r, s) ← TablePower.productAhead (ops256.mulx2 cF256.toUInt32) (entries256 bits tab e f)
    (pow256Rows bits)
  return (norm256 (join256 r) cF256, norm256 (join256 s) cF256)

/-! ### The layout -/

/-- The entry of row `i` for digit `d`, limb by limb, is the power of `base` by that digit there. -/
def TableHolds (L : ℕ) (tab : List UInt64) (radix rows : ℕ) {p : ℕ} (base : ZMod p) : Prop :=
  ∀ i < rows, ∀ d < radix, ∃ y : UInt L,
    (∀ j < L, tab[(i * radix + d) * L + j]? = some (y.limb j)) ∧
      (y.toNat : ZMod p) = base ^ (radix ^ i * d)

/-- `power_table`. -/
def powerTable {L : ℕ} (C : UInt64) (base : UInt L) : Option (List UInt64) := do
  let table ← fixedPower C base
  return table.flatMap fun row ↦ row.flatMap fun value ↦ value.v.toList

/-- Where the tables of the powers begin, `BC3_TABLE_POW64` and the two behind it. -/
def tablePow64 : ℕ := 0

def tablePow128 : ℕ := tablePow64 + 8 * 256 * 1

def tablePow256 : ℕ := tablePow128 + 16 * 256 * 2

/-- Part 0 of the buffer, as `bc3hash_gpu_table_part` fills it. -/
def powerPart (g64 : UInt 1) (g128 : UInt 2) (g256 : UInt 4) : Option (List UInt64) := do
  return (← powerTable 1469 g64) ++ (← powerTable 15449 g128) ++ (← powerTable 36113 g256)

/-! ### Digits -/

section Digits

variable {bits : ℕ} (hlow : 1 ≤ bits) (hhigh : bits ≤ 26)

include hlow hhigh

/-- The rows of a 256-bit power table cover the exponent with no row to spare, and there are between
2 and 256. -/
theorem pow256Rows_spec : 256 ≤ bits * pow256Rows bits ∧ bits * (pow256Rows bits - 1) < 256 ∧
    2 ≤ pow256Rows bits ∧ pow256Rows bits ≤ 256 := by
  have hfloor := Nat.div_add_mod (256 + bits - 1) bits
  have hrest := Nat.mod_lt (256 + bits - 1) (show 0 < bits by omega)
  have htwo : 2 ≤ pow256Rows bits := (Nat.le_div_iff_mul_le (by omega)).mpr (by omega)
  have hmost : pow256Rows bits ≤ 256 := by
    refine Nat.div_le_of_le_mul ?_
    have hscaled : 1 * 255 ≤ bits * 255 := Nat.mul_le_mul_right 255 hlow
    omega
  have hlast : bits * (pow256Rows bits - 1) + bits = bits * pow256Rows bits := by
    rw [← Nat.mul_succ, Nat.succ_eq_add_one, Nat.sub_add_cancel (by omega)]
  unfold pow256Rows at *
  omega

/-- A row of a table has an entry for every digit of its width. -/
theorem pow256Entries_toNat : (pow256Entries bits).toNat = 2 ^ bits := by
  have hcount : bits.toUInt32.toNat = bits := by
    rw [Nat.toUInt32_eq, UInt32.toNat_ofNat']
    omega
  have hpow : 2 ^ bits < 2 ^ 32 := Nat.pow_lt_pow_right (by norm_num) (by omega)
  rw [pow256Entries, UInt32.toNat_shiftLeft, hcount, Nat.mod_eq_of_lt (by omega : bits < 32)]
  rw [show (1 : UInt32).toNat = 1 from rfl, Nat.one_shiftLeft, Nat.mod_eq_of_lt hpow]

/-- The mask of a digit. -/
theorem toNat_and_mask (v : UInt64) :
    (v.toUInt32 &&& (pow256Entries bits - 1)).toNat = v.toNat % 2 ^ bits := by
  have hentries := pow256Entries_toNat hlow hhigh
  have hone : (1 : UInt32).toNat = 1 := rfl
  have hle : (1 : UInt32) ≤ pow256Entries bits := by
    rw [UInt32.le_iff_toNat_le, hentries, hone]
    exact Nat.one_le_two_pow
  rw [UInt32.toNat_and, UInt32.toNat_sub_of_le _ _ hle, hentries, hone,
    Nat.and_two_pow_sub_one_eq_mod, UInt64.toNat_toUInt32]
  exact Nat.mod_mod_of_dvd _ (pow_dvd_pow 2 (by omega))

omit hlow hhigh in
theorem toNat_rowIndex {count : ℕ} (hcount : count ≤ 256) : count.toUInt32.toNat = count := by
  rw [Nat.toUInt32_eq, UInt32.toNat_ofNat']
  omega

omit hlow hhigh in
/-- The body for 8 bits. -/
theorem powDigit_eight (e : U256) {i : ℕ} (hi : i < 32) :
    (powDigit 8 e i.toUInt32).toNat = e.toNat / (2 ^ 8) ^ i % 2 ^ 8 := by
  have hindex := toNat_rowIndex (by omega : i ≤ 256)
  have hplace : (i.toUInt32 >>> 3).toNat = i / 8 := by
    rw [UInt32.toNat_shiftRight, hindex]
    exact Nat.shiftRight_eq_div_pow i 3
  have hand : (i.toUInt32 &&& 7).toNat = i % 8 := by
    rw [UInt32.toNat_and, hindex]
    exact Nat.and_two_pow_sub_one_eq_mod i 3
  have hshift : (8 * (i.toUInt32 &&& 7)).toUInt64 = (8 * (i % 8)).toUInt64 := by
    have height : (8 : UInt32).toNat = 8 := rfl
    rw [← UInt64.toNat_inj, UInt32.toNat_toUInt64, UInt32.toNat_mul, hand, Nat.toUInt64_eq,
      UInt64.toNat_ofNat', height]
    omega
  have hbyte := byte_eq e i
  have hsmall : UInt.byte e i < 2 ^ 32 := by
    rw [hbyte]
    omega
  rw [powDigit, if_pos rfl, hplace, hshift, UInt64.toNat_toUInt32]
  show UInt.byte e i % 2 ^ 32 = _
  rw [Nat.mod_eq_of_lt hsmall]
  exact hbyte

/-- The other body: bits that reach past the limb they start in come from two, where there are two.
Above the last limb there is nothing of the exponent. -/
theorem powDigit_wide (height : bits ≠ 8) (e : U256) {i : ℕ} (hi : i < pow256Rows bits) :
    (powDigit bits e i.toUInt32).toNat = e.toNat / (2 ^ bits) ^ i % 2 ^ bits := by
  obtain ⟨-, hend, -, hmost⟩ := pow256Rows_spec hlow hhigh
  have hpos : bits * i < 256 :=
    (Nat.mul_le_mul_left bits (by omega : i ≤ pow256Rows bits - 1)).trans_lt hend
  have hindex := toNat_rowIndex (by omega : i ≤ 256)
  have hcount := toNat_rowIndex (by omega : bits ≤ 256)
  have hposition : (i.toUInt32 * bits.toUInt32).toNat = bits * i := by
    rw [UInt32.toNat_mul, hindex, hcount, Nat.mul_comm]
    omega
  have hlimb : ((i.toUInt32 * bits.toUInt32) >>> 6).toNat = bits * i / 64 := by
    rw [UInt32.toNat_shiftRight, hposition]
    exact Nat.shiftRight_eq_div_pow (bits * i) 6
  have hshift : ((i.toUInt32 * bits.toUInt32) &&& 63).toNat = bits * i % 64 := by
    rw [UInt32.toNat_and, hposition]
    exact Nat.and_two_pow_sub_one_eq_mod (bits * i) 6
  rw [← pow_mul, powDigit, if_neg height]
  dsimp only
  rw [toNat_and_mask hlow hhigh]
  generalize (i.toUInt32 * bits.toUInt32) >>> 6 = limb at hlimb ⊢
  generalize (i.toUInt32 * bits.toUInt32) &&& 63 = sh at hshift ⊢
  have hone : (1 : UInt32).toNat = 1 := rfl
  have hbig : (64 : UInt32).toNat = 64 := rfl
  have hfour : (4 : UInt32).toNat = 4 := rfl
  have hplace : 64 * (bits * i / 64) + bits * i % 64 = bits * i := Nat.div_add_mod _ _
  have hlt : bits * i % 64 < 64 := Nat.mod_lt _ (by norm_num)
  have hboth : (64 < sh + bits.toUInt32 ∧ limb + 1 < 4) ↔
      64 < bits * i % 64 + bits ∧ bits * i / 64 + 1 < 4 := by
    rw [UInt32.lt_iff_toNat_lt, UInt32.lt_iff_toNat_lt, UInt32.toNat_add, UInt32.toNat_add, hshift,
      hlimb, hcount, hfour, hone, hbig]
    omega
  have hcast : sh.toUInt64 = (bits * i % 64).toUInt64 := by
    rw [← UInt64.toNat_inj, UInt32.toNat_toUInt64, hshift, Nat.toUInt64_eq, UInt64.toNat_ofNat']
    omega
  simp only [hboth]
  rw [hlimb, hcast]
  split_ifs with htwo
  · have hnext : (limb + 1).toNat = bits * i / 64 + 1 := by
      rw [UInt32.toNat_add, hlimb, hone]
      omega
    have hleft : (64 - sh).toUInt64 = (64 - bits * i % 64).toUInt64 := by
      have hle : sh ≤ 64 := by
        rw [UInt32.le_iff_toNat_le, hshift, hbig]
        omega
      rw [← UInt64.toNat_inj, UInt32.toNat_toUInt64, UInt32.toNat_sub_of_le _ _ hle, hshift, hbig,
        Nat.toUInt64_eq, UInt64.toNat_ofNat']
      omega
    have hwindow := Limbs.window_toNat e (by omega : bits * i < 64 * 4)
    have hfirst : (bits * i) >>> 6 = bits * i / 64 := Nat.shiftRight_eq_div_pow _ 6
    have hrest : (bits * i) &&& 63 = bits * i % 64 := Nat.and_two_pow_sub_one_eq_mod _ 6
    rw [Limbs.window, hfirst, hrest, if_pos ⟨by omega, htwo.2⟩] at hwindow
    rw [hnext, hleft, hwindow]
    exact Nat.mod_mod_of_dvd _ (pow_dvd_pow 2 (by omega))
  · rw [Limbs.toNat_limb_shiftRight e _ hlt, hplace]
    rcases Nat.lt_or_ge 64 (bits * i % 64 + bits) with hpast | hinside
    · have hrest : e.toNat / 2 ^ (bits * i) < 2 ^ (64 - bits * i % 64) := by
        have hsum : 64 - bits * i % 64 + bits * i = 64 * 4 := by omega
        rw [Nat.div_lt_iff_lt_mul (Nat.two_pow_pos _), ← pow_add, hsum]
        exact e.toNat_lt
      rw [Nat.mod_eq_of_lt hrest]
    · exact Nat.mod_mod_of_dvd _ (pow_dvd_pow 2 (by omega))

/-- The digit of the kernel is the digit of the exponent in base `2 ^ bits`. -/
theorem powDigit_toNat (e : U256) {i : ℕ} (hi : i < pow256Rows bits) :
    (powDigit bits e i.toUInt32).toNat = e.toNat / (2 ^ bits) ^ i % 2 ^ bits := by
  by_cases height : bits = 8
  · subst height
    exact powDigit_eight e hi
  · exact powDigit_wide hlow hhigh height e hi

/-- The index of an entry does not wrap. -/
theorem tab256_eq {tab : List UInt64} {i d : ℕ} (hi : i < pow256Rows bits) (hd : d < 2 ^ bits)
    {b : UInt32} (hb : b.toNat = d) {y : U256}
    (hy : ∀ j < 4, tab[(i * 2 ^ bits + d) * 4 + j]? = some (y.limb j)) :
    tab256 bits tab i.toUInt32 b = some y := by
  obtain ⟨-, -, -, hmost⟩ := pow256Rows_spec hlow hhigh
  have hindex := toNat_rowIndex (by omega : i ≤ 256)
  have hbound : pow256Rows bits * 2 ^ bits * 4 ≤ 2 ^ 32 := by
    have hall : ∀ bits < 27, 1 ≤ bits → pow256Rows bits * 2 ^ bits * 4 ≤ 2 ^ 32 := by decide
    exact hall bits (by omega) hlow
  have hplace : (i * 2 ^ bits + d) * 4 + 4 ≤ 2 ^ 32 := by
    have hrow : (i + 1) * 2 ^ bits ≤ pow256Rows bits * 2 ^ bits := Nat.mul_le_mul_right _ hi
    rw [Nat.add_mul, Nat.one_mul] at hrow
    omega
  have hfour : (4 : UInt32).toNat = 4 := rfl
  have hk : ((i.toUInt32 * pow256Entries bits + b) * 4).toNat = (i * 2 ^ bits + d) * 4 := by
    rw [UInt32.toNat_mul, UInt32.toNat_add, UInt32.toNat_mul, hindex, hb, hfour,
      pow256Entries_toNat hlow hhigh, Nat.mod_eq_of_lt (by omega : i * 2 ^ bits < 2 ^ 32),
      Nat.mod_eq_of_lt (by omega : i * 2 ^ bits + d < 2 ^ 32),
      Nat.mod_eq_of_lt (by omega : (i * 2 ^ bits + d) * 4 < 2 ^ 32)]
  have hlater {j : UInt32} (hj : j.toNat < 4) :
      ((i.toUInt32 * pow256Entries bits + b) * 4 + j).toNat =
        (i * 2 ^ bits + d) * 4 + j.toNat := by
    rw [UInt32.toNat_add, hk, Nat.mod_eq_of_lt (by omega)]
  have hone : (1 : UInt32).toNat = 1 := rfl
  have htwo : (2 : UInt32).toNat = 2 := rfl
  have hthree : (3 : UInt32).toNat = 3 := rfl
  have hfirst := hy 0 (by omega)
  rw [Nat.add_zero] at hfirst
  have hmk : mk256 (y.limb 0) (y.limb 1) (y.limb 2) (y.limb 3) = y := (eq_mk256 y).symm
  rw [tab256, hk, hlater (by decide : (1 : UInt32).toNat < 4),
    hlater (by decide : (2 : UInt32).toNat < 4), hlater (by decide : (3 : UInt32).toNat < 4), hone,
    htwo, hthree, hfirst, hy 1 (by omega), hy 2 (by omega), hy 3 (by omega)]
  exact congrArg some hmk

end Digits

/-! ### Entries -/

section Entries

variable {p : ℕ} {base : ZMod p} {tab : List UInt64}

theorem toNat_toUInt (word : UInt64) : (toUInt word).toNat = word.toNat := by
  show word.toNat + 2 ^ 64 * 0 = word.toNat
  rw [Nat.mul_zero, Nat.add_zero]

/-- An entry of a 64-bit table is inside the buffer, and is the power for the digit at its place. -/
theorem entry64_spec (htab : TableHolds 1 tab 256 8 base) (e : UInt64) {i : ℕ} (hi : i < 8) :
    ∃ y, entry64 tab e i = some y ∧
      (y.toNat : ZMod p) = base ^ (256 ^ i * (e.toNat / 256 ^ i % 256)) := by
  obtain ⟨y, hlimbs, hy⟩ := htab i hi (e.toNat / 256 ^ i % 256) (Nat.mod_lt _ (by norm_num))
  have hbyte := byte_eq (toUInt e) i
  have hplace : i / 8 = 0 := by omega
  have hrest : i % 8 = i := by omega
  rw [UInt.byte, hplace, hrest, toNat_toUInt] at hbyte
  change ((e >>> (8 * i).toUInt64) &&& 255).toNat = _ at hbyte
  have hfirst := hlimbs 0 Nat.zero_lt_one
  rw [Nat.mul_one, Nat.add_zero, ← hbyte] at hfirst
  have hvalue : toUInt (y.limb 0) = y := Limbs.ext_limb fun j hj ↦ by interval_cases j; rfl
  rw [← hvalue, toNat_toUInt] at hy
  exact ⟨y.limb 0, hfirst, hy⟩

/-- An entry of a 128-bit table is inside the buffer, and is the power for the digit at its place.
-/
theorem entry128_spec (htab : TableHolds 2 tab 256 16 base) (e : U128) {i : ℕ} (hi : i < 16) :
    ∃ y, entry128 tab e i = some y ∧
      (y.toNat : ZMod p) = base ^ (256 ^ i * (e.toNat / 256 ^ i % 256)) := by
  obtain ⟨y, hlimbs, hy⟩ := htab i hi (e.toNat / 256 ^ i % 256) (Nat.mod_lt _ (by norm_num))
  have hbyte := byte_eq e i
  have hplace : i >>> 3 = i / 8 := Nat.shiftRight_eq_div_pow i 3
  have hrest : i &&& 7 = i % 8 := Nat.and_two_pow_sub_one_eq_mod i 3
  have hlow := hlimbs 0 (by omega)
  have hhigh := hlimbs 1 (by omega)
  have hmk : mk128 (y.limb 0) (y.limb 1) = y :=
    Limbs.ext_limb fun j hj ↦ by interval_cases j <;> rfl
  refine ⟨y, ?_, hy⟩
  rw [← hbyte, Nat.add_zero] at hlow
  rw [← hbyte] at hhigh
  rw [entry128, hplace, hrest]
  show tab[(i * 256 + UInt.byte e i) * 2]?.bind (fun low ↦
    tab[(i * 256 + UInt.byte e i) * 2 + 1]?.bind fun high ↦ some (mk128 low high)) = some y
  rw [hlow, hhigh]
  exact congrArg some hmk

/-- An entry of a 256-bit table is inside the buffer for every width from 1 to 26, and is the power
for the digit at its place. -/
theorem entry256_spec {bits : ℕ} (hlow : 1 ≤ bits) (hhigh : bits ≤ 26)
    (htab : TableHolds 4 tab (2 ^ bits) (pow256Rows bits) base) (e : U256) {i : ℕ}
    (hi : i < pow256Rows bits) :
    ∃ y, entry256 bits tab e i = some y ∧
      (y.toNat : ZMod p) = base ^ ((2 ^ bits) ^ i * (e.toNat / (2 ^ bits) ^ i % 2 ^ bits)) := by
  have hdigit : e.toNat / (2 ^ bits) ^ i % 2 ^ bits < 2 ^ bits := Nat.mod_lt _ (Nat.two_pow_pos _)
  obtain ⟨y, hlimbs, hy⟩ := htab i hi _ hdigit
  exact ⟨y, tab256_eq hlow hhigh hi hdigit (powDigit_toNat hlow hhigh e hi) hlimbs, hy⟩

end Entries

/-! ### Powers -/

section Powers

variable {tab : List UInt64}

/-- A power from a 64-bit table reads only inside the buffer and is the canonical residue of the
power. -/
theorem powtab64_spec {base : ZMod (2 ^ 64 - 1469)} (htab : TableHolds 1 tab 256 8 base)
    (e : UInt64) : ∃ r, powtab64 tab e = some r ∧ r.toNat = (base ^ e.toNat).val := by
  have hmul (x y : UInt64) : (mulmod64 x y cF64).toNat = x.toNat * y.toNat % (2 ^ 64 - 1469) :=
    mulmod64_toNat x y (by decide) (by decide)
  exact TablePower.product_power (by norm_num) hmul (by norm_num)
    (e.toNat_lt.trans_eq (by norm_num)) fun _ hi ↦ entry64_spec htab e hi

/-- A power from a 128-bit table reads only inside the buffer and is the canonical residue of the
power. -/
theorem powtab128_spec {base : ZMod (2 ^ 128 - 15449)} (htab : TableHolds 2 tab 256 16 base)
    (e : U128) : ∃ r, powtab128 tab e = some r ∧ r.toNat = (base ^ e.toNat).val := by
  have hmul (x y : U128) :
      (mulmod128 x y cF128).toNat = x.toNat * y.toNat % (2 ^ 128 - 15449) :=
    mulmod128_toNat x y (by decide) (by decide)
  exact TablePower.product_power (by norm_num) hmul (by norm_num)
    (e.toNat_lt.trans_eq (by norm_num)) fun _ hi ↦ entry128_spec htab e hi

variable {bits : ℕ} (hlow : 1 ≤ bits) (hhigh : bits ≤ 26)

include hlow hhigh

theorem exponent_lt (e : U256) : e.toNat < (2 ^ bits) ^ pow256Rows bits := by
  obtain ⟨hcovers, -⟩ := pow256Rows_spec hlow hhigh
  rw [← pow_mul]
  exact e.toNat_lt.trans_le (Nat.pow_le_pow_right (by norm_num) hcovers)

variable {base : ZMod f256P} (htab : TableHolds 4 tab (2 ^ bits) (pow256Rows bits) base)

include htab

/-- A power from a 256-bit table reads only inside the buffer and is the canonical residue of the
power, for every width there is. -/
theorem powtab256_spec (e : U256) :
    ∃ r, powtab256 bits tab e = some r ∧ r.toNat = (base ^ e.toNat).val := by
  obtain ⟨-, -, hrows, -⟩ := pow256Rows_spec hlow hhigh
  have hmul (x y : U256) : (mulmod256 x y cF256).toNat = x.toNat * y.toNat % f256P :=
    mulmod256_toNat x y (Or.inr (by decide))
  exact TablePower.product_power f256P_prime.pos hmul hrows (exponent_lt hlow hhigh e)
    fun _ hi ↦ entry256_spec hlow hhigh htab e hi

/-- Both chains at once, each only folded until its end. -/
theorem powtab256x2_spec (e f : U256) : ∃ r s, powtab256x2 bits tab e f = some (r, s) ∧
    r.toNat = (base ^ e.toNat).val ∧ s.toNat = (base ^ f.toNat).val := by
  obtain ⟨-, -, hrows, -⟩ := pow256Rows_spec hlow hhigh
  have hC : cF256.toUInt32.toNat < 2 ^ 16 := by decide
  have hmodulus : 2 ^ (32 * ops256.n) - cF256.toUInt32.toNat = f256P := by decide +kernel
  have hp : f256P + cF256.toNat = 2 ^ 256 := by decide +kernel
  have hparts : ∀ i < pow256Rows bits, ∃ y, entries256 bits tab e f i = some y ∧
      PairStands ops256.n f256P y
        (base ^ ((2 ^ bits) ^ i * (e.toNat / (2 ^ bits) ^ i % 2 ^ bits)),
          base ^ ((2 ^ bits) ^ i * (f.toNat / (2 ^ bits) ^ i % 2 ^ bits))) := by
    intro i hi
    obtain ⟨y, hy, hyvalue⟩ := entry256_spec hlow hhigh htab e hi
    obtain ⟨z, hz, hzvalue⟩ := entry256_spec hlow hhigh htab f hi
    refine ⟨(split256 y, split256 z), ?_, ⟨length_split256 y, ?_⟩, ⟨length_split256 z, ?_⟩⟩
    · rw [entries256, hy, hz]
      rfl
    · rw [split256_value]
      exact hyvalue
    · rw [split256_value]
      exact hzvalue
  obtain ⟨⟨r, s⟩, hrun, hfirst, hsecond⟩ := TablePower.product_stands
    (PairStands ops256.n f256P) (PairStands ops256.n f256P) (fun _ _ hx ↦ hx)
    (fun _ _ _ _ hr hx ↦ mulx2_stands ops256_exact hC hmodulus hr hx) hparts hrows
  choose! read hread _ using hparts
  rw [← TablePower.productAhead_eq _ hread hrows] at hrun
  rw [Prod.fst_prod, TablePower.prod_digits, Nat.mod_eq_of_lt (exponent_lt hlow hhigh e)] at hfirst
  rw [Prod.snd_prod, TablePower.prod_digits, Nat.mod_eq_of_lt (exponent_lt hlow hhigh f)] at hsecond
  have hcanonical {r : List UInt32} {a : ZMod f256P} (hr : WordsStand ops256.n f256P r a) :
      (norm256 (join256 r) cF256).toNat = a.val := by
    rw [norm256_toNat _ hp, join256_toNat hr.length, ← hr.residue, ZMod.val_natCast]
  refine ⟨_, _, ?_, hcanonical hfirst, hcanonical hsecond⟩
  rw [powtab256x2, hrun]
  rfl

end Powers

/-! ### The host's tables -/

section Host

variable {L : ℕ} {C : UInt64}

theorem length_powersAfter (base : UInt L) (count : ℕ) (power : UInt L) :
    (powersAfter C base count power).length = count := by
  induction count generalizing power with
  | zero => rfl
  | succ count ih => rw [powersAfter, List.length_cons, ih]

/-- A table has the rows asked for, with 256 entries each. -/
theorem powerRows_lengths {rows : ℕ} {base : UInt L} {table : List (List (UInt L))}
    (htable : powerRows C rows base = some table) :
    table.length = rows ∧ ∀ row ∈ table, row.length = 256 := by
  induction rows generalizing base table with
  | zero =>
    obtain rfl : [] = table := Option.some.inj htable
    exact ⟨rfl, by simp⟩
  | succ rows ih =>
    have hlength : (powerRow C base).length = 256 := by
      rw [powerRow, List.length_cons, List.length_cons, length_powersAfter]
    obtain ⟨last, hlast⟩ : ∃ last, (powerRow C base)[255]? = some last :=
      ⟨_, List.getElem?_eq_getElem (by omega)⟩
    rw [powerRows, hlast, Option.bind_eq_bind, Option.bind_some] at htable
    obtain ⟨rest, hrest, hsame⟩ := Option.bind_eq_some_iff.mp htable
    obtain rfl : powerRow C base :: rest = table := Option.some.inj hsame
    obtain ⟨hcount, hrows⟩ := ih hrest
    refine ⟨congrArg Nat.succ hcount, fun row hmem ↦ ?_⟩
    rcases List.mem_cons.mp hmem with rfl | hlater
    · exact hlength
    · exact hrows row hlater

/-- What `power_table` writes is laid out as the kernel reads it. -/
theorem powerTable_holds (hsmall : Mod.Small L C) (base : UInt L) :
    ∃ table words, fixedPower C base = some table ∧ powerTable C base = some words ∧
      words.length = 8 * L * 256 * L ∧
      TableHolds L words 256 (8 * L) (base.toNat : ZMod (Mod.modulus C : UInt L).toNat) := by
  obtain ⟨table, htable, hrows⟩ := powerRows_spec hsmall (8 * L) base
  obtain ⟨hcount, hlengths⟩ := powerRows_lengths htable
  have hflat : (table.flatMap fun row ↦ row.flatMap fun value ↦ value.v.toList) =
      table.flatten.flatMap fun value ↦ value.v.toList := by
    rw [List.flatMap_def, List.flatMap_def, List.map_flatten, List.flatten_flatten, List.map_map]
    rfl
  have hlength : table.flatten.length = 8 * L * 256 := by
    rw [Blocks.length_flatten_eq_mul hlengths, hcount]
  refine ⟨table, _, htable, by rw [powerTable, fixedPower, htable]; rfl, ?_, ?_⟩
  · rw [hflat, List.flatMap_def, Blocks.length_flatten_eq_mul, List.length_map, hlength]
    intro limbs hmem
    obtain ⟨value, -, rfl⟩ := List.mem_map.mp hmem
    exact Vector.length_toList
  · intro i hi d hd
    obtain ⟨row, y, hrow, hy, hvalue⟩ := hrows i hi d hd
    refine ⟨y, fun j hj ↦ ?_, by rw [hvalue, Nat.mul_comm]⟩
    have hplace : i * 256 + d < table.flatten.length := by omega
    have hread : table.flatten[i * 256 + d]? = some y := by
      have hshort : d < row.length := by
        rw [hlengths row (List.mem_of_getElem? hrow)]
        exact hd
      rw [Blocks.getElem?_flatten (fun other hmem ↦ hlengths other (List.mem_of_mem_take hmem)) hrow
        hshort, hy]
    have hentry : entry table.flatten (i * 256 + d) = y := by
      rw [entry, List.getD_eq_getElem?_getD, hread, Option.getD_some]
    rw [hflat, Nat.mul_comm _ L, word_of_table rfl hplace hj, hentry]

/-- What `FixedPower` computes, in the words of the kernel's functions. -/
theorem tablePower_val (hsmall : Mod.Small L C) {base : UInt L} {table : List (List (UInt L))}
    (htable : fixedPower C base = some table) (e : UInt L) : ∃ r, tablePower C table e = some r ∧
      r.toNat = ((base.toNat : ZMod (Mod.modulus C : UInt L).toNat) ^ e.toNat).val := by
  obtain ⟨r, hrun, hr⟩ := tablePower_spec hsmall htable e
  exact ⟨r, hrun, by rw [hr.toNat_eq, ← Nat.cast_pow, ZMod.val_natCast]⟩

/-- What lies behind a table is not read. -/
theorem TableHolds.append {tab : List UInt64} {radix rows p : ℕ} {base : ZMod p}
    (htab : TableHolds L tab radix rows base) (behind : List UInt64) :
    TableHolds L (tab ++ behind) radix rows base := by
  intro i hi d hd
  obtain ⟨y, hlimbs, hy⟩ := htab i hi d hd
  refine ⟨y, fun j hj ↦ ?_, hy⟩
  have hread := hlimbs j hj
  rwa [List.getElem?_append_left (List.getElem?_eq_some_iff.mp hread).1]

end Host

/-! ### What the powers are -/

/-- For every width of the rows that a kernel can be built with, 1 to 26 bits, and over any table
with the powers of a base (`TableHolds`): `powtab256` and `powtab256x2` never read past the end of
the table, whatever the exponents are, and both give the canonical powers, the second without a
canonical number before its end. -/
theorem table_powers_of_any_width {bits : ℕ} (hlow : 1 ≤ bits) (hhigh : bits ≤ 26)
    {tab : List UInt64} {base : ZMod f256P}
    (htab : TableHolds 4 tab (2 ^ bits) (pow256Rows bits) base) (e f : U256) :
    ∃ r s, powtab256 bits tab e = some r ∧ powtab256x2 bits tab e f = some (r, s) ∧
      r.toNat = (base ^ e.toNat).val ∧ s.toNat = (base ^ f.toNat).val := by
  obtain ⟨r, hr, hrvalue⟩ := powtab256_spec hlow hhigh htab e
  obtain ⟨r', s, hpair, hrvalue', hsvalue⟩ := powtab256x2_spec hlow hhigh htab e f
  obtain rfl : r' = r := Limbs.toNat_injective (hrvalue'.trans hrvalue.symm)
  exact ⟨_, _, hr, hpair, hrvalue, hsvalue⟩

/-- The host's table of the powers of 3. -/
theorem table_powers_of_three : ∃ tab, powerTable 36113 (UInt.ofWord 3 : UInt 4) = some tab ∧
    ∀ e f : U256, ∃ r s, powtab256 8 tab e = some r ∧ powtab256x2 8 tab e f = some (r, s) ∧
      r.toNat = (((UInt.ofWord 3 : UInt 4).toNat : ZMod f256P) ^ e.toNat).val ∧
      s.toNat = (((UInt.ofWord 3 : UInt 4).toNat : ZMod f256P) ^ f.toNat).val := by
  obtain ⟨-, words, -, hwords, -, hholds⟩ := powerTable_holds small256 (UInt.ofWord 3 : UInt 4)
  rw [toNat_modulus256] at hholds
  exact ⟨words, hwords, table_powers_of_any_width (by decide) (by decide) hholds⟩

theorem small64 : Mod.Small 1 1469 := ⟨by decide, by decide, by decide⟩

theorem small128 : Mod.Small 2 15449 := ⟨by decide, by decide, by decide⟩

theorem toNat_modulus64 : (Mod.modulus 1469 : UInt 1).toNat = 2 ^ 64 - 1469 := modulus_eq small64

theorem toNat_modulus128 : (Mod.modulus 15449 : UInt 2).toNat = 2 ^ 128 - 15449 :=
  modulus_eq small128

/-- For any three bases the host can make its power tables, they take as many words as the layout
has for them, and the kernel finds the powers of each base in the buffer that begins with them,
whatever is behind. -/
theorem powerPart_holds (g64 : UInt 1) (g128 : UInt 2) (g256 : UInt 4) :
    ∃ t64 t128 t256 part, fixedPower 1469 g64 = some t64 ∧ fixedPower 15449 g128 = some t128 ∧
      fixedPower 36113 g256 = some t256 ∧ powerPart g64 g128 g256 = some part ∧
      part.length = Device.powerTablesU64 ∧ ∀ behind : List UInt64,
        TableHolds 1 ((part ++ behind).drop tablePow64) 256 8
          (g64.toNat : ZMod (2 ^ 64 - 1469)) ∧
        TableHolds 2 ((part ++ behind).drop tablePow128) 256 16
          (g128.toNat : ZMod (2 ^ 128 - 15449)) ∧
        TableHolds 4 ((part ++ behind).drop tablePow256) 256 32 (g256.toNat : ZMod f256P) := by
  obtain ⟨t64, w64, ht64, hw64, hlength64, hholds64⟩ := powerTable_holds small64 g64
  obtain ⟨t128, w128, ht128, hw128, hlength128, hholds128⟩ := powerTable_holds small128 g128
  obtain ⟨t256, w256, ht256, hw256, hlength256, hholds256⟩ := powerTable_holds small256 g256
  rw [toNat_modulus64] at hholds64
  rw [toNat_modulus128] at hholds128
  rw [toNat_modulus256] at hholds256
  refine ⟨t64, t128, t256, w64 ++ w128 ++ w256, ht64, ht128, ht256, ?_, ?_, fun behind ↦ ?_⟩
  · rw [powerPart, hw64, hw128, hw256]
    rfl
  · rw [List.length_append, List.length_append, hlength64, hlength128, hlength256]
    rfl
  · have hdrop64 : (w64 ++ w128 ++ w256 ++ behind).drop tablePow64 =
        w64 ++ (w128 ++ (w256 ++ behind)) := by
      rw [tablePow64, List.drop_zero, List.append_assoc, List.append_assoc]
    have hdrop128 : (w64 ++ w128 ++ w256 ++ behind).drop tablePow128 =
        w128 ++ (w256 ++ behind) := by
      rw [List.append_assoc, List.append_assoc]
      exact List.drop_left' hlength64
    have hdrop256 : (w64 ++ w128 ++ w256 ++ behind).drop tablePow256 = w256 ++ behind := by
      rw [List.append_assoc]
      exact List.drop_left' (by rw [List.length_append, hlength64, hlength128]; rfl)
    rw [hdrop64, hdrop128, hdrop256]
    exact ⟨hholds64.append _, hholds128.append _, hholds256.append _⟩

/-- The host's power tables and the kernel's lookups. For any three bases the tables can be made and
are as long as the layout has it; and over any buffer that begins with them, whatever is behind
them, the kernel's powers are those of the reference's `FixedPower` for all exponents, one at a time
and two at once. -/
theorem table_powers_are_fixedPower (g64 : UInt 1) (g128 : UInt 2) (g256 : UInt 4) :
    ∃ t64 t128 t256 part, fixedPower 1469 g64 = some t64 ∧ fixedPower 15449 g128 = some t128 ∧
      fixedPower 36113 g256 = some t256 ∧ powerPart g64 g128 g256 = some part ∧
      part.length = Device.powerTablesU64 ∧
      ∀ (curves : List UInt64) (a : UInt64) (b : U128) (e f : U256), ∃ x y r s,
        powtab64 ((part ++ curves).drop tablePow64) a = some x ∧
        tablePower 1469 t64 (toUInt a) = some (toUInt x) ∧
        powtab128 ((part ++ curves).drop tablePow128) b = some y ∧
        tablePower 15449 t128 b = some y ∧
        powtab256x2 8 ((part ++ curves).drop tablePow256) e f = some (r, s) ∧
        tablePair 36113 t256 e f = some (r, s) := by
  obtain ⟨t64, t128, t256, part, ht64, ht128, ht256, hpart, hlength, hholds⟩ :=
    powerPart_holds g64 g128 g256
  refine ⟨t64, t128, t256, part, ht64, ht128, ht256, hpart, hlength, fun curves a b e f ↦ ?_⟩
  obtain ⟨hholds64, hholds128, hholds256⟩ := hholds curves
  obtain ⟨x, hx, hxvalue⟩ := powtab64_spec hholds64 a
  obtain ⟨y, hy, hyvalue⟩ := powtab128_spec hholds128 b
  obtain ⟨r, s, hrs, hrvalue, hsvalue⟩ :=
    powtab256x2_spec (by decide : 1 ≤ 8) (by decide) hholds256 e f
  obtain ⟨x', hx', hxvalue'⟩ := tablePower_val small64 ht64 (toUInt a)
  obtain ⟨y', hy', hyvalue'⟩ := tablePower_val small128 ht128 b
  obtain ⟨r', hr', hrvalue'⟩ := tablePower_val small256 ht256 e
  obtain ⟨s', hs', hsvalue'⟩ := tablePower_val small256 ht256 f
  rw [toNat_modulus64, toNat_toUInt, ← hxvalue, ← toNat_toUInt] at hxvalue'
  rw [toNat_modulus128, ← hyvalue] at hyvalue'
  rw [toNat_modulus256, ← hrvalue] at hrvalue'
  rw [toNat_modulus256, ← hsvalue] at hsvalue'
  obtain rfl := Limbs.toNat_injective hxvalue'
  obtain rfl := Limbs.toNat_injective hyvalue'
  obtain rfl := Limbs.toNat_injective hrvalue'
  obtain rfl := Limbs.toNat_injective hsvalue'
  exact ⟨x, y', r', s', hx, hx', hy, hy', hrs, tablePair_eq hr' hs'⟩

end Bc3Miner.Kernel
