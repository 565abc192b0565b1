import Bc3Miner.Foundations.SignedLimbs
import Bc3Miner.Kernel.Divsteps30
import Bc3Miner.Kernel.Products
import Mathlib.Algebra.Order.BigOperators.Group.Finset
import Mathlib.Data.List.GetD

/-!
# Modular inversion by divsteps

`modinv256` of `src/kernels/bc3hash.cl`: 20 batches of 30 divsteps on numbers in nine signed limbs
of 30 bits, each applied to `f` and `g` and, modulo the modulus, to `d` and `e`, of which `d` is the
inverse in the end, up to its sign and its range.

The limbs are whole numbers here, and every sum, product and conversion to a signed type goes
through `i32` or `i64`, which is nothing where the type does not hold it: what has a result has it
without an overflow. Conversions to unsigned words wrap around, as do the words of the divsteps.

The definitions are here, with what the conversions between words and limbs keep; `SignedRows` has
one row of an update, `ModInverseRuns` the whole run.
-/

set_option autoImplicit false
set_option relaxedAutoImplicit false

namespace Bc3Miner.Kernel

open Foundations

/-! ### Signed limbs -/

def i32 (x : ℤ) : Option ℤ := checked 32 x

def i64 (x : ℤ) : Option ℤ := checked 64 x

/-- Nine limbs of 30 bits, the last one with the rest. -/
abbrev S30 := List ℤ

/-- The last limb, whose sign is the number's. -/
def S30.top (r : S30) : ℤ := r.getD 8 0

def m30 : UInt64 := 0x3FFFFFFF

/-- The limbs of the moduli. -/
def mlimb (M0 M1 : ℤ) (i : ℕ) : ℤ :=
  if i = 0 then M0 else if i = 1 then M1 else if i = 8 then 65536 else 0

def mlimbs (M0 M1 : ℤ) : S30 := (List.range 9).map (mlimb M0 M1)

def toS30 (x : U256) : S30 :=
  (List.range 9).map fun i ↦
    let o := 30 * i
    let limb := o >>> 6
    let sh := o &&& 63
    let val := x.limb limb >>> sh.toUInt64
    let val := if 34 < sh ∧ limb + 1 < 4 then val ||| x.limb (limb + 1) <<< (64 - sh).toUInt64
      else val
    ((val &&& if i < 8 then m30 else 0xFFFF).toNat : ℤ)

/-- The limb `or`ed into a number. -/
def orLimb (r : U256) (limb : ℕ) (word : UInt64) : U256 :=
  Limbs.ofFn fun i ↦ if i = limb then r.limb i ||| word else r.limb i

/-- One limb of 30 bits goes where it belongs. -/
def orS30 (a : S30) (r : U256) (i : ℕ) : U256 :=
  let val := (UInt32.ofInt (a.getD i 0)).toUInt64
  let o := 30 * i
  let limb := o >>> 6
  let sh := o &&& 63
  let r := orLimb r limb (val <<< sh.toUInt64)
  if 34 < sh ∧ limb + 1 < 4 then orLimb r (limb + 1) (val >>> (64 - sh).toUInt64) else r

def fromS30 (a : S30) : U256 := (List.range 9).foldl (orS30 a) (mk256 0 0 0 0)

/-! ### A batch applied to the numbers -/

/-- `a * x + b * y`. -/
def column (a b x y : ℤ) : Option ℤ := do
  let left ← i64 (a * x)
  let right ← i64 (b * y)
  i64 (left + right)

/-- A column of the modulus, if it is not zero, times `m`, added to what there is. -/
def addMultiple (m limb c : ℤ) : Option ℤ :=
  if limb ≠ 0 then do
    let product ← i64 (limb * m)
    i64 (c + product)
  else some c

/-- The columns above the first one, with the carry from each to the next. -/
def updateRow (a b m : ℤ) : S30 → S30 → List ℤ → ℤ → Option S30
  | x :: xs, y :: ys, limb :: limbs, carry => do
    let products ← column a b x y
    let c ← i64 (carry + products)
    let c ← addMultiple m limb c
    let rest ← updateRow a b m xs ys limbs (c >>> (30 : ℕ))
    some (c % 2 ^ 30 :: rest)
  | _, _, _, carry => do
    let last ← i32 carry
    some [last]

/-- `m` less what makes the bottom 30 bits of the column vanish once the modulus is added `m`
times. -/
def correction (inv30 : UInt32) (m c : ℤ) : ℤ :=
  (UInt32.ofInt m - ((inv30 * UInt32.ofInt c + UInt32.ofInt m) &&& 0x3FFFFFFF)).toInt32.toInt

/-- A modulus by its limbs and its inverse modulo `2 ^ 30`. -/
structure SignedModulus where
  M0 : ℤ
  M1 : ℤ
  inv30 : UInt32

/-- One row of `update_de_30`: `(a * d + b * e) / 2 ^ 30` modulo the modulus. -/
def deRow (modulus : SignedModulus) (a b : ℤ) (d e : S30) : Option S30 := do
  let m ← i32 ((if d.top < 0 then a else 0) + if e.top < 0 then b else 0)
  let c ← column a b (d.getD 0 0) (e.getD 0 0)
  let m := correction modulus.inv30 m c
  let c ← addMultiple m modulus.M0 c
  updateRow a b m d.tail e.tail (mlimbs modulus.M0 modulus.M1).tail (c >>> (30 : ℕ))

def updateDe30 (modulus : SignedModulus) (d e : S30) (u v q r : ℤ) : Option (S30 × S30) := do
  let next ← deRow modulus u v d e
  let next' ← deRow modulus q r d e
  some (next, next')

/-- One row of `update_fg_30`: `(a * f + b * g) / 2 ^ 30`. -/
def fgRow (a b : ℤ) (f g : S30) : Option S30 := do
  let c ← column a b (f.getD 0 0) (g.getD 0 0)
  updateRow a b 0 f.tail g.tail (List.replicate 8 0) (c >>> (30 : ℕ))

def updateFg30 (f g : S30) (u v q r : ℤ) : Option (S30 × S30) := do
  let next ← fgRow u v f g
  let next' ← fgRow q r f g
  some (next, next')

/-! ### The outcome in range -/

/-- The modulus added where the number is negative. -/
def condAdd (modulus : SignedModulus) (r : S30) : Option S30 :=
  (List.zipWith (fun limb m ↦ limb + if r.top < 0 then m else 0) r
    (mlimbs modulus.M0 modulus.M1)).mapM i32

/-- `(x ^ c) - c` with the sign as a mask. -/
def condNegate (sign : ℤ) (r : S30) : Option S30 :=
  r.mapM fun limb ↦ i32 ((if sign < 0 then ~~~limb else limb) - if sign < 0 then -1 else 0)

/-- The carry of a limb goes to the next one. -/
def carryFrom (limb : ℤ) : List ℤ → Option (List ℤ)
  | [] => some [limb]
  | next :: limbs => do
    let next ← i32 (next + limb >>> (30 : ℕ))
    let rest ← carryFrom next limbs
    some (limb % 2 ^ 30 :: rest)

def carryUp (r : S30) : Option S30 := carryFrom (r.getD 0 0) r.tail

def normalize30 (modulus : SignedModulus) (r : S30) (sign : ℤ) : Option S30 := do
  let r ← condAdd modulus r
  let r ← condNegate sign r
  let r ← carryUp r
  let r ← condAdd modulus r
  carryUp r

/-! ### The inversion -/

/-- The variables of the loop. -/
structure Inversion where
  zeta : Int32
  d : S30
  e : S30
  f : S30
  g : S30

/-- The divsteps of the next batch. -/
def Inversion.divsteps (s : Inversion) : Divsteps30 :=
  divsteps30 s.zeta (UInt32.ofInt (s.f.getD 0 0)) (UInt32.ofInt (s.g.getD 0 0))

/-- One batch. -/
def Inversion.batch (modulus : SignedModulus) (s : Inversion) : Option Inversion := do
  let t := s.divsteps
  let (d, e) ← updateDe30 modulus s.d s.e t.u.toInt t.v.toInt t.q.toInt t.r.toInt
  let (f, g) ← updateFg30 s.f s.g t.u.toInt t.v.toInt t.q.toInt t.r.toInt
  some ⟨t.zeta, d, e, f, g⟩

/-- The batches from number `i` on. With `leaves` the loop ends from the 17th batch on as soon as
`g` is zero, all its limbs `or`ed. -/
def Inversion.batches (modulus : SignedModulus) (leaves : Bool) :
    ℕ → ℕ → Inversion → Option Inversion
  | 0, _, s => some s
  | count + 1, i, s => do
    let s ← s.batch modulus
    if leaves = true ∧ 16 ≤ i ∧ s.g.all (· == 0) = true then some s
    else batches modulus leaves count (i + 1) s

def Inversion.start (modulus : SignedModulus) (x : U256) : Inversion where
  zeta := -1
  d := List.replicate 9 0
  e := 1 :: List.replicate 8 0
  f := mlimbs modulus.M0 modulus.M1
  g := toS30 x

/-- `modinv256`, with or without the `break` of its loop. -/
def modinv256With (leaves : Bool) (modulus : SignedModulus) (x : U256) : Option U256 := do
  let s ← (Inversion.start modulus x).batches modulus leaves 20 0
  let d ← normalize30 modulus s.d s.f.top
  some (fromS30 d)

/-- `modinv256`. -/
def modinv256 : SignedModulus → U256 → Option U256 := modinv256With true

/-- secp256k1's prime. -/
def secpModulus : SignedModulus := ⟨-0x3D1, -4, 0x2ddacacf⟩

/-- `2 ^ 256 - 36113`. -/
def f256Modulus : SignedModulus := ⟨-36113, 0, 0x0f6bfc0f⟩

/-! ### Into signed limbs and back -/

/-- Bits of one limb. -/
theorem limb_shiftRight_and (a : U256) {index shift : ℕ} (width : ℕ) (hindex : index < 4)
    (hfits : shift + width ≤ 64) (hshift : shift < 64) {mask : UInt64}
    (hmask : mask.toNat = 2 ^ width - 1) :
    (a.limb index >>> shift.toUInt64 &&& mask).toNat =
      a.toNat / 2 ^ (64 * index + shift) % 2 ^ width := by
  have hcount : shift.toUInt64.toNat % 64 = shift := by
    rw [Nat.toUInt64_eq, UInt64.toNat_ofNat']
    omega
  have hsplit : a.toNat / 2 ^ (64 * index + shift) =
      (a.limb index).toNat / 2 ^ shift +
        2 ^ width * (2 ^ (64 - shift - width) * Limbs.value (a.v.toList.drop (index + 1))) := by
    have hpow : 2 ^ 64 = 2 ^ shift * (2 ^ width * 2 ^ (64 - shift - width)) := by
      rw [← pow_add, ← pow_add]
      congr 1
      omega
    rw [pow_add, ← Nat.div_div_eq_div_mul, Limbs.toNat, Limbs.value_div, Limbs.value_drop a hindex,
      hpow, Nat.mul_assoc, Nat.add_mul_div_left _ _ (by positivity), Nat.mul_assoc]
  rw [hsplit, Nat.add_mul_mod_self_left, UInt64.toNat_and, hmask, Nat.and_two_pow_sub_one_eq_mod,
    UInt64.toNat_shiftRight, hcount, Nat.shiftRight_eq_div_pow]

/-- The nine limbs of a number are its digits in base `2 ^ 30`. -/
theorem toS30_eq (x : U256) :
    toS30 x = (List.range 9).map fun i ↦ ((x.toNat / 2 ^ (30 * i) % 2 ^ 30 : ℕ) : ℤ) := by
  unfold toS30
  refine List.map_congr_left fun i hmem ↦ ?_
  have hi : i < 9 := List.mem_range.mp hmem
  have hlimb : (30 * i) >>> 6 = 30 * i / 64 := Nat.shiftRight_eq_div_pow _ 6
  have hsh : 30 * i &&& 63 = 30 * i % 64 := Nat.and_two_pow_sub_one_eq_mod _ 6
  have hplace : 64 * (30 * i / 64) + 30 * i % 64 = 30 * i := Nat.div_add_mod _ _
  simp only [hlimb, hsh]
  congr 1
  by_cases hboth : 34 < 30 * i % 64 ∧ 30 * i / 64 + 1 < 4
  · have hsmall : i < 8 := by omega
    have hwindow := Limbs.window_and_mask x (by omega : 30 * i < 64 * 4) (by norm_num : 30 < 64)
      (by decide : m30.toNat = 2 ^ 30 - 1)
    rw [Limbs.window, hlimb, hsh, if_pos ⟨by omega, hboth.2⟩] at hwindow
    rw [if_pos hboth, if_pos hsmall]
    exact hwindow
  · rw [if_neg hboth]
    by_cases hsmall : i < 8
    · rw [if_pos hsmall, limb_shiftRight_and x 30 (by omega) (by omega) (by omega) (by decide),
        hplace]
    · obtain rfl : i = 8 := by omega
      have hlt : x.toNat / 2 ^ 240 < 2 ^ 16 := by
        have hx := x.toNat_lt
        rw [Nat.div_lt_iff_lt_mul (by positivity), ← pow_add]
        exact hx
      rw [if_neg hsmall, limb_shiftRight_and x 16 (by omega) (by omega) (by omega) (by decide),
        hplace,
        Nat.mod_eq_of_lt hlt, Nat.mod_eq_of_lt (hlt.trans (by norm_num))]

/-- Bits `or`ed into a limb that has none of them. -/
theorem orLimb_toNat {r : U256} {index : ℕ} (hindex : index < 4) {word : UInt64}
    (hdisjoint : (r.limb index ||| word).toNat = (r.limb index).toNat + word.toNat) :
    (orLimb r index word).toNat = r.toNat + 2 ^ (64 * index) * word.toNat := by
  have hlimb : ∀ i < 4, (orLimb r index word).limb i =
      if i = index then r.limb i ||| word else r.limb i := fun i hi ↦ Limbs.limb_ofFn _ hi
  rw [eq_mk256 (orLimb r index word), eq_mk256 r, toNat_mk256, toNat_mk256, ← eq_mk256 r,
    hlimb 0 (by norm_num), hlimb 1 (by norm_num), hlimb 2 (by norm_num), hlimb 3 (by norm_num)]
  interval_cases index
  · rw [if_pos rfl, hdisjoint]
    simp only [show ¬1 = 0 by norm_num, show ¬2 = 0 by norm_num, show ¬3 = 0 by norm_num, if_false]
    ring
  · rw [if_pos rfl, hdisjoint]
    simp only [show ¬0 = 1 by norm_num, show ¬2 = 1 by norm_num, show ¬3 = 1 by norm_num, if_false]
    ring
  · rw [if_pos rfl, hdisjoint]
    simp only [show ¬0 = 2 by norm_num, show ¬1 = 2 by norm_num, show ¬3 = 2 by norm_num, if_false]
    ring
  · rw [if_pos rfl, hdisjoint]
    simp only [show ¬0 = 3 by norm_num, show ¬1 = 3 by norm_num, show ¬2 = 3 by norm_num, if_false]
    ring

/-- A number below `2 ^ (64 * index + shift)` has less than `2 ^ shift` in that limb, and nothing in
the next. -/
theorem limbs_above {r : U256} {index shift : ℕ} (hindex : index < 4) (hshift : shift ≤ 64)
    (hr : r.toNat < 2 ^ (64 * index + shift)) :
    (r.limb index).toNat < 2 ^ shift ∧ (index + 1 < 4 → r.limb (index + 1) = 0) := by
  have hdrop : Limbs.value (r.v.toList.drop index) < 2 ^ shift := by
    rw [← Limbs.value_div, Nat.div_lt_iff_lt_mul (by positivity), ← pow_add, Nat.add_comm shift]
    exact hr
  rw [Limbs.value_drop r hindex] at hdrop
  have hpow : 2 ^ shift ≤ 2 ^ 64 := Nat.pow_le_pow_right (by norm_num) hshift
  refine ⟨by omega, fun hnext ↦ UInt64.toNat_inj.mp ?_⟩
  have hrest : Limbs.value (r.v.toList.drop (index + 1)) = 0 := by omega
  rw [Limbs.value_drop r hnext] at hrest
  show (r.limb (index + 1)).toNat = 0
  omega

/-- A limb of 30 bits above all that is there yet. It is spread over the limb of 64 bits it begins
in and the next one; the last limb has no next one, and the number ends in it. -/
theorem orS30_toNat {a : S30} {r : U256} {i : ℕ} (digit : ℕ) (hi : i < 9)
    (hdigit : a.getD i 0 = digit)
    (hsmall : digit < 2 ^ 30) (hr : r.toNat < 2 ^ (30 * i))
    (hfits : r.toNat + 2 ^ (30 * i) * digit < 2 ^ 256) :
    (orS30 a r i).toNat = r.toNat + 2 ^ (30 * i) * digit := by
  have hlimb : (30 * i) >>> 6 = 30 * i / 64 := Nat.shiftRight_eq_div_pow _ 6
  have hsh : 30 * i &&& 63 = 30 * i % 64 := Nat.and_two_pow_sub_one_eq_mod _ 6
  have hplace : 30 * i = 64 * (30 * i / 64) + 30 * i % 64 := (Nat.div_add_mod _ _).symm
  unfold orS30
  simp only [hlimb, hsh, hdigit]
  generalize hindexEq : 30 * i / 64 = index at *
  generalize hshiftEq : 30 * i % 64 = shift at *
  have hindex : index < 4 := by omega
  have hshift : shift < 64 := by omega
  rw [hplace] at hr hfits ⊢
  obtain ⟨hlow, hnone⟩ := limbs_above hindex hshift.le hr
  have hval : ((UInt32.ofInt (digit : ℤ)).toUInt64).toNat = digit := by
    have hword := toNat_ofInt (digit : ℤ)
    rw [UInt32.toNat_toUInt64]
    omega
  generalize (UInt32.ofInt (digit : ℤ)).toUInt64 = val at hval ⊢
  have hcount : shift.toUInt64.toNat % 64 = shift := by
    rw [Nat.toUInt64_eq, UInt64.toNat_ofNat']
    omega
  have hpow : 2 ^ 64 = 2 ^ shift * 2 ^ (64 - shift) := by
    rw [← pow_add, Nat.add_sub_cancel' hshift.le]
  have hleft : (val <<< shift.toUInt64).toNat = 2 ^ shift * (digit % 2 ^ (64 - shift)) := by
    rw [UInt64.toNat_shiftLeft, hcount, hval, Nat.shiftLeft_eq, Nat.mul_comm, hpow,
      Nat.mul_mod_mul_left]
  have hor : (r.limb index ||| val <<< shift.toUInt64).toNat =
      (r.limb index).toNat + (val <<< shift.toUInt64).toNat := by
    rw [UInt64.toNat_or, hleft, Nat.or_comm, ← Nat.two_pow_add_eq_or_of_lt hlow, Nat.add_comm]
  have hfirst := orLimb_toNat hindex hor
  by_cases hboth : 34 < shift ∧ index + 1 < 4
  · rw [if_pos hboth]
    have hzero : (orLimb r index (val <<< shift.toUInt64)).limb (index + 1) = 0 := by
      rw [orLimb, Limbs.limb_ofFn _ hboth.2, if_neg (by omega), hnone hboth.2]
    have hrest : (64 - shift).toUInt64.toNat % 64 = 64 - shift := by
      rw [Nat.toUInt64_eq, UInt64.toNat_ofNat']
      omega
    have hright : (val >>> (64 - shift).toUInt64).toNat = digit / 2 ^ (64 - shift) := by
      rw [UInt64.toNat_shiftRight, hrest, hval, Nat.shiftRight_eq_div_pow]
    rw [orLimb_toNat hboth.2 (by rw [hzero]; simp), hfirst, hleft, hright]
    have hnext : 2 ^ (64 * (index + 1)) = 2 ^ (64 * index) * (2 ^ shift * 2 ^ (64 - shift)) := by
      rw [← hpow, ← pow_add]
      rfl
    have hdivide := Nat.mod_add_div digit (2 ^ (64 - shift))
    rw [hnext, pow_add]
    calc r.toNat + 2 ^ (64 * index) * (2 ^ shift * (digit % 2 ^ (64 - shift))) +
          2 ^ (64 * index) * (2 ^ shift * 2 ^ (64 - shift)) * (digit / 2 ^ (64 - shift))
        = r.toNat + 2 ^ (64 * index) * 2 ^ shift *
            (digit % 2 ^ (64 - shift) + 2 ^ (64 - shift) * (digit / 2 ^ (64 - shift))) := by ring
      _ = r.toNat + 2 ^ (64 * index) * 2 ^ shift * digit := by rw [hdivide]
  · rw [if_neg hboth, hfirst, hleft]
    have hwhole : digit < 2 ^ (64 - shift) := by
      by_cases hlong : 34 < shift
      · have hlast : index = 3 := by omega
        rw [hlast] at hfits
        have hbound : 2 ^ (64 * 3 + shift) * digit < 2 ^ (64 * 3 + shift) * 2 ^ (64 - shift) := by
          rw [← pow_add, show 64 * 3 + shift + (64 - shift) = 256 by omega]
          exact (Nat.le_add_left _ _).trans_lt hfits
        exact lt_of_mul_lt_mul_left hbound (Nat.zero_le _)
      · exact hsmall.trans_le (Nat.pow_le_pow_right (by norm_num) (by omega))
    rw [Nat.mod_eq_of_lt hwhole, pow_add, Nat.mul_assoc]

/-- Back from limbs that are all in range. -/
theorem fromS30_toNat {a : S30} (hlength : a.length = 9)
    (hdigits : ∀ limb ∈ a, 0 ≤ limb ∧ limb < 2 ^ 30) {n : ℕ}
    (hvalue : SignedLimbs.value 30 a = n) (hn : n < 2 ^ 256) : (fromS30 a).toNat = n := by
  have hbounds : ∀ i < 9, 0 ≤ a.getD i 0 ∧ a.getD i 0 < 2 ^ 30 := by
    intro i hi
    rw [List.getD_eq_getElem _ _ (hlength.symm ▸ hi)]
    exact hdigits _ (List.getElem_mem _)
  let part (count : ℕ) : ℕ := ∑ i ∈ Finset.range count, 2 ^ (30 * i) * (a.getD i 0).toNat
  have hnext (count : ℕ) : part (count + 1) =
    part count + 2 ^ (30 * count) * (a.getD count 0).toNat :=
    Finset.sum_range_succ _ _
  have htake : ∀ count ≤ 9, SignedLimbs.value 30 (a.take count) = part count := by
    intro count hcount
    induction count with
    | zero => rfl
    | succ count ih =>
      have hlt : count < a.length := by omega
      have hlast : ∀ limb : ℤ, SignedLimbs.value 30 [limb] = limb := fun limb ↦ by
        simp [SignedLimbs.value]
      rw [List.take_succ_eq_append_getElem hlt, SignedLimbs.value_append, ih (by omega),
        List.length_take, Nat.min_eq_left hlt.le, hlast, hnext, ← List.getD_eq_getElem _ 0 hlt]
      push_cast
      rw [Int.toNat_of_nonneg (hbounds count (by omega)).1]
  have hwhole : part 9 = n := by
    have hall := htake 9 le_rfl
    rw [List.take_of_length_le hlength.le, hvalue] at hall
    exact_mod_cast hall.symm
  have hmono : ∀ count ≤ 9, part count ≤ n := by
    intro count hcount
    rw [← hwhole]
    exact Finset.sum_le_sum_of_subset (Finset.range_mono hcount)
  have hfold : ∀ count ≤ 9,
    ((List.range count).foldl (orS30 a) (mk256 0 0 0 0)).toNat = part count ∧
      part count < 2 ^ (30 * count) := by
    intro count hcount
    induction count with
    | zero =>
      refine ⟨?_, by simp [part]⟩
      show (mk256 0 0 0 0).toNat = 0
      rw [toNat_mk256]
      rfl
    | succ count ih =>
      obtain ⟨hfold, hsmall⟩ := ih (by omega)
      obtain ⟨hpos, hlt⟩ := hbounds count (by omega)
      have hfits : part (count + 1) < 2 ^ 256 := (hmono _ hcount).trans_lt hn
      rw [hnext] at hfits
      rw [List.range_succ, List.foldl_append, List.foldl_cons, List.foldl_nil,
        orS30_toNat (a.getD count 0).toNat (by omega) (by omega) (by omega)
          (by rwa [hfold]) (by rwa [hfold]), hfold, hnext]
      refine ⟨rfl, ?_⟩
      have hdigit : (a.getD count 0).toNat + 1 ≤ 2 ^ 30 := by omega
      calc part count + 2 ^ (30 * count) * (a.getD count 0).toNat
          < 2 ^ (30 * count) + 2 ^ (30 * count) * (a.getD count 0).toNat := by omega
        _ = 2 ^ (30 * count) * ((a.getD count 0).toNat + 1) := by ring
        _ ≤ 2 ^ (30 * count) * 2 ^ 30 := Nat.mul_le_mul_left _ hdigit
        _ = 2 ^ (30 * (count + 1)) := by rw [← pow_add, Nat.mul_succ]
  rw [fromS30, (hfold 9 le_rfl).1, hwhole]

end Bc3Miner.Kernel
