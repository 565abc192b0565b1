import Bc3Miner.Foundations.LocalArray
import Bc3Miner.Kernel.ModInverse

/-!
# The rows of the inversion

What one row of `update_de_30` and `update_fg_30`, and `normalize_30`, make of numbers whose limbs
have at most 30 bits and a sign: each has an outcome, so no sum or limb overflows, and the outcome
is the number it should be, with limbs of the same kind.

A row of a matrix that sums to at most `2 ^ 30` keeps every column below `2 ^ 61` and every carry
below `2 ^ 31`, whatever the numbers are (`updateRow_eq`).

The bound of a row is the only thing the updates ask of the matrix, and it is what the divsteps
guarantee of 30 steps (`transition_rowsLe`). `normalize30_spec` is the last step, from a number in
range with either sign to the canonical one.
-/

set_option autoImplicit false
set_option relaxedAutoImplicit false

namespace Bc3Miner.Kernel

open Foundations SignedLimbs

/-! ### Numbers in limbs -/

/-- Nine limbs of at most 30 bits and a sign, the last one's that of the number. -/
structure S30.Holds (r : S30) (n : ℤ) : Prop where
  length : r.length = 9
  limb : ∀ limb ∈ r, |limb| ≤ 2 ^ 30
  value : SignedLimbs.value 30 r = n
  sign : r.top < 0 ↔ n < 0

/-- The limbs below the last, and the last. -/
theorem eq_append_top {r : S30} (hlength : r.length = 9) :
    ∃ low, low.length = 8 ∧ r = low ++ [r.top] := by
  refine ⟨r.take 8, by rw [List.length_take, hlength]; rfl, ?_⟩
  have htop : r.top = r[8] := List.getD_eq_getElem _ _ _
  rw [htop, ← List.take_succ_eq_append_getElem, List.take_of_length_le hlength.le]

/-- Limbs with a carry already done hold any number that is not too large. -/
theorem Normal.holds {r : S30} (hnormal : Normal 30 r) (hlength : r.length = 9) {n : ℤ}
    (hvalue : SignedLimbs.value 30 r = n) (hn : |n| < 4 * 2 ^ 256) : r.Holds n := by
  obtain ⟨low, hlow, hsplit⟩ := eq_append_top hlength
  rw [hsplit] at hnormal hvalue
  have htop := hnormal.top_eq
  have hsign := hnormal.top_neg_iff
  rw [hvalue, hlow] at htop
  rw [hvalue] at hsign
  refine ⟨hlength, ?_, by rw [hsplit, hvalue], hsign⟩
  intro limb hmem
  rw [hsplit, List.mem_append, List.mem_singleton] at hmem
  rcases hmem with hmem | rfl
  · obtain ⟨hpos, hlt⟩ := hnormal.limb_bounds limb hmem
    rw [abs_of_nonneg hpos]
    exact hlt.le
  · rw [htop, abs_le]
    rw [abs_lt] at hn
    constructor <;> omega

theorem mlimbs_eq (M0 M1 : ℤ) : mlimbs M0 M1 = [M0, M1, 0, 0, 0, 0, 0, 0, 65536] := rfl

/-! ### A row -/

/-- The columns of a row. -/
def columns (a b m : ℤ) : S30 → S30 → List ℤ → List ℤ
  | x :: xs, y :: ys, limb :: limbs => (a * x + b * y + limb * m) :: columns a b m xs ys limbs
  | _, _, _ => []

/-- There is a column for every limb. -/
theorem length_columns {a b m : ℤ} {xs ys limbs : List ℤ} (hys : ys.length = xs.length)
    (hlimbs : limbs.length = xs.length) : (columns a b m xs ys limbs).length = xs.length := by
  induction xs generalizing ys limbs with
  | nil => rfl
  | cons x xs ih =>
    rcases ys with _ | ⟨y, ys⟩
    · cases hys
    rcases limbs with _ | ⟨limb, limbs⟩
    · cases hlimbs
    rw [columns, List.length_cons, ih (Nat.succ.inj hys) (Nat.succ.inj hlimbs), List.length_cons]

/-- The columns stand for the row of the matrix applied to the numbers, plus the multiple of the
modulus. -/
theorem value_columns {a b m : ℤ} {xs ys limbs : List ℤ} (hys : ys.length = xs.length)
    (hlimbs : limbs.length = xs.length) :
    value 30 (columns a b m xs ys limbs) =
      a * value 30 xs + b * value 30 ys + m * value 30 limbs := by
  induction xs generalizing ys limbs with
  | nil =>
    obtain rfl := List.length_eq_zero_iff.mp hys
    obtain rfl := List.length_eq_zero_iff.mp hlimbs
    simp [columns, value]
  | cons x xs ih =>
    rcases ys with _ | ⟨y, ys⟩
    · cases hys
    rcases limbs with _ | ⟨limb, limbs⟩
    · cases hlimbs
    rw [columns, value, value, value, value, ih (Nat.succ.inj hys) (Nat.succ.inj hlimbs)]
    ring

/-- Two products of a row. -/
theorem abs_row_le {a b x y bound : ℤ} (hrow : |a| + |b| ≤ 2 ^ 30) (hx : |x| ≤ bound)
    (hy : |y| ≤ bound) : |a * x + b * y| ≤ 2 ^ 30 * bound := by
  have hbound : 0 ≤ bound := (abs_nonneg x).trans hx
  calc |a * x + b * y| ≤ |a * x| + |b * y| := abs_add_le _ _
    _ = |a| * |x| + |b| * |y| := by rw [abs_mul, abs_mul]
    _ ≤ |a| * bound + |b| * bound := by gcongr
    _ = (|a| + |b|) * bound := by ring
    _ ≤ 2 ^ 30 * bound := mul_le_mul_of_nonneg_right hrow hbound

/-- A column of a row that sums to at most `2 ^ 30` stays inside 64 bits, for limbs of 30 bits and a
sign. -/
theorem column_eq {a b x y : ℤ} (hrow : |a| + |b| ≤ 2 ^ 30) (hx : |x| ≤ 2 ^ 30)
    (hy : |y| ≤ 2 ^ 30) : column a b x y = some (a * x + b * y) := by
  have hzero : |(0 : ℤ)| ≤ 2 ^ 30 := by norm_num
  have hleft := abs_row_le hrow hx hzero
  have hright := abs_row_le hrow hzero hy
  have hsum := abs_row_le hrow hx hy
  rw [mul_zero, add_zero] at hleft
  rw [mul_zero, zero_add] at hright
  unfold column i64
  simp only [Option.bind_eq_bind]
  rw [checked_of_abs_lt (hleft.trans_lt (by norm_num)), Option.bind_some,
    checked_of_abs_lt (hright.trans_lt (by norm_num)), Option.bind_some,
    checked_of_abs_lt (hsum.trans_lt (by norm_num))]

/-- Adding a multiple of a limb of the modulus stays inside 64 bits. -/
theorem addMultiple_eq {m limb c : ℤ} (hm : |m| ≤ 2 ^ 31) (hlimb : |limb| ≤ 2 ^ 16)
    (hc : |c| ≤ 2 ^ 61) : addMultiple m limb c = some (c + limb * m) := by
  have hproduct : |limb * m| ≤ 2 ^ 47 := by
    rw [abs_mul]
    calc |limb| * |m| ≤ 2 ^ 16 * 2 ^ 31 := by gcongr
      _ = 2 ^ 47 := by norm_num
  have hsum := abs_add_le c (limb * m)
  unfold addMultiple i64
  split_ifs with hnonzero
  · rw [checked_of_abs_lt (hproduct.trans_lt (by norm_num)), Option.bind_eq_bind, Option.bind_some,
      checked_of_abs_lt (by omega)]
  · rw [not_not.mp hnonzero, zero_mul, add_zero]

/-- Let a row of the matrix sum to at most `2 ^ 30`, the limbs of both numbers have 30 bits and a
sign, those of the modulus 16 bits, and the carry 31. Then the columns of the row have an outcome,
so nothing overflows, and it is what the carry makes of them. -/
theorem updateRow_eq {a b m : ℤ} (hrow : |a| + |b| ≤ 2 ^ 30) (hm : |m| ≤ 2 ^ 31)
    {xs ys limbs : List ℤ} (hxs : ∀ x ∈ xs, |x| ≤ 2 ^ 30) (hys : ∀ y ∈ ys, |y| ≤ 2 ^ 30)
    (hlimbs : ∀ limb ∈ limbs, |limb| ≤ 2 ^ 16) {carry : ℤ} (hcarry : |carry| < 2 ^ 31) :
    updateRow a b m xs ys limbs carry =
      some (settle 30 0 (columns a b m xs ys limbs) carry) := by
  induction xs, ys, limbs, carry using updateRow.induct with
  | case1 x xs y ys limb limbs carry ih =>
    have hcolumn := column_eq hrow (hxs x List.mem_cons_self) (hys y List.mem_cons_self)
    have hproducts := abs_row_le hrow (hxs x List.mem_cons_self) (hys y List.mem_cons_self)
    have hlimb := hlimbs limb List.mem_cons_self
    have hmultiple : |limb * m| ≤ 2 ^ 47 := by
      rw [abs_mul]
      calc |limb| * |m| ≤ 2 ^ 16 * 2 ^ 31 := by gcongr
        _ = 2 ^ 47 := by norm_num
    have hsum := abs_add_le carry (a * x + b * y)
    have htotal := abs_add_le (carry + (a * x + b * y)) (limb * m)
    have hnext : |(carry + (a * x + b * y) + limb * m) >>> (30 : ℕ)| < 2 ^ 31 := by
      rw [Int.shiftRight_eq_div_pow, abs_lt]
      rw [abs_le] at htotal
      constructor <;> omega
    have hrest := ih (carry + (a * x + b * y) + limb * m)
      (fun x hmem ↦ hxs x (List.mem_cons_of_mem _ hmem))
      (fun y hmem ↦ hys y (List.mem_cons_of_mem _ hmem))
      (fun limb hmem ↦ hlimbs limb (List.mem_cons_of_mem _ hmem)) hnext
    have hassoc : carry + (a * x + b * y) + limb * m = carry + (a * x + b * y + limb * m) :=
      add_assoc _ _ _
    unfold updateRow i64
    simp only [Option.bind_eq_bind]
    rw [hcolumn, Option.bind_some, checked_of_abs_lt (by omega), Option.bind_some,
      addMultiple_eq hm hlimb (by omega), Option.bind_some, hrest, Option.bind_some,
      columns, settle,
      hassoc, Int.shiftRight_eq_div_pow]
    rfl
  | case2 xs ys limbs carry hnone =>
    have hempty : columns a b m xs ys limbs = [] := by
      unfold columns
      split
      · exact absurd rfl (hnone _ _ _ _ _ _ rfl rfl)
      · rfl
    have hlast : updateRow a b m xs ys limbs carry = (i32 carry).bind fun last ↦ some [last] := by
      unfold updateRow
      split
      · exact absurd rfl (hnone _ _ _ _ _ _ rfl rfl)
      · rfl
    rw [hlast, hempty, i32, checked_of_abs_lt hcarry, Option.bind_some, settle, add_zero]

/-! ### The numbers after a row -/

/-- The first limb, and what there is above it. -/
theorem S30.Holds.split {r : S30} {n : ℤ} (hr : r.Holds n) :
    |r.getD 0 0| ≤ 2 ^ 30 ∧ (∀ limb ∈ r.tail, |limb| ≤ 2 ^ 30) ∧ r.tail.length = 8 ∧
      r.getD 0 0 + 2 ^ 30 * SignedLimbs.value 30 r.tail = n := by
  obtain ⟨hlength, hlimb, hvalue, -⟩ := hr
  rcases r with _ | ⟨first, rest⟩
  · cases hlength
  · exact ⟨hlimb first List.mem_cons_self, fun limb hmem ↦ hlimb limb (List.mem_cons_of_mem _ hmem),
      Nat.succ.inj hlength, hvalue⟩

/-- A row of the matrix, applied to two numbers with a multiple of the modulus added, has the
quotient by `2 ^ 30` as its outcome if the sum is such a multiple, in nine limbs of 30 bits and a
sign. -/
theorem row_holds {a b D E n : ℤ} (k first : ℤ) {d e limbs : S30} (hrow : |a| + |b| ≤ 2 ^ 30)
    (hd : d.Holds D) (he : e.Holds E) (hk : |k| ≤ 2 ^ 31) (hfirst : |first| ≤ 2 ^ 16)
    (hlimbs : ∀ limb ∈ limbs, |limb| ≤ 2 ^ 16) (hlength : limbs.length = 8)
    (htotal : a * D + b * E + k * (first + 2 ^ 30 * SignedLimbs.value 30 limbs) = 2 ^ 30 * n)
    (hn : |n| < 4 * 2 ^ 256) :
    ∃ next, updateRow a b k d.tail e.tail limbs
      ((a * d.getD 0 0 + b * e.getD 0 0 + first * k) >>> (30 : ℕ)) = some next ∧ next.Holds n := by
  obtain ⟨hd0, hdtail, hdlength, hdvalue⟩ := hd.split
  obtain ⟨he0, hetail, helength, hevalue⟩ := he.split
  have hproducts := abs_row_le hrow hd0 he0
  have hmultiple : |first * k| ≤ 2 ^ 47 := by
    rw [abs_mul]
    calc |first| * |k| ≤ 2 ^ 16 * 2 ^ 31 := by gcongr
      _ = 2 ^ 47 := by norm_num
  have hsum := abs_add_le (a * d.getD 0 0 + b * e.getD 0 0) (first * k)
  have hcolumns : a * d.getD 0 0 + b * e.getD 0 0 + first * k = 2 ^ 30 * (n -
      (a * SignedLimbs.value 30 d.tail + b * SignedLimbs.value 30 e.tail +
        k * SignedLimbs.value 30 limbs)) := by
    rw [← hdvalue, ← hevalue] at htotal
    linear_combination htotal
  have hcarry : (a * d.getD 0 0 + b * e.getD 0 0 + first * k) >>> (30 : ℕ) = n -
      (a * SignedLimbs.value 30 d.tail + b * SignedLimbs.value 30 e.tail +
        k * SignedLimbs.value 30 limbs) := by
    rw [hcolumns, Int.shiftRight_eq_div_pow]
    exact Int.mul_ediv_cancel_left _ (by norm_num)
  have hbound : |(a * d.getD 0 0 + b * e.getD 0 0 + first * k) >>> (30 : ℕ)| < 2 ^ 31 := by
    rw [Int.shiftRight_eq_div_pow, abs_lt]
    rw [abs_le] at hsum
    constructor <;> omega
  have hlengths : limbs.length = d.tail.length := hlength.trans hdlength.symm
  have hlengths' : e.tail.length = d.tail.length := helength.trans hdlength.symm
  refine ⟨_, updateRow_eq hrow hk hdtail hetail hlimbs hbound,
    Normal.holds (normal_settle _ _ _) ?_ ?_ hn⟩
  · rw [length_settle, length_columns hlengths' hlengths, hdlength]
  · rw [settle_value, value_columns hlengths' hlengths, hcarry]
    ring

/-- `(a * f + b * g) / 2 ^ 30`, where that is whole. -/
theorem fgRow_holds {a b F G n : ℤ} {f g : S30} (hrow : |a| + |b| ≤ 2 ^ 30) (hf : f.Holds F)
    (hg : g.Holds G) (hexact : a * F + b * G = 2 ^ 30 * n) (hn : |n| < 4 * 2 ^ 256) :
    ∃ next, fgRow a b f g = some next ∧ next.Holds n := by
  have hzeros : ∀ limb ∈ List.replicate 8 (0 : ℤ), |limb| ≤ 2 ^ 16 := by
    intro limb hmem
    rw [List.eq_of_mem_replicate hmem]
    norm_num
  obtain ⟨next, hnext, hholds⟩ := row_holds 0 0 hrow hf hg (by norm_num) (by norm_num) hzeros
    List.length_replicate (by rw [zero_mul, add_zero, hexact]) hn
  refine ⟨next, ?_, hholds⟩
  rw [zero_mul, add_zero] at hnext
  rw [fgRow, column_eq hrow hf.split.1 hg.split.1]
  exact hnext

/-! ### The modulus -/

/-- The limbs are those of an odd number, and the inverse is its own. -/
structure SignedModulus.IsOf (modulus : SignedModulus) (m : ℤ) : Prop where
  M0 : |modulus.M0| ≤ 2 ^ 16
  M1 : |modulus.M1| ≤ 2 ^ 16
  value : SignedLimbs.value 30 (mlimbs modulus.M0 modulus.M1) = m
  inverse : modulus.inv30.toNat * m ≡ 1 [ZMOD 2 ^ 30]
  low : 2 ^ 255 < m
  high : m < 2 ^ 256

/-- The correction is `m` less a residue, and makes the bottom of the column vanish. -/
theorem correction_spec {modulus : SignedModulus} {m : ℤ} (c : ℤ) (hm : |m| ≤ 2 ^ 30)
    (hinverse : modulus.inv30.toNat * modulus.M0 ≡ 1 [ZMOD 2 ^ 30]) :
    ∃ residue, 0 ≤ residue ∧ residue < 2 ^ 30 ∧ correction modulus.inv30 m c = m - residue ∧
      c + modulus.M0 * (m - residue) ≡ 0 [ZMOD 2 ^ 30] := by
  set word := modulus.inv30 * UInt32.ofInt c + UInt32.ofInt m with hword
  have hmod : (word.toNat : ℤ) ≡ modulus.inv30.toNat * c + m [ZMOD 2 ^ 32] := by
    have hproduct : ((modulus.inv30 * UInt32.ofInt c).toNat : ℤ) ≡
        modulus.inv30.toNat * c [ZMOD 2 ^ 32] := by
      rw [UInt32.toNat_mul]
      push_cast
      rw [toNat_ofInt]
      exact (Int.mod_modEq _ _).trans ((Int.mod_modEq _ _).mul_left _)
    have hm' : ((UInt32.ofInt m).toNat : ℤ) ≡ m [ZMOD 2 ^ 32] := by
      rw [toNat_ofInt]
      exact Int.mod_modEq _ _
    exact (toNat_add_modEq _ _).trans (hproduct.add hm')
  have hmask : ((word &&& 0x3FFFFFFF).toNat : ℤ) = word.toNat % 2 ^ 30 := by
    have hand : (word &&& 0x3FFFFFFF).toNat = word.toNat % 2 ^ 30 := by
      rw [UInt32.toNat_and]
      exact Nat.and_two_pow_sub_one_eq_mod _ 30
    rw [hand]
    rfl
  have hpos : (0 : ℤ) ≤ word.toNat % 2 ^ 30 := Int.emod_nonneg _ (by norm_num)
  have hlt : (word.toNat : ℤ) % 2 ^ 30 < 2 ^ 30 := Int.emod_lt_of_pos _ (by norm_num)
  rw [abs_le] at hm
  refine ⟨word.toNat % 2 ^ 30, hpos, hlt, ?_, ?_⟩
  · unfold correction
    refine toInt_toInt32 ((toNat_sub_modEq _ _).trans ?_) (by omega) (by omega)
    rw [hmask, toNat_ofInt]
    exact (Int.mod_modEq _ _).sub_right _
  · have hresidue : (word.toNat : ℤ) % 2 ^ 30 ≡ modulus.inv30.toNat * c + m [ZMOD 2 ^ 30] :=
      (Int.mod_modEq _ _).trans (hmod.of_dvd (by norm_num))
    have hscaled := (hresidue.sub_left m).mul_left modulus.M0
    have hcancel := hinverse.mul_right c
    have hsum := (hscaled.add_left c)
    refine hsum.trans ?_
    have hvalue : c + modulus.M0 * (m - (modulus.inv30.toNat * c + m)) =
        c - modulus.inv30.toNat * modulus.M0 * c := by ring
    rw [hvalue]
    have hzero := hcancel.sub_left c
    rwa [one_mul, sub_self] at hzero

/-- A number above `-2 * m` and below `m`, with `m` added if it is negative. -/
theorem abs_add_sign_lt {D m : ℤ} (hlow : -2 * m < D) (hhigh : D < m) :
    |D + if D < 0 then m else 0| ≤ m - 1 := by
  rw [abs_le]
  split_ifs <;> constructor <;> omega

/-- `(a * d + b * e) / 2 ^ 30` modulo the modulus, in range again. The modulus is added for each of
the two that is negative, so that their signs do not matter to the correction. -/
theorem deRow_holds {modulus : SignedModulus} {m : ℤ} (hmodulus : modulus.IsOf m) {a b D E : ℤ}
    {d e : S30} (hrow : |a| + |b| ≤ 2 ^ 30) (hd : d.Holds D) (he : e.Holds E)
    (hD : -2 * m < D ∧ D < m) (hE : -2 * m < E ∧ E < m) :
    ∃ next n, deRow modulus a b d e = some next ∧ next.Holds n ∧ (-2 * m < n ∧ n < m) ∧
      2 ^ 30 * n ≡ a * D + b * E [ZMOD m] := by
  obtain ⟨hM0, hM1, hvalue, hinverse, hlow, hhigh⟩ := hmodulus
  have hlimbs : modulus.M0 + 2 ^ 30 * SignedLimbs.value 30
    (mlimbs modulus.M0 modulus.M1).tail = m :=
    hvalue
  have hinverse' : modulus.inv30.toNat * modulus.M0 ≡ 1 [ZMOD 2 ^ 30] := by
    refine Int.ModEq.trans ?_ hinverse
    rw [← hlimbs, mul_add]
    refine Int.modEq_iff_dvd.mpr ⟨modulus.inv30.toNat *
      SignedLimbs.value 30 (mlimbs modulus.M0 modulus.M1).tail, by ring⟩
  set signs : ℤ := (if D < 0 then a else 0) + if E < 0 then b else 0 with hsigns
  have hsmall : |signs| ≤ 2 ^ 30 := by
    have ha := abs_nonneg a
    have hb := abs_nonneg b
    rw [hsigns]
    split_ifs
    · exact (abs_add_le a b).trans hrow
    · rw [add_zero]; omega
    · rw [zero_add]; omega
    · rw [add_zero, abs_zero]; norm_num
  obtain ⟨residue, hpos, hlt, hcorrection, hzero⟩ :=
    correction_spec (a * d.getD 0 0 + b * e.getD 0 0) hsmall hinverse'
  have hk : |signs - residue| ≤ 2 ^ 31 := by
    rw [abs_le] at hsmall ⊢
    constructor <;> omega
  obtain ⟨hd0, -, -, hdvalue⟩ := hd.split
  obtain ⟨he0, -, -, hevalue⟩ := he.split
  obtain ⟨n, hn⟩ : ∃ n, a * D + b * E + (signs - residue) * m = 2 ^ 30 * n := by
    obtain ⟨part, hpart⟩ := Int.modEq_zero_iff_dvd.mp hzero
    refine ⟨part + a * SignedLimbs.value 30 d.tail + b * SignedLimbs.value 30 e.tail +
      (signs - residue) * SignedLimbs.value 30 (mlimbs modulus.M0 modulus.M1).tail, ?_⟩
    rw [← hdvalue, ← hevalue, ← hlimbs]
    linear_combination hpart
  have hrange : -2 * m < n ∧ n < m := by
    have hsum := abs_row_le hrow (abs_add_sign_lt hD.1 hD.2) (abs_add_sign_lt hE.1 hE.2)
    have hsplit : a * (D + if D < 0 then m else 0) + b * (E + if E < 0 then m else 0) =
        a * D + b * E + signs * m := by
      rw [hsigns]
      split_ifs <;> ring
    have htaken : 0 ≤ residue * m := mul_nonneg hpos (by linarith)
    have htaken' : residue * m ≤ (2 ^ 30 - 1) * m :=
      mul_le_mul_of_nonneg_right (by omega) (by linarith)
    rw [hsplit, abs_le] at hsum
    rw [sub_mul] at hn
    constructor <;> linarith
  have hn' : |n| < 4 * 2 ^ 256 := by
    rw [abs_lt]
    obtain ⟨hgt, hle⟩ := hrange
    constructor <;> linarith
  have htop : ∀ limb ∈ (mlimbs modulus.M0 modulus.M1).tail, |limb| ≤ 2 ^ 16 := by
    intro limb hmem
    simp only [mlimbs_eq, List.tail_cons, List.mem_cons, List.not_mem_nil, or_false] at hmem
    rcases hmem with rfl | rfl | rfl | rfl | rfl | rfl | rfl | rfl
    · exact hM1
    all_goals norm_num
  obtain ⟨next, hnext, hholds⟩ := row_holds (signs - residue) modulus.M0 hrow hd he hk hM0 htop rfl
    (by rw [hlimbs, hn]) hn'
  refine ⟨next, n, ?_, hholds, hrange, ?_⟩
  · have hproducts := abs_row_le hrow hd0 he0
    unfold deRow i32
    simp only [Option.bind_eq_bind, hd.sign, he.sign]
    rw [← hsigns, checked_of_abs_lt (hsmall.trans_lt (by norm_num)), Option.bind_some,
      column_eq hrow hd0 he0, Option.bind_some, hcorrection,
      addMultiple_eq hk hM0 (hproducts.trans (by norm_num)), Option.bind_some, hnext]
  · rw [← hn]
    refine Int.modEq_iff_dvd.mpr ⟨-(signs - residue), by ring⟩

/-! ### The outcome in range -/

theorem i32_eq {x : ℤ} (hx : |x| < 2 ^ 31) : i32 x = some x := checked_of_abs_lt hx

/-- Limbs that all fit. -/
theorem mapM_i32 {limbs : List ℤ} (hlimbs : ∀ limb ∈ limbs, |limb| < 2 ^ 31) :
    limbs.mapM i32 = some limbs := by
  have hmap := mapM_eq_some fun limb hmem ↦ i32_eq (hlimbs limb hmem)
  rwa [List.map_id'] at hmap

/-- Nine limbs with room for a carry. -/
structure S30.Roomy (r : S30) (n : ℤ) : Prop where
  length : r.length = 9
  limb : ∀ limb ∈ r, |limb| ≤ 2 ^ 30 + 2 ^ 16
  value : SignedLimbs.value 30 r = n

/-- The modulus is added where the number is negative. -/
theorem condAdd_roomy {modulus : SignedModulus} {m n : ℤ} (hmodulus : modulus.IsOf m) {r : S30}
    (hr : r.Holds n) :
    ∃ next, condAdd modulus r = some next ∧ next.Roomy (n + if n < 0 then m else 0) := by
  obtain ⟨hM0, hM1, hvalue, -, -, -⟩ := hmodulus
  have hmlimbs : ∀ limb ∈ mlimbs modulus.M0 modulus.M1, |limb| ≤ 2 ^ 16 := by
    intro limb hmem
    simp only [mlimbs_eq, List.mem_cons, List.not_mem_nil, or_false] at hmem
    rcases hmem with rfl | rfl | rfl | rfl | rfl | rfl | rfl | rfl | rfl
    · exact hM0
    · exact hM1
    all_goals norm_num
  set added := (mlimbs modulus.M0 modulus.M1).map fun m ↦ if r.top < 0 then m else 0 with hadded
  have hsmall : ∀ limb ∈ added, |limb| ≤ 2 ^ 16 := by
    intro limb hmem
    obtain ⟨old, hold, rfl⟩ := List.mem_map.mp hmem
    split_ifs
    · exact hmlimbs old hold
    · norm_num
  have hvalue' : SignedLimbs.value 30 added = if n < 0 then m else 0 := by
    rw [hadded]
    by_cases hneg : r.top < 0
    · simp only [if_pos hneg, if_pos (hr.sign.mp hneg), List.map_id']
      exact hvalue
    · simp only [if_neg hneg, if_neg (hr.sign.not.mp hneg)]
      rfl
  have hlengths : r.length = added.length := hr.length
  have hsums : condAdd modulus r = (List.zipWith (· + ·) r added).mapM i32 := by
    rw [hadded, List.zipWith_map_right]
    rfl
  have hlimbs : ∀ limb ∈ List.zipWith (· + ·) r added, |limb| ≤ 2 ^ 30 + 2 ^ 16 := by
    intro limb hmem
    rw [← List.map_uncurry_zip_eq_zipWith] at hmem
    obtain ⟨⟨x, y⟩, hpair, rfl⟩ := List.mem_map.mp hmem
    exact (abs_add_le x y).trans
      (add_le_add (hr.limb x (List.of_mem_zip hpair).1) (hsmall y (List.of_mem_zip hpair).2))
  refine ⟨_, hsums.trans (mapM_i32 fun limb hmem ↦ (hlimbs limb hmem).trans_lt (by norm_num)), ?_,
    hlimbs, ?_⟩
  · rw [List.length_zipWith, ← hlengths, hr.length]
    rfl
  · rw [SignedLimbs.value_zipWith_add hlengths, hr.value, hvalue']

/-- The number is negated where the sign is. -/
theorem condNegate_roomy (sign : ℤ) {n : ℤ} {r : S30} (hr : r.Roomy n) :
    ∃ next, condNegate sign r = some next ∧ next.Roomy (if sign < 0 then -n else n) := by
  obtain ⟨hlength, hlimbs, hvalue⟩ := hr
  have hminus : ∀ limb : ℤ, ~~~limb - -1 = -limb := by
    intro limb
    rcases limb with count | count
    · show Int.negSucc count - -1 = -(count : ℤ)
      rw [Int.negSucc_eq]
      ring
    · show (count : ℤ) - -1 = -Int.negSucc count
      rw [Int.neg_negSucc]
      push_cast
      ring
  have heach : ∀ limb : ℤ, ((if sign < 0 then ~~~limb else limb) - if sign < 0 then -1 else 0) =
      if sign < 0 then -limb else limb := by
    intro limb
    split_ifs
    · exact hminus limb
    · exact sub_zero limb
  have hsame : ∀ limb : ℤ, |if sign < 0 then -limb else limb| = |limb| := by
    intro limb
    split_ifs
    · exact abs_neg limb
    · rfl
  have hroom : ∀ limb ∈ r.map fun limb ↦ if sign < 0 then -limb else limb,
      |limb| ≤ 2 ^ 30 + 2 ^ 16 := by
    intro limb hmem
    obtain ⟨old, hold, rfl⟩ := List.mem_map.mp hmem
    rw [hsame]
    exact hlimbs old hold
  have hnegated : condNegate sign r =
    (r.map fun limb ↦ if sign < 0 then -limb else limb).mapM i32 := by
    rw [List.mapM_map, condNegate]
    simp only [heach, Function.comp_def]
  refine ⟨_, hnegated.trans (mapM_i32 fun limb hmem ↦ (hroom limb hmem).trans_lt (by norm_num)), ?_,
    hroom, ?_⟩
  · rw [List.length_map, hlength]
  · split_ifs
    · rw [SignedLimbs.value_map_neg, hvalue]
    · rw [List.map_id', hvalue]

theorem shiftRight_thirty (x : ℤ) : x >>> (30 : ℕ) = x / 2 ^ 30 := by
  rw [Int.shiftRight_eq_div_pow]
  rfl

/-- The carries of `normalize_30` fit, and make what a carry through all limbs makes. -/
theorem carryFrom_eq {limbs : List ℤ} (hlimbs : ∀ limb ∈ limbs, |limb| ≤ 2 ^ 30 + 2 ^ 16)
    {top : ℤ} (htop : |top| ≤ 2 ^ 30 + 2 ^ 16) {limb carry : ℤ} (hlimb : |limb| ≤ 2 ^ 30 + 2 ^ 16)
    (hcarry : |carry| ≤ 2) :
    carryFrom (carry + limb) (limbs ++ [top]) = some (settle 30 top (limb :: limbs) carry) := by
  have hnext : |(carry + limb) / 2 ^ 30| ≤ 2 := by
    rw [abs_le] at *
    constructor <;> omega
  induction limbs generalizing limb carry with
  | nil =>
    have hfits : |top + (carry + limb) / 2 ^ 30| < 2 ^ 31 := by
      have hsum := abs_add_le top ((carry + limb) / 2 ^ 30)
      omega
    rw [List.nil_append, carryFrom, shiftRight_thirty, i32_eq hfits, settle, settle, add_comm top]
    rfl
  | cons next limbs ih =>
    have hnextLimb := hlimbs next List.mem_cons_self
    have hfits : |next + (carry + limb) / 2 ^ 30| < 2 ^ 31 := by
      have hsum := abs_add_le next ((carry + limb) / 2 ^ 30)
      omega
    have hagain : |((carry + limb) / 2 ^ 30 + next) / 2 ^ 30| ≤ 2 := by
      rw [abs_le] at *
      constructor <;> omega
    have hrest := ih (fun limb hmem ↦ hlimbs limb (List.mem_cons_of_mem _ hmem))
      hnextLimb hnext hagain
    rw [List.cons_append, carryFrom, shiftRight_thirty, i32_eq hfits, Option.bind_eq_bind,
      Option.bind_some, add_comm next, hrest, settle]
    rfl

/-- Carrying up limbs that have room overflows nowhere, and leaves normal limbs of the same number.
-/
theorem carryUp_spec {r : S30} {n : ℤ} (hr : r.Roomy n) :
    ∃ next, carryUp r = some next ∧ next.length = 9 ∧ Normal 30 next ∧
      SignedLimbs.value 30 next = n := by
  obtain ⟨hlength, hlimbs, hvalue⟩ := hr
  obtain ⟨low, hlow, hsplit⟩ := eq_append_top hlength
  rcases low with _ | ⟨first, low⟩
  · cases hlow
  rw [hsplit] at hlimbs hvalue
  have hcarry : carryFrom (0 + first) (low ++ [r.top]) = some (settle 30 r.top (first :: low) 0) :=
    carryFrom_eq (fun limb hmem ↦ hlimbs limb (by simp [hmem])) (hlimbs _ (by simp))
      (hlimbs _ (by simp)) (by norm_num)
  have hup : carryUp r = some (settle 30 r.top (first :: low) 0) := by
    rw [← hcarry, zero_add]
    conv_lhs => rw [hsplit]
    rfl
  have hlast : SignedLimbs.value 30 [r.top] = r.top := by simp [SignedLimbs.value]
  refine ⟨_, hup, ?_, normal_settle _ _ _, ?_⟩
  · rw [length_settle, hlow]
  · rw [settle_value, zero_add, ← hvalue, value_append, hlast]

/-- A number above `-2 * m` and below `m` goes to its residue, or to that of its opposite. -/
theorem normalize30_spec {modulus : SignedModulus} {m n : ℤ} (hmodulus : modulus.IsOf m) {r : S30}
    (hr : r.Holds n) (hlow : -2 * m < n) (hhigh : n < m) (sign : ℤ) :
    ∃ next, normalize30 modulus r sign = some next ∧
      (fromS30 next).toNat = (if sign < 0 then -n else n) % m := by
  have hm := hmodulus.low
  have hm' := hmodulus.high
  obtain ⟨r₁, hr₁, hroomy₁⟩ := condAdd_roomy hmodulus hr
  obtain ⟨r₂, hr₂, hroomy₂⟩ := condNegate_roomy sign hroomy₁
  obtain ⟨r₃, hr₃, hlength₃, hnormal₃, hvalue₃⟩ := carryUp_spec hroomy₂
  set n₁ := n + if n < 0 then m else 0 with hn₁
  set n₂ := if sign < 0 then -n₁ else n₁ with hn₂
  have hrange₁ : |n₁| ≤ m - 1 := abs_add_sign_lt hlow hhigh
  have hrange₂ : |n₂| ≤ m - 1 := by
    rw [hn₂]
    split_ifs
    · rwa [abs_neg]
    · exact hrange₁
  have hholds₃ := Normal.holds hnormal₃ hlength₃ hvalue₃ (by linarith)
  obtain ⟨r₄, hr₄, hroomy₄⟩ := condAdd_roomy hmodulus hholds₃
  obtain ⟨r₅, hr₅, hlength₅, hnormal₅, hvalue₅⟩ := carryUp_spec hroomy₄
  set n₄ := n₂ + if n₂ < 0 then m else 0 with hn₄
  have hrange₄ : 0 ≤ n₄ ∧ n₄ < m := by
    rw [abs_le] at hrange₂
    rw [hn₄]
    split_ifs <;> constructor <;> omega
  have hresidue : n₄ = (if sign < 0 then -n else n) % m := by
    have hsame : n₄ ≡ if sign < 0 then -n else n [ZMOD m] := by
      have hadded : ∀ x : ℤ, (x + if x < 0 then m else 0) ≡ x [ZMOD m] := by
        intro x
        split_ifs
        · exact Int.add_modEq_right
        · rw [add_zero]
      rw [hn₄, hn₂]
      refine (hadded _).trans ?_
      split_ifs
      · exact (hadded n).neg
      · exact hadded n
    rw [← hsame, Int.emod_eq_of_lt hrange₄.1 hrange₄.2]
  refine ⟨r₅, ?_, ?_⟩
  · unfold normalize30
    simp only [Option.bind_eq_bind]
    rw [hr₁, Option.bind_some, hr₂, Option.bind_some, hr₃, Option.bind_some, hr₄, Option.bind_some,
      hr₅]
  · obtain ⟨low, hlowLength, hsplit⟩ := eq_append_top hlength₅
    have hholds₅ := Normal.holds hnormal₅ hlength₅ hvalue₅
      (by rw [abs_of_nonneg hrange₄.1]; linarith)
    have htop : r₅.top = n₄ / 2 ^ 240 := by
      have hquotient : r₅.top = SignedLimbs.value 30 (low ++ [r₅.top]) / 2 ^ (30 * low.length) :=
        (hsplit ▸ hnormal₅ : Normal 30 (low ++ [r₅.top])).top_eq
      rw [hquotient, ← hsplit, hvalue₅, hlowLength]
    have hdigits : ∀ limb ∈ r₅, 0 ≤ limb ∧ limb < 2 ^ 30 := by
      intro limb hmem
      rw [hsplit, List.mem_append, List.mem_singleton] at hmem
      rcases hmem with hmem | rfl
      · exact (hsplit ▸ hnormal₅ : Normal 30 (low ++ [r₅.top])).limb_bounds limb hmem
      · rw [htop]
        constructor <;> omega
    have hnat : SignedLimbs.value 30 r₅ = (n₄.toNat : ℤ) := by
      rw [hvalue₅, Int.toNat_of_nonneg hrange₄.1]
    rw [fromS30_toNat hlength₅ hdigits hnat (by omega), Int.toNat_of_nonneg hrange₄.1, hresidue]

end Bc3Miner.Kernel
