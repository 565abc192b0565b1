import Bc3Miner.Foundations.CarryChains
import Bc3Miner.Kernel.SecpField

/-!
# Reduction modulo `2 ^ 256 - C`

`reduce8_small` of `src/kernels/bc3hash.cl` as its C code computes it, and the products `mulmod256`
and `sqrmod256` over it and over `reduce8Secp`.

`reduce8SmallChecked` and `reduce8SecpChecked` are the two reductions again with accumulators that
fail on overflow. They never fail and give the same result: no accumulator loses a carry.

`C` is any number below `2 ^ 16` but zero; the moduli of the kernel are `2 ^ 256 - 189` and
`2 ^ 256 - 36113`.
-/

set_option autoImplicit false
set_option relaxedAutoImplicit false

namespace Bc3Miner.Kernel

open Foundations Foundations.Columns

/-- `t` modulo `2 ^ 256 - C`, for `C` of 16 bits. -/
def reduce8Small (t : List UInt32) (C : UInt32) : U256 :=
  let (r, c) := carryPass (rowColumns C (t.drop 8) (t.take 8)) 0
  let (r, s) := carryPass (addColumns r [c * C.toUInt64]) 0
  lastFold [C.toUInt64] r s

def mulmod256 (a b : U256) (C : UInt64) : U256 :=
  let t := mul8 (split256 a) (split256 b)
  if C = cSecp then reduce8Secp t else reduce8Small t C.toUInt32

def sqrmod256 (a : U256) (C : UInt64) : U256 :=
  let t := sqr8 (split256 a)
  if C = cSecp then reduce8Secp t else reduce8Small t C.toUInt32

/-! ### Accumulators that fail on overflow -/

/-- Each word with the terms added to it. -/
def addTerms : List UInt32 → List (List UInt64) → List (List UInt64)
  | words, [] => words.map fun word ↦ [word.toUInt64]
  | [], _ :: _ => []
  | word :: words, terms :: rest => (word.toUInt64 :: terms) :: addTerms words rest

def compareChecked (complement : List UInt64) (r : List UInt32) : Option U256 := do
  let (y, s) ← checkedPass (addTerms r (complement.map ([·]))) 0
  some (if s ≠ 0 then join256 y else join256 r)

def lastFoldChecked (complement : List UInt64) (r : List UInt32) (s : UInt64) : Option U256 :=
  if s ≠ 0 then do
    let (r, _) ← checkedPass (addTerms r (complement.map ([·]))) 0
    compareChecked complement r
  else compareChecked complement r

def reduce8SmallChecked (t : List UInt32) (C : UInt32) : Option U256 := do
  let columns := List.zipWith (fun high low ↦ [C.toUInt64 * high.toUInt64, low.toUInt64])
    (t.drop 8) (t.take 8)
  let (r, c) ← checkedPass columns 0
  let product ← checkedMul c C.toUInt64
  let (r, s) ← checkedPass (addTerms r [[product]]) 0
  lastFoldChecked [C.toUInt64] r s

def secpTerms : List UInt32 → List UInt32 → UInt32 → List (List UInt64)
  | high :: hi, low :: lo, below =>
    [high.toUInt64 * 977, low.toUInt64, below.toUInt64] :: secpTerms hi lo high
  | _, _, _ => []

def reduce8SecpChecked (t : List UInt32) : Option U256 := do
  let (r, c) ← checkedPass (secpTerms (t.drop 8) (t.take 8) 0) 0
  let c ← checkedAdd c (t.getD 15 0).toUInt64
  let v0 ← checkedMul c 977
  let (r, s) ← checkedPass
    (addTerms r [[v0 &&& 0xffffffff], [v0 >>> 32, c &&& 0xffffffff], [c >>> 32]]) 0
  lastFoldChecked [977, 1] r s

/-! ### The canonical residue -/

/-- What the first fold of the small reduction leaves of twice `n` words: `n` words and a carry of
at most `C`, which stand for the low half plus `C` times the high half. -/
theorem smallFold_value {n : ℕ} {t : List UInt32} (hlength : t.length = 2 * n) (C : UInt32) :
    ∃ (r : List UInt32) (c : UInt64),
      carryPass (rowColumns C (t.drop n) (t.take n)) 0 = (r, c) ∧ r.length = n ∧
      c.toNat ≤ C.toNat ∧
      value r + 2 ^ (32 * n) * c.toNat = value (t.take n) + C.toNat * value (t.drop n) := by
  have hhi : (t.drop n).length = n := by
    rw [List.length_drop, hlength]
    omega
  have hlo : (t.take n).length = n := by
    rw [List.length_take, hlength]
    omega
  have hcount : (rowColumns C (t.drop n) (t.take n)).length = n := by
    rw [rowColumns, List.length_zipWith, hhi, hlo, Nat.min_self]
  have hpass := (carryPass_sum 0 (rowColumns_le C (t.drop n) (t.take n)) (by decide)).1
  have hzero : (0 : UInt64).toNat = 0 := rfl
  rw [rowColumns_value C (hhi.trans hlo.symm), hcount, hzero, Nat.add_zero] at hpass
  have hhighlt := value_lt (t.drop n)
  have hlowlt := value_lt (t.take n)
  rw [hhi] at hhighlt
  rw [hlo] at hlowlt
  have hvalue : value (carryPass (rowColumns C (t.drop n) (t.take n)) 0).1 +
      2 ^ (32 * n) * (carryPass (rowColumns C (t.drop n) (t.take n)) 0).2.toNat =
        value (t.take n) + C.toNat * value (t.drop n) := hpass.trans (Nat.add_comm _ _)
  refine ⟨_, _, rfl, by rw [length_carryPass, hcount], Nat.lt_succ_iff.mp ?_, hvalue⟩
  have hbound : C.toNat * value (t.drop n) ≤ C.toNat * 2 ^ (32 * n) :=
    Nat.mul_le_mul_left _ hhighlt.le
  refine Nat.lt_of_mul_lt_mul_left (a := 2 ^ (32 * n)) ?_
  rw [Nat.succ_eq_add_one, Nat.mul_add, Nat.mul_one, Nat.mul_comm _ C.toNat]
  omega

/-- `C` as the one column that the end of the reduction adds. -/
theorem smallComplement {C : UInt32} (hC : C.toNat < 2 ^ 16) :
    columnValue [C.toUInt64] = C.toNat ∧
      ∀ column ∈ [C.toUInt64], column.toNat < 2 ^ 63 := by
  refine ⟨?_, fun column hmem ↦ ?_⟩
  · rw [columnValue_cons, columnValue_nil, UInt32.toNat_toUInt64, Nat.mul_zero, Nat.add_zero]
  · rw [List.mem_singleton.mp hmem, UInt32.toNat_toUInt64]
    omega

/-- A carry of at most a 16-bit constant times that constant fits in a word. -/
theorem toNat_smallCarry {C : UInt32} (hC : C.toNat < 2 ^ 16) {c : UInt64}
    (hc : c.toNat ≤ C.toNat) :
    (c * C.toUInt64).toNat = c.toNat * C.toNat ∧ c.toNat * C.toNat < 2 ^ 32 := by
  have hproduct : c.toNat * C.toNat < 2 ^ 16 * 2 ^ 16 :=
    Nat.mul_lt_mul'' (hc.trans_lt hC) hC
  refine ⟨?_, by omega⟩
  rw [UInt64.toNat_mul, UInt32.toNat_toUInt64, Nat.mod_eq_of_lt (by omega)]

/-- The small reduction of sixteen words is their residue modulo `2 ^ 256 - C`, for a constant of 16
bits. -/
theorem reduce8Small_toNat {t : List UInt32} (hlength : t.length = 16) {C : UInt32}
    (hC : C.toNat < 2 ^ 16) : (reduce8Small t C).toNat = value t % (2 ^ 256 - C.toNat) := by
  obtain ⟨r, c, hfold, hr, hc, hvalue⟩ := smallFold_value (n := 8) hlength C
  obtain ⟨hproduct, hsquare⟩ := toNat_smallCarry hC hc
  obtain ⟨hcomplement, hsmall⟩ := smallComplement hC
  have hsplit := split_value hlength
  have hrlt := value_lt_of_eight hr
  have hshort : [c * C.toUInt64].length ≤ r.length := by simp [hr]
  have hcolumn : ∀ column ∈ [c * C.toUInt64], column.toNat < 2 ^ 63 := by
    intro column hmem
    rw [List.mem_singleton.mp hmem, hproduct]
    omega
  obtain ⟨hsum, hlength'⟩ := carryPass_addColumns hshort hcolumn
  rw [columnValue_cons, columnValue_nil, hproduct, hr, Nat.mul_zero, Nat.add_zero] at hsum
  rw [hr] at hlength'
  have hp : 2 ^ 256 - C.toNat + columnValue [C.toUInt64] = 2 ^ 256 := by
    rw [hcomplement]
    omega
  rw [reduce8Small, hfold]
  simp only
  rw [lastFold_toNat (by simp) hsmall hp (by rw [hcomplement]; omega) hlength' (by omega), hsum]
  have htotal : value t = value r + c.toNat * C.toNat +
      (2 ^ 256 - C.toNat) * (c.toNat + value (t.drop 8)) := by
    obtain ⟨p, hpC⟩ : ∃ p, p + C.toNat = 2 ^ 256 := ⟨2 ^ 256 - C.toNat, by omega⟩
    have hpeq : 2 ^ 256 - C.toNat = p := by omega
    rw [hpeq]
    rw [hsplit, ← hpC]
    rw [← hpC] at hvalue
    linear_combination -hvalue
  rw [htotal, Nat.add_mul_mod_self_left]

/-! ### Products -/

/-- The constants that the products are taken with. -/
theorem mulmod256_toNat (a b : U256) {C : UInt64} (hC : C = cSecp ∨ C.toNat < 2 ^ 16) :
    (mulmod256 a b C).toNat = a.toNat * b.toNat % (2 ^ 256 - C.toNat) := by
  have hlength := length_mul8 (length_split256 a) (length_split256 b)
  have hvalue : value (mul8 (split256 a) (split256 b)) = a.toNat * b.toNat := by
    rw [mul8_value (length_split256 b), split256_value, split256_value]
  unfold mulmod256
  by_cases hsecp : C = cSecp
  · have hp : 2 ^ 256 - C.toNat = secpP := by
      rw [hsecp]
      decide +kernel
    rw [if_pos hsecp, reduce8Secp_toNat hlength, hvalue, hp]
  · have hsmall : C.toUInt32.toNat = C.toNat := by
      have hlt := hC.resolve_left hsecp
      rw [UInt64.toNat_toUInt32]
      omega
    rw [if_neg hsecp, reduce8Small_toNat hlength (hsmall ▸ hC.resolve_left hsecp), hvalue, hsmall]

theorem sqr8_eq_mul8 {a : List UInt32} (ha : a.length = 8) : sqr8 a = mul8 a a := by
  have hlength : (sqr8 a).length = (mul8 a a).length := by rw [length_sqr8 ha, length_mul8 ha ha]
  exact value_injective hlength (by rw [sqr8_value ha, mul8_value ha])

theorem sqrmod256_eq (a : U256) (C : UInt64) : sqrmod256 a C = mulmod256 a a C := by
  rw [sqrmod256, mulmod256, sqr8_eq_mul8 (length_split256 a)]

/-! ### No accumulator loses a carry -/

/-- Adding words to lists of terms and then summing is adding them to the sums. -/
theorem addTerms_sum (words : List UInt32) (terms : List (List UInt64)) :
    (addTerms words terms).map List.sum = addColumns words (terms.map List.sum) := by
  induction words generalizing terms with
  | nil => rcases terms with _ | ⟨first, rest⟩ <;> rfl
  | cons word words ih =>
    rcases terms with _ | ⟨first, rest⟩
    · simp [addTerms, addColumns]
    · rw [addTerms, List.map_cons, ih, List.map_cons, addColumns, List.sum_cons]

/-- Terms that sum to less than `2 ^ 63` leave room for a word and a carry. -/
theorem addTerms_le {words : List UInt32} {terms : List (List UInt64)}
    (hterms : ∀ column ∈ terms, (column.map UInt64.toNat).sum < 2 ^ 63) :
    ∀ column ∈ addTerms words terms, (column.map UInt64.toNat).sum ≤ 2 ^ 64 - 2 ^ 32 := by
  induction words generalizing terms with
  | nil =>
    rcases terms with _ | ⟨first, rest⟩ <;>
    · intro column hmem
      exact absurd hmem List.not_mem_nil
  | cons word words ih =>
    have hword := word.toNat_lt
    rcases terms with _ | ⟨first, rest⟩
    · intro column hmem
      obtain ⟨other, -, rfl⟩ := List.mem_map.mp hmem
      have hother := other.toNat_lt
      rw [List.map_singleton, List.sum_singleton, UInt32.toNat_toUInt64]
      omega
    · intro column hmem
      rcases List.mem_cons.mp hmem with rfl | hmem
      · have hfirst := hterms first List.mem_cons_self
        rw [List.map_cons, List.sum_cons, UInt32.toNat_toUInt64]
        omega
      · exact ih (fun other hother ↦ hterms other (List.mem_cons_of_mem _ hother)) column hmem

theorem checkedPass_addTerms {words : List UInt32} {terms : List (List UInt64)}
    (hterms : ∀ column ∈ terms, (column.map UInt64.toNat).sum < 2 ^ 63) :
    checkedPass (addTerms words terms) 0 =
      some (carryPass (addColumns words (terms.map List.sum)) 0) := by
  rw [checkedPass_eq (addTerms_le hterms) (by decide), addTerms_sum]

/-- The last fold with its additions checked fails nowhere, if the complement is small. -/
theorem lastFoldChecked_eq {complement : List UInt64}
    (hsmall : ∀ column ∈ complement, column.toNat < 2 ^ 63) (r : List UInt32) (s : UInt64) :
    lastFoldChecked complement r s = some (lastFold complement r s) := by
  have hterms : ∀ column ∈ complement.map ([·]), (column.map UInt64.toNat).sum < 2 ^ 63 := by
    intro column hmem
    obtain ⟨term, hterm, rfl⟩ := List.mem_map.mp hmem
    rw [List.map_singleton, List.sum_singleton]
    exact hsmall term hterm
  have hsums : (complement.map ([·])).map List.sum = complement := by
    have hsingle : List.sum ∘ (fun term : UInt64 ↦ [term]) = id :=
      funext fun term ↦ List.sum_singleton
    rw [List.map_map, hsingle, List.map_id]
  have hpass (words : List UInt32) : checkedPass (addTerms words (complement.map ([·]))) 0 =
      some (carryPass (addColumns words complement) 0) := by
    rw [checkedPass_addTerms hterms, hsums]
  have hcompare (words : List UInt32) : compareChecked complement words =
      some (lastFold complement words 0) := by
    rw [compareChecked, hpass]
    rfl
  unfold lastFoldChecked
  by_cases hs : s = 0
  · rw [if_neg (not_not_intro hs), hcompare, hs]
  · rw [if_pos hs, hpass, Option.bind_eq_bind, Option.bind_some]
    refine (hcompare _).trans ?_
    rw [lastFold, lastFold, if_pos hs]
    rfl

/-- The small reduction with its accumulators checked fails nowhere. -/
theorem reduce8SmallChecked_eq {t : List UInt32} (hlength : t.length = 16) {C : UInt32}
    (hC : C.toNat < 2 ^ 16) : reduce8SmallChecked t C = some (reduce8Small t C) := by
  obtain ⟨r, c, hfold, hr, hc, -⟩ := smallFold_value (n := 8) hlength C
  obtain ⟨hproduct, hsquare⟩ := toNat_smallCarry hC hc
  have hfirst : checkedPass (List.zipWith
      (fun high low ↦ [C.toUInt64 * high.toUInt64, low.toUInt64]) (t.drop 8) (t.take 8)) 0 =
        some (r, c) := by
    have hle : ∀ column ∈ List.zipWith
        (fun high low ↦ [C.toUInt64 * high.toUInt64, low.toUInt64]) (t.drop 8) (t.take 8),
          (column.map UInt64.toNat).sum ≤ 2 ^ 64 - 2 ^ 32 := by
      intro column hmem
      rw [← List.map_uncurry_zip_eq_zipWith] at hmem
      obtain ⟨⟨high, low⟩, -, rfl⟩ := List.mem_map.mp hmem
      have hcolumn := toNat_rowColumn C high low
      simp only [Function.uncurry_apply_pair, List.map_cons, List.map_nil, List.sum_cons,
        List.sum_nil, Nat.add_zero, toNat_product, UInt32.toNat_toUInt64]
      exact hcolumn.2
    rw [checkedPass_eq hle (by decide), List.map_zipWith, ← hfold]
    simp only [List.sum_cons, List.sum_nil, UInt64.add_zero]
    rfl
  have hmul : checkedMul c C.toUInt64 = some (c * C.toUInt64) := by
    rw [checkedMul, if_pos]
    rw [UInt32.toNat_toUInt64]
    omega
  have hterms : ∀ column ∈ [[c * C.toUInt64]], (column.map UInt64.toNat).sum < 2 ^ 63 := by
    intro column hmem
    rw [List.mem_singleton.mp hmem, List.map_singleton, List.sum_singleton, hproduct]
    omega
  rw [reduce8SmallChecked, hfirst]
  simp only [Option.bind_eq_bind, Option.bind_some, hmul]
  rw [checkedPass_addTerms hterms, Option.bind_some, lastFoldChecked_eq (smallComplement hC).2,
    reduce8Small, hfold]
  simp only [List.map_cons, List.map_nil, List.sum_singleton]

/-- The terms of the secp reduction sum to its columns, and none of them leaves its accumulator. -/
theorem secpTerms_spec {hi lo : List UInt32} (below : UInt32) :
    (secpTerms hi lo below).map List.sum = secpColumns hi lo below ∧
      ∀ column ∈ secpTerms hi lo below, (column.map UInt64.toNat).sum ≤ 2 ^ 64 - 2 ^ 32 := by
  induction hi generalizing lo below with
  | nil => simp [secpTerms, secpColumns]
  | cons high hi ih =>
    rcases lo with _ | ⟨low, lo⟩
    · simp [secpTerms, secpColumns]
    · obtain ⟨hsum, hle⟩ := @ih lo high
      have hhigh := high.toNat_lt
      have hlow := low.toNat_lt
      have hbelow := below.toNat_lt
      have hproduct : (high.toUInt64 * 977).toNat = high.toNat * 977 := by
        rw [UInt64.toNat_mul, UInt32.toNat_toUInt64, Nat.mod_eq_of_lt]
        · rfl
        · show high.toNat * 977 < 2 ^ 64
          omega
      refine ⟨?_, fun column hmem ↦ ?_⟩
      · rw [secpTerms, List.map_cons, hsum, secpColumns]
        simp only [List.sum_cons, List.sum_nil, UInt64.add_zero, UInt64.add_assoc]
      · rcases List.mem_cons.mp hmem with rfl | hmem
        · simp only [List.map_cons, List.map_nil, List.sum_cons, List.sum_nil, hproduct,
            UInt32.toNat_toUInt64]
          omega
        · exact hle column hmem

/-- The secp reduction with its accumulators checked fails nowhere. -/
theorem reduce8SecpChecked_eq {t : List UInt32} (hlength : t.length = 16) :
    reduce8SecpChecked t = some (reduce8Secp t) := by
  obtain ⟨r, c, hfold, hr, hc, -⟩ := secpFold_value hlength
  obtain ⟨hsums, hle⟩ := @secpTerms_spec (t.drop 8) (t.take 8) 0
  have hfirst : checkedPass (secpTerms (t.drop 8) (t.take 8) 0) 0 = some (r, c) := by
    rw [checkedPass_eq hle (by decide), hsums, hfold]
  have hadd : checkedAdd c (t.getD 15 0).toUInt64 = some (c + (t.getD 15 0).toUInt64) := by
    have hcolumns : ∀ column ∈ secpColumns (t.drop 8) (t.take 8) 0,
        column.toNat ≤ 2 ^ 64 - 2 ^ 32 := by
      refine (secpColumns_value 0 ?_).1
      rw [List.length_drop, List.length_take, hlength]
      rfl
    have hcarry : c.toNat < 2 ^ 32 := by
      have hlast := (carryPass_sum 0 hcolumns (by decide)).2
      rwa [hfold] at hlast
    have htop := (t.getD 15 0).toNat_lt
    rw [checkedAdd, if_pos]
    rw [UInt32.toNat_toUInt64]
    omega
  have hmul : checkedMul (c + (t.getD 15 0).toUInt64) 977 =
      some ((c + (t.getD 15 0).toUInt64) * 977) := by
    rw [checkedMul, if_pos]
    show _ * 977 < _
    omega
  have hmask (x : UInt64) : (x &&& 0xffffffff).toNat < 2 ^ 32 := by
    rw [UInt64.toNat_and]
    exact Nat.and_lt_two_pow _ (by decide : (0xffffffff : UInt64).toNat < 2 ^ 32)
  have hshift (x : UInt64) : (x >>> 32).toNat < 2 ^ 32 := by
    rw [UInt64.toNat_shiftRight, Nat.shiftRight_eq_div_pow]
    exact Nat.div_lt_of_lt_mul x.toNat_lt
  rw [reduce8SecpChecked, hfirst]
  simp only [Option.bind_eq_bind, Option.bind_some, hadd, hmul]
  rw [reduce8Secp, hfold]
  simp only
  generalize c + (t.getD 15 0).toUInt64 = c' at *
  have hterms : ∀ column ∈ [[c' * 977 &&& 0xffffffff], [(c' * 977) >>> 32, c' &&& 0xffffffff],
      [c' >>> 32]], (column.map UInt64.toNat).sum < 2 ^ 63 := by
    have hfirst := hmask (c' * 977)
    have hsecond := hshift (c' * 977)
    have hthird := hmask c'
    have hfourth := hshift c'
    intro column hmem
    simp only [List.mem_cons, List.not_mem_nil, or_false] at hmem
    rcases hmem with rfl | rfl | rfl <;>
    · simp only [List.map_cons, List.map_nil, List.sum_cons, List.sum_nil]
      omega
  rw [checkedPass_addTerms hterms, Option.bind_some, lastFoldChecked_eq secpComplement.2]
  simp only [List.map_cons, List.map_nil, List.sum_cons, List.sum_nil, UInt64.add_zero]
  rfl

end Bc3Miner.Kernel
