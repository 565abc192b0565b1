import Bc3Miner.Kernel.SmallReduction
import Mathlib.Data.List.GetD

/-!
# The reductions of the CUDA code

`reduce8_small_w` and `reduce8_secp` of the CUDA part of `src/kernels/bc3hash.cl`. The folds are
carry chains in assembly; what follows them only rarely is in branches: a carry into the upper
words, one more fold, and the subtraction of the prime. Each gives the canonical residue and so the
words of the C code (`modular_products`).

The rare branches are where a proof has to be careful: each is entered on a carry that leaves the
upper words in a known state, and what it leaves is in the spec of its function
(`smallCarryOn_spec`, `secpCarryOn_spec`).
-/

set_option autoImplicit false
set_option relaxedAutoImplicit false

namespace Bc3Miner.Kernel

open Foundations Foundations.Columns

namespace Cuda

/-! ### Modulo `2 ^ 256 - C` -/

/-- The two carry chains of the first fold: eight words, and what they carry out. -/
def smallChains (t : List UInt32) (C : UInt32) : List UInt32 × UInt32 :=
  let q := (t.drop 8).map fun word ↦ word.toUInt64 * C.toUInt64
  let ql := q.map UInt64.toUInt32
  let qh := q.map fun product : UInt64 ↦ (product >>> 32).toUInt32
  let (r, carry) := addChain (t.take 8) ql false
  let top := carry.toUInt32
  let (upper, carry) := addChain (r.drop 1) (qh.take 7) false
  (r.getD 0 0 :: upper, top + qh.getD 7 0 + carry.toUInt32)

/-- `r0` overflowed: the carry goes on, and if it runs off the top there is one more fold. -/
def smallCarryOn (C r0 : UInt32) (upper : List UInt32) : UInt32 × List UInt32 :=
  let (upper, s) := carryPass (upper.map UInt32.toUInt64) 1
  if s ≠ 0 then
    let s := r0.toUInt64 + C.toUInt64
    (s.toUInt32, ((s >>> 32) + (upper.getD 0 0).toUInt64).toUInt32 :: upper.drop 1)
  else (r0, upper)

/-- `reduce8_small_w`. The source looks at the top word first, which the conjunction leaves open. -/
def reduce8SmallW (t : List UInt32) (C : UInt32) : List UInt32 :=
  let (r, top) := smallChains t C
  let (r0, c) := addWithCarry (r.getD 0 0) (top * C) false
  let (r0, upper) := if c then smallCarryOn C r0 (r.drop 1) else (r0, r.drop 1)
  if allOnes upper ∧ 0 - C ≤ r0 then (r0 + C) :: List.replicate 7 0 else r0 :: upper

/-! ### Modulo secp256k1's prime -/

/-- The three carry chains of the first fold: eight words, and the two above them. -/
def secpChains (t : List UInt32) : List UInt32 × UInt32 × UInt32 :=
  let word (i : ℕ) := t.getD i 0
  let evens := [word 8, word 10, word 12, word 14].flatMap (wide · 977)
  let odds := [word 9, word 11, word 13, word 15].flatMap (wide · 977)
  let (r, e8) := addChain evens (t.take 8) false
  let (o, o9) := addChain odds (t.drop 8) false
  let (upper, carry) := addChain (r.drop 1 ++ [e8.toUInt32]) o false
  (r.getD 0 0 :: upper.take 7, upper.getD 7 0, o9.toUInt32 + carry.toUInt32)

/-- The second fold, into the three lowest words, and the carry out of them. -/
def secpFoldLow (low : List UInt32) (c c2 : UInt32) : List UInt32 × UInt32 :=
  let x := wide c 977
  let xh := c2 * 977 + x.getD 1 0
  let (low, s) := addChain low [x.getD 0 0, xh, c2] false
  let (upper, s') := addChain (low.drop 1) [c, 0] false
  (low.getD 0 0 :: upper, s.toUInt32 + s'.toUInt32)

/-- `r2` overflowed. -/
def secpCarryOn (low upper : List UInt32) (s : UInt32) : List UInt32 × List UInt32 :=
  let (upper, v) := carryPass (upper.map UInt32.toUInt64) s.toUInt64
  if v ≠ 0 then ((carryPass (addColumns low [977, 1]) 0).1, upper) else (low, upper)

def reduce8Secp (t : List UInt32) : U256 :=
  let (r, c, c2) := secpChains t
  let (low, s) := secpFoldLow (r.take 3) c c2
  let (low, upper) := if s ≠ 0 then secpCarryOn low (r.drop 3) s else (low, r.drop 3)
  let r0 := low.getD 0 0
  let r1 := low.getD 1 0
  if allOnes (low.drop 2 ++ upper) ∧ (0xfffffffe < r1 ∨ r1 = 0xfffffffe ∧ 0xfffffc2f ≤ r0) then
    join256 ((carryPass (addColumns [r0, r1] [977, 1]) 0).1 ++ List.replicate 6 0)
  else join256 (low ++ upper)

/-! ### The folds -/

/-- The low halves of the products, and the high halves one word up, stand for the product with the
constant. -/
theorem halves_value (C : UInt32) (words : List UInt32) :
    value ((words.map fun word ↦ word.toUInt64 * C.toUInt64).map UInt64.toUInt32) +
        2 ^ 32 * value ((words.map fun word ↦ word.toUInt64 * C.toUInt64).map
          fun product : UInt64 ↦ (product >>> 32).toUInt32) =
      C.toNat * value words := by
  induction words with
  | nil => simp
  | cons word words ih =>
    have hwide := wide_value word C
    rw [wide, value_cons, value_singleton] at hwide
    simp only [List.map_cons, value_cons]
    linear_combination hwide + 2 ^ 32 * ih

/-- Words of a list one by one. -/
theorem eq_getD_cons {words : List UInt32} (hpos : 0 < words.length) :
    words = words.getD 0 0 :: words.drop 1 := by
  rcases words with _ | ⟨word, words⟩
  · exact absurd hpos (Nat.lt_irrefl 0)
  · rfl

/-- Words that are one more than `count` are their first `count` and the last. -/
theorem eq_take_concat {words : List UInt32} {count : ℕ} (hlength : words.length = count + 1) :
    words = words.take count ++ [words.getD count 0] := by
  have hlast : words.drop count = [words.getD count 0] := by
    rw [List.drop_eq_getElem_cons (by omega), List.drop_of_length_le (by omega),
      List.getD_eq_getElem _ _ (by omega)]
  rw [← hlast, List.take_append_drop]

theorem toNat_toUInt32 (flag : Bool) : flag.toUInt32.toNat = flag.toNat := by
  cases flag <;> rfl

/-- The two chains of the small reduction: eight words and a carry of at most the constant, which
stand for the low half plus the constant times the high half. -/
theorem smallChains_spec {t : List UInt32} (hlength : t.length = 16) (C : UInt32) :
    (smallChains t C).1.length = 8 ∧ (smallChains t C).2.toNat ≤ C.toNat ∧
      value (smallChains t C).1 + 2 ^ 256 * (smallChains t C).2.toNat =
        value (t.take 8) + C.toNat * value (t.drop 8) := by
  have hhi : (t.drop 8).length = 8 := by rw [List.length_drop, hlength]
  have hlo : (t.take 8).length = 8 := by rw [List.length_take, hlength]; rfl
  have hhalves := halves_value C (t.drop 8)
  unfold smallChains
  set ql := ((t.drop 8).map fun word ↦ word.toUInt64 * C.toUInt64).map UInt64.toUInt32 with hql
  set qh := ((t.drop 8).map fun word ↦ word.toUInt64 * C.toUInt64).map
    fun product : UInt64 ↦ (product >>> 32).toUInt32 with hqh
  have hqllength : ql.length = 8 := by rw [hql, List.length_map, List.length_map, hhi]
  have hqhlength : qh.length = 8 := by rw [hqh, List.length_map, List.length_map, hhi]
  have hfirst := addChain_sum (hlo.trans hqllength.symm) false
  have hfirstlength := length_addChain (hlo.trans hqllength.symm) false
  simp only
  generalize addChain (t.take 8) ql false = first at *
  obtain ⟨r, carry⟩ := first
  simp only at hfirst hfirstlength ⊢
  have hr : r.length = 8 := hfirstlength.trans hlo
  have hshorter : (r.drop 1).length = (qh.take 7).length := by
    rw [List.length_drop, hr, List.length_take, hqhlength]
    rfl
  have hsecond := addChain_sum hshorter false
  have hsecondlength := length_addChain hshorter false
  generalize addChain (r.drop 1) (qh.take 7) false = second at *
  obtain ⟨upper, carry'⟩ := second
  simp only at hsecond hsecondlength ⊢
  have hrvalue : value r = (r.getD 0 0).toNat + 2 ^ 32 * value (r.drop 1) := by
    rw [← value_cons, ← eq_getD_cons (by omega)]
  have hqhvalue : value qh = value (qh.take 7) + 2 ^ 224 * (qh.getD 7 0).toNat := by
    have happend := value_append (qh.take 7) [qh.getD 7 0]
    rwa [← eq_take_concat hqhlength, value_singleton, List.length_take, hqhlength] at happend
  rw [hlo, hrvalue, Bool.toNat_false, Nat.add_zero] at hfirst
  rw [List.length_drop, hr, Bool.toNat_false, Nat.add_zero] at hsecond
  rw [hqhvalue] at hhalves
  have htotal : (r.getD 0 0).toNat + 2 ^ 32 * value upper +
      2 ^ 256 * (carry.toNat + (qh.getD 7 0).toNat + carry'.toNat) =
        value (t.take 8) + C.toNat * value (t.drop 8) := by
    linear_combination hfirst + 2 ^ 32 * hsecond + hhalves
  have hlolt := value_lt_of_eight hlo
  have hbound : C.toNat * value (t.drop 8) ≤ C.toNat * (2 ^ 256 - 1) :=
    Nat.mul_le_mul_left _ (by have := value_lt_of_eight hhi; omega)
  have hle : carry.toNat + (qh.getD 7 0).toNat + carry'.toNat ≤ C.toNat := by omega
  have hC := C.toNat_lt
  have htop : (carry.toUInt32 + qh.getD 7 0 + carry'.toUInt32).toNat =
      carry.toNat + (qh.getD 7 0).toNat + carry'.toNat := by
    rw [UInt32.toNat_add, UInt32.toNat_add, toNat_toUInt32, toNat_toUInt32, Nat.mod_add_mod,
      Nat.mod_eq_of_lt (by omega)]
  rw [htop, value_cons, List.length_cons, hsecondlength, List.length_drop, hr]
  exact ⟨rfl, hle, htotal⟩

/-! ### The branches -/

/-- The carry goes on into the upper words, and out of them only where they were all ones; they are
zero then, and what is folded once more is small. -/
theorem smallCarryOn_spec {C r0 : UInt32} (hsum : r0.toNat + C.toNat < 2 ^ 32)
    {upper : List UInt32} (hupper : upper.length = 7) :
    (smallCarryOn C r0 upper).2.length = 7 ∧
      value ((smallCarryOn C r0 upper).1 :: (smallCarryOn C r0 upper).2) %
          (2 ^ 256 - C.toNat) =
        (r0.toNat + 2 ^ 32 * (value upper + 1)) % (2 ^ 256 - C.toNat) := by
  have hone : (1 : UInt64).toNat < 2 ^ 32 := by decide
  obtain ⟨hvalue, hlength⟩ := carryPass_words upper hone
  have hupperlt := value_lt upper
  unfold smallCarryOn
  generalize carryPass (upper.map UInt32.toUInt64) 1 = folded at *
  obtain ⟨out, s⟩ := folded
  simp only at hvalue hlength ⊢
  have houtlt := value_lt out
  have hunit : (1 : UInt64).toNat = 1 := rfl
  rw [hupper, hunit] at hvalue
  rw [hupper] at hlength hupperlt
  rw [hlength] at houtlt
  by_cases hs : s = 0
  · have hzero : (0 : UInt64).toNat = 0 := rfl
    rw [hs, hzero, Nat.mul_zero, Nat.add_zero] at hvalue
    rw [if_neg (not_not_intro hs), value_cons, hvalue]
    exact ⟨hlength, rfl⟩
  · have hpos : 0 < s.toNat := Nat.pos_of_ne_zero fun hzero ↦ hs (UInt64.toNat_inj.mp hzero)
    have hall : value upper + 1 = 2 ^ 224 := by omega
    have hout : value out = 0 := by omega
    have hzeros : out = List.replicate 7 0 :=
      value_injective (by rw [hlength, List.length_replicate])
        (hout.trans (value_replicate_zero 7).symm)
    have hadd : (r0.toUInt64 + C.toUInt64).toNat = r0.toNat + C.toNat := by
      rw [UInt64.toNat_add, UInt32.toNat_toUInt64, UInt32.toNat_toUInt64,
        Nat.mod_eq_of_lt (by omega)]
    have hlow : (r0.toUInt64 + C.toUInt64).toUInt32.toNat = r0.toNat + C.toNat := by
      rw [UInt64.toNat_toUInt32, hadd, Nat.mod_eq_of_lt hsum]
    have hhigh : (r0.toUInt64 + C.toUInt64) >>> 32 = 0 := by
      refine UInt64.toNat_inj.mp ?_
      rw [UInt64.toNat_shiftRight, hadd, Nat.shiftRight_eq_div_pow]
      exact Nat.div_eq_of_lt hsum
    rw [if_pos hs, hzeros, hhigh]
    refine ⟨rfl, ?_⟩
    have hrest : value ((0 + ((List.replicate 7 (0 : UInt32)).getD 0 0).toUInt64).toUInt32 ::
        (List.replicate 7 0).drop 1) = 0 := rfl
    have hC := C.toNat_lt
    have hfolded : r0.toNat + 2 ^ 32 * (value upper + 1) =
        r0.toNat + C.toNat + (2 ^ 256 - C.toNat) := by omega
    rw [value_cons, hrest, hlow, Nat.mul_zero, Nat.add_zero, hfolded, Nat.add_mod_right]

/-- The last step of the small reduction. Words stand for a number from `2 ^ 256 - C` on exactly if
the upper ones are all ones and the lowest is at least `-C`; then what is left is the lowest word
plus `C`, and in both cases the residue in eight words. -/
theorem smallCanonical_value {C : UInt32} (hpos : 0 < C.toNat) (r0 : UInt32)
    {upper : List UInt32} (hupper : upper.length = 7) :
    value (if allOnes upper ∧ 0 - C ≤ r0 then (r0 + C) :: List.replicate 7 0 else r0 :: upper) =
        value (r0 :: upper) % (2 ^ 256 - C.toNat) ∧
      (if allOnes upper ∧ 0 - C ≤ r0 then (r0 + C) :: List.replicate 7 0
        else r0 :: upper).length = 8 := by
  have hC := C.toNat_lt
  have hr0 := r0.toNat_lt
  have hupperlt := value_lt upper
  rw [hupper] at hupperlt
  have hcomplement : (0 - C).toNat = 2 ^ 32 - C.toNat := by
    rw [UInt32.toNat_sub, UInt32.toNat_zero, Nat.add_zero, Nat.mod_eq_of_lt (by omega)]
  have hiff : allOnes upper = true ∧ 0 - C ≤ r0 ↔
      2 ^ 256 - C.toNat ≤ r0.toNat + 2 ^ 32 * value upper := by
    rw [allOnes_iff, hupper, UInt32.le_iff_toNat_le, hcomplement]
    omega
  rw [value_cons]
  by_cases hlarge : allOnes upper = true ∧ 0 - C ≤ r0
  · have hle := hiff.mp hlarge
    have hwrap : (r0 + C).toNat = r0.toNat + C.toNat - 2 ^ 32 := by
      rw [UInt32.toNat_add]
      omega
    rw [if_pos hlarge, value_cons, value_replicate_zero, Nat.mul_zero, Nat.add_zero, hwrap,
      Nat.mod_eq_sub_mod hle, Nat.mod_eq_of_lt (by omega)]
    refine ⟨by omega, ?_⟩
    rw [List.length_cons, List.length_replicate]
  · have hlt := not_le.mp fun hle ↦ hlarge (hiff.mpr hle)
    rw [if_neg hlarge, value_cons, Nat.mod_eq_of_lt hlt, List.length_cons, hupper]
    exact ⟨rfl, rfl⟩

/-- The CUDA reduction modulo `2 ^ 256 - C` is the canonical residue. The chains and the second fold
leave a number with its carry out of the lowest word still to come, and the branches take that carry
in. -/
theorem reduce8SmallW_value {t : List UInt32} (hlength : t.length = 16) {C : UInt32}
    (hpos : 0 < C.toNat) (hC : C.toNat < 2 ^ 16) :
    value (reduce8SmallW t C) = value t % (2 ^ 256 - C.toNat) ∧
      (reduce8SmallW t C).length = 8 := by
  obtain ⟨hr, htop, hfold⟩ := smallChains_spec hlength C
  have hsplit := split_value hlength
  unfold reduce8SmallW
  generalize smallChains t C = chains at *
  obtain ⟨r, top⟩ := chains
  simp only at hr htop hfold ⊢
  have hproduct : top.toNat * C.toNat ≤ (2 ^ 16 - 1) * (2 ^ 16 - 1) :=
    Nat.mul_le_mul (by omega) (by omega)
  have hx : (top * C).toNat = top.toNat * C.toNat := by
    rw [UInt32.toNat_mul, Nat.mod_eq_of_lt (by omega)]
  have hsum := addWithCarry_sum (r.getD 0 0) (top * C) false
  rw [hx, Bool.toNat_false, Nat.add_zero] at hsum
  have hrvalue : value r = (r.getD 0 0).toNat + 2 ^ 32 * value (r.drop 1) := by
    rw [← value_cons, ← eq_getD_cons (by omega)]
  have hupper : (r.drop 1).length = 7 := by rw [List.length_drop, hr]
  have hword := (r.getD 0 0).toNat_lt
  generalize addWithCarry (r.getD 0 0) (top * C) false = added at *
  obtain ⟨r0, c⟩ := added
  simp only at hsum ⊢
  have hresidue : (r0.toNat + 2 ^ 32 * (value (r.drop 1) + c.toNat)) % (2 ^ 256 - C.toNat) =
      value t % (2 ^ 256 - C.toNat) := by
    obtain ⟨p, hpC⟩ : ∃ p, p + C.toNat = 2 ^ 256 := ⟨2 ^ 256 - C.toNat, by omega⟩
    have hpeq : 2 ^ 256 - C.toNat = p := by omega
    have htotal : value t = r0.toNat + 2 ^ 32 * (value (r.drop 1) + c.toNat) +
        p * (top.toNat + value (t.drop 8)) := by
      rw [hsplit, ← hpC]
      rw [← hpC, hrvalue] at hfold
      linear_combination -hfold - hsum
    rw [hpeq, htotal, Nat.add_mul_mod_self_left]
  cases c with
  | false =>
    obtain ⟨hvalue, hcount⟩ := smallCanonical_value hpos r0 hupper
    refine ⟨hvalue.trans ?_, hcount⟩
    rw [← hresidue, value_cons]
    rfl
  | true =>
    rw [Bool.toNat_true] at hsum
    have hroom : r0.toNat + C.toNat < 2 ^ 32 := by omega
    obtain ⟨hcarried, hkept⟩ := smallCarryOn_spec hroom hupper
    obtain ⟨hvalue, hcount⟩ := smallCanonical_value hpos (smallCarryOn C r0 (r.drop 1)).1 hcarried
    refine ⟨hvalue.trans ?_, hcount⟩
    rw [hkept, ← hresidue, Bool.toNat_true]

/-! ### secp256k1's prime -/

theorem drop_eight {t : List UInt32} (hlength : t.length = 16) :
    t.drop 8 = [t.getD 8 0, t.getD 9 0, t.getD 10 0, t.getD 11 0, t.getD 12 0, t.getD 13 0,
      t.getD 14 0, t.getD 15 0] := by
  match t, hlength with
  | [_, _, _, _, _, _, _, _, _, _, _, _, _, _, _, _], _ => rfl

/-- The products of every other word, next to each other without overlap. -/
theorem flatMap_wide_value (words : List UInt32) :
    value (words.flatMap (wide · 977)) = words.foldr (fun word rest ↦ 977 * word.toNat +
      2 ^ 64 * rest) 0 := by
  induction words with
  | nil => rfl
  | cons word words ih =>
    have hword : (977 : UInt32).toNat = 977 := rfl
    rw [List.flatMap_cons, value_append, wide_value, ih, hword, Nat.mul_comm]
    rfl

/-- The chains of the secp reduction: eight words, and a carry in two parts that stays just above
one word, which stand for the low half plus the complement times the high half. -/
theorem secpChains_spec {t : List UInt32} (hlength : t.length = 16) :
    (secpChains t).1.length = 8 ∧ (secpChains t).2.2.toNat ≤ 1 ∧
      (secpChains t).2.1.toNat + 2 ^ 32 * (secpChains t).2.2.toNat < 2 ^ 32 + 978 ∧
      value (secpChains t).1 +
          2 ^ 256 * ((secpChains t).2.1.toNat + 2 ^ 32 * (secpChains t).2.2.toNat) =
        value (t.take 8) + (2 ^ 32 + 977) * value (t.drop 8) := by
  have hhi : (t.drop 8).length = 8 := by rw [List.length_drop, hlength]
  have hlo : (t.take 8).length = 8 := by rw [List.length_take, hlength]; rfl
  unfold secpChains
  set evens := [t.getD 8 0, t.getD 10 0, t.getD 12 0, t.getD 14 0].flatMap (wide · 977) with hevens
  set odds := [t.getD 9 0, t.getD 11 0, t.getD 13 0, t.getD 15 0].flatMap (wide · 977) with hodds
  have hevenslength : evens.length = 8 := rfl
  have hoddslength : odds.length = 8 := rfl
  have hproducts : value evens + 2 ^ 32 * value odds = 977 * value (t.drop 8) := by
    rw [drop_eight hlength, hevens, hodds, flatMap_wide_value, flatMap_wide_value]
    simp only [value_cons, value_nil, List.foldr_cons, List.foldr_nil]
    ring
  have hfirst := addChain_sum (hevenslength.trans hlo.symm) false
  have hfirstlength := length_addChain (hevenslength.trans hlo.symm) false
  have hsecond := addChain_sum (hoddslength.trans hhi.symm) false
  have hsecondlength := length_addChain (hoddslength.trans hhi.symm) false
  simp only
  generalize addChain evens (t.take 8) false = first at *
  generalize addChain odds (t.drop 8) false = second at *
  obtain ⟨r, e8⟩ := first
  obtain ⟨o, o9⟩ := second
  simp only at hfirst hfirstlength hsecond hsecondlength ⊢
  have hr : r.length = 8 := hfirstlength
  have ho : o.length = 8 := hsecondlength
  have hthirdlength : (r.drop 1 ++ [e8.toUInt32]).length = o.length := by
    rw [List.length_append, List.length_drop, hr, ho]
    rfl
  have hthird := addChain_sum hthirdlength false
  have hupperlength := length_addChain hthirdlength false
  generalize addChain (r.drop 1 ++ [e8.toUInt32]) o false = third at *
  obtain ⟨upper, carry⟩ := third
  simp only at hthird hupperlength ⊢
  have hupper : upper.length = 8 := by rw [hupperlength, hthirdlength, ho]
  have hrvalue : value r = (r.getD 0 0).toNat + 2 ^ 32 * value (r.drop 1) := by
    rw [← value_cons, ← eq_getD_cons (by omega)]
  have hraised : value (r.drop 1 ++ [e8.toUInt32]) = value (r.drop 1) + 2 ^ 224 * e8.toNat := by
    rw [value_append, value_singleton, toNat_toUInt32, List.length_drop, hr]
  have huppervalue : value upper = value (upper.take 7) + 2 ^ 224 * (upper.getD 7 0).toNat := by
    have happend := value_append (upper.take 7) [upper.getD 7 0]
    rwa [← eq_take_concat hupper, value_singleton, List.length_take, hupper] at happend
  rw [hevenslength, hrvalue, Bool.toNat_false, Nat.add_zero] at hfirst
  rw [hoddslength, Bool.toNat_false, Nat.add_zero] at hsecond
  rw [hthirdlength, ho, hraised, huppervalue, Bool.toNat_false, Nat.add_zero] at hthird
  have he8 := e8.toNat_le
  have ho9 := o9.toNat_le
  have hcarry := carry.toNat_le
  have hc2 : (o9.toUInt32 + carry.toUInt32).toNat = o9.toNat + carry.toNat := by
    rw [UInt32.toNat_add, toNat_toUInt32, toNat_toUInt32, Nat.mod_eq_of_lt (by omega)]
  have htotal : (r.getD 0 0).toNat + 2 ^ 32 * value (upper.take 7) +
      2 ^ 256 * ((upper.getD 7 0).toNat + 2 ^ 32 * (o9.toNat + carry.toNat)) =
        value (t.take 8) + (2 ^ 32 + 977) * value (t.drop 8) := by
    linear_combination hfirst + 2 ^ 32 * hsecond + 2 ^ 32 * hthird + hproducts
  have hlolt := value_lt_of_eight hlo
  have hhilt := value_lt_of_eight hhi
  rw [hc2, value_cons, List.length_cons, List.length_take, hupper]
  refine ⟨rfl, by omega, by omega, htotal⟩

theorem value_three (a b c : UInt32) :
    value [a, b, c] = a.toNat + 2 ^ 32 * b.toNat + 2 ^ 64 * c.toNat := by
  simp only [value_cons, value_nil]
  ring

/-- Folding the carry into the three lowest words: they stand for the sum with the carry that goes
on. -/
theorem secpFoldLow_spec {low : List UInt32} (hlow : low.length = 3) {c c2 : UInt32}
    (hc2 : c2.toNat ≤ 1) :
    (secpFoldLow low c c2).1.length = 3 ∧
      value (secpFoldLow low c c2).1 + 2 ^ 96 * (secpFoldLow low c c2).2.toNat =
        value low + (2 ^ 32 + 977) * (c.toNat + 2 ^ 32 * c2.toNat) := by
  unfold secpFoldLow
  have hwide := wide_value c 977
  have hsmall := c.toNat_lt
  have hword : (977 : UInt32).toNat = 977 := rfl
  obtain ⟨xl, xh, hx⟩ : ∃ xl xh, wide c 977 = [xl, xh] := ⟨_, _, rfl⟩
  rw [hx, value_cons, value_singleton, hword] at hwide
  rw [hx]
  have hxl := xl.toNat_lt
  have hhigh : (c2 * 977 + xh).toNat = 977 * c2.toNat + xh.toNat := by
    rw [UInt32.toNat_add, UInt32.toNat_mul, hword]
    omega
  have hlength : low.length = [xl, c2 * 977 + xh, c2].length := hlow
  have hfirst := addChain_sum hlength false
  have hfirstlength := length_addChain hlength false
  have hget : [xl, xh].getD 0 0 = xl ∧ [xl, xh].getD 1 0 = xh := ⟨rfl, rfl⟩
  simp only [hget]
  generalize addChain low [xl, c2 * 977 + xh, c2] false = first at *
  obtain ⟨out, s⟩ := first
  simp only at hfirst hfirstlength ⊢
  have hout : out.length = 3 := hfirstlength.trans hlow
  have htwo : (out.drop 1).length = [c, 0].length := by rw [List.length_drop, hout]; rfl
  have hsecond := addChain_sum htwo false
  have hsecondlength := length_addChain htwo false
  generalize addChain (out.drop 1) [c, 0] false = second at *
  obtain ⟨upper, s'⟩ := second
  simp only at hsecond hsecondlength ⊢
  have houtvalue : value out = (out.getD 0 0).toNat + 2 ^ 32 * value (out.drop 1) := by
    rw [← value_cons, ← eq_getD_cons (by omega)]
  have hs := s.toNat_le
  have hs' := s'.toNat_le
  have hflags : (s.toUInt32 + s'.toUInt32).toNat = s.toNat + s'.toNat := by
    rw [UInt32.toNat_add, toNat_toUInt32, toNat_toUInt32, Nat.mod_eq_of_lt (by omega)]
  have hpair : value [c, 0] = c.toNat := by
    rw [value_cons, value_singleton]
    rfl
  rw [hlow, value_three, hhigh, houtvalue, Bool.toNat_false, Nat.add_zero] at hfirst
  rw [List.length_drop, hout, hpair, Bool.toNat_false, Nat.add_zero] at hsecond
  rw [hflags, value_cons, List.length_cons, hsecondlength, List.length_drop, hout]
  refine ⟨rfl, ?_⟩
  linear_combination hfirst + 2 ^ 32 * hsecond + hwide

/-- The carry goes on into the words above the third, and out of them only where they were all ones;
they are zero then and those below small. -/
theorem secpCarryOn_spec {low upper : List UInt32} (hlow : low.length = 3)
    (hupper : upper.length = 5) {s : UInt32}
    (htotal : value low + 2 ^ 96 * (value upper + s.toNat) < 2 ^ 256 + 2 ^ 67) :
    (secpCarryOn low upper s).1.length = 3 ∧ (secpCarryOn low upper s).2.length = 5 ∧
      value ((secpCarryOn low upper s).1 ++ (secpCarryOn low upper s).2) % secpP =
        (value low + 2 ^ 96 * (value upper + s.toNat)) % secpP := by
  have hcarry : s.toUInt64.toNat < 2 ^ 32 := by
    rw [UInt32.toNat_toUInt64]
    exact s.toNat_lt
  obtain ⟨hvalue, hlength⟩ := carryPass_words upper hcarry
  unfold secpCarryOn
  generalize carryPass (upper.map UInt32.toUInt64) s.toUInt64 = folded at *
  obtain ⟨out, v⟩ := folded
  simp only at hvalue hlength ⊢
  rw [hupper, UInt32.toNat_toUInt64] at hvalue
  rw [hupper] at hlength
  by_cases hv : v = 0
  · have hzero : (0 : UInt64).toNat = 0 := rfl
    rw [hv, hzero, Nat.mul_zero, Nat.add_zero] at hvalue
    rw [if_neg (not_not_intro hv)]
    refine ⟨hlow, hlength, ?_⟩
    rw [value_append, hlow, hvalue]
  · have hpos : 0 < v.toNat := Nat.pos_of_ne_zero fun hzero ↦ hv (UInt64.toNat_inj.mp hzero)
    obtain ⟨hcomplement, hsmall⟩ := secpComplement
    have hshort : [(977 : UInt64), 1].length ≤ low.length := by
      rw [hlow]
      decide
    obtain ⟨hsum, hcount⟩ := carryPass_addColumns hshort hsmall
    rw [hlow, hcomplement] at hsum
    rw [if_pos hv]
    generalize carryPass (addColumns low [977, 1]) 0 = added at *
    obtain ⟨low', carry⟩ := added
    simp only at hsum hcount ⊢
    have hout : value out = 0 := by omega
    have hnone : carry.toNat = 0 := by omega
    rw [hnone] at hsum
    have hfolded : value low + 2 ^ 96 * (value upper + s.toNat) = value low' + secpP := by
      unfold secpP
      omega
    rw [value_append, hout, Nat.mul_zero, Nat.add_zero, hfolded, Nat.add_mod_right]
    exact ⟨hcount.trans hlow, hlength, rfl⟩

/-- The last step of the secp reduction: the comparison with the prime in parts is the comparison of
the number, and what is left is the residue. -/
theorem secpCanonical_toNat {low upper : List UInt32} (hlow : low.length = 3)
    (hupper : upper.length = 5) :
    (if allOnes (low.drop 2 ++ upper) ∧ (0xfffffffe < low.getD 1 0 ∨
        low.getD 1 0 = 0xfffffffe ∧ 0xfffffc2f ≤ low.getD 0 0) then
      join256 ((carryPass (addColumns [low.getD 0 0, low.getD 1 0] [977, 1]) 0).1 ++
        List.replicate 6 0)
    else join256 (low ++ upper)).toNat = value (low ++ upper) % secpP := by
  match low, hlow with
  | [r0, r1, r2], _ =>
    obtain ⟨hcomplement, hsmall⟩ := secpComplement
    have hget : [r0, r1, r2].getD 0 0 = r0 ∧ [r0, r1, r2].getD 1 0 = r1 ∧
      [r0, r1, r2].drop 2 = [r2] := ⟨rfl, rfl, rfl⟩
    rw [hget.1, hget.2.1, hget.2.2]
    have hr0 := r0.toNat_lt
    have hr1 := r1.toNat_lt
    have hrest := value_lt ([r2] ++ upper)
    have hcount : ([r2] ++ upper).length = 6 := by
      rw [List.length_append, hupper]
      rfl
    have hvalue : value ([r0, r1, r2] ++ upper) =
        r0.toNat + 2 ^ 32 * r1.toNat + 2 ^ 64 * value ([r2] ++ upper) := by
      rw [List.cons_append, List.cons_append, value_cons, value_cons]
      ring
    have hiff : allOnes ([r2] ++ upper) = true ∧
        (0xfffffffe < r1 ∨ r1 = 0xfffffffe ∧ 0xfffffc2f ≤ r0) ↔
          secpP ≤ value ([r0, r1, r2] ++ upper) := by
      have hr1iff : r1 = 0xfffffffe ↔ r1.toNat = 0xfffffffe := UInt32.toNat_inj.symm
      have hone : (0xfffffffe : UInt32).toNat = 0xfffffffe := rfl
      have htwo : (0xfffffc2f : UInt32).toNat = 0xfffffc2f := rfl
      rw [allOnes_iff, hcount, UInt32.lt_iff_toNat_lt, UInt32.le_iff_toNat_le, hr1iff, hone, htwo,
        hvalue]
      rw [hcount] at hrest
      unfold secpP
      omega
    rw [hcount] at hrest
    by_cases hlarge : allOnes ([r2] ++ upper) = true ∧
        (0xfffffffe < r1 ∨ r1 = 0xfffffffe ∧ 0xfffffc2f ≤ r0)
    · have hle := hiff.mp hlarge
      have hshort : [(977 : UInt64), 1].length ≤ [r0, r1].length := le_rfl
      obtain ⟨hsum, hlength⟩ := carryPass_addColumns hshort hsmall
      have hpair : value [r0, r1] = r0.toNat + 2 ^ 32 * r1.toNat := by
        rw [value_cons, value_singleton]
      have hout := value_lt (carryPass (addColumns [r0, r1] [977, 1]) 0).1
      rw [hpair, hcomplement] at hsum
      rw [hlength] at hout
      have htwo : [r0, r1].length = 2 := rfl
      rw [htwo] at hsum hlength hout
      rw [if_pos hlarge, join256_toNat, value_append, value_replicate_zero, Nat.mul_zero,
        Nat.add_zero, Nat.mod_eq_sub_mod hle, Nat.mod_eq_of_lt]
      · rw [hvalue] at hle ⊢
        unfold secpP at hle ⊢
        omega
      · rw [hvalue]
        unfold secpP
        omega
      · rw [List.length_append, hlength, List.length_replicate]
    · have hlt := not_le.mp fun hle ↦ hlarge (hiff.mpr hle)
      rw [if_neg hlarge, join256_toNat, Nat.mod_eq_of_lt hlt]
      rw [List.length_append, hupper]
      rfl

/-- The CUDA reduction of sixteen words is their residue modulo the secp256k1 prime. -/
theorem reduce8Secp_toNat {t : List UInt32} (hlength : t.length = 16) :
    (reduce8Secp t).toNat = value t % secpP := by
  obtain ⟨hr, hc2, hsmall, hfold⟩ := secpChains_spec hlength
  have hsplit := split_value hlength
  unfold reduce8Secp
  generalize secpChains t = chains at *
  obtain ⟨r, c, c2⟩ := chains
  simp only at hr hc2 hsmall hfold ⊢
  have hlow : (r.take 3).length = 3 := by rw [List.length_take, hr]; rfl
  have hupper : (r.drop 3).length = 5 := by rw [List.length_drop, hr]
  have hrvalue : value r = value (r.take 3) + 2 ^ 96 * value (r.drop 3) := by
    have happend := value_append (r.take 3) (r.drop 3)
    rwa [List.take_append_drop, hlow] at happend
  obtain ⟨hlowlength, hlowvalue⟩ := secpFoldLow_spec (c := c) hlow hc2
  have hrlt := value_lt_of_eight hr
  generalize secpFoldLow (r.take 3) c c2 = folded at *
  obtain ⟨low, s⟩ := folded
  simp only at hlowlength hlowvalue ⊢
  have hresidue : (value low + 2 ^ 96 * (value (r.drop 3) + s.toNat)) % secpP =
      value t % secpP := by
    have htotal : value t = value low + 2 ^ 96 * (value (r.drop 3) + s.toNat) +
        secpP * (c.toNat + 2 ^ 32 * c2.toNat + value (t.drop 8)) := by
      unfold secpP
      omega
    rw [htotal, Nat.add_mul_mod_self_left]
  by_cases hs : s = 0
  · have hzero : (0 : UInt32).toNat = 0 := rfl
    rw [if_neg (not_not_intro hs), secpCanonical_toNat hlowlength hupper, ← hresidue,
      value_append, hlowlength, hs, hzero, Nat.add_zero]
  · have hbound : value low + 2 ^ 96 * (value (r.drop 3) + s.toNat) < 2 ^ 256 + 2 ^ 67 := by omega
    obtain ⟨hcarriedLow, hcarriedUpper, hkept⟩ := secpCarryOn_spec hlowlength hupper hbound
    rw [if_pos hs, secpCanonical_toNat hcarriedLow hcarriedUpper, hkept, hresidue]

end Cuda

/-! ### Both paths -/

/-- The modular products of the kernel on words of 32 bits. The products and squares of eight words
are exact. Each reduction of sixteen words, for every `C` below `2 ^ 16` and for secp256k1's, gives
the canonical residue; it does so with accumulators that fail on overflow too, so no carry is lost;
and the carry chains of the CUDA code give the words of the C code. Hence the product and the square
of any two numbers are the canonical ones. -/
theorem modular_products :
    (∀ a b : List UInt32, a.length = 8 → b.length = 8 →
      (mul8 a b).length = 16 ∧ value (mul8 a b) = value a * value b ∧ sqr8 a = mul8 a a) ∧
    (∀ t : List UInt32, t.length = 16 →
      (∀ C : UInt32, 0 < C.toNat → C.toNat < 2 ^ 16 →
        (reduce8Small t C).toNat = value t % (2 ^ 256 - C.toNat) ∧
        reduce8SmallChecked t C = some (reduce8Small t C) ∧
        Cuda.reduce8SmallW t C = split256 (reduce8Small t C)) ∧
      (reduce8Secp t).toNat = value t % (2 ^ 256 - 2 ^ 32 - 977) ∧
      reduce8SecpChecked t = some (reduce8Secp t) ∧
      Cuda.reduce8Secp t = reduce8Secp t) ∧
    ∀ (a b : U256) (C : UInt64), C = cSecp ∨ C.toNat < 2 ^ 16 →
      (mulmod256 a b C).toNat = a.toNat * b.toNat % (2 ^ 256 - C.toNat) ∧
      sqrmod256 a C = mulmod256 a a C := by
  refine ⟨fun a b ha hb ↦ ⟨length_mul8 ha hb, mul8_value hb, sqr8_eq_mul8 ha⟩,
    fun t hlength ↦ ⟨fun C hpos hC ↦ ?_, reduce8Secp_toNat hlength,
      reduce8SecpChecked_eq hlength, ?_⟩,
    fun a b C hC ↦ ⟨mulmod256_toNat a b hC, sqrmod256_eq a C⟩⟩
  · have hcanonical := reduce8Small_toNat hlength hC
    obtain ⟨hvalue, hcount⟩ := Cuda.reduce8SmallW_value hlength hpos hC
    refine ⟨hcanonical, reduce8SmallChecked_eq hlength hC, value_injective ?_ ?_⟩
    · rw [hcount, length_split256]
    · rw [hvalue, split256_value, hcanonical]
  · refine Limbs.toNat_injective ?_
    rw [Cuda.reduce8Secp_toNat hlength, reduce8Secp_toNat hlength]

/-- The square of the largest number, modulo `2 ^ 256 - 189`. -/
theorem modular_products_at_largest :
    value (mul8 (List.replicate 8 0xffffffff) (List.replicate 8 0xffffffff)) =
        value (List.replicate 8 0xffffffff) * value (List.replicate 8 0xffffffff) ∧
      Cuda.reduce8SmallW (List.replicate 16 0xffffffff) 189 =
        split256 (reduce8Small (List.replicate 16 0xffffffff) 189) ∧
      Cuda.reduce8Secp (List.replicate 16 0xffffffff) =
        reduce8Secp (List.replicate 16 0xffffffff) ∧
      (mulmod256 (mk256 3 0 0 0) (mk256 5 0 0 0) cSecp).toNat =
        (mk256 3 0 0 0).toNat * (mk256 5 0 0 0).toNat % (2 ^ 256 - cSecp.toNat) := by
  obtain ⟨hproducts, hreductions, hmodular⟩ := modular_products
  obtain ⟨hsmall, -, -, hsecp⟩ := hreductions (List.replicate 16 0xffffffff) (by decide)
  exact ⟨(hproducts _ _ (by decide) (by decide)).2.1, (hsmall 189 (by decide) (by decide)).2.2,
    hsecp, (hmodular _ _ _ (Or.inl rfl)).1⟩

end Bc3Miner.Kernel
