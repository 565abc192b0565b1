import Bc3Miner.Foundations.PowerSchedule
import Bc3Miner.Kernel.SmallReduction
import Mathlib.Data.ZMod.Basic

/-!
# Lazy powers, two at a time

`expfix256x2`, `expfix128x2` and `expfix64x2` of `src/kernels/bc3hash.cl`: two powers with a fixed
exponent modulo `2 ^ (32 * n) - C`, over products of `n` words that are folded but not compared
with the modulus. A fold carries out of its second word at most once (`foldN_spec`), and
`foldFix` takes that carry in (`foldFix_spec`). Where the branch that does so is taken for one chain
only, the other one is left as it is (`pairFold_eq`).

What the chains hold stands for powers in `ZMod (2 ^ (32 * n) - C)`, and the exponent is the one
that the schedule evaluates to.

`lazy_pairs_are_powers` is for all numbers, reduced or not, at the three moduli of the kernel. Its
parts about a fold and about the branch are for any width of two words or more and any `C` of 16
bits.
-/

set_option autoImplicit false
set_option relaxedAutoImplicit false

namespace Bc3Miner.Kernel

open Foundations Foundations.Columns

/-! ### Folds -/

/-- `t` folded to `n` words, and the carry out of the second. -/
def foldN (n : ℕ) (t : List UInt32) (C : UInt32) : List UInt32 × UInt32 :=
  let (r, c) := carryPass (rowColumns C (t.drop n) (t.take n)) 0
  let (low, s) := carryPass (addColumns (r.take 2) [c * C.toUInt64]) 0
  (low ++ r.drop 2, s.toUInt32)

/-- The carry `c` out of the second word, and one more fold where it runs off the top. -/
def foldFix (r : List UInt32) (c C : UInt32) : List UInt32 :=
  let (upper, s) := carryPass ((r.drop 2).map UInt32.toUInt64) c.toUInt64
  if s ≠ 0 then (carryPass (addColumns (r.take 2) [C.toUInt64]) 0).1 ++ upper
  else r.take 2 ++ upper

/-- The folds of two products. -/
def pairFold (n : ℕ) (C : UInt32) (tr ts : List UInt32) : List UInt32 × List UInt32 :=
  let (r, cr) := foldN n tr C
  let (s, cs) := foldN n ts C
  if cr ||| cs ≠ 0 then (foldFix r cr C, foldFix s cs C) else (r, s)

/-! ### Pairs -/

/-- The number of words, the product and the square that a pair's operations are made of. -/
structure PairOps where
  n : ℕ
  mul : List UInt32 → List UInt32 → List UInt32
  sqr : List UInt32 → List UInt32

namespace PairOps

variable (ops : PairOps) (C : UInt32)

def mulx2 (r x : List UInt32 × List UInt32) : List UInt32 × List UInt32 :=
  pairFold ops.n C (ops.mul r.1 x.1) (ops.mul r.2 x.2)

def sqrx2 (r : List UInt32 × List UInt32) : List UInt32 × List UInt32 :=
  pairFold ops.n C (ops.sqr r.1) (ops.sqr r.2)

def expPair (schedule : Schedule) (r : List UInt32 × List UInt32) :
    Option (List UInt32 × List UInt32) :=
  schedule.run (ops.mulx2 C) (ops.sqrx2 C) r

end PairOps

def mulN (n : ℕ) (a b : List UInt32) : List UInt32 := mulRows b a (List.replicate n 0)

def ops256 : PairOps := ⟨8, mul8, sqr8⟩

def ops128 : PairOps := ⟨4, mulN 4, fun a ↦ mulN 4 a a⟩

def ops64 : PairOps := ⟨2, mulN 2, fun a ↦ mulN 2 a a⟩

/-! ### Exponents and schedules -/

def e64 : UInt64 := 0x08cc1751c4763fa1

def e128 : U128 := mk128 0xfa5aa27fac6a65b3 0x928a70e905d1724a

def e256 : U256 :=
  mk256 0xa30182cddcf6c2a9 0x2d97ec3a6a936438 0xb27c7c729029c0a7 0x77f21ca678d771ad

def x64 : Schedule where
  first := 0
  odd := 4
  tail := 0
  steps := List.zip [5, 4, 8, 2, 4, 6, 4, 6, 3, 6, 3, 3, 5] [1, 1, 2, 1, 2, 3, 0, 3, 1, 3, 3, 2, 0]

def x128 : Schedule where
  first := 4
  odd := 8
  tail := 0
  steps := List.zip
    [5, 6, 5, 7, 5, 9, 3, 7, 4, 6, 5, 3, 5, 5, 4, 7, 4, 3, 5, 7, 5, 4, 5, 4, 1]
    [2, 2, 3, 3, 4, 5, 2, 5, 4, 4, 5, 3, 4, 6, 2, 4, 7, 3, 5, 6, 4, 4, 6, 4, 0]

def x256 : Schedule where
  first := 3
  odd := 8
  tail := 0
  steps := List.zip
    [5, 3, 3, 7, 5, 4, 6, 7, 4, 4, 7, 5, 4, 6, 4, 7, 1, 6, 5, 3, 9, 5, 9, 5, 6, 3, 6, 4, 3, 7, 5, 3,
      4, 6, 4, 3, 7, 6, 5, 9, 9, 6, 4, 2, 6, 5, 1, 7, 4, 3]
    [7, 3, 0, 3, 2, 1, 7, 6, 3, 3, 6, 6, 5, 4, 7, 7, 0, 3, 2, 0, 2, 3, 2, 3, 5, 1, 5, 7, 1, 3, 4, 2,
      2, 4, 5, 0, 3, 2, 1, 1, 5, 6, 6, 1, 7, 6, 0, 2, 2, 0]

/-! ### Powers -/

def cM64 : UInt64 := 59

def cM128 : UInt64 := 159

def cM256 : UInt64 := 189

def norm64 (x C : UInt64) : UInt64 :=
  let y := x + C
  if y < x then y else x

def norm128 (x : U128) (C : UInt64) : U128 :=
  let y0 := x.limb 0 + C
  let c := (decide (y0 < x.limb 0)).toUInt64
  let y1 := x.limb 1 + c
  if y1 < c then mk128 y0 y1 else x

def expfix256x2 (a b : U256) : Option (U256 × U256) := do
  let (r, s) ← ops256.expPair cM256.toUInt32 x256 (split256 a, split256 b)
  some (norm256 (join256 r) cM256, norm256 (join256 s) cM256)

def split128 (a : U128) : List UInt32 :=
  (List.range 2).flatMap fun i ↦ [(a.limb i).toUInt32, (a.limb i >>> 32).toUInt32]

/-- The word of 64 bits that words `2 * i` and `2 * i + 1` make. -/
def join64 (x : List UInt32) (i : ℕ) : UInt64 :=
  (x.getD (2 * i) 0).toUInt64 ||| (x.getD (2 * i + 1) 0).toUInt64 <<< 32

def expfix128x2 (a b : U128) : Option (U128 × U128) := do
  let (r, s) ← ops128.expPair cM128.toUInt32 x128 (split128 a, split128 b)
  some (norm128 (mk128 (join64 r 0) (join64 r 1)) cM128,
    norm128 (mk128 (join64 s 0) (join64 s 1)) cM128)

def split64 (a : UInt64) : List UInt32 := [a.toUInt32, (a >>> 32).toUInt32]

def expfix64x2 (a b : UInt64) : Option (UInt64 × UInt64) := do
  let (r, s) ← ops64.expPair cM64.toUInt32 x64 (split64 a, split64 b)
  some (norm64 (join64 r 0) cM64, norm64 (join64 s 0) cM64)

/-! ### What the schedules evaluate to -/

theorem x64_exponent : x64.exponent = e64.toNat := by decide +kernel

theorem x128_exponent : x128.exponent = e128.toNat := by decide +kernel

theorem x256_exponent : x256.exponent = e256.toNat := by decide +kernel

theorem x64_wellFormed : x64.WellFormed := ⟨by decide, by decide⟩

theorem x128_wellFormed : x128.WellFormed := ⟨by decide, by decide⟩

theorem x256_wellFormed : x256.WellFormed := ⟨by decide, by decide⟩

/-! ### Products -/

/-- A pair's product and square are exact, in twice the words. -/
structure PairOps.Exact (ops : PairOps) : Prop where
  two : 2 ≤ ops.n
  mul : ∀ {a b : List UInt32}, a.length = ops.n → b.length = ops.n →
    (ops.mul a b).length = 2 * ops.n ∧ value (ops.mul a b) = value a * value b
  sqr : ∀ {a : List UInt32}, a.length = ops.n →
    (ops.sqr a).length = 2 * ops.n ∧ value (ops.sqr a) = value a * value a

/-- A product of two numbers of `n` words has twice as many, and is exact. -/
theorem mulN_spec {n : ℕ} {a b : List UInt32} (ha : a.length = n) (hb : b.length = n) :
    (mulN n a b).length = 2 * n ∧ value (mulN n a b) = value a * value b := by
  have hwindow : (List.replicate n (0 : UInt32)).length = b.length := by
    rw [List.length_replicate, hb]
  constructor
  · rw [mulN, length_mulRows a hwindow, ha, hb, Nat.two_mul]
  · rw [mulN, mulRows_value b hwindow, value_replicate_zero, Nat.add_zero]

theorem ops256_exact : ops256.Exact :=
  ⟨by decide, fun ha hb ↦ ⟨length_mul8 ha hb, mul8_value hb⟩,
    fun ha ↦ ⟨length_sqr8 ha, sqr8_value ha⟩⟩

theorem ops128_exact : ops128.Exact :=
  ⟨by decide, fun ha hb ↦ mulN_spec ha hb, fun ha ↦ mulN_spec ha ha⟩

theorem ops64_exact : ops64.Exact :=
  ⟨by decide, fun ha hb ↦ mulN_spec ha hb, fun ha ↦ mulN_spec ha ha⟩

/-! ### Lazy folds -/

section Folds

variable {n : ℕ} (hn : 2 ≤ n) {C : UInt32} (hC : C.toNat < 2 ^ 16)

include hn

/-- The two lowest words and those above them. -/
theorem value_take_drop {r : List UInt32} (hr : r.length = n) :
    (r.take 2).length = 2 ∧ (r.drop 2).length = n - 2 ∧
      value r = value (r.take 2) + 2 ^ 64 * value (r.drop 2) := by
  have htwo : (r.take 2).length = 2 := by
    rw [List.length_take, hr]
    omega
  have happend := value_append (r.take 2) (r.drop 2)
  rw [List.take_append_drop, htwo] at happend
  exact ⟨htwo, by rw [List.length_drop, hr], happend⟩

theorem bound_split : 2 ^ (32 * n) = 2 ^ 64 * 2 ^ (32 * (n - 2)) := by
  rw [← pow_add]
  congr 1
  omega

include hC

theorem small_le_bound : C.toNat ≤ 2 ^ (32 * n) := by
  have hpow : 2 ^ 16 ≤ 2 ^ (32 * n) := Nat.pow_le_pow_right (by norm_num) (by omega)
  omega

/-- A fold of twice `n` words leaves `n` words and a carry of at most one out of the second word,
together small enough that taking the carry in cannot overflow; and what was folded away is a
multiple of the modulus. -/
theorem foldN_spec {t : List UInt32} (hlength : t.length = 2 * n) :
    (foldN n t C).1.length = n ∧ (foldN n t C).2.toNat ≤ 1 ∧
      value (foldN n t C).1 + 2 ^ 64 * (foldN n t C).2.toNat + C.toNat <
        2 ^ (32 * n) + 2 ^ 32 ∧
      ∃ folds, value t = value (foldN n t C).1 + 2 ^ 64 * (foldN n t C).2.toNat +
        (2 ^ (32 * n) - C.toNat) * folds := by
  obtain ⟨r, c, hfold, hr, hc, hvalue⟩ := smallFold_value hlength C
  obtain ⟨hproduct, hsquare⟩ := toNat_smallCarry hC hc
  obtain ⟨hlow, hupper, hsplit⟩ := value_take_drop hn hr
  have hrlt := value_lt r
  rw [hr] at hrlt
  have hlowlt := value_lt (r.take 2)
  rw [hlow] at hlowlt
  have hshort : [c * C.toUInt64].length ≤ (r.take 2).length := by simp [hlow]
  have hcolumn : ∀ column ∈ [c * C.toUInt64], column.toNat < 2 ^ 63 := by
    intro column hmem
    rw [List.mem_singleton.mp hmem, hproduct]
    omega
  obtain ⟨hsum, hcount⟩ := carryPass_addColumns hshort hcolumn
  rw [columnValue_cons, columnValue_nil, hproduct, hlow, Nat.mul_zero, Nat.add_zero] at hsum
  rw [hlow] at hcount
  unfold foldN
  rw [hfold]
  simp only
  generalize carryPass (addColumns (r.take 2) [c * C.toUInt64]) 0 = added at *
  obtain ⟨low, s⟩ := added
  simp only at hsum hcount ⊢
  have hs : s.toNat ≤ 1 := by omega
  have hword : s.toUInt32.toNat = s.toNat := by
    rw [UInt64.toNat_toUInt32]
    omega
  have hfolded : value (low ++ r.drop 2) + 2 ^ 64 * s.toNat = value r + c.toNat * C.toNat := by
    rw [value_append, hcount, hsplit]
    linear_combination hsum
  have hroom : c.toNat * C.toNat + C.toNat < 2 ^ 32 := by
    have hle : c.toNat * C.toNat ≤ C.toNat * C.toNat := Nat.mul_le_mul_right _ hc
    have hsucc : C.toNat * (C.toNat + 1) ≤ (2 ^ 16 - 1) * 2 ^ 16 :=
      Nat.mul_le_mul (by omega) (by omega)
    rw [Nat.mul_succ] at hsucc
    omega
  rw [hword, hfolded, List.length_append, hcount, hupper]
  refine ⟨by omega, hs, by omega, c.toNat + value (t.drop n), ?_⟩
  have htvalue : value t = value (t.take n) + 2 ^ (32 * n) * value (t.drop n) := by
    have happend := value_append (t.take n) (t.drop n)
    rwa [List.take_append_drop, List.length_take, hlength, Nat.min_eq_left (by omega)] at happend
  obtain ⟨p, hp⟩ : ∃ p, p + C.toNat = 2 ^ (32 * n) :=
    ⟨2 ^ (32 * n) - C.toNat, Nat.sub_add_cancel (small_le_bound hn hC)⟩
  rw [htvalue, ← hp, Nat.add_sub_cancel]
  rw [← hp] at hvalue
  linear_combination -hvalue

/-- The carry is taken in, and what is left is exact or less by the modulus once: what runs off the
top leaves less than a word behind. -/
theorem foldFix_spec {r : List UInt32} (hr : r.length = n) {c : UInt32}
    (hbound : value r + 2 ^ 64 * c.toNat + C.toNat < 2 ^ (32 * n) + 2 ^ 32) :
    (foldFix r c C).length = n ∧ ∃ folds ≤ 1,
      value (foldFix r c C) + (2 ^ (32 * n) - C.toNat) * folds =
        value r + 2 ^ 64 * c.toNat := by
  obtain ⟨hlow, hupper, hsplit⟩ := value_take_drop hn hr
  have hlowlt := value_lt (r.take 2)
  rw [hlow] at hlowlt
  have hcarry : c.toUInt64.toNat < 2 ^ 32 := by
    rw [UInt32.toNat_toUInt64]
    exact c.toNat_lt
  have hB := bound_split hn
  obtain ⟨hpass, hcount⟩ := carryPass_words (r.drop 2) hcarry
  rw [hupper, UInt32.toNat_toUInt64] at hpass
  rw [hupper] at hcount
  unfold foldFix
  generalize carryPass ((r.drop 2).map UInt32.toUInt64) c.toUInt64 = passed at *
  obtain ⟨upper, s⟩ := passed
  simp only at hpass hcount ⊢
  have htotal : value (r.take 2) + 2 ^ 64 * value upper + 2 ^ (32 * n) * s.toNat =
      value r + 2 ^ 64 * c.toNat := by
    rw [hsplit, hB]
    linear_combination 2 ^ 64 * hpass
  by_cases hs : s = 0
  · have hzero : (0 : UInt64).toNat = 0 := rfl
    rw [hs, hzero, Nat.mul_zero, Nat.add_zero] at htotal
    rw [if_neg (not_not_intro hs), value_append, List.length_append, hlow, hcount]
    refine ⟨by omega, 0, Nat.zero_le 1, ?_⟩
    rw [Nat.mul_zero, Nat.add_zero, ← htotal]
  · have hpos : 0 < s.toNat := Nat.pos_of_ne_zero fun hzero ↦ hs (UInt64.toNat_inj.mp hzero)
    have hlarge : 2 ^ 64 ≤ 2 ^ (32 * n) := Nat.pow_le_pow_right (by norm_num) (by omega)
    have hone : s.toNat = 1 := by
      by_contra hne
      have htwice : 2 ^ (32 * n) * 2 ≤ 2 ^ (32 * n) * s.toNat := Nat.mul_le_mul_left _ (by omega)
      omega
    rw [hone, Nat.mul_one] at htotal
    have hzero : value upper = 0 := by omega
    obtain ⟨hcomplement, hsmall⟩ := smallComplement hC
    have hshort : [C.toUInt64].length ≤ (r.take 2).length := by simp [hlow]
    obtain ⟨hsum, hlowlength⟩ := carryPass_addColumns hshort hsmall
    rw [hcomplement, hlow] at hsum
    rw [hlow] at hlowlength
    have hnone : (carryPass (addColumns (r.take 2) [C.toUInt64]) 0).2.toNat = 0 := by omega
    rw [hnone, Nat.mul_zero, Nat.add_zero] at hsum
    have hle := small_le_bound hn hC
    rw [if_pos hs, value_append, hzero, List.length_append, hlowlength, hcount, hsum]
    exact ⟨by omega, 1, le_rfl, by omega⟩

omit hn hC in
/-- No carry changes nothing. -/
theorem foldFix_zero (r : List UInt32) (C : UInt32) : foldFix r 0 C = r := by
  have hcarry : (0 : UInt32).toUInt64.toNat < 2 ^ 32 := by decide
  have hzero : (0 : UInt32).toUInt64.toNat = 0 := rfl
  obtain ⟨hpass, hcount⟩ := carryPass_words (r.drop 2) hcarry
  have hlt := value_lt (r.drop 2)
  rw [hzero, Nat.add_zero] at hpass
  unfold foldFix
  generalize carryPass ((r.drop 2).map UInt32.toUInt64) (0 : UInt32).toUInt64 = passed at *
  obtain ⟨upper, s⟩ := passed
  simp only at hpass hcount ⊢
  obtain ⟨hs, hupper⟩ := no_carry hpass hlt
  have hsame : s = 0 := UInt64.toNat_inj.mp hs
  rw [if_neg (not_not_intro hsame), value_injective hcount hupper, List.take_append_drop]

/-- A product folded to `n` words, with the carry taken in. -/
def folded (n : ℕ) (t : List UInt32) (C : UInt32) : List UInt32 :=
  foldFix (foldN n t C).1 (foldN n t C).2 C

omit hn hC in
/-- The chains do not meet: a carry of one is taken in there and leaves the other as it is. -/
theorem pairFold_eq (n : ℕ) (C : UInt32) (tr ts : List UInt32) :
    pairFold n C tr ts = (folded n tr C, folded n ts C) := by
  unfold pairFold folded
  generalize foldN n tr C = first
  generalize foldN n ts C = second
  obtain ⟨r, cr⟩ := first
  obtain ⟨s, cs⟩ := second
  simp only
  by_cases hcarry : cr ||| cs = 0
  · obtain ⟨hcr, hcs⟩ := UInt32.or_eq_zero_iff.mp hcarry
    rw [if_neg (not_not_intro hcarry), hcr, hcs, foldFix_zero, foldFix_zero]
  · rw [if_pos hcarry]

/-- Folding the high half by the constant leaves `n` words and changes nothing modulo the prime. -/
theorem folded_spec {t : List UInt32} (hlength : t.length = 2 * n) :
    (folded n t C).length = n ∧ value (folded n t C) ≡ value t [MOD 2 ^ (32 * n) - C.toNat] := by
  obtain ⟨hr, -, hbound, folds, hvalue⟩ := foldN_spec hn hC hlength
  obtain ⟨hcount, more, -, hfixed⟩ := foldFix_spec hn hC hr hbound
  refine ⟨hcount, ?_⟩
  have htotal : value t =
      value (folded n t C) + (2 ^ (32 * n) - C.toNat) * (more + folds) := by
    rw [hvalue, ← hfixed, folded, Nat.mul_add, Nat.add_assoc]
  rw [htotal]
  exact (Nat.add_mul_mod_self_left _ _ _).symm

end Folds

/-! ### Chains of powers -/

/-- What `n` words stand for modulo `p`. -/
structure WordsStand (n p : ℕ) (r : List UInt32) (a : ZMod p) : Prop where
  length : r.length = n
  residue : (value r : ZMod p) = a

structure PairStands (n p : ℕ) (r : List UInt32 × List UInt32) (a : ZMod p × ZMod p) : Prop where
  first : WordsStand n p r.1 a.1
  second : WordsStand n p r.2 a.2

section Chains

variable {ops : PairOps} (hops : ops.Exact) {C : UInt32} (hC : C.toNat < 2 ^ 16) {p : ℕ}
  (hp : 2 ^ (32 * ops.n) - C.toNat = p)

include hops hC hp

/-- A folded product stands for the product. -/
theorem folded_stands {t : List UInt32} (hlength : t.length = 2 * ops.n) {a : ZMod p}
    (ht : (value t : ZMod p) = a) : WordsStand ops.n p (folded ops.n t C) a := by
  obtain ⟨hcount, hvalue⟩ := folded_spec hops.two hC hlength
  rw [hp] at hvalue
  exact ⟨hcount, ((ZMod.natCast_eq_natCast_iff _ _ _).mpr hvalue).trans ht⟩

theorem mul_stands {r x : List UInt32} {a b : ZMod p} (hr : WordsStand ops.n p r a)
    (hx : WordsStand ops.n p x b) : WordsStand ops.n p (folded ops.n (ops.mul r x) C) (a * b) := by
  obtain ⟨hlength, hvalue⟩ := hops.mul hr.length hx.length
  refine folded_stands hops hC hp hlength ?_
  rw [hvalue, Nat.cast_mul, hr.residue, hx.residue]

theorem sqr_stands {r : List UInt32} {a : ZMod p} (hr : WordsStand ops.n p r a) :
    WordsStand ops.n p (folded ops.n (ops.sqr r) C) (a * a) := by
  obtain ⟨hlength, hvalue⟩ := hops.sqr hr.length
  refine folded_stands hops hC hp hlength ?_
  rw [hvalue, Nat.cast_mul, hr.residue]

/-- Both chains of a product stand for the products. -/
theorem mulx2_stands {r x : List UInt32 × List UInt32} {a b : ZMod p × ZMod p}
    (hr : PairStands ops.n p r a) (hx : PairStands ops.n p x b) :
    PairStands ops.n p (ops.mulx2 C r x) (a * b) := by
  obtain ⟨r₁, r₂⟩ := r
  obtain ⟨x₁, x₂⟩ := x
  obtain ⟨a₁, a₂⟩ := a
  obtain ⟨b₁, b₂⟩ := b
  have hfirst := mul_stands hops hC hp hr.first hx.first
  have hsecond := mul_stands hops hC hp hr.second hx.second
  rw [PairOps.mulx2, pairFold_eq, Prod.mk_mul_mk]
  constructor <;> simp only
  · exact hfirst
  · exact hsecond

/-- Squaring a pair squares both residues. -/
theorem sqrx2_stands {r : List UInt32 × List UInt32} {a : ZMod p × ZMod p}
    (hr : PairStands ops.n p r a) : PairStands ops.n p (ops.sqrx2 C r) (a * a) := by
  obtain ⟨r₁, r₂⟩ := r
  obtain ⟨a₁, a₂⟩ := a
  have hfirst := sqr_stands hops hC hp hr.first
  have hsecond := sqr_stands hops hC hp hr.second
  rw [PairOps.sqrx2, pairFold_eq, Prod.mk_mul_mk]
  constructor <;> simp only
  · exact hfirst
  · exact hsecond

/-- The two chains of a schedule end at the powers, up to the modulus. -/
theorem expPair_spec {schedule : Schedule} (hformed : schedule.WellFormed) {r s : List UInt32}
    (hr : r.length = ops.n) (hs : s.length = ops.n) :
    ∃ r' s', ops.expPair C schedule (r, s) = some (r', s') ∧ r'.length = ops.n ∧
      s'.length = ops.n ∧ value r' ≡ value r ^ schedule.exponent [MOD p] ∧
      value s' ≡ value s ^ schedule.exponent [MOD p] := by
  have hstart : PairStands ops.n p (r, s) (value r, value s) := ⟨⟨hr, rfl⟩, ⟨hs, rfl⟩⟩
  obtain ⟨⟨r', s'⟩, hrun, hfirst, hsecond⟩ := Schedule.run_stands
    (fun hr hx ↦ mulx2_stands hops hC hp hr hx) (fun hr ↦ sqrx2_stands hops hC hp hr) hformed hstart
  refine ⟨r', s', hrun, hfirst.length, hsecond.length, ?_, ?_⟩
  · refine (ZMod.natCast_eq_natCast_iff _ _ _).mp ?_
    rw [hfirst.residue, Nat.cast_pow]
    rfl
  · refine (ZMod.natCast_eq_natCast_iff _ _ _).mp ?_
    rw [hsecond.residue, Nat.cast_pow]
    rfl

/-- The powers of a pair of numbers that are split into words and made canonical out of words at the
end: for a schedule that is well formed both come out, and are the canonical powers with the
exponent of the schedule. -/
theorem expPair_canonical {schedule : Schedule} (hformed : schedule.WellFormed) {A : Type}
    {toNat : A → ℕ} {split : A → List UInt32}
    (hsplit : ∀ a, (split a).length = ops.n ∧ value (split a) = toNat a)
    {canonical : List UInt32 → A}
    (hcanonical : ∀ r, r.length = ops.n → toNat (canonical r) = value r % p) (a b : A) :
    ∃ r s, ops.expPair C schedule (split a, split b) = some (r, s) ∧
      toNat (canonical r) = toNat a ^ schedule.exponent % p ∧
      toNat (canonical s) = toNat b ^ schedule.exponent % p := by
  obtain ⟨ha, havalue⟩ := hsplit a
  obtain ⟨hb, hbvalue⟩ := hsplit b
  obtain ⟨r, s, hrun, hr, hs, hfirst, hsecond⟩ := expPair_spec hops hC hp hformed ha hb
  refine ⟨r, s, hrun, ?_, ?_⟩
  · rw [hcanonical r hr, ← havalue]
    exact hfirst
  · rw [hcanonical s hs, ← hbvalue]
    exact hsecond

end Chains

/-! ### Canonical numbers -/

/-- The last subtraction gives the residue, since the word is below twice the prime. -/
theorem norm64_toNat (x : UInt64) {C : UInt64} {p : ℕ} (hp : p + C.toNat = 2 ^ 64)
    (hhalf : C.toNat ≤ p) : (norm64 x C).toNat = x.toNat % p := by
  have hx := x.toNat_lt
  have hC := C.toNat_lt
  have hsum : (x + C).toNat = (x.toNat + C.toNat) % 2 ^ 64 := UInt64.toNat_add x C
  unfold norm64
  simp only [UInt64.lt_iff_toNat_lt]
  by_cases hcarry : (x + C).toNat < x.toNat
  · rw [if_pos hcarry, Nat.mod_eq_sub_mod (by omega), Nat.mod_eq_of_lt (by omega)]
    omega
  · rw [if_neg hcarry, Nat.mod_eq_of_lt (by omega)]

/-- The last subtraction gives the residue, since 128 bits are below twice the prime. -/
theorem norm128_toNat (x : U128) {C : UInt64} {p : ℕ} (hp : p + C.toNat = 2 ^ 128) :
    (norm128 x C).toNat = x.toNat % p := by
  have hlow := (x.limb 0).toNat_lt
  have hhigh := (x.limb 1).toNat_lt
  have hC := C.toNat_lt
  have hy0 : (x.limb 0 + C).toNat = ((x.limb 0).toNat + C.toNat) % 2 ^ 64 := UInt64.toNat_add _ _
  have hx := toNat_two x
  unfold norm128
  simp only [UInt64.lt_iff_toNat_lt]
  set c := (decide ((x.limb 0 + C).toNat < (x.limb 0).toNat)).toUInt64 with hc
  have hcvalue : c.toNat = if (x.limb 0 + C).toNat < (x.limb 0).toNat then 1 else 0 := by
    rw [hc, Limbs.toNat_toUInt64]
    by_cases hover : (x.limb 0 + C).toNat < (x.limb 0).toNat
    · rw [decide_eq_true hover, if_pos hover]
      rfl
    · rw [decide_eq_false hover, if_neg hover]
      rfl
  have hy1 : (x.limb 1 + c).toNat = ((x.limb 1).toNat + c.toNat) % 2 ^ 64 := UInt64.toNat_add _ _
  have hmk : (mk128 (x.limb 0 + C) (x.limb 1 + c)).toNat =
      (x.limb 0 + C).toNat + 2 ^ 64 * (x.limb 1 + c).toNat := toNat_two _
  by_cases hcarry : (x.limb 1 + c).toNat < c.toNat
  · rw [if_pos hcarry, hmk, hx]
    split_ifs at hcvalue with hover
    · rw [Nat.mod_eq_sub_mod (by omega), Nat.mod_eq_of_lt (by omega)]
      omega
    · omega
  · rw [if_neg hcarry, hx, Nat.mod_eq_of_lt]
    split_ifs at hcvalue with hover <;> omega

/-! ### Words -/

theorem length_split128 (a : U128) : (split128 a).length = 4 := rfl

theorem split64_value (a : UInt64) : value (split64 a) = a.toNat := by
  rw [split64, value_cons, value_singleton, split_word]

theorem split128_value (a : U128) : value (split128 a) = a.toNat := by
  have hsplit : split128 a = split64 (a.limb 0) ++ split64 (a.limb 1) := rfl
  rw [hsplit, value_append, split64_value, split64_value, toNat_two]
  rfl

theorem join64_toNat {x : List UInt32} (hlength : x.length = 2) : (join64 x 0).toNat = value x := by
  match x, hlength with
  | [low, high], _ => rw [join64, join_words, value_cons, value_singleton]; rfl

/-- Four words joined to 128 bits are the same number. -/
theorem join128_toNat {x : List UInt32} (hlength : x.length = 4) :
    (mk128 (join64 x 0) (join64 x 1)).toNat = value x := by
  match x, hlength with
  | [x0, x1, x2, x3], _ =>
    have hlow : (join64 [x0, x1, x2, x3] 0).toNat = x0.toNat + 2 ^ 32 * x1.toNat := join_words x0 x1
    have hhigh : (join64 [x0, x1, x2, x3] 1).toNat = x2.toNat + 2 ^ 32 * x3.toNat :=
      join_words x2 x3
    have hmk : (mk128 (join64 [x0, x1, x2, x3] 0) (join64 [x0, x1, x2, x3] 1)).toNat =
        (join64 [x0, x1, x2, x3] 0).toNat + 2 ^ 64 * (join64 [x0, x1, x2, x3] 1).toNat :=
      toNat_two _
    rw [hmk, hlow, hhigh]
    simp only [value_cons, value_nil]
    ring

/-! ### The three widths -/

/-- Both powers with the fixed 256-bit exponent are exact modulo `2 ^ 256 - 189`, for any two bases.
-/
theorem expfix256x2_spec (a b : U256) : ∃ ra rb, expfix256x2 a b = some (ra, rb) ∧
    ra.toNat = a.toNat ^ e256.toNat % (2 ^ 256 - 189) ∧
    rb.toNat = b.toNat ^ e256.toNat % (2 ^ 256 - 189) := by
  have hC : cM256.toUInt32.toNat < 2 ^ 16 := by decide
  have hmodulus : 2 ^ (32 * ops256.n) - cM256.toUInt32.toNat = 2 ^ 256 - 189 := by decide +kernel
  have hp : 2 ^ 256 - 189 + cM256.toNat = 2 ^ 256 := by decide +kernel
  have hcanonical (r : List UInt32) (hr : r.length = 8) :
      (norm256 (join256 r) cM256).toNat = value r % (2 ^ 256 - 189) := by
    rw [norm256_toNat _ hp, join256_toNat hr]
  obtain ⟨r, s, hrun, hfirst, hsecond⟩ := expPair_canonical ops256_exact hC hmodulus
    x256_wellFormed (fun a ↦ ⟨length_split256 a, split256_value a⟩) hcanonical a b
  rw [x256_exponent] at hfirst hsecond
  refine ⟨_, _, ?_, hfirst, hsecond⟩
  rw [expfix256x2, hrun]
  rfl

/-- Both powers with the fixed 128-bit exponent are exact modulo `2 ^ 128 - 159`, for any two bases.
-/
theorem expfix128x2_spec (a b : U128) : ∃ ra rb, expfix128x2 a b = some (ra, rb) ∧
    ra.toNat = a.toNat ^ e128.toNat % (2 ^ 128 - 159) ∧
    rb.toNat = b.toNat ^ e128.toNat % (2 ^ 128 - 159) := by
  have hC : cM128.toUInt32.toNat < 2 ^ 16 := by decide
  have hmodulus : 2 ^ (32 * ops128.n) - cM128.toUInt32.toNat = 2 ^ 128 - 159 := by decide +kernel
  have hp : 2 ^ 128 - 159 + cM128.toNat = 2 ^ 128 := by decide +kernel
  have hcanonical (r : List UInt32) (hr : r.length = 4) :
      (norm128 (mk128 (join64 r 0) (join64 r 1)) cM128).toNat = value r % (2 ^ 128 - 159) := by
    rw [norm128_toNat _ hp, join128_toNat hr]
  obtain ⟨r, s, hrun, hfirst, hsecond⟩ := expPair_canonical ops128_exact hC hmodulus
    x128_wellFormed (fun a ↦ ⟨length_split128 a, split128_value a⟩) hcanonical a b
  rw [x128_exponent] at hfirst hsecond
  refine ⟨_, _, ?_, hfirst, hsecond⟩
  rw [expfix128x2, hrun]
  rfl

/-- Both powers with the fixed 64-bit exponent are exact modulo `2 ^ 64 - 59`, for any two bases. -/
theorem expfix64x2_spec (a b : UInt64) : ∃ ra rb, expfix64x2 a b = some (ra, rb) ∧
    ra.toNat = a.toNat ^ e64.toNat % (2 ^ 64 - 59) ∧
    rb.toNat = b.toNat ^ e64.toNat % (2 ^ 64 - 59) := by
  have hC : cM64.toUInt32.toNat < 2 ^ 16 := by decide
  have hmodulus : 2 ^ (32 * ops64.n) - cM64.toUInt32.toNat = 2 ^ 64 - 59 := by decide +kernel
  have hp : 2 ^ 64 - 59 + cM64.toNat = 2 ^ 64 := by decide +kernel
  have hhalf : cM64.toNat ≤ 2 ^ 64 - 59 := by decide +kernel
  have hcanonical (r : List UInt32) (hr : r.length = 2) :
      (norm64 (join64 r 0) cM64).toNat = value r % (2 ^ 64 - 59) := by
    rw [norm64_toNat _ hp hhalf, join64_toNat hr]
  obtain ⟨r, s, hrun, hfirst, hsecond⟩ := expPair_canonical ops64_exact hC hmodulus
    x64_wellFormed (fun a ↦ ⟨rfl, split64_value a⟩) hcanonical a b
  rw [x64_exponent] at hfirst hsecond
  refine ⟨_, _, ?_, hfirst, hsecond⟩
  rw [expfix64x2, hrun]
  rfl

/-- The powers of the three widths, two at a time. For any two numbers, reduced or not, each comes
out as the canonical power with the fixed exponent, though every product on the way is only folded:
a fold carries at most one out of its second word, taking the carry in leaves `n` words with the
residue of the product, and each of the two chains is folded as if it were alone. The schedules
evaluate to the exponents. -/
theorem lazy_pairs_are_powers :
    (∀ a b : U256, ∃ ra rb, expfix256x2 a b = some (ra, rb) ∧
      ra.toNat = a.toNat ^ e256.toNat % (2 ^ 256 - 189) ∧
      rb.toNat = b.toNat ^ e256.toNat % (2 ^ 256 - 189)) ∧
    (∀ a b : U128, ∃ ra rb, expfix128x2 a b = some (ra, rb) ∧
      ra.toNat = a.toNat ^ e128.toNat % (2 ^ 128 - 159) ∧
      rb.toNat = b.toNat ^ e128.toNat % (2 ^ 128 - 159)) ∧
    (∀ a b : UInt64, ∃ ra rb, expfix64x2 a b = some (ra, rb) ∧
      ra.toNat = a.toNat ^ e64.toNat % (2 ^ 64 - 59) ∧
      rb.toNat = b.toNat ^ e64.toNat % (2 ^ 64 - 59)) ∧
    (∀ (n : ℕ) (C : UInt32) (t : List UInt32), 2 ≤ n → C.toNat < 2 ^ 16 → t.length = 2 * n →
      (foldN n t C).2.toNat ≤ 1 ∧ (folded n t C).length = n ∧
      value (folded n t C) ≡ value t [MOD 2 ^ (32 * n) - C.toNat]) ∧
    (∀ n C tr ts, pairFold n C tr ts = (folded n tr C, folded n ts C)) ∧
    (∀ r C, foldFix r 0 C = r) ∧
    x256.exponent = e256.toNat ∧ x128.exponent = e128.toNat ∧ x64.exponent = e64.toNat := by
  refine ⟨expfix256x2_spec, expfix128x2_spec, expfix64x2_spec, fun n C t hn hC hlength ↦ ?_,
    pairFold_eq, foldFix_zero, x256_exponent, x128_exponent, x64_exponent⟩
  obtain ⟨-, hcarry, -⟩ := foldN_spec hn hC hlength
  obtain ⟨hcount, hresidue⟩ := folded_spec hn hC hlength
  exact ⟨hcarry, hcount, hresidue⟩

/-- The square of the largest pair of words. -/
theorem lazy_pairs_at_two_words :
    (foldN 2 (mulN 2 [0xffffffff, 0xffffffff] [0xffffffff, 0xffffffff]) 59).2.toNat ≤ 1 ∧
      value (folded 2 (mulN 2 [0xffffffff, 0xffffffff] [0xffffffff, 0xffffffff]) 59) ≡
        value (mulN 2 [0xffffffff, 0xffffffff] [0xffffffff, 0xffffffff])
          [MOD 2 ^ (32 * 2) - (59 : UInt32).toNat] := by
  obtain ⟨-, -, -, hfold, -⟩ := lazy_pairs_are_powers
  obtain ⟨hcarry, -, hresidue⟩ := hfold 2 59
    (mulN 2 [0xffffffff, 0xffffffff] [0xffffffff, 0xffffffff]) le_rfl (by decide) (by decide)
  exact ⟨hcarry, hresidue⟩

end Bc3Miner.Kernel
