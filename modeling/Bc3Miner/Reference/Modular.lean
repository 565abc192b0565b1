import Bc3Miner.Foundations.WideCarry
import Bc3Miner.Reference.Words
import Mathlib.Data.ZMod.Basic

/-!
# The modular arithmetic of the reference implementation

`Mod<L, C>` of `bc3hash/vendor/bc3/uint.hpp`, arithmetic modulo `2 ^ (64 L) - C` for any number of
limbs and any small `C`. A product of `2 L` limbs is folded twice: the first carry is at most `C`
and the next at most one, and adding `C` for it does not carry again. `reduce_toNat` says that what
comes out is the canonical residue.

`Stands` relates a number to an element of `ZMod`, and is kept by products and by `normalize`; it is
the relation that the powers and inverses of the reference are stated with.
-/

set_option autoImplicit false
set_option relaxedAutoImplicit false

namespace Bc3Miner.Reference

open Foundations

variable {L : ℕ}

/-! ### Differences and comparisons -/

/-- One limb of `operator-`, with the borrow of the limb below it. -/
def subStep (a b : UInt64) (borrow : Bool) : UInt64 × Bool :=
  let t := b.toNat + borrow.toNat
  (a - t.toUInt64, decide (a.toNat < t))

instance : Sub (UInt L) := ⟨fun a b ↦ (Limbs.walk subStep a b false).1⟩

/-- `zero()`. -/
def UInt.zero (a : UInt L) : Bool := a.v.toList.foldl (· ||| ·) 0 == 0

/-- One step of a subtraction: the limb and the borrow that go out stand for the difference. -/
theorem subStep_difference (a b : UInt64) (borrow : Bool) :
    (subStep a b borrow).1.toNat + b.toNat + borrow.toNat =
      a.toNat + 2 ^ 64 * (subStep a b borrow).2.toNat := by
  have ha := a.toNat_lt
  have hb := b.toNat_lt
  have hborrow := borrow.toNat_le
  simp only [subStep, UInt64.toNat_sub, Nat.toUInt64_eq, UInt64.toNat_ofNat']
  by_cases hless : a.toNat < b.toNat + borrow.toNat
  · simp only [hless, decide_true, Bool.toNat_true]
    omega
  · simp only [hless, decide_false, Bool.toNat_false]
    omega

/-- A difference that wraps is `2 ^ (64 L)` more than the integers' one. -/
theorem toNat_sub (a b : UInt L) :
    (a - b).toNat + b.toNat = a.toNat + if a.toNat < b.toNat then 2 ^ (64 * L) else 0 := by
  have hdifference := Limbs.walk_difference Bool.toNat subStep_difference a b false
  have hlt := (a - b).toNat_lt
  have ha := a.toNat_lt
  have hb := b.toNat_lt
  change (a - b).toNat + b.toNat + 0 = _ at hdifference
  generalize (Limbs.walk subStep a b false).2 = borrow at hdifference
  rcases borrow with _ | _
  · rw [Bool.toNat_false, Nat.mul_zero] at hdifference
    rw [if_neg (by omega)]
    exact hdifference
  · rw [Bool.toNat_true, Nat.mul_one] at hdifference
    rw [if_pos (by omega)]
    exact hdifference

theorem toNat_sub_of_le {a b : UInt L} (hle : b.toNat ≤ a.toNat) :
    (a - b).toNat = a.toNat - b.toNat := by
  have hdifference := toNat_sub a b
  rw [if_neg (by omega)] at hdifference
  omega

/-- The test for zero is that of the number. -/
theorem zero_iff (a : UInt L) : a.zero = true ↔ a.toNat = 0 := by
  have hor : ∀ (limbs : List UInt64) (start : UInt64),
      limbs.foldl (· ||| ·) start = 0 ↔ start = 0 ∧ Limbs.value limbs = 0 := by
    intro limbs
    induction limbs with
    | nil => simp
    | cons limb limbs ih =>
      intro start
      have hlimb : limb = 0 ↔ limb.toNat = 0 := UInt64.toNat_inj.symm
      rw [List.foldl_cons, ih, UInt64.or_eq_zero_iff, Limbs.value_cons, hlimb, and_assoc]
      refine and_congr_right fun _ ↦ ?_
      omega
  rw [UInt.zero, beq_iff_eq, hor]
  exact and_iff_right rfl

/-! ### `Mod<L, C>` -/

namespace Mod

variable (C : UInt64)

/-- `2 ^ (64 L) - C`. -/
def modulus : UInt L := Limbs.ofFn fun i ↦ if i = 0 then 0xffffffffffffffff - (C - 1) else
  0xffffffffffffffff

def normalize (a : UInt L) : UInt L := if a.ge (modulus C) then a - modulus C else a

/-- What is above `L` limbs, back at the bottom as many times `C`, and canonical. If that fold
overflowed, adding `C` once more cannot overflow again. -/
def foldCarry (r : List UInt64) (carry : UInt64) : UInt L :=
  let (r, carry) := Limbs.addWide r (carry.toNat * C.toNat)
  let r : UInt L := Limbs.ofList r
  let r := if carry ≠ 0 then r + UInt.ofWord C else r
  normalize C r

/-- `t` of `2 L` limbs modulo `2 ^ (64 L) - C`. -/
def reduce (t : List UInt64) : UInt L :=
  let (r, carry) := Limbs.mulAddPass C (t.drop L) (t.take L) 0
  foldCarry C r carry

def mul (a b : UInt L) : UInt L :=
  reduce C (Limbs.mulRows b.v.toList a.v.toList (List.replicate L 0))

def square (a : UInt L) : UInt L := mul C a a

/-! ### The canonical residue -/

/-- What the folds rely on: there is a limb, and `C` is small. -/
structure Small (L : ℕ) (C : UInt64) : Prop where
  limbs : 0 < L
  pos : 0 < C.toNat
  small : C.toNat < 2 ^ 32

variable {C} (hsmall : Small L C)

include hsmall

theorem Small.le_bound : 2 ^ 64 ≤ 2 ^ (64 * L) := by
  have hlimbs := hsmall.limbs
  exact Nat.pow_le_pow_right (by norm_num) (by omega)

/-- The modulus is its constant short of the power of two above it. -/
theorem toNat_modulus : (modulus C : UInt L).toNat + C.toNat = 2 ^ (64 * L) := by
  obtain ⟨hlimbs, hpos, hC⟩ := hsmall
  obtain ⟨rest, rfl⟩ : ∃ rest, L = rest + 1 := ⟨L - 1, by omega⟩
  have hones : ∀ count : ℕ,
      Limbs.value (List.replicate count 0xffffffffffffffff) + 1 = 2 ^ (64 * count) := by
    intro count
    induction count with
    | zero => rfl
    | succ count ih =>
      have hword : (0xffffffffffffffff : UInt64).toNat = 2 ^ 64 - 1 := rfl
      rw [List.replicate_succ, Limbs.value_cons, hword, Nat.mul_succ, pow_add, ← ih]
      omega
  have hlist : (modulus C : UInt (rest + 1)).v.toList =
      (0xffffffffffffffff - (C - 1)) :: List.replicate rest 0xffffffffffffffff := by
    refine List.ext_getElem (by simp) fun i hi hi' ↦ ?_
    rcases i with _ | i
    · simp [modulus, Limbs.ofFn]
    · simp [modulus, Limbs.ofFn]
  have hlow : (0xffffffffffffffff - (C - 1)).toNat = 2 ^ 64 - C.toNat := by
    simp only [UInt64.toNat_sub, UInt64.reduceToNat]
    omega
  have hrest := hones rest
  rw [Limbs.toNat, hlist, Limbs.value_cons, hlow, Nat.mul_succ, pow_add, ← hrest]
  omega

/-- A number of one word has the value of that word. -/
theorem toNat_ofWord (word : UInt64) : (UInt.ofWord word : UInt L).toNat = word.toNat := by
  obtain ⟨rest, rfl⟩ : ∃ rest, L = rest + 1 := ⟨L - 1, by have := hsmall.limbs; omega⟩
  have hlist : (UInt.ofWord word : UInt (rest + 1)).v.toList = word :: List.replicate rest 0 := by
    refine List.ext_getElem (by simp) fun i hi hi' ↦ ?_
    rcases i with _ | i
    · simp [UInt.ofWord, Limbs.ofFn]
    · simp [UInt.ofWord, Limbs.ofFn]
  have hzeros (count : ℕ) : Limbs.value (List.replicate count 0) = 0 := by
    induction count with
    | zero => rfl
    | succ count ih =>
      rw [List.replicate_succ, Limbs.value_cons, ih]
      rfl
  rw [Limbs.toNat, hlist, Limbs.value_cons, hzeros, Nat.mul_zero, Nat.add_zero]

/-- The last subtraction gives the residue, since every number is below twice the modulus. -/
theorem normalize_toNat (a : UInt L) :
    (normalize C a).toNat = a.toNat % (modulus C : UInt L).toNat := by
  have hmodulus := toNat_modulus hsmall
  have hbound := hsmall.le_bound
  have hC := hsmall.small
  have ha := a.toNat_lt
  unfold normalize
  by_cases hge : a.ge (modulus C) = true
  · have hle := (Limbs.ge_iff a (modulus C)).mp hge
    rw [if_pos hge, toNat_sub_of_le hle, Nat.mod_eq_sub_mod hle, Nat.mod_eq_of_lt (by omega)]
  · have hlt := mt (Limbs.ge_iff a (modulus C)).mpr hge
    rw [if_neg hge, Nat.mod_eq_of_lt (by omega)]

/-- A carry that is small next to the modulus folds once, and the carry of that fold is at most one;
what it leaves then is small. -/
theorem foldCarry_toNat {r : List UInt64} (hlength : r.length = L) {carry : UInt64}
    (hcarry : carry.toNat * C.toNat + C.toNat ≤ 2 ^ (64 * L)) :
    (foldCarry C r carry : UInt L).toNat =
      (Limbs.value r + 2 ^ (64 * L) * carry.toNat) % (modulus C : UInt L).toNat := by
  have hmodulus := toNat_modulus hsmall
  have hbound := hsmall.le_bound
  have hC := hsmall.small
  have hrlt := Limbs.value_lt r
  have hcarrylt := carry.toNat_lt
  have hproduct : carry.toNat * C.toNat ≤ 2 ^ 64 * 2 ^ 32 :=
    Nat.mul_le_mul (by omega) (by omega)
  have hsecond := Limbs.addWide_sum r (by omega : carry.toNat * C.toNat + 2 ^ 64 ≤ 2 ^ 128)
  have hcount := Limbs.length_addWide r (carry.toNat * C.toNat)
  unfold foldCarry
  generalize Limbs.addWide r (carry.toNat * C.toNat) = second at hsecond hcount
  obtain ⟨r', carry'⟩ := second
  rw [hlength] at hrlt hsecond hcount
  dsimp only at hsecond hcount ⊢
  have hr'lt := Limbs.value_lt r'
  rw [hcount] at hr'lt
  have hvalue := Limbs.toNat_ofList hcount
  have htotal : Limbs.value r + 2 ^ (64 * L) * carry.toNat =
      Limbs.value r' + 2 ^ (64 * L) * carry' + (modulus C : UInt L).toNat * carry.toNat := by
    rw [← hmodulus] at hsecond ⊢
    linear_combination -hsecond
  rw [normalize_toNat hsmall, htotal, Nat.add_mul_mod_self_left]
  rcases Nat.eq_zero_or_pos carry' with hnone | hsome
  · rw [hnone, if_neg (not_not_intro rfl), Nat.mul_zero, Nat.add_zero, hvalue]
  · have hone : carry' = 1 := by
      by_contra hne
      have htwice : 2 ^ (64 * L) * 2 ≤ 2 ^ (64 * L) * carry' := Nat.mul_le_mul_left _ (by omega)
      omega
    subst hone
    rw [Nat.mul_one] at hsecond
    have hlast : ((Limbs.ofList r' : UInt L) + UInt.ofWord C).toNat =
        Limbs.value r' + C.toNat := by
      rw [toNat_add, hvalue, toNat_ofWord hsmall, Nat.mod_eq_of_lt (by omega)]
    rw [if_pos Nat.one_ne_zero, hlast, Nat.mul_one, ← hmodulus, Nat.add_comm (modulus C).toNat,
      ← Nat.add_assoc, Nat.add_mod_right]

/-- The two folds keep the residue; the first carry is at most `C`. -/
theorem reduce_toNat {t : List UInt64} (hlength : t.length = 2 * L) :
    (reduce C t : UInt L).toNat = Limbs.value t % (modulus C : UInt L).toNat := by
  have hmodulus := toNat_modulus hsmall
  have hbound := hsmall.le_bound
  have hC := hsmall.small
  have hlow : (t.take L).length = L := by
    rw [List.length_take]
    omega
  have hhigh : (t.drop L).length = L := by
    rw [List.length_drop]
    omega
  have hsplit := Limbs.value_append (t.take L) (t.drop L)
  rw [List.take_append_drop, hlow] at hsplit
  have hlowlt := Limbs.value_lt (t.take L)
  have hhighlt := Limbs.value_lt (t.drop L)
  rw [hlow] at hlowlt
  rw [hhigh] at hhighlt
  have hsum := Limbs.mulAddPass_sum C 0 (hhigh.trans hlow.symm)
  have hcount := Limbs.length_mulAddPass C 0 (hhigh.trans hlow.symm)
  rw [hhigh] at hsum hcount
  unfold reduce
  generalize Limbs.mulAddPass C (t.drop L) (t.take L) 0 = first at hsum hcount
  obtain ⟨r, carry⟩ := first
  have hzero : (0 : UInt64).toNat = 0 := rfl
  simp only [hzero, Nat.add_zero] at hsum hcount ⊢
  have hrlt := Limbs.value_lt r
  rw [hcount] at hrlt
  have hcarry : carry.toNat ≤ C.toNat := by
    have hproduct : Limbs.value (t.drop L) * C.toNat ≤ (2 ^ (64 * L) - 1) * C.toNat :=
      Nat.mul_le_mul_right _ (by omega)
    rw [Nat.sub_mul, Nat.one_mul] at hproduct
    have hpos := hsmall.pos
    have hscaled : C.toNat ≤ 2 ^ (64 * L) * C.toNat := Nat.le_mul_of_pos_left _ (by positivity)
    by_contra hmore
    have hover : 2 ^ (64 * L) * (C.toNat + 1) ≤ 2 ^ (64 * L) * carry.toNat :=
      Nat.mul_le_mul_left _ (by omega)
    rw [Nat.mul_succ] at hover
    omega
  have hproduct : carry.toNat * C.toNat ≤ (2 ^ 32 - 1) * (2 ^ 32 - 1) :=
    Nat.mul_le_mul (by omega) (by omega)
  have htotal : Limbs.value t = Limbs.value r + 2 ^ (64 * L) * carry.toNat +
      (modulus C : UInt L).toNat * Limbs.value (t.drop L) := by
    rw [hsplit, ← hmodulus]
    rw [← hmodulus] at hsum
    linear_combination -hsum
  rw [foldCarry_toNat hsmall hcount (by omega), htotal, Nat.add_mul_mod_self_left]

/-- The product of two numbers is the residue of the product, whether they are canonical or not. -/
theorem mul_toNat (a b : UInt L) :
    (mul C a b).toNat = a.toNat * b.toNat % (modulus C : UInt L).toNat := by
  have hlimbs := hsmall.limbs
  have hne : b.v.toList ≠ [] := by
    rw [← List.length_pos_iff, Vector.length_toList]
    exact hlimbs
  have hwindow : (List.replicate L (0 : UInt64)).length = b.v.toList.length := by
    rw [List.length_replicate, Vector.length_toList]
  have hzeros : Limbs.value (List.replicate L 0) = 0 := by
    have hzero := toNat_ofWord hsmall (L := L) 0
    have hlist : (UInt.ofWord 0 : UInt L).v.toList = List.replicate L 0 := by
      refine List.ext_getElem (by simp) fun i hi hi' ↦ ?_
      simp [UInt.ofWord, Limbs.ofFn]
    rwa [Limbs.toNat, hlist] at hzero
  obtain ⟨hlength, hvalue⟩ := Limbs.mulRows_spec b.v.toList hne a.v.toList hwindow
  rw [Vector.length_toList, Vector.length_toList, ← Nat.two_mul] at hlength
  rw [mul, reduce_toNat hsmall hlength, hvalue, hzeros, Nat.add_zero]
  rfl

end Mod

/-! ### Residues -/

open Bc3Miner.Reference.Mod

/-- A canonical number and what it is modulo `p`. -/
structure Stands (p : ℕ) (x : UInt L) (a : ZMod p) : Prop where
  canonical : x.toNat < p
  residue : (x.toNat : ZMod p) = a

theorem Stands.toNat_eq {p : ℕ} {x : UInt L} {a e : ℕ} (hx : Stands p x ((a : ZMod p) ^ e)) :
    x.toNat = a ^ e % p := by
  have hsame := hx.residue
  rw [← Nat.cast_pow, ZMod.natCast_eq_natCast_iff', Nat.mod_eq_of_lt hx.canonical] at hsame
  exact hsame

/-- There is one canonical number for a residue. -/
theorem Stands.unique {p : ℕ} {x y : UInt L} {a : ZMod p} (hx : Stands p x a)
    (hy : Stands p y a) : x = y := by
  have hsame := hx.residue.trans hy.residue.symm
  rw [ZMod.natCast_eq_natCast_iff', Nat.mod_eq_of_lt hx.canonical,
    Nat.mod_eq_of_lt hy.canonical] at hsame
  exact Limbs.toNat_injective hsame

section Residues

variable {C : UInt64} (hsmall : Small L C)

include hsmall

theorem two_le_modulus : 2 ≤ (modulus C : UInt L).toNat := by
  have hmodulus := toNat_modulus hsmall
  have hbound := hsmall.le_bound
  have hC := hsmall.small
  omega

theorem modulus_eq : (modulus C : UInt L).toNat = 2 ^ (64 * L) - C.toNat := by
  have hmodulus := toNat_modulus hsmall
  omega

/-- A number after its last subtraction stands for its residue. -/
theorem stands_normalize (a : UInt L) :
    Stands (modulus C : UInt L).toNat (normalize C a)
      (a.toNat : ZMod (modulus C : UInt L).toNat) := by
  have hp := two_le_modulus hsmall
  rw [← ZMod.natCast_mod, ← normalize_toNat hsmall]
  refine ⟨?_, rfl⟩
  rw [normalize_toNat hsmall]
  exact Nat.mod_lt _ (by omega)

theorem stands_one : Stands (modulus C : UInt L).toNat (UInt.ofWord 1 : UInt L) 1 := by
  have hp := two_le_modulus hsmall
  have hone : (UInt.ofWord 1 : UInt L).toNat = 1 := toNat_ofWord hsmall 1
  exact ⟨by rw [hone]; omega, by rw [hone, Nat.cast_one]⟩

/-- A product is canonical, whether its factors are or not. -/
theorem stands_mul {x y : UInt L} {a b : ZMod (modulus C : UInt L).toNat}
    (hx : (x.toNat : ZMod (modulus C : UInt L).toNat) = a)
    (hy : (y.toNat : ZMod (modulus C : UInt L).toNat) = b) :
    Stands (modulus C : UInt L).toNat (Mod.mul C x y) (a * b) := by
  have hp := two_le_modulus hsmall
  have hproduct := mul_toNat hsmall x y
  refine ⟨?_, ?_⟩
  · rw [hproduct]
    exact Nat.mod_lt _ (by omega)
  · rw [hproduct, ZMod.natCast_mod, Nat.cast_mul, hx, hy]

theorem Stands.mul {x y : UInt L} {a b : ZMod (modulus C : UInt L).toNat}
    (hx : Stands (modulus C : UInt L).toNat x a) (hy : Stands (modulus C : UInt L).toNat y b) :
    Stands (modulus C : UInt L).toNat (Mod.mul C x y) (a * b) :=
  stands_mul hsmall hx.residue hy.residue

end Residues

end Bc3Miner.Reference
