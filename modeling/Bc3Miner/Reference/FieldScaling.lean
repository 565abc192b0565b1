import Bc3Miner.Kernel.FieldInverses
import Bc3Miner.Reference.Modular

/-!
# Sums, multiples and halves modulo `2 ^ 256 - 36113`

The helpers of `inverse256` in `bc3hash/vendor/bc3/mix.cpp`: `add_mod`, `subtract_mod`, `scale_mod`,
`divide_power2_mod`, and `linear_positive` over five limbs. Each keeps canonical numbers canonical;
the division by a power of two adds the multiple of the modulus that makes it exact, and the
combination is exact where it is not negative.

`shift_right` and `divide_power2_mod` shift words by `n` and by `64 - n`, and a shift of a word by
64 bits or more means nothing in C++. They have no value here for a count of 0 or above 64, so an
inversion that returns has shifted by 1 to 64 bits only.

The numbers are canonical where a lemma says so and any otherwise. `dividePower2Mod_stands` is the
division in the field: what comes out, times the power of two, is what went in.
-/

set_option autoImplicit false
set_option relaxedAutoImplicit false

namespace Bc3Miner.Reference

open Foundations
open Bc3Miner.Kernel (f256P f256P_prime toNat_mk256 eq_mk256)
open Bc3Miner.Reference.Mod

/-! ### The helpers -/

/-- `shift_right`; nothing where it shifts a word by 64 bits or more. -/
def shiftRight (x : UInt 4) (n : ℕ) : Option (UInt 4) :=
  if n = 64 then some (Limbs.ofFn fun i ↦ if i < 3 then x.limb (i + 1) else 0)
  else if 0 < n ∧ n < 64 then
    some (Limbs.ofFn fun i ↦
      if i < 3 then (x.limb i >>> n.toUInt64) ||| (x.limb (i + 1) <<< (64 - n).toUInt64)
      else x.limb i >>> n.toUInt64)
  else none

/-- `inverse_odd64`. -/
def inverseOdd64 (x : UInt64) : UInt64 :=
  (fun y ↦ y * (2 - x * y))^[6] 1

/-- The bits above those that were shifted down, as they end in `x.v[3]`. -/
def joinTop (x : UInt 4) (top : UInt64) (n : ℕ) : UInt 4 :=
  Limbs.ofFn fun i ↦ if i = 3 then x.limb 3 ||| (top <<< (64 - n).toUInt64) else x.limb i

/-- `correction`, `q * 36113` in two limbs. -/
def correction (q : UInt64) : UInt 4 :=
  let product := q.toNat * 36113
  Limbs.ofFn fun i ↦
    if i = 0 then product.toUInt64 else if i = 1 then (product >>> 64).toUInt64 else 0

/-- `divide_power2_mod`; nothing where `shift_right` gives nothing. -/
def dividePower2Mod (x : UInt 4) (n : ℕ) : Option (UInt 4) :=
  let q := x.limb 0 * inverseOdd64 36113
  let q := if n < 64 then q &&& ((1 <<< n.toUInt64) - 1) else q
  let borrow := !x.ge (correction q)
  (shiftRight (x - correction q) n).map fun x ↦ joinTop x (q - borrow.toUInt64) n

/-- `subtract_mod`. -/
def subtractMod (x y : UInt 4) : UInt 4 :=
  if x.ge y then x - y else modulus 36113 - (y - x)

/-- `magnitude`, the factor's absolute value as an unsigned number. -/
def magnitude (factor : ℤ) : UInt64 := UInt64.ofInt (if factor < 0 then -factor else factor)

/-- `scale_mod`. -/
def scaleMod (x : UInt 4) (factor : ℤ) : UInt 4 :=
  let (r, carry) := Limbs.scale (magnitude factor) x.v.toList 0
  let x : UInt 4 := foldCarry 36113 r carry
  if factor < 0 ∧ x.zero = false then modulus 36113 - x else x

/-- `add_mod`. -/
def addMod (x y : UInt 4) : UInt 4 :=
  let sum := x + y
  normalize 36113 (sum + if sum.ge x then UInt.ofWord 0 else UInt.ofWord 36113)

/-- `scale_wide`. -/
def scaleWide (x : UInt 4) (factor : ℤ) : UInt 5 :=
  let (r, carry) := Limbs.scale (magnitude factor) x.v.toList 0
  Limbs.ofList (r ++ [carry])

/-- `linear_positive`. -/
def linearPositive (u v : UInt 4) (a b : ℤ) : UInt 4 :=
  let au := scaleWide u a
  let bv := scaleWide v b
  UInt.ofUInt (if a < 0 then bv - au else if b < 0 then au - bv else au + bv)

/-! ### The modulus -/

theorem small256 : Small 4 36113 := ⟨by decide, by decide, by decide⟩

theorem toNat_modulus256 : (modulus 36113 : UInt 4).toNat = f256P := by
  rw [modulus_eq small256]
  rfl

instance : Fact f256P.Prime := ⟨f256P_prime⟩

theorem f256P_lt : f256P < 2 ^ 256 := by decide +kernel

theorem stands_of_eq {x : UInt 4} {n : ℕ} (hx : x.toNat = n % f256P) : Stands f256P x n := by
  refine ⟨?_, ?_⟩
  · rw [hx]
    exact Nat.mod_lt _ f256P_prime.pos
  · rw [hx, ZMod.natCast_mod]

/-! ### Sums and multiples -/

/-- A sum of canonical numbers is the canonical sum. -/
theorem addMod_stands {x y : UInt 4} {a b : ZMod f256P} (hx : Stands f256P x a)
    (hy : Stands f256P y b) : Stands f256P (addMod x y) (a + b) := by
  have hlt := f256P_lt
  have hxlt := hx.canonical
  have hylt := hy.canonical
  have hC : (UInt.ofWord 36113 : UInt 4).toNat = 36113 := toNat_ofWord small256 36113
  have hp : f256P + 36113 = 2 ^ 256 := by decide +kernel
  have hsum : (x + y).toNat = (x.toNat + y.toNat) % 2 ^ 256 := toNat_add x y
  have hvalue : (addMod x y).toNat = (x.toNat + y.toNat) % f256P := by
    unfold addMod
    dsimp only
    rw [normalize_toNat small256, toNat_modulus256, toNat_add]
    by_cases hge : (x + y).ge x = true
    · have hle := (Limbs.ge_iff _ _).mp hge
      rw [if_pos hge, toNat_ofWord_zero, Nat.add_zero]
      rw [hsum] at hle ⊢
      rw [Nat.mod_mod, Nat.mod_eq_of_lt (a := x.toNat + y.toNat) (by omega)]
    · have hless := mt (Limbs.ge_iff _ _).mpr hge
      rw [if_neg hge, hC]
      rw [hsum] at hless ⊢
      have hover : 2 ^ 256 ≤ x.toNat + y.toNat := by
        by_contra hfits
        rw [Nat.mod_eq_of_lt (by omega)] at hless
        omega
      have hrest : (x.toNat + y.toNat) % 2 ^ 256 = x.toNat + y.toNat - 2 ^ 256 := by
        rw [Nat.mod_eq_sub_mod hover, Nat.mod_eq_of_lt (by omega)]
      rw [hrest, Nat.mod_eq_of_lt (by omega : _ < 2 ^ (64 * 4)), Nat.mod_eq_of_lt (by omega),
        Nat.mod_eq_sub_mod (by omega), Nat.mod_eq_of_lt (by omega)]
      omega
  have hstands := stands_of_eq hvalue
  rwa [Nat.cast_add, hx.residue, hy.residue] at hstands

/-- A difference of canonical numbers is the canonical difference. -/
theorem subtractMod_stands {x y : UInt 4} {a b : ZMod f256P} (hx : Stands f256P x a)
    (hy : Stands f256P y b) : Stands f256P (subtractMod x y) (a - b) := by
  have hxlt := hx.canonical
  have hylt := hy.canonical
  unfold subtractMod
  by_cases hge : x.ge y = true
  · have hle := (Limbs.ge_iff x y).mp hge
    have hvalue := toNat_sub_of_le hle
    rw [if_pos hge]
    refine ⟨by omega, ?_⟩
    rw [hvalue, Nat.cast_sub hle, hx.residue, hy.residue]
  · have hlt := mt (Limbs.ge_iff x y).mpr hge
    have hle : x.toNat ≤ y.toNat := by omega
    have hvalue := toNat_sub_of_le hle
    have hmodulus : (y - x).toNat ≤ (modulus 36113 : UInt 4).toNat := by
      rw [toNat_modulus256]
      omega
    have hresult := toNat_sub_of_le hmodulus
    rw [toNat_modulus256] at hresult hmodulus
    rw [if_neg hge]
    refine ⟨by omega, ?_⟩
    rw [hresult, Nat.cast_sub hmodulus, ZMod.natCast_self, hvalue, Nat.cast_sub hle, hx.residue,
      hy.residue]
    ring

/-- The magnitude of a factor below `2 ^ 63` is its absolute value. -/
theorem toNat_magnitude {factor : ℤ} (hfactor : factor.natAbs < 2 ^ 63) :
    (magnitude factor).toNat = factor.natAbs := by
  have habs : (if factor < 0 then -factor else factor) = (factor.natAbs : ℤ) := by
    split_ifs with hsign <;> omega
  rw [magnitude, habs, UInt64.ofInt, UInt64.toNat_ofNat']
  omega

/-- Scaling by the magnitude of a factor is exact, with a limb for what goes out at the top. -/
theorem scale_magnitude (x : UInt 4) {factor : ℤ} (hfactor : factor.natAbs < 2 ^ 63) :
    Limbs.value (Limbs.scale (magnitude factor) x.v.toList 0).1 +
        2 ^ 256 * (Limbs.scale (magnitude factor) x.v.toList 0).2.toNat =
      x.toNat * factor.natAbs := by
  have hsum := Limbs.scale_sum (magnitude factor) x.v.toList 0
  have hzero : (0 : UInt64).toNat = 0 := rfl
  rw [Vector.length_toList, toNat_magnitude hfactor, hzero, Nat.add_zero] at hsum
  exact hsum

/-- Scaling a canonical number by a signed factor below `2 ^ 63` is the canonical product. -/
theorem scaleMod_stands {x : UInt 4} {a : ZMod f256P} (hx : Stands f256P x a) {factor : ℤ}
    (hfactor : factor.natAbs < 2 ^ 63) : Stands f256P (scaleMod x factor) (factor * a) := by
  have hsum := scale_magnitude x hfactor
  have hlength := Limbs.length_scale (magnitude factor) x.v.toList 0
  rw [Vector.length_toList] at hlength
  unfold scaleMod
  generalize Limbs.scale (magnitude factor) x.v.toList 0 = scaled at hsum hlength
  obtain ⟨r, carry⟩ := scaled
  dsimp only at hsum hlength ⊢
  have hcarry := carry.toNat_lt
  have hC : (36113 : UInt64).toNat = 36113 := rfl
  have hfits : carry.toNat * (36113 : UInt64).toNat + (36113 : UInt64).toNat ≤ 2 ^ (64 * 4) := by
    rw [hC]
    omega
  have hfold := foldCarry_toNat small256 hlength hfits
  rw [toNat_modulus256, hsum] at hfold
  have hstands := stands_of_eq hfold
  rw [Nat.cast_mul, hx.residue] at hstands
  generalize (foldCarry 36113 r carry : UInt 4) = y at hstands
  by_cases hsign : factor < 0
  · have hfactorAbs : (factor : ZMod f256P) = -(factor.natAbs : ZMod f256P) := by
      have habs : factor = -(factor.natAbs : ℤ) := by omega
      conv_lhs => rw [habs]
      rw [Int.cast_neg, Int.cast_natCast]
    by_cases hzero : y.zero = true
    · have hnone := (zero_iff y).mp hzero
      rw [if_neg (by simp [hzero])]
      refine ⟨hstands.canonical, ?_⟩
      have hresidue := hstands.residue
      rw [hnone, Nat.cast_zero] at hresidue
      rw [hnone, Nat.cast_zero, hfactorAbs]
      linear_combination -hresidue
    · have hpos : y.toNat ≠ 0 := mt (zero_iff y).mpr hzero
      have hcanonical := hstands.canonical
      have hle : y.toNat ≤ (modulus 36113 : UInt 4).toNat := by
        rw [toNat_modulus256]
        omega
      have hvalue := toNat_sub_of_le hle
      rw [toNat_modulus256] at hvalue hle
      rw [if_pos ⟨hsign, by simpa using hzero⟩]
      refine ⟨by omega, ?_⟩
      rw [hvalue, Nat.cast_sub hle, ZMod.natCast_self, hstands.residue, hfactorAbs]
      ring
  · rw [if_neg (by simp [hsign])]
    have hfactorAbs : (factor : ZMod f256P) = (factor.natAbs : ZMod f256P) := by
      have habs : factor = (factor.natAbs : ℤ) := by omega
      conv_lhs => rw [habs]
      rw [Int.cast_natCast]
    rwa [hfactorAbs, mul_comm]

/-! ### Halves -/

/-- By 1 to 64 bits there is a value, the quotient by the power of two. -/
theorem shiftRight_spec (x : UInt 4) {n : ℕ} (hpos : 0 < n) (hn : n ≤ 64) :
    ∃ r, shiftRight x n = some r ∧ r.toNat = x.toNat / 2 ^ n := by
  obtain ⟨r, hr⟩ : ∃ r, shiftRight x n = some r := by
    unfold shiftRight
    by_cases hword : n = 64
    · exact ⟨_, if_pos hword⟩
    · exact ⟨_, (if_neg hword).trans (if_pos ⟨hpos, by omega⟩)⟩
  refine ⟨r, hr, ?_⟩
  unfold shiftRight at hr
  have hlimb : ∀ i < 4, (r.limb i).toNat = x.toNat / 2 ^ n / 2 ^ (64 * i) % 2 ^ 64 := by
    intro i hi
    rw [Nat.div_div_eq_div_mul, ← pow_add]
    by_cases hword : n = 64
    · rw [if_pos hword] at hr
      have hnext : x.limb (i + 1) = if i < 3 then x.limb (i + 1) else 0 := by
        split_ifs with hlow
        · rfl
        · exact List.getD_eq_default _ _ (by rw [Vector.length_toList]; omega)
      rw [← Option.some.inj hr, Limbs.limb_ofFn _ hi, ← hnext, Limbs.toNat_limb_div, hword]
      congr 3
      omega
    · rw [if_neg hword, if_pos ⟨hpos, by omega⟩] at hr
      have hindex : (n + 64 * i) >>> 6 = i := by
        rw [Nat.shiftRight_eq_div_pow]
        omega
      have hshift : (n + 64 * i) &&& 63 = n := by
        rw [Nat.and_two_pow_sub_one_eq_mod (n + 64 * i) 6]
        omega
      rw [← Option.some.inj hr, Limbs.limb_ofFn _ hi, ← Limbs.window_toNat x (by omega),
        Limbs.window, hindex, hshift]
      by_cases hlow : i < 3
      · rw [if_pos hlow, if_pos ⟨by omega, by omega⟩]
      · rw [if_neg hlow, if_neg (by omega)]
  rw [Limbs.toNat_of_limb hlimb]
  exact Nat.mod_eq_of_lt ((Nat.div_le_self _ _).trans_lt x.toNat_lt)

theorem inverseOdd64_mul : (36113 * inverseOdd64 36113).toNat = 1 := by decide +kernel

theorem toNat_four (x : UInt 4) : x.toNat =
    (x.limb 0).toNat + 2 ^ 64 * (x.limb 1).toNat + 2 ^ 128 * (x.limb 2).toNat +
      2 ^ 192 * (x.limb 3).toNat := by
  conv_lhs => rw [eq_mk256 x]
  exact toNat_mk256 _ _ _ _

/-- The lowest bits of the multiple that is taken off. -/
theorem quotient_spec (x : UInt 4) {n : ℕ} (hn : n ≤ 64) {q : UInt64}
    (hq : q = if n < 64 then (x.limb 0 * inverseOdd64 36113) &&& ((1 <<< n.toUInt64) - 1)
      else x.limb 0 * inverseOdd64 36113) :
    q.toNat < 2 ^ n ∧ q.toNat * 36113 ≡ x.toNat [MOD 2 ^ n] := by
  have hdvd : 2 ^ n ∣ 2 ^ 64 := pow_dvd_pow 2 hn
  have hmask : q.toNat = (x.limb 0 * inverseOdd64 36113).toNat % 2 ^ n := by
    rw [hq]
    split_ifs with hless
    · have hcount : n.toUInt64.toNat % 64 = n := by
        rw [Nat.toUInt64_eq, UInt64.toNat_ofNat']
        omega
      have hpow : 2 ^ n ≤ 2 ^ 63 := Nat.pow_le_pow_right (by norm_num) (by omega)
      have hpos := Nat.two_pow_pos n
      have hbit : ((1 : UInt64) <<< n.toUInt64).toNat = 2 ^ n := by
        have hone : (1 : UInt64).toNat = 1 := rfl
        rw [UInt64.toNat_shiftLeft, hcount, hone, Nat.shiftLeft_eq, Nat.one_mul,
          Nat.mod_eq_of_lt (by omega)]
      have hones : ((1 : UInt64) <<< n.toUInt64 - 1).toNat = 2 ^ n - 1 := by
        rw [UInt64.toNat_sub_of_le _ _ (by rw [UInt64.le_iff_toNat_le, hbit]; exact hpos), hbit]
        rfl
      rw [UInt64.toNat_and, hones, Nat.and_two_pow_sub_one_eq_mod]
    · obtain rfl : n = 64 := by omega
      exact (Nat.mod_eq_of_lt (UInt64.toNat_lt _)).symm
  refine ⟨by rw [hmask]; exact Nat.mod_lt _ (Nat.two_pow_pos n), ?_⟩
  have hlow : (x.limb 0).toNat ≡ x.toNat [MOD 2 ^ n] := by
    rw [Limbs.toNat_limb_div, Nat.mul_zero, pow_zero, Nat.div_one]
    exact (Nat.mod_modEq x.toNat (2 ^ 64)).of_dvd hdvd
  have hone : (inverseOdd64 36113).toNat * 36113 ≡ 1 [MOD 2 ^ n] := by
    have hword := inverseOdd64_mul
    rw [UInt64.toNat_mul] at hword
    have hcongruent : (36113 : UInt64).toNat * (inverseOdd64 36113).toNat ≡ 1 [MOD 2 ^ 64] := hword
    rw [Nat.mul_comm]
    exact hcongruent.of_dvd hdvd
  have hproduct : q.toNat ≡ (x.limb 0).toNat * (inverseOdd64 36113).toNat [MOD 2 ^ n] := by
    rw [hmask, UInt64.toNat_mul]
    exact (Nat.mod_modEq _ _).trans ((Nat.mod_modEq _ (2 ^ 64)).of_dvd hdvd)
  have hscaled := hproduct.mul_right 36113
  rw [Nat.mul_assoc] at hscaled
  have hlast := hone.mul_left (x.limb 0).toNat
  rw [Nat.mul_one] at hlast
  exact hscaled.trans (hlast.trans hlow)

/-- A word put above the bits that a shift has emptied adds its value there. -/
theorem joinTop_toNat (x : UInt 4) {top : UInt64} {n : ℕ} (hn : n ≤ 64) (htop : top.toNat < 2 ^ n)
    (hx : x.toNat < 2 ^ (256 - n)) :
    (joinTop x top n).toNat = x.toNat + 2 ^ (256 - n) * top.toNat := by
  have hpow : 2 ^ 64 = 2 ^ (64 - n) * 2 ^ n := by
    rw [← pow_add, Nat.sub_add_cancel hn]
  have hwide : 2 ^ (256 - n) = 2 ^ 192 * 2 ^ (64 - n) := by
    rw [← pow_add]
    congr 1
    omega
  have hx4 := toNat_four x
  have hsmall : (x.limb 3).toNat < 2 ^ (64 - n) := by
    rw [hwide] at hx
    exact Nat.lt_of_mul_lt_mul_left (a := 2 ^ 192) (by omega)
  have hscaled : top.toNat * 2 ^ (64 - n) < 2 ^ 64 := by
    rw [hpow, Nat.mul_comm]
    exact Nat.mul_lt_mul_of_pos_left htop (Nat.two_pow_pos _)
  have hshift : (top <<< (64 - n).toUInt64).toNat = 2 ^ (64 - n) * top.toNat := by
    rcases Nat.eq_zero_or_pos n with rfl | hpos
    · rw [Nat.pow_zero] at htop
      obtain rfl : top = 0 := UInt64.toNat_inj.mp (by simpa using htop)
      simp
    · have hcount : (64 - n).toUInt64.toNat % 64 = 64 - n := by
        rw [Nat.toUInt64_eq, UInt64.toNat_ofNat']
        omega
      rw [UInt64.toNat_shiftLeft, hcount, Nat.shiftLeft_eq, Nat.mod_eq_of_lt hscaled, Nat.mul_comm]
  have hjoined : (x.limb 3 ||| top <<< (64 - n).toUInt64).toNat =
      (x.limb 3).toNat + 2 ^ (64 - n) * top.toNat := by
    rw [UInt64.toNat_or, hshift, Nat.or_comm, ← Nat.two_pow_add_eq_or_of_lt hsmall, Nat.add_comm]
  have hlow : ∀ i < 3, (joinTop x top n).limb i = x.limb i := by
    intro i hi
    rw [joinTop, Limbs.limb_ofFn _ (by omega), if_neg (by omega)]
  have htopLimb : (joinTop x top n).limb 3 = x.limb 3 ||| top <<< (64 - n).toUInt64 := by
    rw [joinTop, Limbs.limb_ofFn _ (by omega), if_pos rfl]
  rw [toNat_four, hlow 0 (by omega), hlow 1 (by omega), hlow 2 (by omega), htopLimb, hjoined, hx4,
    hwide]
  ring

/-- The correction is the multiple of the field constant, which does not wrap the 256 bits. -/
theorem correction_toNat (q : UInt64) : (correction q).toNat = q.toNat * 36113 := by
  have hlow : (correction q).limb 0 = (q.toNat * 36113).toUInt64 := rfl
  have hhigh : (correction q).limb 1 = ((q.toNat * 36113) >>> 64).toUInt64 := rfl
  have htwo : (correction q).limb 2 = 0 := rfl
  have hthree : (correction q).limb 3 = 0 := rfl
  have hzero : (0 : UInt64).toNat = 0 := rfl
  have hqlt := q.toNat_lt
  have hquotient : q.toNat * 36113 / 2 ^ 64 < 2 ^ 64 := by omega
  rw [toNat_four, hlow, hhigh, htwo, hthree, hzero, Nat.toUInt64_eq, Nat.toUInt64_eq,
    UInt64.toNat_ofNat', UInt64.toNat_ofNat', Nat.shiftRight_eq_div_pow,
    Nat.mod_eq_of_lt hquotient, Nat.mod_add_div, Nat.mul_zero, Nat.mul_zero,
    Nat.add_zero]

/-- The difference is divisible. -/
theorem two_pow_dvd_sub_correction (x : UInt 4) {q : UInt64} {n : ℕ} (hn : n ≤ 64)
    (hcongruent : q.toNat * 36113 ≡ x.toNat [MOD 2 ^ n]) : 2 ^ n ∣ (x - correction q).toNat := by
  have hdifference := toNat_sub x (correction q)
  rw [correction_toNat] at hdifference
  have hsum : (x - correction q).toNat + q.toNat * 36113 ≡ 0 + x.toNat [MOD 2 ^ n] := by
    rw [hdifference, Nat.zero_add]
    split_ifs
    · obtain ⟨factor, hfactor⟩ : 2 ^ n ∣ 2 ^ (64 * 4) := pow_dvd_pow 2 (by omega)
      rw [hfactor, Nat.ModEq, Nat.add_mul_mod_self_left]
    · rfl
  exact Nat.modEq_zero_iff_dvd.mp (Nat.ModEq.add_right_cancel hcongruent hsum)

/-- By 1 to 64 bits there is a value, and the number of times that the modulus is added makes the
division exact. -/
theorem dividePower2Mod_spec (x : UInt 4) {n : ℕ} (hpos : 0 < n) (hn : n ≤ 64) :
    ∃ r, dividePower2Mod x n = some r ∧ ∃ q < 2 ^ n, r.toNat * 2 ^ n = x.toNat + q * f256P := by
  unfold dividePower2Mod
  dsimp only
  generalize hq : (if n < 64 then (x.limb 0 * inverseOdd64 36113) &&& ((1 <<< n.toUInt64) - 1)
      else x.limb 0 * inverseOdd64 36113) = q
  obtain ⟨hlt, hcongruent⟩ := quotient_spec x hn hq.symm
  obtain ⟨shifted, hshifted, hquotient⟩ := shiftRight_spec (x - correction q) hpos hn
  rw [hshifted, Option.map_some]
  refine ⟨_, rfl, q.toNat, hlt, ?_⟩
  have hp : f256P + 36113 = 2 ^ 256 := rfl
  have hdifference := toNat_sub x (correction q)
  have hless := Limbs.ge_iff x (correction q)
  rw [correction_toNat] at hdifference hless
  have hexact : shifted.toNat * 2 ^ n = (x - correction q).toNat := by
    rw [hquotient, Nat.div_mul_cancel (two_pow_dvd_sub_correction x hn hcongruent)]
  have hpow : 2 ^ 256 = 2 ^ (256 - n) * 2 ^ n := by
    rw [← pow_add]
    congr 1
    omega
  have hsmall : shifted.toNat < 2 ^ (256 - n) := by
    refine Nat.lt_of_mul_lt_mul_right (a := 2 ^ n) ?_
    rw [hexact, ← hpow]
    exact (x - correction q).toNat_lt
  generalize (x - correction q) = difference at hdifference hexact
  rcases hge : x.ge (correction q) with _ | _
  · rw [hge, Bool.false_eq_true, false_iff, Nat.not_le] at hless
    have hone : (1 : UInt64).toNat = 1 := rfl
    have hborrow : (q - 1).toNat = q.toNat - 1 := by
      rw [UInt64.toNat_sub_of_le _ _ (by rw [UInt64.le_iff_toNat_le, hone]; omega), hone]
    have htop : (q - 1).toNat + 1 = q.toNat := by omega
    rw [if_pos hless] at hdifference
    have hfits : (q - 1).toNat < 2 ^ n := by omega
    have hjoin := joinTop_toNat shifted hn hfits hsmall
    show (joinTop shifted (q - 1) n).toNat * 2 ^ n = _
    rw [hjoin, Nat.add_mul, hexact, Nat.mul_right_comm, ← hpow, ← htop]
    rw [← htop] at hdifference
    linear_combination hdifference - ((q - 1).toNat + 1) * hp
  · rw [hge, eq_self_iff_true, true_iff] at hless
    rw [if_neg (by omega), Nat.add_zero] at hdifference
    have hjoin := joinTop_toNat shifted hn hlt hsmall
    have hzero : q - (!true).toUInt64 = q := UInt64.sub_zero q
    rw [hzero, hjoin, Nat.add_mul, hexact, Nat.mul_right_comm, ← hpow]
    linear_combination hdifference - q.toNat * hp

theorem two_ne_zero_f256P : (2 : ZMod f256P) ≠ 0 := by
  have hcast : ((2 : ℕ) : ZMod f256P) ≠ 0 := by
    rw [Ne, ZMod.natCast_eq_zero_iff]
    exact fun hdvd ↦ absurd (Nat.le_of_dvd Nat.two_pos hdvd) (by decide +kernel)
  exact_mod_cast hcast

/-- For a count from 1 to 64 the division by a power of two is defined, and is the canonical
quotient. -/
theorem dividePower2Mod_stands {x : UInt 4} {a : ZMod f256P} (hx : Stands f256P x a) {n : ℕ}
    (hpos : 0 < n) (hn : n ≤ 64) :
    ∃ r, dividePower2Mod x n = some r ∧ Stands f256P r (a / (2 : ZMod f256P) ^ n) := by
  obtain ⟨r, hr, q, hq, hexact⟩ := dividePower2Mod_spec x hpos hn
  have hcanonical := hx.canonical
  have hpower := Nat.two_pow_pos n
  refine ⟨r, hr, ?_, ?_⟩
  · have hbound : q * f256P ≤ (2 ^ n - 1) * f256P := Nat.mul_le_mul_right _ (by omega)
    rw [Nat.sub_mul, Nat.one_mul] at hbound
    have hscaled : f256P ≤ 2 ^ n * f256P := Nat.le_mul_of_pos_left _ hpower
    refine Nat.lt_of_mul_lt_mul_right (a := 2 ^ n) ?_
    rw [hexact, Nat.mul_comm f256P]
    omega
  · rw [eq_div_iff (pow_ne_zero n two_ne_zero_f256P), ← hx.residue]
    have hcast := congrArg (Nat.cast : ℕ → ZMod f256P) hexact
    push_cast at hcast
    rwa [ZMod.natCast_self, mul_zero, add_zero] at hcast

/-! ### Combinations -/

/-- A number times the magnitude of a factor fits in five limbs and is exact. -/
theorem scaleWide_toNat (x : UInt 4) {factor : ℤ} (hfactor : factor.natAbs < 2 ^ 63) :
    (scaleWide x factor).toNat = x.toNat * factor.natAbs := by
  have hsum := scale_magnitude x hfactor
  have hlength := Limbs.length_scale (magnitude factor) x.v.toList 0
  rw [Vector.length_toList] at hlength
  unfold scaleWide
  generalize Limbs.scale (magnitude factor) x.v.toList 0 = scaled at hsum hlength
  obtain ⟨r, carry⟩ := scaled
  dsimp only at hsum hlength ⊢
  rw [Limbs.toNat_ofList (by rw [List.length_append, hlength]; rfl), Limbs.value_append, hlength,
    Limbs.value_cons, Limbs.value_nil, Nat.mul_zero, Nat.add_zero]
  exact hsum

/-- The conversion cuts off what does not fit. -/
theorem toNat_ofUInt {M L : ℕ} (a : UInt M) :
    (UInt.ofUInt a : UInt L).toNat = a.toNat % 2 ^ (64 * L) := by
  refine Limbs.toNat_of_limb fun i hi ↦ ?_
  rw [← Limbs.toNat_limb_div, UInt.ofUInt, Limbs.limb_ofFn _ hi]
  split_ifs with hlow
  · rfl
  · rw [Limbs.limb, List.getD_eq_default _ _ (by rw [Vector.length_toList]; omega)]

/-- A combination that is not negative and fits is exact. -/
theorem linearPositive_toNat {u v : UInt 4} {a b : ℤ} (ha : a.natAbs < 2 ^ 62)
    (hb : b.natAbs < 2 ^ 62) {x : ℕ} (hvalue : a * u.toNat + b * v.toNat = x) (hx : x < 2 ^ 256) :
    (linearPositive u v a b).toNat = x := by
  have hau := scaleWide_toNat u (ha.trans (by norm_num))
  have hbv := scaleWide_toNat v (hb.trans (by norm_num))
  have hwider : ∀ bits ≥ 256, x < 2 ^ bits := fun bits hbits ↦
    hx.trans_le (Nat.pow_le_pow_right Nat.two_pos hbits)
  have hsize := hwider (64 * 5) (by decide)
  have hpos : ∀ {factor : ℤ} (n : ℕ), 0 ≤ factor → factor * n = (n * factor.natAbs : ℕ) := by
    intro factor n hsign
    rw [Nat.cast_mul, Int.natCast_natAbs, abs_of_nonneg hsign, mul_comm]
  have hneg : ∀ {factor : ℤ} (n : ℕ), factor ≤ 0 → factor * n = -(n * factor.natAbs : ℕ) := by
    intro factor n hsign
    rw [Nat.cast_mul, Int.natCast_natAbs, abs_of_nonpos hsign, mul_neg, neg_neg, mul_comm]
  have hwide : (if a < 0 then scaleWide v b - scaleWide u a
      else if b < 0 then scaleWide u a - scaleWide v b
      else scaleWide u a + scaleWide v b).toNat = x := by
    split_ifs with hsign hsign'
    · have hleft := hneg u.toNat hsign.le
      have hdifference : v.toNat * b.natAbs = u.toNat * a.natAbs + x := by
        rcases Int.le_total 0 b with hb0 | hb0
        · have hright := hpos v.toNat hb0
          omega
        · have hright := hneg v.toNat hb0
          omega
      rw [toNat_sub_of_le (by omega), hau, hbv, hdifference, Nat.add_sub_cancel_left]
    · have hleft := hpos u.toNat (Int.not_lt.mp hsign)
      have hright := hneg v.toNat hsign'.le
      have hdifference : u.toNat * a.natAbs = v.toNat * b.natAbs + x := by omega
      rw [toNat_sub_of_le (by omega), hau, hbv, hdifference, Nat.add_sub_cancel_left]
    · have hleft := hpos u.toNat (Int.not_lt.mp hsign)
      have hright := hpos v.toNat (Int.not_lt.mp hsign')
      have hsum : u.toNat * a.natAbs + v.toNat * b.natAbs = x := by omega
      rw [toNat_add, hau, hbv, hsum, Nat.mod_eq_of_lt hsize]
  rw [linearPositive, toNat_ofUInt, hwide]
  exact Nat.mod_eq_of_lt hx

end Bc3Miner.Reference
