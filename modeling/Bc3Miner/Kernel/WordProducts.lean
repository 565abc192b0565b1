import Bc3Miner.Foundations.WideCarry
import Bc3Miner.Kernel.LazyPowers

/-!
# Products on words of 64 bits

`mulmod64`, `mulmod128` and `REDUCE_BODY` of `src/kernels/bc3hash.cl` as they stand for OpenCL and
`BC3_C_ARITH`: the halves of each product from `MULHI64`, and every carry from a comparison.

A limb of a product with its two carries is `Limbs.mulAdd`. `mulmod64_toNat` and `mulmod128_toNat`
say that what comes out is the canonical residue for every `C` below `2 ^ 16`.

`BC3_C_ARITH` and OpenCL take the same lines here, and the CUDA forms of these products, which are
in assembly, are not in this module.
-/

set_option autoImplicit false
set_option relaxedAutoImplicit false

namespace Bc3Miner.Kernel

open Foundations

/-! ### One limb -/

/-- `MULHI64`. -/
def mulhi64 (a b : UInt64) : UInt64 := (a.toNat * b.toNat / 2 ^ 64).toUInt64

/-- The carry of a sum, `(u64)(sum < term)`. -/
def carryOf (sum term : UInt64) : UInt64 := (decide (sum < term)).toUInt64

/-- A limb of a product added to a limb, with the carry in and out. -/
def mulAddCarry (a b t carry : UInt64) : UInt64 × UInt64 :=
  let lo := a * b
  let hi := mulhi64 a b
  let s := t + lo
  let c := carryOf s lo
  let s := s + carry
  let c := c + carryOf s carry
  (s, hi + c)

/-- The carry of a sum of two words, told from the sum and one of them. -/
theorem carryOf_sum (a b : UInt64) :
    (a + b).toNat + 2 ^ 64 * (carryOf (a + b) b).toNat = a.toNat + b.toNat := by
  have ha := a.toNat_lt
  have hb := b.toNat_lt
  rw [carryOf, Limbs.toNat_toUInt64]
  by_cases hless : a + b < b
  · rw [decide_eq_true hless, Bool.toNat_true]
    rw [UInt64.lt_iff_toNat_lt, UInt64.toNat_add] at hless
    rw [UInt64.toNat_add]
    omega
  · rw [decide_eq_false hless, Bool.toNat_false]
    rw [UInt64.lt_iff_toNat_lt, UInt64.toNat_add] at hless
    rw [UInt64.toNat_add]
    omega

/-- The low and the high word of a product stand for it. -/
theorem mulhi64_sum (a b : UInt64) :
    (a * b).toNat + 2 ^ 64 * (mulhi64 a b).toNat = a.toNat * b.toNat := by
  have ha := a.toNat_lt
  have hb := b.toNat_lt
  have hquotient : a.toNat * b.toNat / 2 ^ 64 < 2 ^ 64 := by
    rw [Nat.div_lt_iff_lt_mul (Nat.two_pow_pos 64)]
    exact Nat.mul_lt_mul'' ha hb
  rw [UInt64.toNat_mul, mulhi64, Nat.toUInt64_eq, UInt64.toNat_ofNat', Nat.mod_eq_of_lt hquotient]
  exact Nat.mod_add_div _ _

/-- The comparisons find both carries. -/
theorem mulAddCarry_eq (a b t carry : UInt64) :
    mulAddCarry a b t carry = Limbs.mulAdd a b t carry := by
  have hsum := Limbs.mulAdd_sum a b t carry
  have hproduct := mulhi64_sum a b
  have hfirst := carryOf_sum t (a * b)
  have hsecond := carryOf_sum (t + a * b) carry
  have hbound : (mulhi64 a b).toNat + 2 ≤ 2 ^ 64 := by
    have ha := a.toNat_lt
    have hb := b.toNat_lt
    have hle : a.toNat * b.toNat ≤ (2 ^ 64 - 1) * (2 ^ 64 - 1) :=
      Nat.mul_le_mul (by omega) (by omega)
    omega
  have hout := (t + a * b + carry).toNat_lt
  have hout' := (Limbs.mulAdd a b t carry).1.toNat_lt
  have hsmall : (mulhi64 a b + (carryOf (t + a * b) (a * b) +
      carryOf (t + a * b + carry) carry)).toNat = (mulhi64 a b).toNat +
      ((carryOf (t + a * b) (a * b)).toNat + (carryOf (t + a * b + carry) carry).toNat) := by
    have hcarry := (Limbs.mulAdd a b t carry).2.toNat_lt
    rw [UInt64.toNat_add, UInt64.toNat_add]
    omega
  refine Prod.ext (UInt64.toNat_inj.mp ?_) (UInt64.toNat_inj.mp ?_)
  · show (t + a * b + carry).toNat = _
    omega
  · show (mulhi64 a b + (carryOf (t + a * b) (a * b) +
      carryOf (t + a * b + carry) carry)).toNat = _
    omega

/-! ### Products modulo `2 ^ 64 - C` -/

def mulmod64 (a b C : UInt64) : UInt64 :=
  let lo := a * b
  let hi := mulhi64 a b
  let plo := hi * C
  let phi := mulhi64 hi C
  let s := lo + plo
  let carry := phi + carryOf s plo
  let s2 := s + carry * C
  norm64 (if s2 < s then s2 + C else s2) C

/-- The product is reduced modulo `2 ^ 64 - C`, for a constant of 16 bits that is not zero. -/
theorem mulmod64_toNat (a b : UInt64) {C : UInt64} (hpos : 0 < C.toNat) (hC : C.toNat < 2 ^ 16) :
    (mulmod64 a b C).toNat = a.toNat * b.toNat % (2 ^ 64 - C.toNat) := by
  obtain ⟨p, hp⟩ : ∃ p, p + C.toNat = 2 ^ 64 := ⟨2 ^ 64 - C.toNat, by omega⟩
  have hpeq : 2 ^ 64 - C.toNat = p := by omega
  have hproduct := mulhi64_sum a b
  have hscaled := mulhi64_sum (mulhi64 a b) C
  have hsum := carryOf_sum (a * b) (mulhi64 a b * C)
  rw [mulmod64, norm64_toNat _ hp (by omega), hpeq]
  have hhi := (mulhi64 a b).toNat_lt
  have hplo := (mulhi64 a b * C).toNat_lt
  have hlo := (a * b).toNat_lt
  generalize mulhi64 a b = hi at hproduct hscaled hsum hhi hplo ⊢
  generalize carryOf (a * b + hi * C) (hi * C) = c at hsum ⊢
  generalize a * b + hi * C = s at hsum ⊢
  have hs := s.toNat_lt
  have hphi : (mulhi64 hi C).toNat < C.toNat := by
    have hlt : hi.toNat * C.toNat < 2 ^ 64 * C.toNat := Nat.mul_lt_mul_of_pos_right hhi hpos
    omega
  have hcarry : (mulhi64 hi C + c).toNat = (mulhi64 hi C).toNat + c.toNat := by
    rw [UInt64.toNat_add]
    omega
  generalize mulhi64 hi C + c = carry at hcarry ⊢
  have hsmall : carry.toNat * C.toNat ≤ 2 ^ 16 * 2 ^ 16 := Nat.mul_le_mul (by omega) (by omega)
  have hfold : (carry * C).toNat = carry.toNat * C.toNat := by
    rw [UInt64.toNat_mul]
    omega
  have hs2 : (s + carry * C).toNat = (s.toNat + carry.toNat * C.toNat) % 2 ^ 64 := by
    rw [UInt64.toNat_add, hfold]
  have htotal : a.toNat * b.toNat =
      s.toNat + carry.toNat * C.toNat + p * (carry.toNat + hi.toNat) := by
    rw [hcarry, ← hproduct]
    rw [← hp] at hscaled hsum hproduct ⊢
    linear_combination -hscaled - hsum
  rw [htotal, Nat.add_mul_mod_self_left]
  by_cases hover : s + carry * C < s
  · rw [if_pos hover]
    rw [UInt64.lt_iff_toNat_lt, hs2] at hover
    have hlast : (s + carry * C + C).toNat + p = s.toNat + carry.toNat * C.toNat := by
      rw [UInt64.toNat_add, hs2]
      omega
    rw [← hlast, Nat.add_mod_right]
  · rw [if_neg hover]
    rw [UInt64.lt_iff_toNat_lt, hs2] at hover
    have hlast : (s + carry * C).toNat = s.toNat + carry.toNat * C.toNat := by
      rw [hs2]
      omega
    rw [hlast]

/-! ### `REDUCE_BODY` -/

/-- The second fold: the carry's product with `C` over the two lowest limbs, and its own carry over
the others. -/
def foldTop (C carry : UInt64) : List UInt64 → List UInt64 × UInt64
  | r0 :: r1 :: rest =>
    let plo := carry * C
    let phi := mulhi64 carry C
    let s0 := r0 + plo
    let c := carryOf s0 plo
    let s := r1 + phi
    let c2 := carryOf s phi
    let s1 := s + c
    let c2 := c2 + carryOf s1 c
    let (rest, c) := Limbs.rippleUp rest c2
    (s0 :: s1 :: rest, c)
  | r => (r, 0)

/-- `REDUCE_BODY(L)`: `t` of `2 * L` limbs folded twice, and once more where that runs off the
top. -/
def reduceBody (L : ℕ) (C : UInt64) (t : List UInt64) : List UInt64 :=
  let (r, carry) := Limbs.chain (fun a b carry ↦ mulAddCarry a C b carry) (t.drop L) (t.take L) 0
  let (r, c) := foldTop C carry r
  if c ≠ 0 then (Limbs.rippleUp r C).1 else r

/-- Folding the word above the top adds it times the constant, and gives the carry that goes on. -/
theorem foldTop_sum (C carry : UInt64) {r : List UInt64} (hr : 2 ≤ r.length) :
    (foldTop C carry r).1.length = r.length ∧
      Limbs.value (foldTop C carry r).1 + 2 ^ (64 * r.length) * (foldTop C carry r).2.toNat =
        Limbs.value r + carry.toNat * C.toNat := by
  match r, hr with
  | r0 :: r1 :: rest, _ =>
    have hproduct := mulhi64_sum carry C
    have hfirst := carryOf_sum r0 (carry * C)
    have hsecond := carryOf_sum r1 (mulhi64 carry C)
    have hthird := carryOf_sum (r1 + mulhi64 carry C) (carryOf (r0 + carry * C) (carry * C))
    have hflag : ∀ sum term : UInt64, (carryOf sum term).toNat ≤ 1 := by
      intro sum term
      rw [carryOf, Limbs.toNat_toUInt64]
      exact Bool.toNat_le _
    unfold foldTop
    dsimp only
    generalize carryOf (r0 + carry * C) (carry * C) = c at hfirst hthird ⊢
    have hcarry : (carryOf (r1 + mulhi64 carry C) (mulhi64 carry C) +
        carryOf (r1 + mulhi64 carry C + c) c).toNat =
        (carryOf (r1 + mulhi64 carry C) (mulhi64 carry C)).toNat +
          (carryOf (r1 + mulhi64 carry C + c) c).toNat := by
      have hone := hflag (r1 + mulhi64 carry C) (mulhi64 carry C)
      have hone' := hflag (r1 + mulhi64 carry C + c) c
      rw [UInt64.toNat_add]
      omega
    have hripple := Limbs.rippleUp_sum rest (carryOf (r1 + mulhi64 carry C) (mulhi64 carry C) +
        carryOf (r1 + mulhi64 carry C + c) c)
    have hlength := Limbs.length_rippleUp rest (carryOf (r1 + mulhi64 carry C) (mulhi64 carry C) +
        carryOf (r1 + mulhi64 carry C + c) c)
    rw [hcarry] at hripple
    refine ⟨by simp [hlength], ?_⟩
    rw [Limbs.value_cons, Limbs.value_cons, Limbs.value_cons, Limbs.value_cons, List.length_cons,
      List.length_cons, Nat.mul_succ, Nat.mul_succ, pow_add, pow_add]
    linear_combination hfirst + hproduct + 2 ^ 64 * hthird + 2 ^ 64 * hsecond + 2 ^ 128 * hripple

/-- What is left has the residue of the product. The first carry is at most `C`; where there is a
second one it is one, and what it leaves is so small that adding `C` does not carry again. -/
theorem reduceBody_spec {L : ℕ} (hL : 2 ≤ L) {C : UInt64} (hpos : 0 < C.toNat)
    (hC : C.toNat < 2 ^ 16) {t : List UInt64} (hlength : t.length = 2 * L) {p : ℕ}
    (hp : p + C.toNat = 2 ^ (64 * L)) :
    (reduceBody L C t).length = L ∧ Limbs.value (reduceBody L C t) % p = Limbs.value t % p := by
  have hbound : 2 ^ 128 ≤ 2 ^ (64 * L) := Nat.pow_le_pow_right (by norm_num) (by omega)
  have hlow : (t.take L).length = L := by
    rw [List.length_take]
    omega
  have hhigh : (t.drop L).length = L := by
    rw [List.length_drop]
    omega
  have hsplit := Limbs.value_append (t.take L) (t.drop L)
  rw [List.take_append_drop, hlow] at hsplit
  have hlowlt := Limbs.value_lt (t.take L)
  have hhighlt := Limbs.value_lt (t.drop L)
  rw [hlow] at hlowlt
  rw [hhigh] at hhighlt
  have hsum := Limbs.mulAddPass_sum C 0 (hhigh.trans hlow.symm)
  have hcount := Limbs.length_mulAddPass C 0 (hhigh.trans hlow.symm)
  have hzero : (0 : UInt64).toNat = 0 := rfl
  rw [hhigh] at hsum hcount
  rw [hzero, Nat.add_zero] at hsum
  unfold reduceBody
  simp only [mulAddCarry_eq]
  change Limbs.value (Limbs.chain (fun a b carry ↦ Limbs.mulAdd a C b carry) (t.drop L) (t.take L)
    0).1 + _ = _ at hsum
  change (Limbs.chain (fun a b carry ↦ Limbs.mulAdd a C b carry) (t.drop L) (t.take L)
    0).1.length = L at hcount
  generalize hfirst : Limbs.chain (fun a b carry ↦ Limbs.mulAdd a C b carry) (t.drop L) (t.take L)
    0 = first at hcount hsum
  rw [Limbs.mulAddPass, hfirst] at hsum
  obtain ⟨r, carry⟩ := first
  dsimp only at hcount hsum ⊢
  have hrlt := Limbs.value_lt r
  rw [hcount] at hrlt
  have hcarry : carry.toNat ≤ C.toNat := by
    have hproduct : Limbs.value (t.drop L) * C.toNat ≤ (2 ^ (64 * L) - 1) * C.toNat :=
      Nat.mul_le_mul_right _ (by omega)
    rw [Nat.sub_mul, Nat.one_mul] at hproduct
    have hscaled : C.toNat ≤ 2 ^ (64 * L) * C.toNat := Nat.le_mul_of_pos_left _ (by positivity)
    by_contra hmore
    have hover : 2 ^ (64 * L) * (C.toNat + 1) ≤ 2 ^ (64 * L) * carry.toNat :=
      Nat.mul_le_mul_left _ (by omega)
    rw [Nat.mul_succ] at hover
    omega
  have hsmall : carry.toNat * C.toNat ≤ 2 ^ 16 * 2 ^ 16 := Nat.mul_le_mul (by omega) (by omega)
  obtain ⟨hcount', hsecond⟩ := foldTop_sum C carry (by omega : 2 ≤ r.length)
  generalize foldTop C carry r = second at hcount' hsecond
  obtain ⟨r', c⟩ := second
  rw [hcount] at hcount' hsecond
  dsimp only at hcount' hsecond ⊢
  have hr'lt := Limbs.value_lt r'
  rw [hcount'] at hr'lt
  have htotal : Limbs.value t = Limbs.value r' + 2 ^ (64 * L) * c.toNat +
      p * (carry.toNat + Limbs.value (t.drop L)) := by
    rw [hsplit, ← hp]
    rw [← hp] at hsum hsecond
    linear_combination -hsecond - hsum
  rw [htotal, Nat.add_mul_mod_self_left]
  by_cases hnone : c = 0
  · rw [if_neg (not_not_intro hnone), hnone, hzero, Nat.mul_zero, Nat.add_zero]
    exact ⟨hcount', rfl⟩
  · have hone : c.toNat = 1 := by
      have hpositive : c.toNat ≠ 0 := fun h ↦ hnone (UInt64.toNat_inj.mp h)
      by_contra hne
      have htwice : 2 ^ (64 * L) * 2 ≤ 2 ^ (64 * L) * c.toNat := Nat.mul_le_mul_left _ (by omega)
      omega
    have hlast := Limbs.rippleUp_sum r' C
    have hcount'' := Limbs.length_rippleUp r' C
    rw [hcount'] at hlast hcount''
    rw [hone, Nat.mul_one] at hsecond ⊢
    have hnoCarry : (Limbs.rippleUp r' C).2.toNat = 0 := by
      by_contra hne
      have hmore : 2 ^ (64 * L) * 1 ≤ 2 ^ (64 * L) * (Limbs.rippleUp r' C).2.toNat :=
        Nat.mul_le_mul_left _ (Nat.pos_of_ne_zero hne)
      omega
    rw [hnoCarry, Nat.mul_zero, Nat.add_zero] at hlast
    rw [if_pos hnone]
    refine ⟨hcount'', ?_⟩
    rw [hlast, ← hp, Nat.add_comm p, ← Nat.add_assoc, Nat.add_mod_right]

/-! ### Products modulo `2 ^ 128 - C` -/

/-- The four limbs of a product. -/
def product128 (a b : U128) : List UInt64 :=
  let t00 := mulAddCarry (a.limb 0) (b.limb 0) 0 0
  let t01 := mulAddCarry (a.limb 0) (b.limb 1) 0 t00.2
  let t10 := mulAddCarry (a.limb 1) (b.limb 0) t01.1 0
  let t11 := mulAddCarry (a.limb 1) (b.limb 1) t01.2 t10.2
  [t00.1, t10.1, t11.1, t11.2]

def mulmod128 (a b : U128) (C : UInt64) : U128 :=
  let r := reduceBody 2 C (product128 a b)
  norm128 (mk128 (r.getD 0 0) (r.getD 1 0)) C

/-- The four words of a product of 128-bit numbers stand for it. -/
theorem product128_value (a b : U128) : Limbs.value (product128 a b) = a.toNat * b.toNat := by
  have hzero : (0 : UInt64).toNat = 0 := rfl
  have h00 := Limbs.mulAdd_sum (a.limb 0) (b.limb 0) 0 0
  have h01 := Limbs.mulAdd_sum (a.limb 0) (b.limb 1) 0
    (Limbs.mulAdd (a.limb 0) (b.limb 0) 0 0).2
  unfold product128
  simp only [mulAddCarry_eq]
  generalize Limbs.mulAdd (a.limb 0) (b.limb 0) 0 0 = t00 at h00 h01 ⊢
  generalize Limbs.mulAdd (a.limb 0) (b.limb 1) 0 t00.2 = t01 at h01 ⊢
  have h10 := Limbs.mulAdd_sum (a.limb 1) (b.limb 0) t01.1 0
  generalize Limbs.mulAdd (a.limb 1) (b.limb 0) t01.1 0 = t10 at h10 ⊢
  have h11 := Limbs.mulAdd_sum (a.limb 1) (b.limb 1) t01.2 t10.2
  generalize Limbs.mulAdd (a.limb 1) (b.limb 1) t01.2 t10.2 = t11 at h11 ⊢
  rw [hzero] at h00 h01 h10
  simp only [Limbs.value_cons, Limbs.value_nil]
  rw [toNat_two a, toNat_two b]
  linear_combination h00 + 2 ^ 64 * h01 + 2 ^ 64 * h10 + 2 ^ 128 * h11

/-- The product is reduced modulo `2 ^ 128 - C`, for a constant of 16 bits that is not zero. -/
theorem mulmod128_toNat (a b : U128) {C : UInt64} (hpos : 0 < C.toNat) (hC : C.toNat < 2 ^ 16) :
    (mulmod128 a b C).toNat = a.toNat * b.toNat % (2 ^ 128 - C.toNat) := by
  obtain ⟨p, hp⟩ : ∃ p, p + C.toNat = 2 ^ 128 := ⟨2 ^ 128 - C.toNat, by omega⟩
  have hpeq : 2 ^ 128 - C.toNat = p := by omega
  obtain ⟨hlength, hvalue⟩ := reduceBody_spec le_rfl hpos hC (rfl : (product128 a b).length = 2 * 2)
    hp
  rw [product128_value] at hvalue
  rw [mulmod128, norm128_toNat _ hp, hpeq, ← hvalue]
  generalize reduceBody 2 C (product128 a b) = r at hlength
  match r, hlength with
  | [low, high], _ =>
    have hmk : (mk128 low high).toNat = low.toNat + 2 ^ 64 * high.toNat := toNat_two _
    show (mk128 low high).toNat % p = _
    rw [hmk, Limbs.value_cons, Limbs.value_cons, Limbs.value_nil, Nat.mul_zero, Nat.add_zero]

end Bc3Miner.Kernel
