import Bc3Miner.Kernel.SecpPrimes
import Mathlib.AlgebraicGeometry.EllipticCurve.Affine.Basic
import Mathlib.AlgebraicGeometry.EllipticCurve.NormalForms
import Mathlib.Data.ZMod.Basic

/-!
# The field of secp256k1

The arithmetic modulo secp256k1's prime of `src/kernels/bc3hash.cl`, on numbers of four limbs, as
its portable C code computes it. Products reduce whatever they are given; sums and differences take
operands that are reduced already (`Reduced`) and give one. `Encodes` is a reduced number and the
field element it stands for: every operation encodes the field's.

That operands of a sum are reduced is checked nowhere in the source; it holds because every
operation gives a reduced number, and `Encodes` carries it along.
-/

set_option autoImplicit false
set_option relaxedAutoImplicit false

namespace Bc3Miner.Kernel

open Foundations

/-! ### Numbers of 256 bits -/

def iszero256 (a : U256) : Bool := (a.limb 0 ||| a.limb 1 ||| a.limb 2 ||| a.limb 3) == 0

def ge256 (a b : U256) : Bool := a.ge b

def sub256 (a b : U256) : U256 := (Limbs.walk Limbs.subStep a b false).1

/-- The test for zero is that of the number. -/
theorem iszero256_iff (a : U256) : iszero256 a = true ↔ a.toNat = 0 := by
  unfold iszero256
  conv_rhs => rw [eq_mk256 a]
  rw [beq_iff_eq, toNat_mk256, ← UInt64.toNat_inj, UInt64.toNat_or, UInt64.toNat_or,
    UInt64.toNat_or]
  show _ = 0 ↔ _
  rw [Nat.or_eq_zero_iff, Nat.or_eq_zero_iff, Nat.or_eq_zero_iff]
  omega

/-- A subtraction of a number that is no greater does not wrap. -/
theorem sub256_toNat {a b : U256} (hle : b.toNat ≤ a.toNat) :
    (sub256 a b).toNat = a.toNat - b.toNat := by
  have hdifference := Limbs.walk_difference Bool.toNat Limbs.subStep_difference a b false
  have hlt := (sub256 a b).toNat_lt
  change (sub256 a b).toNat + b.toNat + 0 = _ at hdifference
  rcases Bool.eq_false_or_eq_true (Limbs.walk Limbs.subStep a b false).2 with hborrow | hborrow
  · rw [hborrow, Bool.toNat_true] at hdifference
    omega
  · rw [hborrow, Bool.toNat_false] at hdifference
    omega

/-! ### Operations -/

/-- `2 ^ 256` less the prime. -/
def cSecp : UInt64 := 0x1000003D1

def fmul (a b : U256) : U256 := reduce8Secp (mul8 (split256 a) (split256 b))

def fsq (a : U256) : U256 := reduce8Secp (sqr8 (split256 a))

def fadd (a b : U256) : U256 :=
  let (s, c) := Limbs.walk Limbs.addStep a b false
  let (y, cc) := Limbs.addWord s cSecp
  if c ∨ cc ≠ 0 then y else s

def fsub (a b : U256) : U256 :=
  let (d, borrow) := Limbs.walk Limbs.subStep a b false
  if borrow then Limbs.subWord d cSecp else d

/-! ### What they compute -/

/-- Below the prime. -/
def Reduced (a : U256) : Prop := a.toNat < secpP

theorem secpP_pos : 0 < secpP := secpP_prime.pos

theorem toNat_cSecp : cSecp.toNat = 2 ^ 256 - secpP := by decide +kernel

theorem fmul_toNat (a b : U256) : (fmul a b).toNat = a.toNat * b.toNat % secpP := by
  have hlength := length_mul8 (length_split256 a) (length_split256 b)
  rw [fmul, reduce8Secp_toNat hlength, mul8_value (length_split256 b), split256_value,
    split256_value]

theorem fsq_eq_fmul (a : U256) : fsq a = fmul a a := by
  have hlength := length_sqr8 (length_split256 a)
  refine Limbs.toNat_injective ?_
  rw [fmul_toNat, fsq, reduce8Secp_toNat hlength, sqr8_value (length_split256 a), split256_value]

theorem reduced_fmul (a b : U256) : Reduced (fmul a b) := by
  unfold Reduced
  rw [fmul_toNat]
  exact Nat.mod_lt _ secpP_pos

/-- The sum of two reduced numbers: the prime is taken away when either carry says so. -/
theorem fadd_toNat {a b : U256} (ha : Reduced a) (hb : Reduced b) :
    (fadd a b).toNat = (a.toNat + b.toNat) % secpP := by
  unfold Reduced at ha hb
  have hsum := Limbs.walk_sum Bool.toNat Limbs.addStep_sum a b false
  have hplus := Limbs.addWord_sum (Limbs.walk Limbs.addStep a b false).1 cSecp
  have hslt := (Limbs.walk Limbs.addStep a b false).1.toNat_lt
  unfold fadd
  generalize Limbs.walk Limbs.addStep a b false = walked at *
  rcases walked with ⟨s, c⟩
  simp only at hsum hplus hslt ⊢
  generalize Limbs.addWord s cSecp = raised at *
  rcases raised with ⟨y, cc⟩
  have hylt := y.toNat_lt
  have hle : secpP < 2 ^ 256 := by unfold secpP; omega
  rw [Bool.toNat_false, Nat.add_zero] at hsum
  rw [toNat_cSecp] at hplus
  simp only at hplus ⊢
  by_cases hcarry : c = true ∨ cc ≠ 0
  · have hreach : secpP ≤ a.toNat + b.toNat ∧ y.toNat + secpP = a.toNat + b.toNat := by
      rcases Bool.eq_false_or_eq_true c with hc | hc
      · rw [hc, Bool.toNat_true] at hsum
        have hcc : cc.toNat = 0 := by omega
        rw [hcc] at hplus
        omega
      · rw [hc, Bool.toNat_false] at hsum
        have hcc : cc ≠ 0 := by
          rcases hcarry with h | h
          · exact absurd (h.symm.trans hc) (by decide)
          · exact h
        have hpos : cc.toNat ≠ 0 := fun hzero ↦ hcc (UInt64.toNat_inj.mp hzero)
        omega
    rw [if_pos hcarry, Nat.mod_eq_sub_mod hreach.1, Nat.mod_eq_of_lt (by omega)]
    omega
  · rw [not_or, not_not] at hcarry
    have hc : c = false := by simpa using hcarry.1
    have hcc : cc.toNat = 0 := by rw [hcarry.2]; rfl
    rw [if_neg (by simp [hc, hcarry.2])]
    rw [hc, Bool.toNat_false] at hsum
    rw [hcc] at hplus
    rw [Nat.mod_eq_of_lt (by omega)]
    omega

theorem reduced_fadd {a b : U256} (ha : Reduced a) (hb : Reduced b) : Reduced (fadd a b) := by
  unfold Reduced
  rw [fadd_toNat ha hb]
  exact Nat.mod_lt _ secpP_pos

/-- The difference of two reduced numbers, with the prime added when it borrows. -/
theorem fsub_toNat {a b : U256} (ha : Reduced a) (hb : Reduced b) :
    Reduced (fsub a b) ∧ ((fsub a b).toNat + b.toNat) % secpP = a.toNat := by
  unfold Reduced at ha hb ⊢
  have hdifference := Limbs.walk_difference Bool.toNat Limbs.subStep_difference a b false
  have hdlt := (Limbs.walk Limbs.subStep a b false).1.toNat_lt
  unfold fsub
  generalize Limbs.walk Limbs.subStep a b false = walked at *
  rcases walked with ⟨d, borrow⟩
  have hle : secpP < 2 ^ 256 := by unfold secpP; omega
  rw [Bool.toNat_false, Nat.add_zero] at hdifference
  simp only at hdifference hdlt ⊢
  by_cases hborrow : borrow = true
  · rw [hborrow, Bool.toNat_true] at hdifference
    have hword : cSecp.toNat ≤ d.toNat := by
      rw [toNat_cSecp]
      omega
    have hvalue := Limbs.subWord_toNat hword
    rw [toNat_cSecp] at hvalue
    rw [if_pos hborrow]
    have htotal : (Limbs.subWord d cSecp).toNat + b.toNat = a.toNat + secpP := by omega
    rw [htotal, Nat.add_mod_right, Nat.mod_eq_of_lt ha]
    exact ⟨by omega, rfl⟩
  · have hnone : borrow = false := by simpa using hborrow
    rw [hnone, Bool.toNat_false] at hdifference
    rw [if_neg hborrow]
    have htotal : d.toNat + b.toNat = a.toNat := by omega
    rw [htotal, Nat.mod_eq_of_lt ha]
    exact ⟨by omega, rfl⟩

theorem reduced_fsub {a b : U256} (ha : Reduced a) (hb : Reduced b) : Reduced (fsub a b) :=
  (fsub_toNat ha hb).1

/-! ### In the field -/

abbrev SecpField := ZMod secpP

/-- The field element a number stands for. -/
def residue (a : U256) : SecpField := (a.toNat : SecpField)

/-- The number that stands for a field element. -/
def ofResidue (x : SecpField) : U256 :=
  mk256 x.val.toUInt64 (x.val / 2 ^ 64).toUInt64 (x.val / 2 ^ 128).toUInt64
    (x.val / 2 ^ 192).toUInt64

theorem ofResidue_toNat (x : SecpField) : (ofResidue x).toNat = x.val := by
  have hlt : x.val < 2 ^ 256 := (ZMod.val_lt x).trans (by unfold secpP; omega)
  rw [ofResidue, toNat_mk256, Nat.toUInt64_eq, Nat.toUInt64_eq, Nat.toUInt64_eq, Nat.toUInt64_eq,
    UInt64.toNat_ofNat', UInt64.toNat_ofNat', UInt64.toNat_ofNat', UInt64.toNat_ofNat']
  omega

theorem reduced_ofResidue (x : SecpField) : Reduced (ofResidue x) := by
  unfold Reduced
  rw [ofResidue_toNat]
  exact ZMod.val_lt x

theorem residue_ofResidue (x : SecpField) : residue (ofResidue x) = x := by
  unfold residue
  rw [ofResidue_toNat, ZMod.natCast_zmod_val]

theorem residue_eq_zero_iff {a : U256} (ha : Reduced a) : residue a = 0 ↔ iszero256 a = true := by
  unfold residue
  rw [iszero256_iff, ZMod.natCast_eq_zero_iff]
  exact ⟨fun hdvd ↦ Nat.eq_zero_of_dvd_of_lt hdvd ha, fun hzero ↦ hzero ▸ dvd_zero _⟩

/-- A reduced number and the field element it stands for. -/
structure Encodes (a : U256) (x : SecpField) : Prop where
  reduced : Reduced a
  residue : residue a = x

theorem Reduced.encodes {a : U256} (ha : Reduced a) : Encodes a (residue a) := ⟨ha, rfl⟩

theorem encodes_ofResidue (x : SecpField) : Encodes (ofResidue x) x :=
  ⟨reduced_ofResidue x, residue_ofResidue x⟩

theorem Encodes.iszero256_iff {a : U256} {x : SecpField} (ha : Encodes a x) :
    iszero256 a = true ↔ x = 0 := by
  rw [← residue_eq_zero_iff ha.reduced, ha.residue]

/-- The words of one encode one. -/
theorem encodes_one : Encodes (mk256 1 0 0 0) 1 := by
  refine ⟨?_, ?_⟩
  · unfold Reduced
    rw [toNat_mk256]
    decide +kernel
  · unfold residue
    rw [toNat_mk256]
    exact Nat.cast_one

section Operations

variable {a b : U256} {x y : SecpField}

theorem Encodes.fmul (ha : Encodes a x) (hb : Encodes b y) : Encodes (fmul a b) (x * y) := by
  refine ⟨reduced_fmul a b, ?_⟩
  rw [← ha.residue, ← hb.residue]
  unfold Kernel.residue
  rw [fmul_toNat, ZMod.natCast_mod, Nat.cast_mul]

theorem Encodes.fsq (ha : Encodes a x) : Encodes (fsq a) (x * x) := by
  rw [fsq_eq_fmul]
  exact ha.fmul ha

theorem Encodes.fadd (ha : Encodes a x) (hb : Encodes b y) : Encodes (fadd a b) (x + y) := by
  refine ⟨reduced_fadd ha.reduced hb.reduced, ?_⟩
  rw [← ha.residue, ← hb.residue]
  unfold Kernel.residue
  rw [fadd_toNat ha.reduced hb.reduced, ZMod.natCast_mod, Nat.cast_add]

/-- The subtraction of the kernel is that of the field. -/
theorem Encodes.fsub (ha : Encodes a x) (hb : Encodes b y) : Encodes (fsub a b) (x - y) := by
  have hmod : ((((Kernel.fsub a b).toNat + b.toNat) % secpP : ℕ) : SecpField) = a.toNat := by
    rw [(fsub_toNat ha.reduced hb.reduced).2]
  rw [ZMod.natCast_mod, Nat.cast_add] at hmod
  refine ⟨reduced_fsub ha.reduced hb.reduced, ?_⟩
  rw [← ha.residue, ← hb.residue]
  exact eq_sub_of_add_eq hmod

end Operations

/-! ### The curve -/

/-- `y ^ 2 = x ^ 3 + 7`. -/
def secpCurve : WeierstrassCurve.Affine SecpField := ⟨0, 0, 0, 0, 7⟩

instance : secpCurve.IsShortNF := ⟨rfl, rfl, rfl⟩

theorem secpCurve_a₄ : secpCurve.a₄ = 0 := rfl

end Bc3Miner.Kernel
