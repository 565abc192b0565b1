import Bc3Miner.Foundations.Blocks
import Bc3Miner.Reference.Words

/-!
# The bytes of numbers

`UInt<L>::store` and `UInt<L>::load` of `bc3hash/vendor/bc3/uint.hpp`: what is stored is read back.

Both are for any number of limbs and either end of the string.
-/

set_option autoImplicit false
set_option relaxedAutoImplicit false

namespace Bc3Miner.Reference

open Foundations

/-- Byte `j` of a limb, the most significant one first. -/
theorem toNat_byte (limb : UInt64) {j : ℕ} (hj : j < 8) :
    (limb >>> (56 - j * 8).toUInt64).toUInt8.toUInt64.toNat =
      limb.toNat / 2 ^ (56 - 8 * j) % 2 ^ 8 := by
  have hcount : (56 - j * 8).toUInt64.toNat % 64 = 56 - 8 * j := by
    rw [Nat.toUInt64_eq, UInt64.toNat_ofNat']
    omega
  rw [UInt8.toNat_toUInt64, UInt64.toNat_toUInt8, UInt64.toNat_shiftRight, hcount,
    Nat.shiftRight_eq_div_pow]

/-- The bytes of a limb make the limb. -/
theorem foldl_bytes (limb : UInt64) :
    (List.range 8).foldl (fun (read : UInt64) j ↦
      (read <<< 8) ||| (limb >>> (56 - j * 8).toUInt64).toUInt8.toUInt64) 0 = limb := by
  have hread : ∀ count ≤ 8, ((List.range count).foldl (fun (read : UInt64) j ↦
      (read <<< 8) ||| (limb >>> (56 - j * 8).toUInt64).toUInt8.toUInt64) 0).toNat =
        limb.toNat / 2 ^ (64 - 8 * count) := by
    intro count hcount
    induction count with
    | zero => exact (Nat.div_eq_of_lt limb.toNat_lt).symm
    | succ count ih =>
      have hbefore := ih (by omega)
      have hexponent : 64 - 8 * count = 56 - 8 * count + 8 := by omega
      have hlast : 64 - 8 * (count + 1) = 56 - 8 * count := by omega
      have height : (8 : UInt64).toNat % 64 = 8 := rfl
      have htop : limb.toNat / 2 ^ (56 - 8 * count) < 2 ^ 64 :=
        (Nat.div_le_self _ _).trans_lt limb.toNat_lt
      rw [List.range_succ, List.foldl_append, List.foldl_cons, List.foldl_nil, UInt64.toNat_or,
        toNat_byte limb (by omega), UInt64.toNat_shiftLeft, hbefore, hexponent, pow_add,
        ← Nat.div_div_eq_div_mul, hlast]
      generalize limb.toNat / 2 ^ (56 - 8 * count) = top at htop ⊢
      rw [height, Nat.shiftLeft_eq, Nat.mod_eq_of_lt (by omega), Nat.mul_comm,
        ← Nat.two_pow_add_eq_or_of_lt (by omega)]
      omega
  refine UInt64.toNat_inj.mp ((hread 8 le_rfl).trans ?_)
  exact Nat.div_one _

variable {L : ℕ}

/-- Only the first `8 L` bytes are read. -/
theorem UInt.load_congr {bytes others : ℕ → UInt8} (hsame : ∀ j < L * 8, bytes j = others j) :
    (UInt.load bytes : UInt L) = UInt.load others := by
  refine Limbs.ext_limb fun i hi ↦ ?_
  rw [UInt.load, UInt.load, Limbs.limb_ofFn _ hi, Limbs.limb_ofFn _ hi]
  refine List.foldl_ext _ _ _ fun read j hmem ↦ ?_
  have hj := List.mem_range.mp hmem
  rw [hsame ((L - 1 - i) * 8 + j) (by omega)]

theorem UInt.length_store (a : UInt L) : a.store.length = L * 8 := by
  unfold UInt.store
  rw [List.length_flatMap]
  simp

/-- Byte `j` of limb `i` in a stored number, both counted from the most significant one. -/
theorem UInt.getD_store (a : UInt L) {i j : ℕ} (hi : i < L) (hj : j < 8) :
    a.store.getD (i * 8 + j) 0 = (a.limb (L - 1 - i) >>> (56 - j * 8).toUInt64).toUInt8 := by
  have hblock : ((List.range L).map fun i ↦ (List.range 8).map fun j ↦
      (a.limb (L - 1 - i) >>> (56 - j * 8).toUInt64).toUInt8).getD i [] =
      (List.range 8).map fun j ↦ (a.limb (L - 1 - i) >>> (56 - j * 8).toUInt64).toUInt8 := by
    rw [List.getD_eq_getElem _ _ (by simpa using hi), List.getElem_map, List.getElem_range]
  have hstart : Blocks.start ((List.range L).map fun i ↦ (List.range 8).map fun j ↦
      (a.limb (L - 1 - i) >>> (56 - j * 8).toUInt64).toUInt8) i = i * 8 := by
    refine Blocks.start_eq_mul (fun block hmem ↦ ?_) (by simpa using hi.le)
    obtain ⟨i, -, rfl⟩ := List.mem_map.mp hmem
    rw [List.length_map, List.length_range]
  rw [UInt.store, List.flatMap_def, ← hstart,
    Blocks.getD_flatten _ _ (by rw [hblock]; simpa using hj), hblock,
    List.getD_eq_getElem _ _ (by simpa using hj), List.getElem_map, List.getElem_range]

/-- What is stored is read back. -/
theorem UInt.load_store (a : UInt L) : UInt.load (fun j ↦ a.store.getD j 0) = a := by
  refine Limbs.ext_limb fun i hi ↦ ?_
  rw [UInt.load, Limbs.limb_ofFn _ hi]
  refine Eq.trans (List.foldl_ext _ _ _ fun read j hmem ↦ ?_) (foldl_bytes (a.limb i))
  have hback : L - 1 - (L - 1 - i) = i := by omega
  rw [UInt.getD_store a (by omega) (List.mem_range.mp hmem), hback]

end Bc3Miner.Reference
