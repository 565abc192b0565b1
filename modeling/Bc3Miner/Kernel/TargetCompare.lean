import Bc3Miner.Consensus.ByteOrder
import Bc3Miner.Kernel.Products

/-!
# The kernel's comparison with the target

`bc3hash_scan` of `src/kernels/bc3hash.cl` compares a hash with the target in limbs of 64 bits,
which `target_limbs` of `src/backend/bc3.rs` takes from the target's bytes. The hash's limbs are
read off its bytes in the other order.

`scanAccepts_iff` is for every hash and target; there is no hypothesis.
-/

set_option autoImplicit false
set_option relaxedAutoImplicit false

namespace Bc3Miner.Kernel

open Foundations Consensus

/-! ### Limbs of bytes -/

def loadLe32 (p : List UInt8) : UInt32 :=
  (p.getD 0 0).toUInt32 ||| ((p.getD 1 0).toUInt32 <<< 8) ||| ((p.getD 2 0).toUInt32 <<< 16) |||
    ((p.getD 3 0).toUInt32 <<< 24)

def loadLe64 (p : List UInt8) : UInt64 :=
  (loadLe32 p).toUInt64 ||| ((loadLe32 (p.drop 4)).toUInt64 <<< 32)

/-- The target as the kernel takes it: limb `i` is the big-endian number of the eight bytes that end
`8 i` bytes before the last. -/
def targetLimbs (target : Target) : U256 :=
  Limbs.ofFn fun i ↦ UInt64.ofNat (bigEndian ((target.toList.drop (32 - 8 * (i + 1))).take 8))

/-- Whether a thread reports its hash: the limbs compared from the most significant one on. -/
def scanAccepts (hash : Bytes32) (target : U256) : Bool :=
  target.ge (Limbs.ofFn fun i ↦ loadLe64 (hash.toList.drop (8 * i)))

/-! ### Their values -/

/-- A number below `2 ^ bits` and another one shifted past it do not overlap. -/
theorem or_shiftLeft_toNat {low high : UInt32} {bits : ℕ} (hbits : bits < 32)
    (hlow : low.toNat < 2 ^ bits) (hhigh : high.toNat * 2 ^ bits < 2 ^ 32) :
    (low ||| high <<< UInt32.ofNat bits).toNat = low.toNat + 2 ^ bits * high.toNat := by
  have hcount : (UInt32.ofNat bits).toNat % 32 = bits := by
    rw [UInt32.toNat_ofNat']
    omega
  rw [UInt32.toNat_or, UInt32.toNat_shiftLeft, hcount, Nat.shiftLeft_eq]
  show low.toNat ||| high.toNat * 2 ^ bits % 2 ^ 32 = _
  rw [Nat.mod_eq_of_lt hhigh, Nat.or_comm, Nat.mul_comm, ← Nat.two_pow_add_eq_or_of_lt hlow,
    Nat.add_comm]

/-- A load of four bytes is their number, least significant first. -/
theorem loadLe32_toNat (b0 b1 b2 b3 : UInt8) (rest : List UInt8) :
    (loadLe32 (b0 :: b1 :: b2 :: b3 :: rest)).toNat = littleEndian [b0, b1, b2, b3] := by
  have h0 := b0.toNat_lt
  have h1 := b1.toNat_lt
  have h2 := b2.toNat_lt
  have h3 := b3.toNat_lt
  have hword : loadLe32 (b0 :: b1 :: b2 :: b3 :: rest) =
      b0.toUInt32 ||| (b1.toUInt32 <<< UInt32.ofNat 8) ||| (b2.toUInt32 <<< UInt32.ofNat 16) |||
        (b3.toUInt32 <<< UInt32.ofNat 24) := rfl
  have hone : (b0.toUInt32 ||| b1.toUInt32 <<< UInt32.ofNat 8).toNat =
      b0.toNat + 2 ^ 8 * b1.toNat := by
    rw [or_shiftLeft_toNat (by norm_num) (by rw [UInt8.toNat_toUInt32]; omega)
      (by rw [UInt8.toNat_toUInt32]; omega), UInt8.toNat_toUInt32, UInt8.toNat_toUInt32]
  have htwo : (b0.toUInt32 ||| (b1.toUInt32 <<< UInt32.ofNat 8) |||
      (b2.toUInt32 <<< UInt32.ofNat 16)).toNat =
        b0.toNat + 2 ^ 8 * b1.toNat + 2 ^ 16 * b2.toNat := by
    rw [or_shiftLeft_toNat (by norm_num) (by rw [hone]; omega)
      (by rw [UInt8.toNat_toUInt32]; omega), hone, UInt8.toNat_toUInt32]
  rw [hword, or_shiftLeft_toNat (by norm_num) (by rw [htwo]; omega)
    (by rw [UInt8.toNat_toUInt32]; omega), htwo, UInt8.toNat_toUInt32]
  simp only [littleEndian_cons]
  show _ = b0.toNat + 256 * (b1.toNat + 256 * (b2.toNat + 256 * (b3.toNat + 256 * 0)))
  omega

/-- Eight bytes are read as a little-endian number. -/
theorem loadLe64_toNat {p : List UInt8} (hlength : 8 ≤ p.length) :
    (loadLe64 p).toNat = littleEndian (p.take 8) := by
  match p, hlength with
  | b0 :: b1 :: b2 :: b3 :: b4 :: b5 :: b6 :: b7 :: rest, _ =>
    have hsplit := littleEndian_append [b0, b1, b2, b3] [b4, b5, b6, b7]
    unfold loadLe64
    rw [join_words, loadLe32_toNat]
    show _ + 2 ^ 32 * (loadLe32 (b4 :: b5 :: b6 :: b7 :: rest)).toNat = _
    have hpow : 256 ^ [b0, b1, b2, b3].length = 2 ^ 32 := by norm_num
    rw [hpow] at hsplit
    rw [loadLe32_toNat, ← hsplit]
    rfl

theorem ofFn_eq_mk256 (limbs : ℕ → UInt64) :
    (Limbs.ofFn limbs : U256) = mk256 (limbs 0) (limbs 1) (limbs 2) (limbs 3) := rfl

/-- The limbs of a hash are its little-endian number. -/
theorem hashLimbs_toNat (hash : Bytes32) :
    (Limbs.ofFn fun i ↦ loadLe64 (hash.toList.drop (8 * i)) : U256).toNat =
      littleEndian hash.toList := by
  have hlength : hash.toList.length = 32 := Vector.length_toList
  have hfirst := littleEndian_split (by omega : 8 ≤ hash.toList.length)
  have hsecond := littleEndian_split
    (by rw [List.length_drop]; omega : 8 ≤ (hash.toList.drop 8).length)
  have hthird := littleEndian_split
    (by rw [List.length_drop]; omega : 8 ≤ (hash.toList.drop 16).length)
  have hlast : (hash.toList.drop 24).take 8 = hash.toList.drop 24 :=
    List.take_of_length_le (by rw [List.length_drop]; omega)
  rw [List.drop_drop] at hsecond hthird
  rw [ofFn_eq_mk256, toNat_mk256, loadLe64_toNat (by simp), loadLe64_toNat (by simp),
    loadLe64_toNat (by simp), loadLe64_toNat (by simp)]
  simp only [Nat.mul_zero, Nat.mul_one, List.drop_zero, Nat.reduceMul, hlast]
  rw [hfirst, hsecond, hthird]
  ring

/-- Those of a target are its big-endian number. -/
theorem targetLimbs_toNat (target : Target) :
    (targetLimbs target).toNat = bigEndian target.toList := by
  have hlength : target.toList.length = 32 := Vector.length_toList
  have hlimb (start : ℕ) : (UInt64.ofNat (bigEndian ((target.toList.drop start).take 8))).toNat =
      bigEndian ((target.toList.drop start).take 8) := by
    have hlt := bigEndian_lt ((target.toList.drop start).take 8)
    have hcount : ((target.toList.drop start).take 8).length ≤ 8 := List.length_take_le _ _
    rw [UInt64.toNat_ofNat']
    exact Nat.mod_eq_of_lt (hlt.trans_le (Nat.pow_le_pow_right (by norm_num) hcount))
  have hfirst := bigEndian_split target.toList 8
  have hsecond := bigEndian_split (target.toList.drop 8) 8
  have hthird := bigEndian_split (target.toList.drop 16) 8
  have hlast : (target.toList.drop 24).take 8 = target.toList.drop 24 :=
    List.take_of_length_le (by rw [List.length_drop]; omega)
  rw [List.drop_drop, List.length_drop, hlength] at hsecond hthird
  rw [hlength] at hfirst
  unfold targetLimbs
  rw [ofFn_eq_mk256, toNat_mk256, hlimb, hlimb, hlimb, hlimb]
  simp only [Nat.zero_add, Nat.mul_one, Nat.reduceAdd, Nat.reduceMul, Nat.reduceSub, hlast,
    List.drop_zero]
  rw [hfirst, hsecond, hthird]
  ring

/-- For every hash and every target: the kernel, which compares limbs of 64 bits from the top,
accepts the hash exactly when the miner's own comparison accepts it, byte by byte, and both do
exactly when the hash as a little-endian number is at most the target as a big-endian one. -/
theorem scanAccepts_iff (hash : Bytes32) (target : Target) :
    (scanAccepts hash (targetLimbs target) = true ↔ hashMeetsTarget hash target = true) ∧
      (hashMeetsTarget hash target = true ↔
        littleEndian hash.toList ≤ bigEndian target.toList) := by
  have hmeets : hashMeetsTarget hash target = true ↔
      littleEndian hash.toList ≤ bigEndian target.toList := by
    unfold hashMeetsTarget
    rw [bytesAtMost_iff (by simp), bigEndian_reverse]
  refine ⟨?_, hmeets⟩
  rw [hmeets, scanAccepts, Limbs.ge_iff, hashLimbs_toNat, targetLimbs_toNat]

end Bc3Miner.Kernel
