import Bc3Miner.Kernel.Mix
import Bc3Miner.Kernel.TargetCompare
import Bc3Miner.Reference.Compressions
import Bc3Miner.Reference.StreamedHashes

/-!
# The compressions of the kernel

`keccakf`, `sha512_block`, `ripemd160_block`, `blake2s_block` and `blake2b_block` of
`src/kernels/bc3hash.cl`, with its tables. Each is the compression of the reference, whose tables
are partly computed, whose words are read in another way and whose counter has two words.

For each of the five there is a theorem that it is the reference's compression (`keccakf_eq_permute`
and so on), for every state and block, with the kernel's rotations by counts that are masked, its
tables written out, and its loads of bytes.
-/

set_option autoImplicit false
set_option relaxedAutoImplicit false

namespace Bc3Miner.Kernel

open Foundations Consensus

def rol32 (x : UInt32) (n : ℕ) : UInt32 :=
  (x <<< n.toUInt32) ||| (x >>> ((32 - n) &&& 31).toUInt32)

def ror32 (x : UInt32) (n : ℕ) : UInt32 :=
  (x >>> n.toUInt32) ||| (x <<< ((32 - n) &&& 31).toUInt32)

/-! ### Keccak -/

def keccakRc : List UInt64 :=
  [0x0000000000000001, 0x0000000000008082, 0x800000000000808a, 0x8000000080008000,
   0x000000000000808b, 0x0000000080000001, 0x8000000080008081, 0x8000000000008009,
   0x000000000000008a, 0x0000000000000088, 0x0000000080008009, 0x000000008000000a,
   0x000000008000808b, 0x800000000000008b, 0x8000000000008089, 0x8000000000008003,
   0x8000000000008002, 0x8000000000000080, 0x000000000000800a, 0x800000008000000a,
   0x8000000080008081, 0x8000000000008080, 0x0000000080000001, 0x8000000080008008]

def keccakRho : List ℕ :=
  [0, 1, 62, 28, 27, 36, 44, 6, 55, 20, 3, 10, 43, 25, 39, 41, 45, 15, 21, 8, 18, 2, 61, 56, 14]

def keccakPi : List ℕ :=
  [0, 10, 20, 5, 15, 16, 1, 11, 21, 6, 7, 17, 2, 12, 22, 23, 8, 18, 3, 13, 14, 24, 9, 19, 4]

def keccakf (a : Vector UInt64 25) : Vector UInt64 25 :=
  (List.range 24).foldl (fun a round ↦
    HashRounds.keccakRound rol64 (fun x y ↦ keccakPi.getD (x + 5 * y) 0)
      (fun i ↦ keccakRho.getD i 0) a (keccakRc.getD round 0)) a

/-! ### SHA-512 -/

def sha512K : List UInt64 :=
  [0x428a2f98d728ae22, 0x7137449123ef65cd, 0xb5c0fbcfec4d3b2f, 0xe9b5dba58189dbbc,
   0x3956c25bf348b538, 0x59f111f1b605d019, 0x923f82a4af194f9b, 0xab1c5ed5da6d8118,
   0xd807aa98a3030242, 0x12835b0145706fbe, 0x243185be4ee4b28c, 0x550c7dc3d5ffb4e2,
   0x72be5d74f27b896f, 0x80deb1fe3b1696b1, 0x9bdc06a725c71235, 0xc19bf174cf692694,
   0xe49b69c19ef14ad2, 0xefbe4786384f25e3, 0x0fc19dc68b8cd5b5, 0x240ca1cc77ac9c65,
   0x2de92c6f592b0275, 0x4a7484aa6ea6e483, 0x5cb0a9dcbd41fbd4, 0x76f988da831153b5,
   0x983e5152ee66dfab, 0xa831c66d2db43210, 0xb00327c898fb213f, 0xbf597fc7beef0ee4,
   0xc6e00bf33da88fc2, 0xd5a79147930aa725, 0x06ca6351e003826f, 0x142929670a0e6e70,
   0x27b70a8546d22ffc, 0x2e1b21385c26c926, 0x4d2c6dfc5ac42aed, 0x53380d139d95b3df,
   0x650a73548baf63de, 0x766a0abb3c77b2a8, 0x81c2c92e47edaee6, 0x92722c851482353b,
   0xa2bfe8a14cf10364, 0xa81a664bbc423001, 0xc24b8b70d0f89791, 0xc76c51a30654be30,
   0xd192e819d6ef5218, 0xd69906245565a910, 0xf40e35855771202a, 0x106aa07032bbd1b8,
   0x19a4c116b8d2d0c8, 0x1e376c085141ab53, 0x2748774cdf8eeb99, 0x34b0bcb5e19b48a8,
   0x391c0cb3c5c95a63, 0x4ed8aa4ae3418acb, 0x5b9cca4f7763e373, 0x682e6ff3d6b2b8a3,
   0x748f82ee5defb2fc, 0x78a5636f43172f60, 0x84c87814a1f0ab72, 0x8cc702081a6439ec,
   0x90befffa23631e28, 0xa4506cebde82bde9, 0xbef9a3f7b2c67915, 0xc67178f2e372532b,
   0xca273eceea26619c, 0xd186b8c721c0c207, 0xeada7dd6cde0eb1e, 0xf57d4f7fee6ed178,
   0x06f067aa72176fba, 0x0a637dc5a2c898a6, 0x113f9804bef90dae, 0x1b710b35131c471b,
   0x28db77f523047d84, 0x32caab7b40c72493, 0x3c9ebe0a15c9bebc, 0x431d67c49c100d4c,
   0x4cc5d4becb3e42b6, 0x597f299cfc657e2a, 0x5fcb6fab3ad6faec, 0x6c44198c4a475817]

def sha512Sigmas : HashRounds.Sigmas where
  upper0 v := ror64 v 28 ^^^ ror64 v 34 ^^^ ror64 v 39
  upper1 v := ror64 v 14 ^^^ ror64 v 18 ^^^ ror64 v 41
  lower0 v := ror64 v 1 ^^^ ror64 v 8 ^^^ (v >>> 7)
  lower1 v := ror64 v 19 ^^^ ror64 v 61 ^^^ (v >>> 6)

def sha512Block (h : Vector UInt64 8) (blk : List UInt8) : Vector UInt64 8 :=
  HashRounds.sha512Compress sha512Sigmas sha512K
    (fun i ↦ loadBe64 fun j ↦ (blk.drop (8 * i)).getD j 0) h

/-! ### RIPEMD-160 -/

def rmdWord : List (List ℕ) := [
  [0, 1, 2, 3, 4, 5, 6, 7, 8, 9, 10, 11, 12, 13, 14, 15, 7, 4, 13, 1, 10, 6, 15, 3, 12, 0, 9, 5, 2,
   14, 11, 8, 3, 10, 14, 4, 9, 15, 8, 1, 2, 7, 0, 6, 13, 11, 5, 12, 1, 9, 11, 10, 0, 8, 12, 4, 13,
   3, 7, 15, 14, 5, 6, 2, 4, 0, 5, 9, 7, 12, 2, 10, 14, 1, 3, 8, 11, 6, 15, 13],
  [5, 14, 7, 0, 9, 2, 11, 4, 13, 6, 15, 8, 1, 10, 3, 12, 6, 11, 3, 7, 0, 13, 5, 10, 14, 15, 8, 12,
   4, 9, 1, 2, 15, 5, 1, 3, 7, 14, 6, 9, 11, 8, 12, 2, 10, 0, 4, 13, 8, 6, 4, 1, 3, 11, 15, 0, 5,
   12, 2, 13, 9, 7, 10, 14, 12, 15, 10, 4, 1, 5, 8, 7, 6, 2, 13, 14, 0, 3, 9, 11]]

def rmdRot : List (List ℕ) := [
  [11, 14, 15, 12, 5, 8, 7, 9, 11, 13, 14, 15, 6, 7, 9, 8, 7, 6, 8, 13, 11, 9, 7, 15, 7, 12, 15, 9,
   11, 7, 13, 12, 11, 13, 6, 7, 14, 9, 13, 15, 14, 8, 13, 6, 5, 12, 7, 5, 11, 12, 14, 15, 14, 15, 9,
   8, 9, 14, 5, 6, 8, 6, 5, 12, 9, 15, 5, 11, 6, 8, 13, 12, 5, 12, 13, 14, 11, 8, 5, 6],
  [8, 9, 9, 11, 13, 15, 15, 5, 7, 7, 8, 11, 14, 14, 12, 6, 9, 13, 15, 7, 12, 8, 9, 11, 7, 7, 12, 7,
   6, 15, 13, 11, 9, 7, 15, 11, 8, 6, 6, 14, 12, 13, 5, 14, 13, 13, 7, 5, 15, 5, 8, 11, 14, 14, 6,
   14, 6, 9, 12, 9, 12, 5, 15, 8, 8, 5, 12, 9, 12, 5, 14, 6, 8, 13, 6, 5, 15, 13, 11, 11]]

def rmdK : List (List UInt32) := [
  [0, 0x5a827999, 0x6ed9eba1, 0x8f1bbcdc, 0xa953fd4e],
  [0x50a28be6, 0x5c4dd124, 0x6d703ef3, 0x7a6d76e9, 0]]

def rmdF (round : ℕ) (x y z : UInt32) : UInt32 :=
  match round with
  | 0 => x ^^^ y ^^^ z
  | 1 => z ^^^ (x &&& (y ^^^ z))
  | 2 => (x ||| ~~~y) ^^^ z
  | 3 => y ^^^ (z &&& (x ^^^ y))
  | _ => x ^^^ (y ||| ~~~z)

def rmdPath (p : ℕ) : HashRounds.Path := ⟨rmdWord.getD p [], rmdRot.getD p [], rmdK.getD p []⟩

def ripemd160Block (chain : Vector UInt32 5) (blk : List UInt8) : Vector UInt32 5 :=
  HashRounds.ripemdCompress rol32 rmdF (rmdPath 0) (rmdPath 1) chain
    fun i ↦ loadLe32 (blk.drop (4 * i))

/-! ### BLAKE2 -/

def blake2Sigma : List (List ℕ) := [
  [0, 1, 2, 3, 4, 5, 6, 7, 8, 9, 10, 11, 12, 13, 14, 15],
  [14, 10, 4, 8, 9, 15, 13, 6, 1, 12, 0, 2, 11, 7, 5, 3],
  [11, 8, 12, 0, 5, 2, 15, 13, 10, 14, 3, 6, 7, 1, 9, 4],
  [7, 9, 3, 1, 13, 12, 11, 14, 2, 6, 5, 10, 4, 0, 15, 8],
  [9, 0, 5, 7, 2, 4, 10, 15, 14, 1, 11, 12, 6, 8, 3, 13],
  [2, 12, 6, 10, 0, 11, 8, 3, 4, 13, 7, 5, 15, 14, 1, 9],
  [12, 5, 1, 15, 14, 13, 4, 10, 0, 7, 6, 3, 9, 2, 8, 11],
  [13, 11, 7, 14, 12, 1, 3, 9, 5, 0, 15, 4, 8, 6, 2, 10],
  [6, 15, 14, 9, 11, 3, 0, 8, 12, 2, 13, 7, 1, 4, 10, 5],
  [10, 2, 8, 4, 7, 6, 1, 5, 15, 11, 9, 14, 3, 12, 13, 0]]

def blake2sOps : HashRounds.Blake UInt32 where
  zero := 0
  add a b := a + b
  xor a b := a ^^^ b
  rotate1 v := ror32 v 16
  rotate2 v := ror32 v 12
  rotate3 v := ror32 v 8
  rotate4 v := ror32 v 7
  rounds := 10

def blake2bOps : HashRounds.Blake UInt64 where
  zero := 0
  add a b := a + b
  xor a b := a ^^^ b
  rotate1 v := ror64 v 32
  rotate2 v := ror64 v 24
  rotate3 v := ror64 v 16
  rotate4 v := ror64 v 63
  rounds := 12

section Blake

variable {W : Type} (ops : HashRounds.Blake W) (complement : W → W) (iv : Vector W 8)

/-- The state of a block: the counter has one word. -/
def blake2State (h : Vector W 8) (counter : W) (last : Bool) : Vector W 16 :=
  let v : Vector W 16 := h ++ iv
  let v := v.setIfInBounds 12 (ops.xor (v.getD 12 ops.zero) counter)
  if last then v.setIfInBounds 14 (complement (v.getD 14 ops.zero)) else v

end Blake

def blake2sBlock (h : Vector UInt32 8) (blk : List UInt8) (counter : ℕ) (last : Bool) :
    Vector UInt32 8 :=
  HashRounds.blakeFold blake2sOps h
    (HashRounds.blakeRounds blake2sOps (fun round ↦ blake2Sigma.getD round [])
      (fun i ↦ loadLe32 (blk.drop (4 * i)))
      (blake2State blake2sOps (~~~·) blake2sIv h counter.toUInt32 last))

def blake2bBlock (h : Vector UInt64 8) (blk : List UInt8) (counter : ℕ) (last : Bool) :
    Vector UInt64 8 :=
  HashRounds.blakeFold blake2bOps h
    (HashRounds.blakeRounds blake2bOps (fun round ↦ blake2Sigma.getD (round % 10) [])
      (fun i ↦ loadLe64 (blk.drop (8 * i)))
      (blake2State blake2bOps (~~~·) sha512Iv h counter.toUInt64 last))

/-! ### Rotations and reading -/

theorem and_sixtyThree (n : ℕ) : n &&& 63 = n % 64 := Nat.and_two_pow_sub_one_eq_mod n 6

theorem and_thirtyOne (n : ℕ) : n &&& 31 = n % 32 := Nat.and_two_pow_sub_one_eq_mod n 5

theorem left64_eq_rol64 {n : ℕ} (hn : n < 64) (v : UInt64) : Reference.left64 v n = rol64 v n := by
  have hback : (64 - (64 - n) % 64) % 64 = n % 64 := by omega
  rw [Reference.left64, rol64, ror64, and_sixtyThree, and_sixtyThree, hback,
    UInt64.or_comm]

theorem right64_eq_ror64 {n : ℕ} (hn : n < 64) (v : UInt64) :
    Reference.right64 v n = ror64 v n := by
  have hback : (64 - (64 - n)) % 64 = n := by omega
  rw [Reference.right64, Reference.left64, ror64, and_sixtyThree, hback, UInt64.or_comm]

theorem left32_eq_rol32 {n : ℕ} (hn : n < 32) (v : UInt32) : Reference.left32 v n = rol32 v n := by
  rw [Reference.left32, rol32, and_thirtyOne, Nat.mod_eq_of_lt hn]

theorem right32_eq_ror32 {n : ℕ} (hn : n < 32) (v : UInt32) :
    Reference.right32 v n = ror32 v n := by
  have hback : (32 - (32 - n)) % 32 = n := by omega
  rw [Reference.right32, Reference.left32, ror32, and_thirtyOne, hback, UInt32.or_comm]

theorem loadLe32_eq_read32 (p : List UInt8) : loadLe32 p = Reference.read32 p := by
  simp [loadLe32, Reference.read32, List.range_succ]

/-- Eight bytes in two halves, or one after the other. -/
theorem loadLe64_eq_read64 (p : List UInt8) : loadLe64 p = Reference.read64 false p := by
  have hread : ∀ count ≤ 8, ((List.range count).foldl (fun (v : UInt64) i ↦
      v ||| (p.getD i 0).toUInt64 <<< (8 * i).toUInt64) 0).toNat =
        littleEndian ((List.range count).map fun i ↦ p.getD i 0) := by
    intro count hcount
    induction count with
    | zero => rfl
    | succ count ih =>
      have hbefore := ih (by omega)
      have hlt := littleEndian_lt ((List.range count).map fun i ↦ p.getD i 0)
      have hbyte := (p.getD count 0).toNat_lt
      have hshift : (8 * count).toUInt64.toNat % 64 = 8 * count := by
        rw [Nat.toUInt64_eq, UInt64.toNat_ofNat']
        omega
      have hbase : (256 : ℕ) ^ count = 2 ^ (8 * count) := by rw [pow_mul]; rfl
      have hfits : (p.getD count 0).toNat * 2 ^ (8 * count) < 2 ^ 64 := by
        have hle : 2 ^ (8 * count + 8) ≤ 2 ^ 64 := Nat.pow_le_pow_right (by norm_num) (by omega)
        rw [pow_add, Nat.mul_comm] at hle
        exact (Nat.mul_lt_mul_of_pos_right hbyte (Nat.two_pow_pos _)).trans_le hle
      rw [List.length_map, List.length_range, hbase] at hlt
      rw [List.range_succ, List.foldl_append, List.foldl_cons, List.foldl_nil, UInt64.toNat_or,
        hbefore, UInt64.toNat_shiftLeft, hshift, UInt8.toNat_toUInt64, Nat.shiftLeft_eq,
        Nat.mod_eq_of_lt hfits, Nat.or_comm, Nat.mul_comm, ← Nat.two_pow_add_eq_or_of_lt hlt,
        List.map_append, littleEndian_append, List.length_map, List.length_range, hbase,
        Nat.add_comm]
      rfl
  have hbytes : loadLe64 p = loadLe64 ((List.range 8).map fun i ↦ p.getD i 0) := by
    simp [loadLe64, loadLe32, List.range_succ, List.getD_eq_getElem?_getD]
  refine UInt64.toNat_inj.mp ?_
  rw [hbytes, loadLe64_toNat (by simp), List.take_of_length_le (by simp), ← hread 8 le_rfl]
  rfl

/-- Eight bytes, each moved by all that come after it. -/
theorem loadBe64_eq_read64 (p : List UInt8) :
    loadBe64 (fun j ↦ p.getD j 0) = Reference.read64 true p := by
  have hread : ∀ count ≤ 8, (List.range count).foldl (fun (v : UInt64) i ↦
      v ||| (p.getD i 0).toUInt64 <<< (8 * (8 - i - 1)).toUInt64) 0 =
        ((List.range count).foldl (fun (v : UInt64) i ↦
          (v <<< 8) ||| (p.getD i 0).toUInt64) 0) <<< (8 * (8 - count)).toUInt64 := by
    intro count hcount
    induction count with
    | zero => rfl
    | succ count ih =>
      have hplace : 8 * (8 - count - 1) = 8 * (8 - (count + 1)) := by omega
      rw [List.range_succ, List.foldl_append, List.foldl_append, List.foldl_cons, List.foldl_cons,
        List.foldl_nil, List.foldl_nil, ih (by omega), UInt64.shiftLeft_or, hplace]
      refine congrArg (· ||| _) ?_
      rcases Nat.eq_zero_or_pos count with rfl | hpos
      · rw [List.range_zero, List.foldl_nil, UInt64.zero_shiftLeft, UInt64.zero_shiftLeft,
          UInt64.zero_shiftLeft]
      · have height : (8 : UInt64).toNat = 8 := rfl
        have hsum : (8 * (8 - count)).toUInt64 = 8 + (8 * (8 - (count + 1))).toUInt64 := by
          refine UInt64.toNat_inj.mp ?_
          rw [UInt64.toNat_add, Nat.toUInt64_eq, Nat.toUInt64_eq, UInt64.toNat_ofNat',
            UInt64.toNat_ofNat', height]
          omega
        have hlt : (8 : UInt64).toNat + (8 * (8 - (count + 1))).toUInt64.toNat < 64 := by
          rw [Nat.toUInt64_eq, UInt64.toNat_ofNat', height]
          omega
        rw [hsum, UInt64.shiftLeft_add_of_toNat_lt hlt]
  have hall := hread 8 le_rfl
  rw [Nat.sub_self, Nat.mul_zero] at hall
  exact ((UInt64.shiftLeft_zero).symm.trans hall.symm)

/-! ### The reference's compressions -/

/-- A fold over a list, by its places. -/
theorem foldl_getD {α β : Type} (f : β → α → β) (items : List α) (default : α) (init : β) :
    (List.range items.length).foldl (fun state i ↦ f state (items.getD i default)) init =
      items.foldl f init := by
  have hitems : (List.range items.length).map (fun i ↦ items.getD i default) = items := by
    refine List.ext_getElem (by simp) fun i hi _ ↦ ?_
    rw [List.getElem_map, List.getElem_range, List.getD_eq_getElem]
  conv_rhs => rw [← hitems, List.foldl_map]

/-- The permutation of the kernel is that of the reference. -/
theorem keccakf_eq_permute (a : Vector UInt64 25) : keccakf a = Reference.permute a := by
  have hconstants : keccakRc = Reference.iotaConstants := by decide +kernel
  have hround (a : Vector UInt64 25) (constant : UInt64) :
      HashRounds.keccakRound rol64 (fun x y ↦ keccakPi.getD (x + 5 * y) 0)
        (fun i ↦ keccakRho.getD i 0) a constant =
      HashRounds.keccakRound Reference.left64 (fun x y ↦ y + 5 * ((2 * x + 3 * y) % 5))
        (fun i ↦ Reference.rhoOffsets.getD i 0) a constant := by
    have hplaces : ∀ x < 5, ∀ y < 5,
        keccakPi.getD (x + 5 * y) 0 = y + 5 * ((2 * x + 3 * y) % 5) := by decide +kernel
    have hoffsets : keccakRho = Reference.rhoOffsets := by decide +kernel
    have hsmall : ∀ i < 25, keccakRho.getD i 0 < 64 := by decide +kernel
    refine HashRounds.keccakRound_congr (fun v ↦ (left64_eq_rol64 (by norm_num) v).symm) hplaces
      (fun i hi v ↦ ?_) a constant
    rw [← hoffsets, left64_eq_rol64 (hsmall i hi)]
  have hcount : 24 = keccakRc.length := rfl
  rw [keccakf, Reference.permute, ← hconstants, hcount, foldl_getD]
  exact List.foldl_ext _ _ _ fun a constant _ ↦ hround a constant

/-- The SHA-512 compression of the kernel is that of the reference. -/
theorem sha512Block_eq_compress (h : Vector UInt64 8) (blk : List UInt8) :
    sha512Block h blk = Reference.sha512Compress h blk := by
  have hsigmas : sha512Sigmas = Reference.sigmas := by
    have hright : ∀ n < 64, ∀ v, ror64 v n = Reference.right64 v n :=
      fun n hn v ↦ (right64_eq_ror64 hn v).symm
    simp only [sha512Sigmas, Reference.sigmas, hright _ (by norm_num : 1 < 64),
      hright _ (by norm_num : 8 < 64), hright _ (by norm_num : 14 < 64),
      hright _ (by norm_num : 18 < 64), hright _ (by norm_num : 19 < 64),
      hright _ (by norm_num : 28 < 64), hright _ (by norm_num : 34 < 64),
      hright _ (by norm_num : 39 < 64), hright _ (by norm_num : 41 < 64),
      hright _ (by norm_num : 61 < 64)]
  have htable : sha512K = Reference.sha512Round := rfl
  simp only [sha512Block, Reference.sha512Compress, hsigmas, htable, loadBe64_eq_read64]

/-- The RIPEMD-160 compression of the kernel is that of the reference. -/
theorem ripemd160Block_eq_compress (chain : Vector UInt32 5) (blk : List UInt8) :
    ripemd160Block chain blk = Reference.ripemd160Compress chain blk := by
  have hboolean : rmdF = Reference.ripemdBoolean := rfl
  have hpaths : rmdPath = Reference.ripemdPath := rfl
  have hsmall : ∀ p < 2, ∀ i < 80, (rmdPath p).rotation.getD i 0 < 32 := by decide +kernel
  have hrotation : ∀ path, path = rmdPath 0 ∨ path = rmdPath 1 → ∀ i < 80, ∀ v,
      rol32 v (path.rotation.getD i 0) = Reference.left32 v (path.rotation.getD i 0) := by
    rintro path (rfl | rfl) i hi v
    · exact (left32_eq_rol32 (hsmall 0 (by norm_num) i hi) v).symm
    · exact (left32_eq_rol32 (hsmall 1 (by norm_num) i hi) v).symm
  rw [ripemd160Block, Reference.ripemd160Compress,
    HashRounds.ripemdCompress_congr rmdF (fun v ↦ (left32_eq_rol32 (by norm_num) v).symm) hrotation,
    hboolean, hpaths]
  simp only [loadLe32_eq_read32]

section Blake

/-- A counter whose high word is zero. -/
theorem blake2State_eq {W : Type} (ops : HashRounds.Blake W) (hxor : ∀ w, ops.xor w ops.zero = w)
    (complement : W → W) (iv h : Vector W 8) (counter : W) (last : Bool) :
    blake2State ops complement iv h counter last =
      Reference.blakeState ops complement iv h counter ops.zero last := by
  have hsame (v : Vector W 16) :
      v.setIfInBounds 13 (ops.xor (v.getD 13 ops.zero) ops.zero) = v := by
    rw [hxor]
    refine Vector.ext fun i hi ↦ ?_
    rw [Vector.getElem_setIfInBounds]
    by_cases hplace : 13 = i
    · subst hplace
      simp [Vector.getD]
    · rw [if_neg hplace]
  simp only [blake2State, Reference.blakeState, hsame]

/-- The BLAKE2s compression of the kernel is that of the reference, for a counter that fits its
word. -/
theorem blake2sBlock_eq_compress (h : Vector UInt32 8) (blk : List UInt8) {counter : ℕ}
    (hcounter : counter < 2 ^ 32) (last : Bool) :
    blake2sBlock h blk counter last =
      Reference.Blake2.counted Reference.hashWord32 Reference.blakeCompress32 h blk counter
        last := by
  have hops : blake2sOps = Reference.blake32 := by
    have hright : ∀ n < 32, ∀ v, ror32 v n = Reference.right32 v n :=
      fun n hn v ↦ (right32_eq_ror32 hn v).symm
    simp only [blake2sOps, Reference.blake32, hright _ (by norm_num : 16 < 32),
      hright _ (by norm_num : 12 < 32), hright _ (by norm_num : 8 < 32),
      hright _ (by norm_num : 7 < 32)]
  have hhigh : Reference.hashWord32.ofNat (counter / 2 ^ Reference.hashWord32.bits) =
      Reference.blake32.zero := by
    have hzero : counter / 2 ^ Reference.hashWord32.bits = 0 := Nat.div_eq_of_lt hcounter
    rw [hzero]
    rfl
  have horder : ∀ round < Reference.blake32.rounds,
      blake2Sigma.getD round [] = Reference.sigma.getD (round % 10) [] := by
    intro round hround
    have htable : blake2Sigma = Reference.sigma := rfl
    have hmod : round % 10 = round := Nat.mod_eq_of_lt hround
    rw [htable, hmod]
  have hxor (w : UInt32) : Reference.blake32.xor w Reference.blake32.zero = w := UInt32.xor_zero
  rw [blake2sBlock, hops, blake2State_eq _ hxor, HashRounds.blakeRounds_congr _ horder,
    Reference.Blake2.counted, hhigh, Reference.blakeCompress32, Reference.blakeCompress]
  simp only [loadLe32_eq_read32]
  rfl

/-- The BLAKE2b compression of the kernel is that of the reference, for a counter that fits its
word. -/
theorem blake2bBlock_eq_compress (h : Vector UInt64 8) (blk : List UInt8) {counter : ℕ}
    (hcounter : counter < 2 ^ 64) (last : Bool) :
    blake2bBlock h blk counter last =
      Reference.Blake2.counted Reference.hashWord64 Reference.blakeCompress64 h blk counter
        last := by
  have hops : blake2bOps = Reference.blake64 := by
    have hright : ∀ n < 64, ∀ v, ror64 v n = Reference.right64 v n :=
      fun n hn v ↦ (right64_eq_ror64 hn v).symm
    simp only [blake2bOps, Reference.blake64, hright _ (by norm_num : 32 < 64),
      hright _ (by norm_num : 24 < 64), hright _ (by norm_num : 16 < 64),
      hright _ (by norm_num : 63 < 64)]
  have hhigh : Reference.hashWord64.ofNat (counter / 2 ^ Reference.hashWord64.bits) =
      Reference.blake64.zero := by
    have hzero : counter / 2 ^ Reference.hashWord64.bits = 0 := Nat.div_eq_of_lt hcounter
    rw [hzero]
    rfl
  have hxor (w : UInt64) : Reference.blake64.xor w Reference.blake64.zero = w := UInt64.xor_zero
  rw [blake2bBlock, hops, blake2State_eq _ hxor, Reference.Blake2.counted, hhigh,
    Reference.blakeCompress64, Reference.blakeCompress]
  simp only [loadLe64_eq_read64]
  rfl

end Blake

end Bc3Miner.Kernel
