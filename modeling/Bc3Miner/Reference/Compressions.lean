import Bc3Miner.Foundations.HashRounds
import Bc3Miner.Reference.StandardHashes

/-!
# The compressions of the standard hashes

`Sha3::permute` and the compressions of `Sha512`, `Ripemd160` and `Blake2` of
`bc3hash/vendor/bc3/standard_hashes.cpp`, with its tables. The offsets and the constants of Keccak
are computed, as there.

They are the definitions that `Kernel.Compressions` is compared with, in the words of the reference:
rotations as shifts both ways, words read from a block of bytes, tables that are computed where the
source computes them.
-/

set_option autoImplicit false
set_option relaxedAutoImplicit false

namespace Bc3Miner.Reference

open Foundations

/-! ### Rotations -/

def left64 (v : UInt64) (n : ℕ) : UInt64 :=
  (v <<< (n % 64).toUInt64) ||| (v >>> ((64 - n) % 64).toUInt64)

def right64 (v : UInt64) (n : ℕ) : UInt64 := left64 v (64 - n)

def left32 (v : UInt32) (n : ℕ) : UInt32 :=
  (v <<< (n % 32).toUInt32) ||| (v >>> ((32 - n) % 32).toUInt32)

def right32 (v : UInt32) (n : ℕ) : UInt32 := left32 v (32 - n)

/-! ### Keccak -/

/-- Step `t` of the walk over the lanes. -/
def rhoStep (walk : List ℕ × ℕ × ℕ) (t : ℕ) : List ℕ × ℕ × ℕ :=
  let x := walk.2.1
  let y := walk.2.2
  (walk.1.set (x + 5 * y) ((t + 1) * (t + 2) / 2 % 64), y, (2 * x + 3 * y) % 5)

def rhoOffsets : List ℕ := ((List.range 24).foldl rhoStep (List.replicate 25 0, 1, 0)).1

/-- Bit `j` of a constant, from a shift register. -/
def iotaStep (s : UInt64 × UInt32) (j : ℕ) : UInt64 × UInt32 :=
  let rc := if s.2 &&& 1 ≠ 0 then s.1 ^^^ (1 : UInt64) <<< (2 ^ j - 1).toUInt64 else s.1
  (rc, ((s.2 <<< 1) ^^^ if s.2 &&& 128 ≠ 0 then 0x71 else 0) &&& 255)

def iotaConstants : List UInt64 :=
  ((List.range 24).foldl (fun (s : List UInt64 × UInt32) _ ↦
    let next := (List.range 7).foldl iotaStep (0, s.2)
    (s.1 ++ [next.1], next.2)) ([], 1)).1

def permute (lanes : Vector UInt64 25) : Vector UInt64 25 :=
  iotaConstants.foldl (HashRounds.keccakRound left64 (fun x y ↦ y + 5 * ((2 * x + 3 * y) % 5))
    fun i ↦ rhoOffsets.getD i 0) lanes

/-! ### SHA-512 -/

def sha512Round : List UInt64 :=
  [0x428a2f98d728ae22, 0x7137449123ef65cd, 0xb5c0fbcfec4d3b2f, 0xe9b5dba58189dbbc,
   0x3956c25bf348b538, 0x59f111f1b605d019, 0x923f82a4af194f9b, 0xab1c5ed5da6d8118,
   0xd807aa98a3030242, 0x12835b0145706fbe, 0x243185be4ee4b28c, 0x550c7dc3d5ffb4e2,
   0x72be5d74f27b896f, 0x80deb1fe3b1696b1, 0x9bdc06a725c71235, 0xc19bf174cf692694,
   0xe49b69c19ef14ad2, 0xefbe4786384f25e3, 0x0fc19dc68b8cd5b5, 0x240ca1cc77ac9c65,
   0x2de92c6f592b0275, 0x4a7484aa6ea6e483, 0x5cb0a9dcbd41fbd4, 0x76f988da831153b5,
   0x983e5152ee66dfab, 0xa831c66d2db43210, 0xb00327c898fb213f, 0xbf597fc7beef0ee4,
   0xc6e00bf33da88fc2, 0xd5a79147930aa725, 0x06ca6351e003826f, 0x142929670a0e6e70,
   0x27b70a8546d22ffc, 0x2e1b21385c26c926, 0x4d2c6dfc5ac42aed, 0x53380d139d95b3df,
   0x650a73548baf63de, 0x766a0abb3c77b2a8, 0x81c2c92e47edaee6, 0x92722c851482353b,
   0xa2bfe8a14cf10364, 0xa81a664bbc423001, 0xc24b8b70d0f89791, 0xc76c51a30654be30,
   0xd192e819d6ef5218, 0xd69906245565a910, 0xf40e35855771202a, 0x106aa07032bbd1b8,
   0x19a4c116b8d2d0c8, 0x1e376c085141ab53, 0x2748774cdf8eeb99, 0x34b0bcb5e19b48a8,
   0x391c0cb3c5c95a63, 0x4ed8aa4ae3418acb, 0x5b9cca4f7763e373, 0x682e6ff3d6b2b8a3,
   0x748f82ee5defb2fc, 0x78a5636f43172f60, 0x84c87814a1f0ab72, 0x8cc702081a6439ec,
   0x90befffa23631e28, 0xa4506cebde82bde9, 0xbef9a3f7b2c67915, 0xc67178f2e372532b,
   0xca273eceea26619c, 0xd186b8c721c0c207, 0xeada7dd6cde0eb1e, 0xf57d4f7fee6ed178,
   0x06f067aa72176fba, 0x0a637dc5a2c898a6, 0x113f9804bef90dae, 0x1b710b35131c471b,
   0x28db77f523047d84, 0x32caab7b40c72493, 0x3c9ebe0a15c9bebc, 0x431d67c49c100d4c,
   0x4cc5d4becb3e42b6, 0x597f299cfc657e2a, 0x5fcb6fab3ad6faec, 0x6c44198c4a475817]

def sigmas : HashRounds.Sigmas where
  upper0 v := right64 v 28 ^^^ right64 v 34 ^^^ right64 v 39
  upper1 v := right64 v 14 ^^^ right64 v 18 ^^^ right64 v 41
  lower0 v := right64 v 1 ^^^ right64 v 8 ^^^ (v >>> 7)
  lower1 v := right64 v 19 ^^^ right64 v 61 ^^^ (v >>> 6)

def sha512Compress (chain : Vector UInt64 8) (data : List UInt8) : Vector UInt64 8 :=
  HashRounds.sha512Compress sigmas sha512Round (fun i ↦ read64 true (data.drop (8 * i))) chain

/-! ### RIPEMD-160 -/

def ripemdWord : List (List ℕ) := [
  [0, 1, 2, 3, 4, 5, 6, 7, 8, 9, 10, 11, 12, 13, 14, 15, 7, 4, 13, 1, 10, 6, 15, 3, 12, 0, 9, 5, 2,
   14, 11, 8, 3, 10, 14, 4, 9, 15, 8, 1, 2, 7, 0, 6, 13, 11, 5, 12, 1, 9, 11, 10, 0, 8, 12, 4, 13,
   3, 7, 15, 14, 5, 6, 2, 4, 0, 5, 9, 7, 12, 2, 10, 14, 1, 3, 8, 11, 6, 15, 13],
  [5, 14, 7, 0, 9, 2, 11, 4, 13, 6, 15, 8, 1, 10, 3, 12, 6, 11, 3, 7, 0, 13, 5, 10, 14, 15, 8, 12,
   4, 9, 1, 2, 15, 5, 1, 3, 7, 14, 6, 9, 11, 8, 12, 2, 10, 0, 4, 13, 8, 6, 4, 1, 3, 11, 15, 0, 5,
   12, 2, 13, 9, 7, 10, 14, 12, 15, 10, 4, 1, 5, 8, 7, 6, 2, 13, 14, 0, 3, 9, 11]]

def ripemdRotation : List (List ℕ) := [
  [11, 14, 15, 12, 5, 8, 7, 9, 11, 13, 14, 15, 6, 7, 9, 8, 7, 6, 8, 13, 11, 9, 7, 15, 7, 12, 15, 9,
   11, 7, 13, 12, 11, 13, 6, 7, 14, 9, 13, 15, 14, 8, 13, 6, 5, 12, 7, 5, 11, 12, 14, 15, 14, 15, 9,
   8, 9, 14, 5, 6, 8, 6, 5, 12, 9, 15, 5, 11, 6, 8, 13, 12, 5, 12, 13, 14, 11, 8, 5, 6],
  [8, 9, 9, 11, 13, 15, 15, 5, 7, 7, 8, 11, 14, 14, 12, 6, 9, 13, 15, 7, 12, 8, 9, 11, 7, 7, 12, 7,
   6, 15, 13, 11, 9, 7, 15, 11, 8, 6, 6, 14, 12, 13, 5, 14, 13, 13, 7, 5, 15, 5, 8, 11, 14, 14, 6,
   14, 6, 9, 12, 9, 12, 5, 15, 8, 8, 5, 12, 9, 12, 5, 14, 6, 8, 13, 6, 5, 15, 13, 11, 11]]

def ripemdConstant : List (List UInt32) := [
  [0, 0x5a827999, 0x6ed9eba1, 0x8f1bbcdc, 0xa953fd4e],
  [0x50a28be6, 0x5c4dd124, 0x6d703ef3, 0x7a6d76e9, 0]]

def ripemdBoolean (round : ℕ) (x y z : UInt32) : UInt32 :=
  match round with
  | 0 => x ^^^ y ^^^ z
  | 1 => z ^^^ (x &&& (y ^^^ z))
  | 2 => (x ||| ~~~y) ^^^ z
  | 3 => y ^^^ (z &&& (x ^^^ y))
  | _ => x ^^^ (y ||| ~~~z)

/-- The tables of path `p`. -/
def ripemdPath (p : ℕ) : HashRounds.Path :=
  ⟨ripemdWord.getD p [], ripemdRotation.getD p [], ripemdConstant.getD p []⟩

def ripemd160Compress (chain : Vector UInt32 5) (data : List UInt8) : Vector UInt32 5 :=
  HashRounds.ripemdCompress left32 ripemdBoolean (ripemdPath 0) (ripemdPath 1) chain
    fun i ↦ read32 (data.drop (4 * i))

/-! ### BLAKE2 -/

def sigma : List (List ℕ) := [
  [0, 1, 2, 3, 4, 5, 6, 7, 8, 9, 10, 11, 12, 13, 14, 15],
  [14, 10, 4, 8, 9, 15, 13, 6, 1, 12, 0, 2, 11, 7, 5, 3],
  [11, 8, 12, 0, 5, 2, 15, 13, 10, 14, 3, 6, 7, 1, 9, 4],
  [7, 9, 3, 1, 13, 12, 11, 14, 2, 6, 5, 10, 4, 0, 15, 8],
  [9, 0, 5, 7, 2, 4, 10, 15, 14, 1, 11, 12, 6, 8, 3, 13],
  [2, 12, 6, 10, 0, 11, 8, 3, 4, 13, 7, 5, 15, 14, 1, 9],
  [12, 5, 1, 15, 14, 13, 4, 10, 0, 7, 6, 3, 9, 2, 8, 11],
  [13, 11, 7, 14, 12, 1, 3, 9, 5, 0, 15, 4, 8, 6, 2, 10],
  [6, 15, 14, 9, 11, 3, 0, 8, 12, 2, 13, 7, 1, 4, 10, 5],
  [10, 2, 8, 4, 7, 6, 1, 5, 15, 11, 9, 14, 3, 12, 13, 0]]

def blake32 : HashRounds.Blake UInt32 where
  zero := 0
  add a b := a + b
  xor a b := a ^^^ b
  rotate1 v := right32 v 16
  rotate2 v := right32 v 12
  rotate3 v := right32 v 8
  rotate4 v := right32 v 7
  rounds := 10

def blake64 : HashRounds.Blake UInt64 where
  zero := 0
  add a b := a + b
  xor a b := a ^^^ b
  rotate1 v := right64 v 32
  rotate2 v := right64 v 24
  rotate3 v := right64 v 16
  rotate4 v := right64 v 63
  rounds := 12

section Blake

variable {W : Type} (ops : HashRounds.Blake W) (complement : W → W) (iv : Vector W 8)

/-- The chain and the initial values, with the counter and the mark of the last block. -/
def blakeState (chain : Vector W 8) (low high : W) (last : Bool) : Vector W 16 :=
  let state : Vector W 16 := chain ++ iv
  let state := state.setIfInBounds 12 (ops.xor (state.getD 12 ops.zero) low)
  let state := state.setIfInBounds 13 (ops.xor (state.getD 13 ops.zero) high)
  if last then state.setIfInBounds 14 (complement (state.getD 14 ops.zero)) else state

/-- A block of words of `bytes` bytes. -/
def blakeCompress (bytes : ℕ) (read : List UInt8 → W) (chain : Vector W 8) (pending : List UInt8)
    (low high : W) (last : Bool) : Vector W 8 :=
  HashRounds.blakeFold ops chain
    (HashRounds.blakeRounds ops (fun round ↦ sigma.getD (round % 10) [])
      (fun i ↦ read (pending.drop (bytes * i))) (blakeState ops complement iv chain low high last))

end Blake

def blakeCompress32 : Vector UInt32 8 → List UInt8 → UInt32 → UInt32 → Bool → Vector UInt32 8 :=
  blakeCompress blake32 (~~~·) iv32 4 read32

def blakeCompress64 : Vector UInt64 8 → List UInt8 → UInt64 → UInt64 → Bool → Vector UInt64 8 :=
  blakeCompress blake64 (~~~·) iv64 8 (read64 false)

end Bc3Miner.Reference
