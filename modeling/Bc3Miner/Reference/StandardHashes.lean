import Bc3Miner.Kernel.HashFraming
import Bc3Miner.Reference.BlockBuffers

/-!
# The standard hashes, piece by piece

`Sha3`, `Sha512`, `Ripemd160` and `Blake2` of `bc3hash/vendor/bc3/standard_hashes.cpp` for any
permutation and any compression of a block. A message comes in pieces of any length, `finish` gives
the digest, and nothing is what an exception leaves. Next to them stand the digests of the
specifications: the message padded, cut into blocks and compressed.

An object is its state; `update` and `finish` are functions of the state that have no result where
the source throws. The classes over a number of bits, and BLAKE2 over a type of words, are one
definition with parameters, as they are templates there.
-/

set_option autoImplicit false
set_option relaxedAutoImplicit false

namespace Bc3Miner.Reference

open Consensus Foundations MessageBlocks BlockStream

/-! ### The digests of the specifications -/

section Digests

/-- SHA-3 with an output of `output` bytes. -/
def sha3Digest (permute : Vector UInt64 25 → Vector UInt64 25) (output : ℕ) (msg : List UInt8) :
    List UInt8 :=
  (List.range output).map (Kernel.stateByte ((blocks (200 - 2 * output)
    (Kernel.sha3Padded (200 - 2 * output) msg)).foldl
      (fun a block ↦ permute (Kernel.absorbBlock a block)) (Vector.replicate 25 0)))

def sha512Digest (compress : Vector UInt64 8 → List UInt8 → Vector UInt64 8) (msg : List UInt8) :
    List UInt8 :=
  ((blocks 128 (Kernel.sha512Padded msg)).foldl compress Kernel.sha512Iv).toList.flatMap
    Kernel.beBytes64

def ripemd160Digest (compress : Vector UInt32 5 → List UInt8 → Vector UInt32 5)
    (msg : List UInt8) : List UInt8 :=
  ((blocks 64 (Kernel.ripemd160Padded msg)).foldl compress Kernel.ripemd160Iv).toList.flatMap
    Kernel.leBytes32

/-- BLAKE2 with blocks of `size` bytes, of a message that is not empty. -/
def blake2Digest {σ : Type} (size : ℕ) (block : σ → List UInt8 → ℕ → Bool → σ) (start : σ)
    (msg : List UInt8) : σ :=
  (blocks size (Kernel.blake2Padded size msg)).zipIdx.foldl
    (Kernel.blake2Step block size msg.length (blocks size (Kernel.blake2Padded size msg)).length)
    start

end Digests

/-! ### Reading -/

/-- `read` of a word of eight bytes, most significant first where `big` is set. -/
def read64 (big : Bool) (p : List UInt8) : UInt64 :=
  (List.range 8).foldl (fun v i ↦
    v ||| (p.getD i 0).toUInt64 <<< (8 * if big then 8 - i - 1 else i).toUInt64) 0

/-- `read` of a word of four bytes, least significant first. -/
def read32 (p : List UInt8) : UInt32 :=
  (List.range 4).foldl (fun v i ↦ v ||| (p.getD i 0).toUInt32 <<< (8 * i).toUInt32) 0

/-! ### SHA-3 -/

/-- The lanes, the rate, the place of the next byte and the length of the output. -/
structure Sha3 where
  lanes : Vector UInt64 25
  rate : ℕ
  position : ℕ
  output : ℕ
  inside : position < rate

namespace Sha3

/-- The constructor, for an output of so many bits. -/
def ofBits (bits : ℕ) : Option Sha3 :=
  if hbits : bits = 224 ∨ bits = 256 ∨ bits = 384 ∨ bits = 512 then
    some ⟨Vector.replicate 25 0, 200 - bits / 4, 0, bits / 8, by omega⟩
  else none

/-- A block that stands whole in the data, lane by lane. -/
def xorWords (lanes : Vector UInt64 25) (rate : ℕ) (data : List UInt8) :
    Option (Vector UInt64 25) :=
  (List.range (rate / 8)).foldlM
    (fun lanes i ↦ Kernel.xorLane lanes i (read64 false (data.drop (8 * i)))) lanes

/-- Bytes from place `p` on. -/
def xorPart (lanes : Vector UInt64 25) (p : ℕ) : List UInt8 → Option (Vector UInt64 25)
  | [] => some lanes
  | byte :: rest => do
    let lanes ← Kernel.xorLane lanes (p / 8) (byte.toUInt64 <<< (8 * (p % 8)).toUInt64)
    xorPart lanes (p + 1) rest

variable (permute : Vector UInt64 25 → Vector UInt64 25)

def update (s : Sha3) (data : List UInt8) : Option Sha3 :=
  if hdata : data.length = 0 then some s
  else if hwhole : s.position = 0 ∧ s.rate ≤ data.length then
    (xorWords s.lanes s.rate data).bind fun lanes ↦
      update { s with lanes := permute lanes } (data.drop s.rate)
  else
    let take := min data.length (s.rate - s.position)
    (xorPart s.lanes s.position (data.take take)).bind fun lanes ↦
      if hfull : s.position + take = s.rate then
        update ⟨permute lanes, s.rate, 0, s.output, Nat.zero_lt_of_lt s.inside⟩ (data.drop take)
      else
        update ⟨lanes, s.rate, s.position + take, s.output, by have := s.inside; omega⟩
          (data.drop take)
termination_by data.length
decreasing_by
  all_goals
    have := s.inside
    rw [List.length_drop]
    omega

def finish (s : Sha3) : Option (List UInt8) := do
  let lanes ← Kernel.xorLane s.lanes (s.position / 8)
    ((6 : UInt64) <<< (8 * (s.position % 8)).toUInt64)
  let lanes ← Kernel.xorLane lanes (s.rate / 8 - 1) ((0x80 : UInt64) <<< 56)
  let lanes := permute lanes
  (List.range s.output).mapM fun i ↦
    lanes[i / 8]?.map fun lane ↦ (lane >>> (8 * (i % 8)).toUInt64).toUInt8

end Sha3

/-! ### SHA-512 and RIPEMD-160 -/

def iv64 : Vector UInt64 8 := ⟨⟨[0x6a09e667f3bcc908, 0xbb67ae8584caa73b, 0x3c6ef372fe94f82b,
  0xa54ff53a5f1d36f1, 0x510e527fade682d1, 0x9b05688c2b3e6c1f, 0x1f83d9abfb41bd6b,
  0x5be0cd19137e2179]⟩, rfl⟩

def iv32 : Vector UInt32 8 := ⟨⟨[0x6a09e667, 0xbb67ae85, 0x3c6ef372, 0xa54ff53a, 0x510e527f,
  0x9b05688c, 0x1f83d9ab, 0x5be0cd19]⟩, rfl⟩

structure Sha512 where
  buffer : BlockBuffer (Vector UInt64 8)
  bytesLow : UInt64
  bytesHigh : UInt64

namespace Sha512

def start : Sha512 := ⟨⟨iv64, List.replicate 128 0, 0⟩, 0, 0⟩

variable (compress : Vector UInt64 8 → List UInt8 → Vector UInt64 8)

def update (s : Sha512) (data : List UInt8) : Option Sha512 :=
  let low := s.bytesLow + data.length.toUInt64
  let high := s.bytesHigh + if low < s.bytesLow then 1 else 0
  if high >>> 61 ≠ 0 then none
  else (s.buffer.blocks 128 compress data).map fun buffer ↦ ⟨buffer, low, high⟩

def finish (s : Sha512) : Option (List UInt8) :=
  let length := Kernel.beBytes64 ((s.bytesHigh <<< 3) ||| (s.bytesLow >>> 61)) ++
    Kernel.beBytes64 (s.bytesLow <<< 3)
  (s.buffer.finish 128 112 compress length).map fun chain ↦ chain.toList.flatMap Kernel.beBytes64

end Sha512

structure Ripemd160 where
  buffer : BlockBuffer (Vector UInt32 5)
  bytes : UInt64

namespace Ripemd160

def start : Ripemd160 :=
  ⟨⟨⟨⟨[0x67452301, 0xefcdab89, 0x98badcfe, 0x10325476, 0xc3d2e1f0]⟩, rfl⟩, List.replicate 64 0, 0⟩,
    0⟩

variable (compress : Vector UInt32 5 → List UInt8 → Vector UInt32 5)

def update (s : Ripemd160) (data : List UInt8) : Option Ripemd160 :=
  if ((-1 : UInt64) >>> 3) - s.bytes < data.length.toUInt64 then none
  else (s.buffer.blocks 64 compress data).map fun buffer ↦ ⟨buffer, s.bytes + data.length.toUInt64⟩

def finish (s : Ripemd160) : Option (List UInt8) :=
  (s.buffer.finish 64 56 compress (Kernel.leBytes64 (s.bytes <<< 3))).map fun chain ↦
    chain.toList.flatMap Kernel.leBytes32

end Ripemd160

/-! ### BLAKE2 -/

/-- The unsigned word that the template is for. -/
structure HashWord (W : Type) where
  bits : ℕ
  ofNat : ℕ → W
  toNat : W → ℕ
  add : W → W → W
  injective : Function.Injective toNat
  toNat_ofNat (number : ℕ) : toNat (ofNat number) = number % 2 ^ bits
  toNat_add (first second : W) : toNat (add first second) = (toNat first + toNat second) % 2 ^ bits

def hashWord32 : HashWord UInt32 where
  bits := 32
  ofNat number := UInt32.ofNat number
  toNat word := word.toNat
  add first second := first + second
  injective _ _ := UInt32.toNat_inj.mp
  toNat_ofNat _ := UInt32.toNat_ofNat'
  toNat_add := UInt32.toNat_add

def hashWord64 : HashWord UInt64 where
  bits := 64
  ofNat number := UInt64.ofNat number
  toNat word := word.toNat
  add first second := first + second
  injective _ _ := UInt64.toNat_inj.mp
  toNat_ofNat _ := UInt64.toNat_ofNat'
  toNat_add := UInt64.toNat_add

/-- What a compression changes. -/
structure BlakeChain (W : Type) where
  chain : Vector W 8
  bytesLow : W
  bytesHigh : W

/-- The array of pending bytes is compressed only when more comes, even where it is full. -/
abbrev Blake2 (W : Type) := BlockBuffer (BlakeChain W)

namespace Blake2

variable {W : Type} (word : HashWord W)
  (block : Vector W 8 → List UInt8 → W → W → Bool → Vector W 8)

def start (chain : Vector W 8) (size : ℕ) : Blake2 W :=
  ⟨⟨chain, word.ofNat 0, word.ofNat 0⟩, List.replicate size 0, 0⟩

/-- The counter goes on by the bytes of the block first. -/
def compress (used : ℕ) (last : Bool) (s : BlakeChain W) (pending : List UInt8) : BlakeChain W :=
  let low := word.add s.bytesLow (word.ofNat used)
  let high := word.add s.bytesHigh
    (word.ofNat (if word.toNat low < word.toNat s.bytesLow then 1 else 0))
  ⟨block s.chain pending low high last, low, high⟩

def makeRoom (size : ℕ) (s : Blake2 W) : Blake2 W :=
  if s.used = size then ⟨compress word block s.used false s.chain s.pending, s.pending, 0⟩ else s

/-- A loop that takes nothing would not end, and has no result here. -/
def update (size : ℕ) (s : Blake2 W) (data : List UInt8) : Option (Blake2 W) :=
  if data.length = 0 then some s
  else
    let room := makeRoom word block size s
    let take := min data.length (size - room.used)
    if _htake : 0 < take then
      (store room.pending room.used (data.take take)).bind fun pending ↦
        update size ⟨room.chain, pending, room.used + take⟩ (data.drop take)
    else none
termination_by data.length
decreasing_by
  have hsome : 0 < min data.length (size - (makeRoom word block size s).used) := _htake
  show (data.drop (min data.length (size - (makeRoom word block size s).used))).length < _
  rw [List.length_drop]
  omega

def finish (size : ℕ) (s : Blake2 W) : Option (Vector W 8) := do
  let pending ← store s.pending s.used (List.replicate (size - s.used) 0)
  some (compress word block s.used true s.chain pending).chain

end Blake2

end Bc3Miner.Reference
