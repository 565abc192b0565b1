import Mathlib.Data.Vector.Basic

/-!
# Headers, proofs of work and the merkle root

The consensus primitives of `src/consensus.rs` that do not involve a target: the choice of the proof
of work by the version bits, the 80 bytes of a header, and folding the merkle steps onto the
coinbase.

SHA256d comes from an external crate and is a parameter of whatever uses it, and so is the BC3Hash
of the build, which `PowAlgo.hashFn` hands out where the build has it.

A proof of work is chosen by two bits of the version (`PowAlgo.forVersion`), and only one of the
three has a kernel on a GPU (`kernelSupports`). What the header serializes to, and what
`rootFromSteps` folds, are lists of bytes of known length, so that the places of the fields in the
80 bytes can be read off the definition.

Not modelled here: the two older hashes themselves, which this miner refuses to mine; `hashFn` says
only where there is none.
-/

set_option autoImplicit false
set_option relaxedAutoImplicit false

namespace Bc3Miner.Consensus

/-- Thirty-two bytes: a hash in internal order, a target in big-endian order, a merkle step. -/
abbrev Bytes32 := Vector UInt8 32

/-! ### The proof of work of a job -/

/-- Version bit 12, marking SHA3-256t hashing. -/
def sha3Vbit : UInt32 := 0x00001000

/-- Version bit 11, marking BC3Hash; it takes precedence over bit 12. -/
def bc3HashVbit : UInt32 := 0x00000800

/-- The proofs of work a job can ask for. -/
inductive PowAlgo
  | sha256d
  | sha3t
  | bc3Hash
  deriving DecidableEq, Repr

/-- A proof of work over one serialized 80-byte header. -/
abbrev PowFn := Vector UInt8 80 → Bytes32

namespace PowAlgo

/-- Every proof of work, in the order of `index`. -/
def all : List PowAlgo := [.sha256d, .sha3t, .bc3Hash]

/-- The position in `all`. -/
def index : PowAlgo → ℕ
  | .sha256d => 0
  | .sha3t => 1
  | .bc3Hash => 2

/-- The name used in logs and shared with the pool. -/
def name : PowAlgo → String
  | .sha256d => "SHA256d"
  | .sha3t => "SHA3-256t"
  | .bc3Hash => "BC3Hash"

/-- The node's rule: bit 11 before bit 12, and neither means SHA256d. -/
def forVersion (version : UInt32) : PowAlgo :=
  if version &&& bc3HashVbit ≠ 0 then .bc3Hash
  else if version &&& sha3Vbit ≠ 0 then .sha3t
  else .sha256d

/-- The CPU implementation: none for a proof of work the miner does not mine, and for BC3Hash the
one of the build, where it has one. -/
def hashFn (bc3hash : Option PowFn) : PowAlgo → Option PowFn
  | .sha256d | .sha3t => none
  | .bc3Hash => bc3hash

theorem all_index (algo : PowAlgo) : all[algo.index]? = some algo := by
  cases algo <;> rfl

end PowAlgo

/-- The proofs of work the GPU backends have a kernel for, in a build with the `bc3hash` feature,
which both GPU features bring with them. -/
def kernelSupports : PowAlgo → Bool
  | .bc3Hash => true
  | .sha256d | .sha3t => false

/-! ### The header -/

/-- The four bytes of a word, least significant first. -/
def leBytes (word : UInt32) : Vector UInt8 4 :=
  #v[word.toUInt8, (word >>> 8).toUInt8, (word >>> 16).toUInt8, (word >>> 24).toUInt8]

/-- The fields of a block header. -/
structure BlockHeader where
  version : UInt32
  prevHash : Bytes32
  merkleRoot : Bytes32
  time : UInt32
  bits : UInt32
  nonce : UInt32
  deriving DecidableEq

/-- The 80 bytes of a header. -/
def BlockHeader.serialize (header : BlockHeader) : Vector UInt8 80 :=
  leBytes header.version ++ header.prevHash ++ header.merkleRoot ++ leBytes header.time ++
    leBytes header.bits ++ leBytes header.nonce

/-! ### The merkle root -/

section MerkleRoot

variable (sha256d : List UInt8 → Bytes32)

/-- The merkle root from the coinbase txid and the stratum branches. -/
def rootFromSteps (coinbaseTxid : Bytes32) (steps : List Bytes32) : Bytes32 :=
  steps.foldl (fun root step ↦ sha256d (root.toList ++ step.toList)) coinbaseTxid

end MerkleRoot

/-! ### The coinbase and the previous hash -/

/-- Stratum's previous hash and the internal order: the bytes of each 4-byte word reversed. -/
def swab32 (bytes : Bytes32) : Bytes32 :=
  Vector.ofFn fun i : Fin 32 ↦ bytes.get ⟨4 * (i / 4) + (3 - i % 4), by omega⟩

/-- The little-endian number of a byte string. -/
def littleEndian (bytes : List UInt8) : ℕ :=
  bytes.foldr (fun byte rest ↦ byte.toNat + 256 * rest) 0

/-- The block height in the coinbase scriptSig: the first push after the scriptSig's length. None
for anything that is not a well-formed, non-negative push of at most four bytes. -/
def bip34Height (coinb1 : List UInt8) : Option UInt32 := do
  let start := 4 + 1 + 36
  let first ← coinb1[start]?
  let position := start +
    (if first = 0xfd then 3 else if first = 0xfe then 5 else if first = 0xff then 9 else 1)
  let op ← coinb1[position]?
  if op = 0x00 then
    return 0
  else if 0x51 ≤ op ∧ op ≤ 0x60 then
    return (op - 0x50).toUInt32
  else
    let pushLen := op.toNat
    if pushLen = 0 ∨ 4 < pushLen then
      none
    else
      let bytes := (coinb1.drop (position + 1)).take pushLen
      if bytes.length < pushLen ∨ (bytes.getLastD 0) &&& 0x80 ≠ 0 then
        none
      else
        return UInt32.ofNat (littleEndian bytes)

end Bc3Miner.Consensus
