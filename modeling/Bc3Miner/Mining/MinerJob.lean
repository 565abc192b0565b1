import Bc3Miner.Consensus.Target
import Mathlib.Tactic.NormNum
import Mathlib.Tactic.Ring

/-!
# Jobs, shares and the header of an extranonce2

The data that the pool connection and the workers exchange (`src/shared.rs`), and the header a
worker builds once per extranonce2 (`en2_header` of `src/gpu_worker.rs`, and the same construction
inside `mine_job` of `src/worker.rs`). Two jobs cover the same search space when they agree in every
field that feeds the header; `SearchSpace` is those fields, so it identifies the space a job is
mined in.

The counter of an extranonce2 is written with its most significant byte first, in as many bytes as
the pool asks for; a counter that fits comes back, so different counters have different bytes
(`encodeExtranonce2_injective`). That the headers of two counters then differ is not a matter of
this module.
-/

set_option autoImplicit false
set_option relaxedAutoImplicit false

namespace Bc3Miner.Mining

open Consensus

/-! ### The job -/

/-- A mining job from the pool. -/
structure MinerJob where
  jobId : String
  extranonce1 : List UInt8
  extranonce2Size : ℕ
  coinb1 : List UInt8
  coinb2 : List UInt8
  merkleSteps : List Bytes32
  version : UInt32
  prevHash : Bytes32
  bits : UInt32
  ntime : UInt32
  shareTarget : Target
  height : Option UInt32
  algo : PowAlgo
  deriving DecidableEq

namespace MinerJob

/-- Do two jobs cover the same header space? The job's name and its share target are left out:
neither goes into the header. -/
def sameSearchSpace (job other : MinerJob) : Bool :=
  job.extranonce1 == other.extranonce1 && job.extranonce2Size == other.extranonce2Size &&
    job.coinb1 == other.coinb1 && job.coinb2 == other.coinb2 &&
    job.merkleSteps == other.merkleSteps && job.version == other.version &&
    job.prevHash == other.prevHash && job.bits == other.bits && job.ntime == other.ntime

/-- The search space of a job, as the class of the fields that `sameSearchSpace` compares. -/
structure SearchSpace where
  extranonce1 : List UInt8
  extranonce2Size : ℕ
  coinb1 : List UInt8
  coinb2 : List UInt8
  merkleSteps : List Bytes32
  version : UInt32
  prevHash : Bytes32
  bits : UInt32
  ntime : UInt32
  deriving DecidableEq

def searchSpace (job : MinerJob) : SearchSpace where
  extranonce1 := job.extranonce1
  extranonce2Size := job.extranonce2Size
  coinb1 := job.coinb1
  coinb2 := job.coinb2
  merkleSteps := job.merkleSteps
  version := job.version
  prevHash := job.prevHash
  bits := job.bits
  ntime := job.ntime

/-- The comparison of the source decides equality of search spaces. -/
theorem sameSearchSpace_iff (job other : MinerJob) :
    job.sameSearchSpace other = true ↔ job.searchSpace = other.searchSpace := by
  simp only [sameSearchSpace, searchSpace, Bool.and_eq_true, beq_iff_eq, SearchSpace.mk.injEq]
  tauto

end MinerJob

/-- A job with a bare coinbase, four bytes of extranonce2 and given targets, to try runs on. -/
def bareJob (bits : UInt32) (shareTarget : Target) : MinerJob where
  jobId := "1"
  extranonce1 := []
  extranonce2Size := 4
  coinb1 := []
  coinb2 := []
  merkleSteps := []
  version := 0x20000800
  prevHash := Vector.replicate 32 0
  bits := bits
  ntime := 0
  shareTarget := shareTarget
  height := none
  algo := .bc3Hash

/-! ### Shares -/

/-- A found share on its way to the pool. -/
structure FoundShare where
  jobId : String
  extranonce2 : List UInt8
  ntime : UInt32
  nonce : UInt32
  /-- The hash in display order: its bytes reversed. -/
  hashDisplay : Bytes32
  isBlockCandidate : Bool
  deriving DecidableEq

/-- A hash in display order; the source writes these bytes in hex. -/
def hashToDisplay (hash : Bytes32) : Bytes32 := hash.reverse

/-- The arguments of a call of `Shared::record_share`. -/
structure RecordedShare where
  algo : PowAlgo
  difficulty : Foundations.Binary64
  bits : UInt32
  isBlock : Bool
  deriving DecidableEq

/-- What both workers do with a hash that meets the share target: the call of `record_share` and the
share that goes to `Shared::submit` right after it. -/
structure Submission where
  recorded : RecordedShare
  share : FoundShare
  deriving DecidableEq

/-- The submission of a header hash of `job` under `extranonce2`. -/
def submission (job : MinerJob) (algo : PowAlgo) (extranonce2 : List UInt8) (nonce : UInt32)
    (hash : Bytes32) : Submission :=
  let isBlock := ((compactToTarget job.bits).map (hashMeetsTarget hash)).getD false
  { recorded := ⟨algo, difficultyOfHash hash, job.bits, isBlock⟩
    share := ⟨job.jobId, extranonce2, job.ntime, nonce, hashToDisplay hash, isBlock⟩ }

/-! ### How deep launches are queued -/

/-- Launches a backend keeps in flight at once. -/
def queueDepth : ℕ := 2

/-- The settings of `Shared` that the worker loops read. -/
structure Settings where
  intensity : UInt32
  gpuQueue : UInt32

/-- Launches a GPU worker keeps queued: one below full intensity. -/
def Settings.gpuQueueDepth (settings : Settings) : ℕ :=
  if settings.intensity < 100 then 1 else min (max settings.gpuQueue.toNat 1) queueDepth

/-- Below full intensity one launch is queued at a time. -/
theorem Settings.gpuQueueDepth_of_lt {settings : Settings} (hlow : settings.intensity < 100) :
    settings.gpuQueueDepth = 1 := if_pos hlow

/-! ### The extranonce2 and its header -/

/-- Does an extranonce2 counter fit the job's extranonce2 size? -/
def en2Fits (en2 : UInt64) (size : ℕ) : Bool := decide (8 ≤ size ∨ en2.toNat < 2 ^ (8 * size))

/-- The eight bytes of a counter, most significant first. -/
def beBytes (counter : UInt64) : List UInt8 :=
  [(counter >>> 56).toUInt8, (counter >>> 48).toUInt8, (counter >>> 40).toUInt8,
    (counter >>> 32).toUInt8, (counter >>> 24).toUInt8, (counter >>> 16).toUInt8,
    (counter >>> 8).toUInt8, counter.toUInt8]

/-- The extranonce2 of a counter in the job's size. -/
def encodeExtranonce2 (counter : UInt64) (size : ℕ) : List UInt8 :=
  if 8 ≤ size then List.replicate (size - 8) 0 ++ beBytes counter
  else (beBytes counter).drop (8 - size)

section Header

variable (sha256d : List UInt8 → Bytes32)

/-- The header of one extranonce2, built once and used by all its launches. -/
structure En2Header where
  en2 : UInt64
  extranonce2 : List UInt8
  /-- The header with nonce 0. -/
  header : BlockHeader
  header76 : Vector UInt8 76

/-- Coinbase, txid, merkle root and header of an extranonce2 counter. -/
def en2Header (job : MinerJob) (en2 : UInt64) : En2Header :=
  let extranonce2 := encodeExtranonce2 en2 job.extranonce2Size
  let coinbase := job.coinb1 ++ job.extranonce1 ++ extranonce2 ++ job.coinb2
  let header : BlockHeader :=
    { version := job.version
      prevHash := job.prevHash
      merkleRoot := rootFromSteps sha256d (sha256d coinbase) job.merkleSteps
      time := job.ntime
      bits := job.bits
      nonce := 0 }
  { en2, extranonce2, header, header76 := (header.serialize.take 76).cast (by decide) }

end Header

/-! ### Distinct counters have distinct encodings -/

/-- A byte of a counter, as a number. -/
theorem toNat_shiftRight_toUInt8 (counter : UInt64) {shift : UInt64} {bits : ℕ}
    (hbits : shift.toNat % 64 = bits) :
    (counter >>> shift).toUInt8.toNat = counter.toNat / 2 ^ bits % 2 ^ 8 := by
  rw [UInt64.toNat_toUInt8, UInt64.toNat_shiftRight, hbits, Nat.shiftRight_eq_div_pow]

/-- The bytes of a counter stand for it. -/
theorem bigEndian_beBytes (counter : UInt64) : bigEndian (beBytes counter) = counter.toNat := by
  have htop : counter.toNat / 2 ^ 56 % 2 ^ 8 = counter.toNat / 2 ^ 56 := by
    have hlt : counter.toNat < 2 ^ 56 * 2 ^ 8 := counter.toNat_lt
    exact Nat.mod_eq_of_lt (Nat.div_lt_of_lt_mul hlt)
  have hbyte (low high : ℕ) (hhigh : high = low + 8) :
      counter.toNat / 2 ^ high * 256 + counter.toNat / 2 ^ low % 2 ^ 8 =
        counter.toNat / 2 ^ low := by
    rw [hhigh, pow_add, ← Nat.div_div_eq_div_mul]
    exact Nat.div_add_mod' _ _
  have hshift (shift : UInt64) (bits : ℕ) (hbits : shift.toNat % 64 = bits) :=
    toNat_shiftRight_toUInt8 counter hbits
  simp only [bigEndian, beBytes, List.foldl_cons, List.foldl_nil]
  rw [hshift 56 56 rfl, hshift 48 48 rfl, hshift 40 40 rfl, hshift 32 32 rfl, hshift 24 24 rfl,
    hshift 16 16 rfl, hshift 8 8 rfl, UInt64.toNat_toUInt8, htop, Nat.zero_mul, Nat.zero_add,
    hbyte 48 56 rfl, hbyte 40 48 rfl, hbyte 32 40 rfl, hbyte 24 32 rfl, hbyte 16 24 rfl,
    hbyte 8 16 rfl]
  exact Nat.div_add_mod' _ _

/-- The last bytes of a counter stand for the counter modulo a power of 256. -/
theorem bigEndian_drop_beBytes (counter : UInt64) (size : ℕ) (hsize : size ≤ 8) :
    bigEndian ((beBytes counter).drop (8 - size)) = counter.toNat % 256 ^ size := by
  have hlength : (beBytes counter).length - (8 - size) = size := by
    simp only [beBytes, List.length_cons, List.length_nil]
    omega
  rw [bigEndian_drop, hlength, bigEndian_beBytes]

/-- Counters that fit the size are told apart by their encodings. -/
theorem encodeExtranonce2_injective {first second : UInt64} {size : ℕ}
    (hfirst : en2Fits first size = true) (hsecond : en2Fits second size = true)
    (hencode : encodeExtranonce2 first size = encodeExtranonce2 second size) : first = second := by
  simp only [en2Fits, decide_eq_true_eq] at hfirst hsecond
  rw [← UInt64.toNat_inj]
  unfold encodeExtranonce2 at hencode
  split_ifs at hencode with hsize
  · have hbytes := congrArg bigEndian (List.append_cancel_left hencode)
    rwa [bigEndian_beBytes, bigEndian_beBytes] at hbytes
  · have hbytes := congrArg bigEndian hencode
    have hpow : (256 : ℕ) ^ size = 2 ^ (8 * size) := by rw [pow_mul]; norm_num
    rw [bigEndian_drop_beBytes _ _ (by omega), bigEndian_drop_beBytes _ _ (by omega), hpow,
      Nat.mod_eq_of_lt (by omega), Nat.mod_eq_of_lt (by omega)] at hbytes
    exact hbytes

end Bc3Miner.Mining
