import Bc3Miner.Foundations.Hex
import Bc3Miner.Mining.FinishedWork
import Bc3Miner.Solve.Template

/-!
# Every path from a job to a header

The 80 bytes that stand for a job, an extranonce2 and a nonce are built in five places, each on its
own: `mine_job` of `src/worker.rs` patches the nonce into a header it serialized once, a kernel
appends it to the 76 bytes of `en2_header`, `finish` of `src/gpu_worker.rs` re-checks a hit from the
header's fields, `bench::check` rebuilds the header from a job and a share alone, and
`solve::assemble` does the same for a job without merkle steps. A share reaches the pool as the five
texts of `mining.submit`; what a pool reads back from them gives the same header again
(`header_paths_agree`). The library that writes the extranonce2 as hex is a parameter, and all that
is used of it is that what it writes is read back.

`header_paths_agree` has no other hypothesis than that. In particular the extranonce2 counter may be
any, wider than its field as well, since all paths cut it in the same way.
-/

set_option autoImplicit false
set_option relaxedAutoImplicit false

namespace Bc3Miner.Mining

open Foundations Consensus
open Bc3Miner.Solve (assemble)

section Paths

variable (sha256d : List UInt8 → Bytes32) (hex : HexCodec)

/-! ### The CPU worker -/

/-- The header `mine_job` serializes once per extranonce2. -/
def cpuHeader (job : MinerJob) (en2 : UInt64) : Vector UInt8 80 :=
  let extranonce2 := encodeExtranonce2 en2 job.extranonce2Size
  let coinbase := job.coinb1 ++ job.extranonce1 ++ extranonce2 ++ job.coinb2
  let coinbaseTxid := sha256d coinbase
  let merkleRoot := rootFromSteps sha256d coinbaseTxid job.merkleSteps
  BlockHeader.serialize
    { version := job.version
      prevHash := job.prevHash
      merkleRoot := merkleRoot
      time := job.ntime
      bits := job.bits
      nonce := 0 }

/-- `header[76..80].copy_from_slice(&nonce.to_le_bytes())`. -/
def patchNonce (header : Vector UInt8 80) (nonce : UInt32) : Vector UInt8 80 :=
  (((header.set 76 (leBytes nonce)[0]).set 77 (leBytes nonce)[1]).set 78 (leBytes nonce)[2]).set 79
    (leBytes nonce)[3]

/-! ### The GPU worker -/

theorem size_nonceBytes (nonce : UInt32) :
    #[nonce.toUInt8, (nonce >>> 8).toUInt8, (nonce >>> 16).toUInt8,
      (nonce >>> 24).toUInt8].size = 4 := rfl

/-- The header a kernel hashes: the 76 bytes it is given, and the nonce. -/
def kernelHeader (header76 : Vector UInt8 76) (nonce : UInt32) : Vector UInt8 80 :=
  header76 ++ (⟨#[nonce.toUInt8, (nonce >>> 8).toUInt8, (nonce >>> 16).toUInt8,
    (nonce >>> 24).toUInt8], size_nonceBytes nonce⟩ : Vector UInt8 4)

/-- The header `finish` hashes again to check a hit. -/
def recheckHeader (header : BlockHeader) (nonce : UInt32) : Vector UInt8 80 :=
  { header with nonce }.serialize

/-! ### From a share alone -/

/-- The header `bench::check` rebuilds. -/
def benchHeader (job : MinerJob) (share : FoundShare) : Vector UInt8 80 :=
  let coinbase := job.coinb1 ++ job.extranonce1 ++ share.extranonce2 ++ job.coinb2
  BlockHeader.serialize
    { version := job.version
      prevHash := job.prevHash
      merkleRoot := rootFromSteps sha256d (sha256d coinbase) job.merkleSteps
      time := share.ntime
      bits := job.bits
      nonce := share.nonce }

/-- `bench::check`: does the share meet the job's share target? -/
def benchCheck (bc3hash : Option PowFn) (job : MinerJob) (share : FoundShare) : Bool :=
  match PowAlgo.hashFn bc3hash job.algo with
  | some pow => hashMeetsTarget (pow (benchHeader sha256d job share)) job.shareTarget
  | none => false

/-! ### Through the pool -/

/-- The parameters of `mining.submit`. -/
structure SubmitParams where
  user : String
  jobId : String
  extranonce2 : List Char
  ntime : List Char
  nonce : List Char
  deriving DecidableEq

/-- The parameters a share is sent with. -/
def submitParams (user : String) (share : FoundShare) : SubmitParams where
  user := user
  jobId := share.jobId
  extranonce2 := hex.encode share.extranonce2
  ntime := paddedHex 8 share.ntime.toNat
  nonce := paddedHex 8 share.nonce.toNat

/-- What a pool reads from them: the extranonce2, the time and the nonce. -/
def readSubmit (params : SubmitParams) : Option (List UInt8 × UInt32 × UInt32) := do
  let extranonce2 ← hex.decode params.extranonce2
  let ntime ← parseHex (2 ^ 32) params.ntime
  let nonce ← parseHex (2 ^ 32) params.nonce
  return (extranonce2, UInt32.ofNat ntime, UInt32.ofNat nonce)

/-- The header rebuilt from the submitted parameters and the job: `benchHeader` of a share that
holds what was read from them, and nothing else of the share that was found. -/
def submittedHeader (job : MinerJob) (params : SubmitParams) : Option (Vector UInt8 80) :=
  (readSubmit hex params).map fun (extranonce2, ntime, nonce) ↦
    benchHeader sha256d job
      { jobId := params.jobId
        extranonce2 := extranonce2
        ntime := ntime
        nonce := nonce
        hashDisplay := Vector.replicate 32 0
        isBlockCandidate := false }

/-! ### They agree -/

/-- What was sent is what is read. -/
theorem readSubmit_submitParams {hex : HexCodec} (hhex : hex.RoundTrips) (user : String)
    (share : FoundShare) :
    readSubmit hex (submitParams hex user share) =
      some (share.extranonce2, share.ntime, share.nonce) := by
  have hntime : parseHex (2 ^ 32) (paddedHex 8 share.ntime.toNat) = some share.ntime.toNat :=
    parseHex_paddedHex share.ntime.toNat_lt 8
  have hnonce : parseHex (2 ^ 32) (paddedHex 8 share.nonce.toNat) = some share.nonce.toNat :=
    parseHex_paddedHex share.nonce.toNat_lt 8
  simp only [readSubmit, submitParams, hhex share.extranonce2, hntime, hnonce, Option.bind_eq_bind,
    Option.bind_some, UInt32.ofNat_toNat]
  rfl

/-- The bytes of a header before its nonce. -/
def headBytes (header : BlockHeader) : Vector UInt8 76 :=
  leBytes header.version ++ header.prevHash ++ header.merkleRoot ++ leBytes header.time ++
    leBytes header.bits

theorem serialize_eq (header : BlockHeader) :
    header.serialize = headBytes header ++ leBytes header.nonce := rfl

/-- Patching the last four bytes replaces the nonce. -/
theorem patchNonce_append (head : Vector UInt8 76) (old : Vector UInt8 4) (nonce : UInt32) :
    patchNonce (head ++ old) nonce = head ++ leBytes nonce := by
  apply Vector.ext
  intro index hindex
  by_cases hhead : index < 76
  · rw [Vector.getElem_append_left hhead, patchNonce, Vector.getElem_set_ne _ _ (by omega),
      Vector.getElem_set_ne _ _ (by omega), Vector.getElem_set_ne _ _ (by omega),
      Vector.getElem_set_ne _ _ (by omega), Vector.getElem_append_left hhead]
  · rw [Vector.getElem_append_right (by omega) (by omega)]
    have hplace : index = 76 ∨ index = 77 ∨ index = 78 ∨ index = 79 := by omega
    rcases hplace with rfl | rfl | rfl | rfl
    · simp [patchNonce]
    · simp [patchNonce]
    · simp [patchNonce]
    · simp [patchNonce]

/-- Patching the nonce of a serialized header serializes the header with that nonce. -/
theorem patchNonce_serialize (header : BlockHeader) (nonce : UInt32) :
    patchNonce header.serialize nonce = recheckHeader header nonce := by
  rw [serialize_eq, patchNonce_append]
  rfl

/-- The first 76 bytes of a serialized header and a nonce are the header with that nonce. -/
theorem kernelHeader_take (header : BlockHeader) (nonce : UInt32) :
    kernelHeader ((header.serialize.take 76).cast (by decide)) nonce =
      recheckHeader header nonce := by
  have hhead : (header.serialize.take 76).cast (by decide) = headBytes header := by
    rw [serialize_eq]
    apply Vector.ext
    intro index hindex
    rw [Vector.getElem_cast, Vector.getElem_take, Vector.getElem_append_left hindex]
  rw [hhead]
  rfl

/-- Without merkle steps the merkle root is the coinbase txid. -/
theorem assemble_eq_benchHeader {job : MinerJob} (hsteps : job.merkleSteps = [])
    (share : FoundShare) :
    (assemble sha256d job share).1 = benchHeader sha256d job share := by
  unfold assemble benchHeader
  rw [hsteps]
  rfl

/-- Assume that the library for hex reads back what it writes. For every job, extranonce2 counter
and nonce, and whatever share is submitted for them: the header the CPU worker hashes, the one a
kernel hashes, the one the GPU worker checks a hit with, the one rebuilt from the share, the one
rebuilt from the texts of `mining.submit`, and, for a job without merkle steps, the one of the
assembled block are the same 80 bytes. -/
theorem header_paths_agree {hex : HexCodec} (hhex : hex.RoundTrips) (job : MinerJob) (en2 : UInt64)
    (nonce : UInt32) (algo : PowAlgo) (hash : Bytes32) (user : String) :
    let hashed := patchNonce (cpuHeader sha256d job en2) nonce
    let gpu := en2Header sha256d job en2
    let extranonce2 := encodeExtranonce2 en2 job.extranonce2Size
    let share := (submission job algo extranonce2 nonce hash).share
    gpu.extranonce2 = extranonce2 ∧ kernelHeader gpu.header76 nonce = hashed ∧
      recheckHeader gpu.header nonce = hashed ∧ benchHeader sha256d job share = hashed ∧
      submittedHeader sha256d hex job (submitParams hex user share) = some hashed ∧
      (job.merkleSteps = [] → (assemble sha256d job share).1 = hashed) := by
  intro hashed gpu extranonce2 share
  have hrecheck : recheckHeader gpu.header nonce = hashed :=
    (patchNonce_serialize gpu.header nonce).symm
  have hkernel : kernelHeader gpu.header76 nonce = hashed :=
    (kernelHeader_take gpu.header nonce).trans hrecheck
  have hbench : benchHeader sha256d job share = hashed := hrecheck
  refine ⟨rfl, hkernel, hrecheck, hbench, ?_, ?_⟩
  · rw [submittedHeader, readSubmit_submitParams hhex, Option.map_some]
    exact congrArg some hbench
  · intro hsteps
    exact (assemble_eq_benchHeader sha256d hsteps share).trans hbench

end Paths

/-- A bare job, whose block has no merkle steps. -/
theorem bareJob_headers :
    let sha256d : List UInt8 → Bytes32 := fun bytes ↦ Vector.replicate 32 (UInt8.ofNat bytes.length)
    let job := bareJob diff1Bits diff1
    let share := (submission job .bc3Hash (encodeExtranonce2 5 4) 9 diff1).share
    submittedHeader sha256d .plain job (submitParams .plain "bench" share) =
      some (assemble sha256d job share).1 := by
  intro sha256d job share
  obtain ⟨-, -, -, -, hsubmitted, hassembled⟩ :=
    header_paths_agree sha256d HexCodec.plain_roundTrips job 5 9 .bc3Hash diff1 "bench"
  exact hsubmitted.trans (congrArg some (hassembled rfl).symm)

end Bc3Miner.Mining
