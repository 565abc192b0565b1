import Bc3Miner.Mining.RigPartition

/-!
# Blocks behind the share test

Both workers look at the block target only after a hash has met the share target, and the GPU's
kernel is given the share target alone. A block whose hash meets the share target is submitted as a
candidate by either worker; where the pool's difficulty is above the network's, a block can miss the
share target, and then it is not submitted at all.

`blocks_are_candidates` is the result for both workers; that a kernel reports exactly the nonces
that meet its target (`KernelExact`) and that a launch's hits fitted the buffer are its hypotheses
for a GPU. `middleHash_is_no_candidate` is a block that is not submitted, at a pool whose difficulty
is above the network's.
-/

set_option autoImplicit false
set_option relaxedAutoImplicit false

namespace Bc3Miner.Mining

open Consensus Foundations

/-- The hash is a block for the job: it meets the target of the job's nBits. -/
def MinerJob.IsBlock (job : MinerJob) (hash : Bytes32) : Prop :=
  ∃ target, compactToTarget job.bits = some target ∧ hashMeetsTarget hash target = true

section Candidates

variable (sha256d : List UInt8 → Bytes32) (pow : PowFn)

/-- The hash of a nonce under the header that finished work was done on. -/
def Finished.hash (job : MinerJob) (work : Finished) (nonce : UInt32) : Bytes32 :=
  hashAt pow (en2Header sha256d job work.region.en2).header nonce

/-- Finished work has passed the share of a nonce to `Shared::submit`, as a block candidate. -/
def Finished.SubmitsCandidate (job : MinerJob) (work : Finished) (nonce : UInt32) : Prop :=
  ∃ found ∈ work.submissions, found.share =
    { jobId := job.jobId
      extranonce2 := encodeExtranonce2 work.region.en2 job.extranonce2Size
      ntime := job.ntime
      nonce
      hashDisplay := hashToDisplay (work.hash sha256d pow job nonce)
      isBlockCandidate := true }

/-- The kernel reports exactly the nonces of a launch whose hashes meet the target it is given. -/
def KernelExact (job : MinerJob) (work : Finished) (scan : Scan) : Prop :=
  ∀ nonce, work.region.Contains nonce →
    (nonce ∈ scan.hits ↔ hashMeetsTarget (work.hash sha256d pow job nonce) job.shareTarget = true)

variable {sha256d pow}

/-- A block among the nonces that were looked at is a candidate if it meets the share target. -/
theorem Finished.Sound.submitsCandidate {job : MinerJob} {algo : PowAlgo} {work : Finished}
    (h : work.Sound sha256d pow job algo) {nonce : UInt32} (hlooked : nonce ∈ work.looked)
    (hblock : job.IsBlock (work.hash sha256d pow job nonce))
    (hshare : hashMeetsTarget (work.hash sha256d pow job nonce) job.shareTarget = true) :
    work.SubmitsCandidate sha256d pow job nonce := by
  obtain ⟨target, htarget, hmeets⟩ := hblock
  refine ⟨submission job algo (encodeExtranonce2 work.region.en2 job.extranonce2Size) nonce
    (work.hash sha256d pow job nonce), ?_, ?_⟩
  · rw [h.shares]
    exact List.mem_filterMap.mpr ⟨nonce, hlooked, shareAt_eq_some.mpr ⟨hshare, rfl⟩⟩
  · simp only [submission, htarget, Option.map_some, Option.getD_some, hmeets]

/-- Where the share target is at least the block target, every block meets the share target. -/
theorem MinerJob.IsBlock.meets_shareTarget {job : MinerJob} {hash : Bytes32}
    (hblock : job.IsBlock hash) (hle : ∀ target, compactToTarget job.bits = some target →
      bigEndian target.toList ≤ bigEndian job.shareTarget.toList) :
    hashMeetsTarget hash job.shareTarget = true := by
  obtain ⟨target, htarget, hmeets⟩ := hblock
  exact hashMeetsTarget_mono (hle target htarget) hmeets

/-- In a finished launch, the nonces that were looked at are those the device reported. -/
theorem mem_looked_of_mem_hits {worker worker' : Worker} {job : MinerJob} {algo : PowAlgo}
    {depth granule window : ℕ} {answers rest : List Answer} {ended : Option JobEnd} {run : JobRun}
    (hmine : mineJob sha256d pow worker job algo depth granule window answers =
      (ended, worker', run, rest)) {work : Finished} {report : LaunchReport}
    (hpair : (work, report) ∈ run.finished.zip run.reports) {nonce : UInt32}
    (hcontains : work.region.Contains nonce) (hhit : nonce ∈ report.scan.hits) :
    nonce ∈ work.looked := by
  obtain ⟨lost, last, hresult⟩ := mineJob_accounts sha256d pow hmine
  have hwork := (List.of_mem_zip hpair).1
  have hvalid := hresult.chain.valid work.region
    (List.mem_append_left _ (List.mem_map_of_mem hwork))
  have hlooked : work.looked = work.region.ownHits report.scan.hits :=
    List.forall₂_zip hresult.scans hpair
  rw [hlooked]
  exact (mem_ownHits hvalid).mpr ⟨hhit, hcontains⟩

variable (sha256d pow) in
/-- A header whose hash is a block and meets the share target is submitted as a block candidate: by
a CPU thread for every nonce of a finished batch, by a GPU for every nonce of a finished launch
whose hits fitted the buffer, from a kernel that reports exactly the nonces that meet its target. No
block is left out where the share target is at least the block target. -/
theorem blocks_are_candidates (job : MinerJob) :
    (∀ (stride : UInt64) (changes : List Bool) (cursor : Cursor),
      ∀ work ∈ (cpuMineJob sha256d pow job batchSize stride changes cursor).finished,
      ∀ nonce, work.region.Contains nonce → job.IsBlock (work.hash sha256d pow job nonce) →
        hashMeetsTarget (work.hash sha256d pow job nonce) job.shareTarget = true →
        work.SubmitsCandidate sha256d pow job nonce) ∧
    (∀ (worker : Worker) (algo : PowAlgo) (depth granule window : ℕ) (answers : List Answer),
      let run := (mineJob sha256d pow worker job algo depth granule window answers).2.2.1
      ∀ pair ∈ run.finished.zip run.reports, pair.2.scan.reported ≤ maxHits →
        (pair.2.scan.reported ≤ maxHits → KernelExact sha256d pow job pair.1 pair.2.scan) →
        ∀ nonce, pair.1.region.Contains nonce →
          job.IsBlock (pair.1.hash sha256d pow job nonce) →
          hashMeetsTarget (pair.1.hash sha256d pow job nonce) job.shareTarget = true →
          pair.1.SubmitsCandidate sha256d pow job nonce) ∧
    ((∀ target, compactToTarget job.bits = some target →
        bigEndian target.toList ≤ bigEndian job.shareTarget.toList) →
      ∀ hash, job.IsBlock hash → hashMeetsTarget hash job.shareTarget = true) := by
  refine ⟨?_, ?_, fun hle hash hblock ↦ hblock.meets_shareTarget hle⟩
  · intro stride changes cursor work hwork nonce hcontains hblock hshare
    obtain ⟨hsound, hlooked⟩ :=
      cpuMineJob_sound sha256d pow job (show 0 < batchSize.toNat by decide)
      stride changes cursor work hwork
    exact hsound.submitsCandidate ((hlooked nonce).mpr hcontains) hblock hshare
  · intro worker algo depth granule window answers run pair hpair hfits hkernel nonce
      hcontains hblock
      hshare
    have hmine : mineJob sha256d pow worker job algo depth granule window answers =
      (_, _, run, _) := rfl
    obtain ⟨lost, last, hresult⟩ := mineJob_accounts sha256d pow hmine
    have hsound := hresult.sound pair.1 (List.of_mem_zip hpair).1
    have hhit := (hkernel hfits nonce hcontains).mpr hshare
    exact hsound.submitsCandidate (mem_looked_of_mem_hits hmine hpair hcontains hhit) hblock hshare

end Candidates

/-! ### Blocks that are candidates and a block that is not -/

/-- A worker two nonces before the end of its first extranonce2. -/
def lastNonces : Worker :=
  { Worker.new 0 1 with prev := some (bareJob diff1Bits diff1), cursor := ⟨0, 4294967294⟩ }

/-- One launch over the two nonces, which both are hits, and then a new job. -/
def lastLaunch : List Answer :=
  [.poll false, .enqueue (some 0), .collect (some (⟨[4294967295, 4294967294], 2, some 0⟩, 0)),
    .poll true]

/-- With a proof of work whose every hash is zero, the work of both kinds of worker submits a
candidate for the first of their nonces. -/
theorem lowestHash_is_candidate :
    (∃ work ∈ (cpuMineJob (fun _ ↦ Vector.replicate 32 0) lowestHash (bareJob diff1Bits diff1)
        batchSize 1 [true] ⟨0, 0⟩).finished,
      work.SubmitsCandidate (fun _ ↦ Vector.replicate 32 0) lowestHash
      (bareJob diff1Bits diff1) 3) ∧
    ∃ work ∈ (mineJob (fun _ ↦ Vector.replicate 32 0) lowestHash lastNonces
        (bareJob diff1Bits diff1) .bc3Hash 1 1 16 lastLaunch).2.2.1.finished,
      work.SubmitsCandidate (fun _ ↦ Vector.replicate 32 0) lowestHash (bareJob diff1Bits diff1)
        4294967295 := by
  obtain ⟨hcpu, hgpu, hall⟩ := blocks_are_candidates (fun _ ↦ Vector.replicate 32 0) lowestHash
    (bareJob diff1Bits diff1)
  have hblock : (bareJob diff1Bits diff1).IsBlock (Vector.replicate 32 0) :=
    ⟨diff1, by decide, by decide⟩
  have hshare : hashMeetsTarget (Vector.replicate 32 0)
    (bareJob diff1Bits diff1).shareTarget = true :=
    hall (by decide +kernel) _ hblock
  constructor
  · have hregions : (cpuMineJob (fun _ ↦ Vector.replicate 32 0) lowestHash
        (bareJob diff1Bits diff1) batchSize 1 [true] ⟨0, 0⟩).finished.map Finished.region =
        [⟨0, 0, 4⟩] := by decide +kernel
    obtain ⟨work, hwork, hregion⟩ := List.mem_map.mp (hregions ▸ List.mem_singleton_self _)
    exact ⟨work, hwork, hcpu 1 [true] ⟨0, 0⟩ work hwork 3
      (by rw [hregion]; exact ⟨by decide, by decide⟩) hblock hshare⟩
  · have hpairs : ((mineJob (fun _ ↦ Vector.replicate 32 0) lowestHash lastNonces
        (bareJob diff1Bits diff1) .bc3Hash 1 1 16 lastLaunch).2.2.1.finished.zip
        (mineJob (fun _ ↦ Vector.replicate 32 0) lowestHash lastNonces
        (bareJob diff1Bits diff1) .bc3Hash 1 1 16 lastLaunch).2.2.1.reports).map
        (fun pair ↦ (pair.1.region, pair.2.scan)) =
        [(⟨0, 4294967294, 2⟩, ⟨[4294967295, 4294967294], 2, some 0⟩)] := by decide +kernel
    obtain ⟨pair, hpair, hvalue⟩ := List.mem_map.mp (hpairs ▸ List.mem_singleton_self _)
    obtain ⟨hregion, hscan⟩ := Prod.mk.inj hvalue
    refine ⟨pair.1, (List.of_mem_zip hpair).1, hgpu lastNonces .bc3Hash 1 1 16 lastLaunch pair hpair
      (by rw [hscan]; decide) (fun _ nonce hcontains ↦ ?_) 4294967295
      (by rw [hregion]; exact ⟨by decide, by decide⟩) hblock hshare⟩
    rw [hregion] at hcontains
    rw [hscan]
    refine iff_of_true ?_ hshare
    obtain ⟨hlow, hhigh⟩ := hcontains
    have hlast : nonce.toNat = 4294967295 ∨ nonce.toNat = 4294967294 := by
      change 4294967294 ≤ nonce.toNat at hlow
      change nonce.toNat < 4294967294 + 2 at hhigh
      omega
    rcases hlast with hlast | hlast
    · rw [UInt32.toNat_inj.mp (hlast.trans (by rfl : 4294967295 = (4294967295 : UInt32).toNat))]
      exact List.mem_cons_self
    · rw [UInt32.toNat_inj.mp (hlast.trans (by rfl : 4294967294 = (4294967294 : UInt32).toNat))]
      exact List.mem_cons_of_mem _ List.mem_cons_self

/-- A hash function whose hashes are `2 ^ 248`. -/
def middleHash : PowFn := fun _ ↦ (Vector.replicate 32 0).set 31 1

/-- At difficulty one on a network that asks for less, a hash of `2 ^ 248` is a block and not a
share: the batch was finished, and neither its block nor anything else was submitted. -/
theorem middleHash_is_no_candidate :
    let job := bareJob 0x207fffff (targetForDifficulty (.ofNat 1))
    let run := cpuMineJob (fun _ ↦ Vector.replicate 32 0) middleHash job batchSize 1 [true] ⟨0, 0⟩
    (compactToTarget job.bits).any (hashMeetsTarget (hashAt middleHash
        (en2Header (fun _ ↦ Vector.replicate 32 0) job 0).header 0)) = true ∧
      run.finished.map Finished.region = [⟨0, 0, 4⟩] ∧ (⟨0, 0, 4⟩ : Region).Contains 0 ∧
      run.finished.flatMap Finished.submissions = [] := by
  intro job run
  exact ⟨by decide +kernel, by decide +kernel, ⟨by decide, by decide⟩, by decide +kernel⟩

end Bc3Miner.Mining
