import Bc3Miner.Mining.SearchOrder

/-!
# Work that was finished

A batch of a CPU thread and a launch of a GPU are finished alike: a region of nonces was hashed
under one extranonce2, and the nonces that the worker looked at and that meet the share target went
to `Shared::submit`. `Finished` records both, and `Finished.Sound` is what either worker guarantees
of it: the extranonce2 fits the job's size, and the shares are those of distinct nonces of the
region.

A `Finished` is data; what is known of it is `Finished.Sound`, which either worker proves of what it
records and the rig takes as given.
-/

set_option autoImplicit false
set_option relaxedAutoImplicit false

namespace Bc3Miner.Mining

open Consensus

/-! ### Where a job is entered -/

/-- Where a worker starts on `job`: where it stopped, when the job it mined before covers the same
header space, else at nonce 0 of its own first extranonce2. -/
def startOn (previous : Option MinerJob) (job : MinerJob) (workerIndex : UInt64) (cursor : Cursor) :
    Cursor :=
  if previous.all fun before ↦ !before.sameSearchSpace job then ⟨workerIndex, 0⟩ else cursor

/-! ### The share test -/

/-- The hash of a header under a nonce. -/
def hashAt (pow : PowFn) (header : BlockHeader) (nonce : UInt32) : Bytes32 :=
  pow { header with nonce }.serialize

/-- The share test of both workers: what a hash that meets the share target is submitted as. -/
def shareAt (job : MinerJob) (algo : PowAlgo) (extranonce2 : List UInt8) (nonce : UInt32)
    (hash : Bytes32) : Option Submission :=
  if hashMeetsTarget hash job.shareTarget then some (submission job algo extranonce2 nonce hash)
  else none

/-- The submissions of a list of nonces that a worker looks at one after the other. -/
def sharesOf (pow : PowFn) (job : MinerJob) (algo : PowAlgo) (header : BlockHeader)
    (extranonce2 : List UInt8) (nonces : List UInt32) : List Submission :=
  nonces.filterMap fun nonce ↦ shareAt job algo extranonce2 nonce (hashAt pow header nonce)

/-- A nonce gives a share exactly when its hash meets the share target, and then the share of that
nonce. -/
theorem shareAt_eq_some {job : MinerJob} {algo : PowAlgo} {extranonce2 : List UInt8}
    {nonce : UInt32} {hash : Bytes32} {found : Submission} :
    shareAt job algo extranonce2 nonce hash = some found ↔
      hashMeetsTarget hash job.shareTarget = true ∧
        found = submission job algo extranonce2 nonce hash := by
  unfold shareAt
  split_ifs with hmeets
  · simp [hmeets, eq_comm]
  · simp [hmeets]

/-! ### The nonces of a region -/

/-- `count` nonces from `start` on. -/
def noncesFrom (start : UInt32) (count : ℕ) : List UInt32 :=
  (List.range count).map fun offset ↦ start + UInt32.ofNat offset

/-- The nonces of a range are its first and those from the next on. -/
theorem noncesFrom_succ (start : UInt32) (count : ℕ) :
    noncesFrom start (count + 1) = start :: noncesFrom (start + 1) count := by
  have hshift (offset : ℕ) :
      start + UInt32.ofNat (offset + 1) = start + 1 + UInt32.ofNat offset := by
    rw [UInt32.ofNat_add, UInt32.add_comm (UInt32.ofNat offset), ← UInt32.add_assoc]
    rfl
  have hzero : start + UInt32.ofNat 0 = start := UInt32.add_zero start
  simp only [noncesFrom, List.range_succ_eq_map, List.map_cons, List.map_map, Function.comp_def,
    Nat.succ_eq_add_one, hshift, hzero]

/-- The nonce at an offset that stays inside the nonces. -/
theorem toNat_add_ofNat {start : UInt32} {offset : ℕ} (hle : start.toNat + offset < 2 ^ 32) :
    (start + UInt32.ofNat offset).toNat = start.toNat + offset := by
  rw [UInt32.toNat_add, UInt32.toNat_ofNat', Nat.mod_eq_of_lt (a := offset) (by omega),
    Nat.mod_eq_of_lt hle]

/-- A range that does not wrap lists the nonces of its region. -/
theorem mem_noncesFrom {region : Region} (hvalid : region.Valid) {nonce : UInt32} :
    nonce ∈ noncesFrom region.start region.count.toNat ↔ region.Contains nonce := by
  have hle := hvalid.2
  simp only [noncesFrom, List.mem_map, List.mem_range, Region.Contains]
  constructor
  · rintro ⟨offset, hoffset, rfl⟩
    rw [toNat_add_ofNat (by omega)]
    omega
  · rintro ⟨hlow, hhigh⟩
    refine ⟨nonce.toNat - region.start.toNat, by omega, ?_⟩
    rw [← UInt32.toNat_inj, toNat_add_ofNat (by omega)]
    omega

/-- A range that does not wrap lists no nonce twice. -/
theorem nodup_noncesFrom {region : Region} (hvalid : region.Valid) :
    (noncesFrom region.start region.count.toNat).Nodup := by
  have hle := hvalid.2
  refine List.Nodup.map_on ?_ List.nodup_range
  intro first hfirst second hsecond heq
  rw [List.mem_range] at hfirst hsecond
  have hvalue := congrArg UInt32.toNat heq
  rw [toNat_add_ofNat (by omega), toNat_add_ofNat (by omega)] at hvalue
  omega

/-! ### Finished work -/

/-- Work that was finished: the region that was hashed, the nonces of it that the worker looked at,
and what was submitted from them. -/
structure Finished where
  region : Region
  looked : List UInt32
  submissions : List Submission

section Sound

variable (sha256d : List UInt8 → Bytes32) (pow : PowFn) (job : MinerJob) (algo : PowAlgo)

/-- What a worker guarantees of the work it finished on a job. -/
structure Finished.Sound (work : Finished) : Prop where
  fits : en2Fits work.region.en2 job.extranonce2Size = true
  distinct : work.looked.Nodup
  inside : ∀ nonce ∈ work.looked, work.region.Contains nonce
  shares : work.submissions = sharesOf pow job algo (en2Header sha256d job work.region.en2).header
    (encodeExtranonce2 work.region.en2 job.extranonce2Size) work.looked

end Sound

end Bc3Miner.Mining
