import Bc3Miner.Mining.FinishedWork

/-!
# The CPU worker

One job on a CPU thread (`mine_job` of `src/worker.rs`): batches of nonces under one extranonce2,
the generation polled after each, and the next extranonce2 when the nonces run out. What the
generation shows is not the worker's to decide, so `mineJob` reads it off a list: one answer a
batch, whether the job has changed. A run whose answers are used up is still going.

The batches that were finished follow one another from the cursor the job was entered with to the
one it is left with (`mineJob_chain`), so a batch is neither skipped nor hashed twice.

This is the middle layer: it has the batches as wholes, so that the rig can be built on it, and
`CpuLoop` shows that the loops of the source do just that.
-/

set_option autoImplicit false
set_option relaxedAutoImplicit false

namespace Bc3Miner.Mining

open Consensus

/-- Hashes per batch. -/
def batchSize : UInt32 := 4

/-- One job of a CPU worker: the batches it finished, where it stands, and what it returned, once it
did: whether the extranonce2 values of the job were used up. -/
structure CpuRun where
  finished : List Finished
  cursor : Cursor
  exhausted : Option Bool

section Grind

variable (sha256d : List UInt8 → Bytes32) (pow : PowFn) (job : MinerJob)

/-- At most `remaining` more nonces of a batch: the submissions, the nonces done, and the nonce
after the last one. A nonce that wraps to 0 ends the batch early. -/
def mineBatch (header : BlockHeader) (extranonce2 : List UInt8) :
    ℕ → UInt32 → List Submission × UInt32 × UInt32
  | 0, nonce => ([], 0, nonce)
  | remaining + 1, nonce =>
    let found := (shareAt job job.algo extranonce2 nonce (hashAt pow header nonce)).toList
    if nonce + 1 = 0 then (found, 1, nonce + 1)
    else
      let (later, done, next) := mineBatch header extranonce2 remaining (nonce + 1)
      (found ++ later, done + 1, next)

/-- Grind `job` from a cursor, given whether the generation had changed after each batch. When an
extranonce2 is done the next one follows, from the top of its nonces. The source tests the counter
once per extranonce2 and not once per batch; the counter is the same for both. -/
def cpuMineJob (batch : UInt32) (stride : UInt64) : List Bool → Cursor → CpuRun
  | changes, cursor =>
    if !en2Fits cursor.en2 job.extranonce2Size then ⟨[], cursor, some true⟩
    else
      match changes with
      | [] => ⟨[], cursor, none⟩
      | changed :: changes =>
        let header := en2Header sha256d job cursor.en2
        let (found, done, nonce) :=
          mineBatch pow job header.header header.extranonce2 batch.toNat cursor.nonce
        let batchDone : Finished :=
          ⟨⟨cursor.en2, cursor.nonce, done⟩, noncesFrom cursor.nonce done.toNat, found⟩
        if changed then
          ⟨[batchDone], resumePoint cursor.en2 nonce (nonce = 0) stride, some false⟩
        else
          let next : Cursor :=
            if nonce = 0 then ⟨cursor.en2 + stride, 0⟩ else ⟨cursor.en2, nonce⟩
          let rest := cpuMineJob batch stride changes next
          ⟨batchDone :: rest.finished, rest.cursor, rest.exhausted⟩

/-- A batch does the nonces up to its size or to the end of the nonces, whichever comes first, and
submits what they owe. -/
theorem mineBatch_eq (header : BlockHeader) (extranonce2 : List UInt8) (remaining : ℕ)
    (nonce : UInt32) :
    mineBatch pow job header extranonce2 remaining nonce =
      let count := min remaining (2 ^ 32 - nonce.toNat)
      (sharesOf pow job job.algo header extranonce2 (noncesFrom nonce count), UInt32.ofNat count,
        nonce + UInt32.ofNat count) := by
  induction remaining generalizing nonce with
  | zero => simp [mineBatch, sharesOf, noncesFrom]
  | succ remaining ih =>
    have hnonce := nonce.toNat_lt
    have hsucc : (nonce + 1).toNat = (nonce.toNat + 1) % 2 ^ 32 := by
      rw [UInt32.toNat_add]
      rfl
    have hshares (count : ℕ) : sharesOf pow job job.algo header extranonce2
          (noncesFrom nonce (count + 1)) =
        (shareAt job job.algo extranonce2 nonce (hashAt pow header nonce)).toList ++
          sharesOf pow job job.algo header extranonce2 (noncesFrom (nonce + 1) count) := by
      rw [noncesFrom_succ, sharesOf, List.filterMap_cons]
      cases shareAt job job.algo extranonce2 nonce (hashAt pow header nonce) <;> rfl
    unfold mineBatch
    by_cases hwrap : nonce + 1 = 0
    · have hlast : nonce.toNat + 1 = 2 ^ 32 := by
        rw [hwrap] at hsucc
        change 0 = _ at hsucc
        omega
      have hone : min (remaining + 1) (2 ^ 32 - nonce.toNat) = 0 + 1 := by omega
      simp only [hwrap, if_true, hone, hshares]
      simp [sharesOf, noncesFrom, hwrap]
    · have hlow : (nonce + 1).toNat = nonce.toNat + 1 := by
        have hnot : nonce.toNat + 1 ≠ 2 ^ 32 := by
          intro hfull
          apply hwrap
          rw [← UInt32.toNat_inj, hsucc, hfull]
          rfl
        rw [hsucc, Nat.mod_eq_of_lt (by omega)]
      have hcount : min (remaining + 1) (2 ^ 32 - nonce.toNat) =
          min remaining (2 ^ 32 - (nonce + 1).toNat) + 1 := by
        rw [hlow]
        omega
      simp only [if_neg hwrap, ih (nonce + 1), hcount, hshares, UInt32.ofNat_add]
      refine Prod.ext rfl (Prod.ext rfl ?_)
      rw [UInt32.add_comm (UInt32.ofNat _) (UInt32.ofNat 1), ← UInt32.add_assoc]
      rfl

/-! ### What a run has finished -/

/-- One batch of a size that is not zero, as finished work. Its region starts at the cursor and has
a nonce for every hash that was made, and the nonce it leaves off at is 0 exactly when the nonces of
the counter ran out. -/
theorem mineBatch_startsAt (header : BlockHeader) (extranonce2 : List UInt8) {batch : UInt32}
    (hbatch : 0 < batch.toNat) (cursor : Cursor) {found : List Submission} {done nonce : UInt32}
    (hmine : mineBatch pow job header extranonce2 batch.toNat cursor.nonce = (found, done, nonce)) :
    (⟨cursor.en2, cursor.nonce, done⟩ : Region).StartsAt cursor ∧
      found = sharesOf pow job job.algo header extranonce2 (noncesFrom cursor.nonce done.toNat) ∧
      nonce = cursor.nonce + done := by
  rw [mineBatch_eq] at hmine
  simp only [Prod.mk.injEq] at hmine
  obtain ⟨rfl, rfl, rfl⟩ := hmine
  have hnonce := cursor.nonce.toNat_lt
  have hlt := batch.toNat_lt
  have hcount : (UInt32.ofNat (min batch.toNat (2 ^ 32 - cursor.nonce.toNat))).toNat =
      min batch.toNat (2 ^ 32 - cursor.nonce.toNat) := by
    rw [UInt32.toNat_ofNat', Nat.mod_eq_of_lt (by omega)]
  refine ⟨⟨rfl, rfl, ?_, ?_⟩, by rw [hcount], rfl⟩
  · rw [hcount]
    omega
  · rw [hcount]
    change cursor.nonce.toNat + _ ≤ _
    omega

/-- Every batch that a run finished, whenever the job changed, is sound: its shares are those of its
nonces that meet the target; and the nonces it looked at are those of its region, no more and no
less. -/
theorem cpuMineJob_sound {batch : UInt32} (hbatch : 0 < batch.toNat) (stride : UInt64)
    (changes : List Bool) (cursor : Cursor) :
    ∀ work ∈ (cpuMineJob sha256d pow job batch stride changes cursor).finished,
      work.Sound sha256d pow job job.algo ∧
        ∀ nonce, nonce ∈ work.looked ↔ work.region.Contains nonce := by
  induction changes generalizing cursor with
  | nil =>
    unfold cpuMineJob
    split_ifs <;> simp
  | cons changed changes ih =>
    unfold cpuMineJob
    by_cases hfits : en2Fits cursor.en2 job.extranonce2Size = true
    · rcases hmine : mineBatch pow job (en2Header sha256d job cursor.en2).header
        (en2Header sha256d job cursor.en2).extranonce2 batch.toNat cursor.nonce with
        ⟨found, done, nonce⟩
      obtain ⟨hstarts, hfound, -⟩ := mineBatch_startsAt pow job _ _ hbatch cursor hmine
      have hlooked (nonce : UInt32) : nonce ∈ noncesFrom cursor.nonce done.toNat ↔
          (⟨cursor.en2, cursor.nonce, done⟩ : Region).Contains nonce :=
        mem_noncesFrom hstarts.2.2
      have hfirst : (⟨⟨cursor.en2, cursor.nonce, done⟩, noncesFrom cursor.nonce done.toNat,
          found⟩ : Finished).Sound sha256d pow job job.algo :=
        ⟨hfits, nodup_noncesFrom hstarts.2.2,
          fun other ↦ (hlooked other).mp, hfound⟩
      simp only [hfits, Bool.not_true, Bool.false_eq_true, if_false, hmine]
      cases changed with
      | true => exact List.forall_mem_singleton.mpr ⟨hfirst, hlooked⟩
      | false => exact List.forall_mem_cons.mpr ⟨⟨hfirst, hlooked⟩, ih _⟩
    · simp [hfits]

/-- The finished batches follow one another, from where the job was entered to where it was left.
Short of saturation the plain addition of the loop is the saturating one. -/
theorem cpuMineJob_chain {batch : UInt32} (hbatch : 0 < batch.toNat) (stride : UInt64)
    (changes : List Bool) (cursor : Cursor)
    (hroom : ∀ work ∈ (cpuMineJob sha256d pow job batch stride changes cursor).finished,
      ¬ work.region.Saturates stride) :
    Chain stride cursor
      ((cpuMineJob sha256d pow job batch stride changes cursor).finished.map Finished.region)
      (cpuMineJob sha256d pow job batch stride changes cursor).cursor := by
  induction changes generalizing cursor with
  | nil =>
    unfold cpuMineJob
    split_ifs <;> exact .nil _
  | cons changed changes ih =>
    unfold cpuMineJob at hroom ⊢
    by_cases hfits : en2Fits cursor.en2 job.extranonce2Size = true
    · rcases hmine : mineBatch pow job (en2Header sha256d job cursor.en2).header
        (en2Header sha256d job cursor.en2).extranonce2 batch.toNat cursor.nonce with
        ⟨found, done, nonce⟩
      obtain ⟨hstarts, -, hnonce⟩ := mineBatch_startsAt pow job _ _ hbatch cursor hmine
      have hresume : resumePoint cursor.en2 nonce (nonce = 0) stride =
          (⟨cursor.en2, cursor.nonce, done⟩ : Region).next stride := by
        rw [hnonce]
        exact resumePoint_eq_next hstarts.2.2 stride
      simp only [hfits, Bool.not_true, Bool.false_eq_true, if_false, hmine] at hroom ⊢
      cases changed with
      | true => exact .cons hstarts (hresume ▸ .nil _)
      | false =>
        simp only [Bool.false_eq_true, if_false, List.forall_mem_cons] at hroom ⊢
        have hnext : (if nonce = 0 then (⟨cursor.en2 + stride, 0⟩ : Cursor)
            else ⟨cursor.en2, nonce⟩) =
              (⟨cursor.en2, cursor.nonce, done⟩ : Region).next stride := by
          rw [← hresume]
          unfold resumePoint saturatingAdd
          by_cases hzero : nonce = 0
          · have hfull : cursor.en2.toNat + stride.toNat < 2 ^ 64 := by
              by_contra hover
              refine hroom.1 ⟨?_, not_lt.mp hover⟩
              have hsum : (cursor.nonce.toNat + done.toNat) % 2 ^ 32 = 0 := by
                rw [← UInt32.toNat_add, ← hnonce, hzero]
                rfl
              have hpos := hstarts.2.2.1
              have hle := hstarts.2.2.2
              change cursor.nonce.toNat + done.toNat ≤ _ at hle
              change 0 < done.toNat at hpos
              change cursor.nonce.toNat + done.toNat = _
              omega
            rw [if_pos hzero, if_pos (by simpa using hzero), if_pos hfull]
          · simp [hzero]
        exact .cons hstarts (hnext ▸ ih _ hroom.2)
    · simp only [hfits, Bool.not_false, if_true, List.map_nil]
      exact .nil _

end Grind

end Bc3Miner.Mining
