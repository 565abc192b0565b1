import Bc3Miner.Mining.CpuWorker
import Bc3Miner.Mining.HeaderPaths
import Mathlib.Data.UInt

/-!
# The loops of the CPU worker

`mine_job` of `src/worker.rs` loop by loop, with what it does to the world around it: the headers it
hashes, in order, the shares it submits, the counters it adds to and the loads of the generation it
makes (`CpuEffects`). The batch is the source's `while done < batch`, run on fuel, and takes at most
`batch` turns (`batchLoop_eq`); the header is the one buffer whose last four bytes each turn
overwrites.

`sweep_eq` says that these loops do what `cpuMineJob` describes batch by batch. So the headers
hashed are those of consecutive positions of the thread's search order.

The main result is `mineJob_searches`, over every sequence of answers to the loads of the
generation: every batch comes to its end, the return value says what it should, and as long as the
counter stays in range (`CpuEnd.Room`) exactly the region from the entry to the exit was searched
(`CpuEnd.Searched`). `twoBatches_searched` is such a run.

Not modelled here: how long a batch takes, and the counters' place in shared memory; what is added
to them is.
-/

set_option autoImplicit false
set_option relaxedAutoImplicit false

namespace Bc3Miner.Mining

open Consensus

/-- What a run of `mine_job` does around it. -/
structure CpuEffects where
  /-- The extranonce2 counter and nonce of each header given to the proof of work. -/
  hashed : List (UInt64 × UInt32)
  submissions : List Submission
  hashes : UInt64
  cpuHashes : UInt64
  /-- What each load of the generation showed: whether it had changed. -/
  polled : List Bool

/-- How a run of `mine_job` ends: what it returned, where it leaves `en2_counter` and `nonce_start`,
and what it did. A run that has returned nothing is still going. -/
structure CpuEnd where
  effects : CpuEffects
  cursor : Cursor
  returned : Option Bool

section Loops

variable (sha256d : List UInt8 → Bytes32) (pow : PowFn) (job : MinerJob)

/-! ### The loops -/

/-- One turn of the innermost loop: hash the header, and submit what meets the share target. -/
def hashOne (extranonce2 : List UInt8) (en2 : UInt64) (header : Vector UInt8 80) (nonce : UInt32)
    (effects : CpuEffects) : CpuEffects :=
  { effects with
    hashed := effects.hashed ++ [(en2, nonce)]
    submissions := effects.submissions ++
      (shareAt job job.algo extranonce2 nonce (pow header)).toList }

/-- `while done < batch`, for at most `fuel` turns; none when they are not enough. The nonces of an
extranonce2 have run out where `overflowing_add` wraps around. -/
def batchLoop (batch : UInt32) (extranonce2 : List UInt8) (en2 : UInt64) :
    ℕ → UInt32 → Vector UInt8 80 → UInt32 → CpuEffects →
      Option (UInt32 × Vector UInt8 80 × UInt32 × CpuEffects)
  | fuel, done, header, nonce, effects =>
    if done < batch then
      match fuel with
      | 0 => none
      | fuel + 1 =>
        let header := patchNonce header nonce
        let effects := hashOne pow job extranonce2 en2 header nonce effects
        if nonce + 1 = 0 then some (done + 1, header, nonce + 1, effects)
        else batchLoop batch extranonce2 en2 fuel (done + 1) header (nonce + 1) effects
    else some (done, header, nonce, effects)

/-- The batches of an extranonce2, and those of the ones after it, each from the top of its nonces;
the list says what each load of the generation will show. -/
def sweep (batch : UInt32) (stride : UInt64) :
    List Bool → List UInt8 → UInt64 → Vector UInt8 80 → UInt32 → CpuEffects → Option CpuEnd
  | [], _, en2, _, nonce, effects => some ⟨effects, ⟨en2, nonce⟩, none⟩
  | changed :: changes, extranonce2, en2, header, nonce, effects => do
    let (done, header, nonce, effects) ←
      batchLoop pow job batch extranonce2 en2 batch.toNat 0 header nonce effects
    let effects := { effects with
      hashes := effects.hashes + done.toUInt64
      cpuHashes := effects.cpuHashes + done.toUInt64
      polled := effects.polled ++ [changed] }
    if changed then some ⟨effects, resumePoint en2 nonce (nonce = 0) stride, some false⟩
    else if nonce = 0 then
      let en2 := en2 + stride
      if !en2Fits en2 job.extranonce2Size then some ⟨effects, ⟨en2, 0⟩, some true⟩
      else
        sweep batch stride changes (encodeExtranonce2 en2 job.extranonce2Size) en2
          (cpuHeader sha256d job en2) 0 effects
    else sweep batch stride changes extranonce2 en2 header nonce effects

/-- `mine_job`, from a cursor. -/
def mineJobLoops (batch : UInt32) (stride : UInt64) (changes : List Bool) (cursor : Cursor)
    (effects : CpuEffects) : Option CpuEnd :=
  if !en2Fits cursor.en2 job.extranonce2Size then some ⟨effects, cursor, some true⟩
  else
    sweep sha256d pow job batch stride changes (encodeExtranonce2 cursor.en2 job.extranonce2Size)
      cursor.en2 (cpuHeader sha256d job cursor.en2) cursor.nonce effects

/-! ### A batch -/

/-- What the nonces of a batch add to the effects. -/
def CpuEffects.addNonces (effects : CpuEffects) (en2 : UInt64) (nonces : List UInt32)
    (submissions : List Submission) : CpuEffects :=
  { effects with
    hashed := effects.hashed ++ nonces.map (Prod.mk en2)
    submissions := effects.submissions ++ submissions }

/-- A header buffer holds the header of an extranonce2, whatever its last four bytes are. -/
def HoldsHeader (header : Vector UInt8 80) (blockHeader : BlockHeader) : Prop :=
  ∀ nonce, patchNonce header nonce = recheckHeader blockHeader nonce

theorem HoldsHeader.serialize (header : BlockHeader) : HoldsHeader header.serialize header :=
  patchNonce_serialize header

/-- Patching the nonce bytes of a serialized header does not change which header it is otherwise. -/
theorem HoldsHeader.patch {header : Vector UInt8 80} {blockHeader : BlockHeader}
    (hholds : HoldsHeader header blockHeader) (nonce : UInt32) :
    HoldsHeader (patchNonce header nonce) blockHeader := by
  intro other
  rw [hholds nonce, recheckHeader, patchNonce_serialize]
  rfl

/-- Nothing more was done. -/
theorem CpuEffects.addNonces_nil (effects : CpuEffects) (en2 : UInt64) :
    effects.addNonces en2 [] [] = effects := by
  simp [addNonces]

/-- One nonce, and then the others. -/
theorem addNonces_hashOne (effects : CpuEffects) (extranonce2 : List UInt8) (en2 : UInt64)
    (header : Vector UInt8 80) (nonce : UInt32) (nonces : List UInt32)
    (submissions : List Submission) :
    (hashOne pow job extranonce2 en2 header nonce effects).addNonces en2 nonces submissions =
      effects.addNonces en2 (nonce :: nonces)
        ((shareAt job job.algo extranonce2 nonce (pow header)).toList ++ submissions) := by
  simp [hashOne, CpuEffects.addNonces]

/-- A batch counts no more nonces than it is allowed. -/
theorem mineBatch_count_le (header : BlockHeader) (extranonce2 : List UInt8) {remaining : ℕ}
    (hremaining : remaining < 2 ^ 32) (nonce : UInt32) :
    (mineBatch pow job header extranonce2 remaining nonce).2.1.toNat ≤ remaining := by
  rw [mineBatch_eq]
  change (UInt32.ofNat (min remaining (2 ^ 32 - nonce.toNat))).toNat ≤ remaining
  rw [UInt32.toNat_ofNat', Nat.mod_eq_of_lt (by omega)]
  exact Nat.min_le_left _ _

/-- The loop over a batch with fuel for the nonces that are left of it ends. It returns what
`mineBatch` says of them, and the header bytes it ends with are those of the same header but for the
nonce. -/
theorem batchLoop_eq {batch : UInt32} (extranonce2 : List UInt8) (en2 : UInt64)
    {blockHeader : BlockHeader} (fuel : ℕ) (done : UInt32) (header : Vector UInt8 80)
    (nonce : UInt32) (effects : CpuEffects) (hfuel : done.toNat + fuel = batch.toNat)
    (hholds : HoldsHeader header blockHeader) :
    ∃ last, HoldsHeader last blockHeader ∧
      batchLoop pow job batch extranonce2 en2 fuel done header nonce effects =
        let (submissions, count, next) := mineBatch pow job blockHeader extranonce2 fuel nonce
        some (done + count, last, next,
          effects.addNonces en2 (noncesFrom nonce count.toNat) submissions) := by
  have hbatch := batch.toNat_lt
  induction fuel generalizing done header nonce effects with
  | zero =>
    have hdone : ¬done < batch := by
      rw [UInt32.lt_iff_toNat_lt]
      omega
    refine ⟨header, hholds, ?_⟩
    rw [batchLoop, if_neg hdone, mineBatch]
    simp [noncesFrom, CpuEffects.addNonces_nil]
  | succ fuel ih =>
    have hdone : done < batch := by
      rw [UInt32.lt_iff_toNat_lt]
      omega
    have hhash : pow (patchNonce header nonce) = hashAt pow blockHeader nonce := by
      rw [hholds nonce]
      rfl
    rw [batchLoop, if_pos hdone, mineBatch]
    by_cases hwrap : nonce + 1 = 0
    · refine ⟨_, hholds.patch nonce, ?_⟩
      have hone : noncesFrom nonce (1 : UInt32).toNat = [nonce] := by
        change noncesFrom nonce (0 + 1) = [nonce]
        rw [noncesFrom_succ]
        rfl
      simp only [if_pos hwrap, hone, ← hhash]
      have hadd := addNonces_hashOne pow job effects extranonce2 en2 (patchNonce header nonce) nonce
        [] []
      rw [CpuEffects.addNonces_nil, List.append_nil] at hadd
      rw [hadd]
    · have hnext : (done + 1).toNat + fuel = batch.toNat := by
        rw [UInt32.toNat_add, Nat.mod_eq_of_lt]
        · change done.toNat + 1 + fuel = _
          omega
        · change done.toNat + 1 < _
          omega
      obtain ⟨last, hlast, hloop⟩ := ih (done + 1) (patchNonce header nonce) (nonce + 1)
        (hashOne pow job extranonce2 en2 (patchNonce header nonce) nonce effects) hnext
        (hholds.patch nonce)
      refine ⟨last, hlast, ?_⟩
      have hcount := mineBatch_count_le pow job blockHeader extranonce2
        (show fuel < 2 ^ 32 by omega) (nonce + 1)
      simp only [if_neg hwrap, hloop]
      rcases hmine : mineBatch pow job blockHeader extranonce2 fuel (nonce + 1) with
        ⟨submissions, count, next⟩
      rw [hmine] at hcount
      have hsucc : (count + 1).toNat = count.toNat + 1 := by
        rw [UInt32.toNat_add, Nat.mod_eq_of_lt]
        · rfl
        · change count.toNat + 1 < _
          change count.toNat ≤ fuel at hcount
          omega
      simp only [hsucc, noncesFrom_succ, addNonces_hashOne, hhash]
      rw [UInt32.add_assoc, UInt32.add_comm 1 count]

/-! ### The run -/

/-- What finished batches add to the effects, and the loads of the generation after them. -/
def CpuEffects.addFinished (effects : CpuEffects) (finished : List Finished) (polled : List Bool) :
    CpuEffects where
  hashed := effects.hashed ++
    finished.flatMap fun work ↦ work.looked.map (Prod.mk work.region.en2)
  submissions := effects.submissions ++ finished.flatMap Finished.submissions
  hashes := effects.hashes + (finished.map fun work ↦ work.region.count.toUInt64).sum
  cpuHashes := effects.cpuHashes + (finished.map fun work ↦ work.region.count.toUInt64).sum
  polled := effects.polled ++ polled

theorem en2Header_extranonce2 (en2 : UInt64) :
    (en2Header sha256d job en2).extranonce2 = encodeExtranonce2 en2 job.extranonce2Size := rfl

theorem CpuEffects.addFinished_nil (effects : CpuEffects) :
    effects.addFinished [] [] = effects := by
  simp [addFinished]

/-- One batch, and then the others. -/
theorem CpuEffects.addFinished_cons (effects : CpuEffects) (work : Finished) (rest : List Finished)
    (changed : Bool) (polled : List Bool) :
    effects.addFinished (work :: rest) (changed :: polled) =
      CpuEffects.addFinished
        { effects.addNonces work.region.en2 work.looked work.submissions with
          hashes := effects.hashes + work.region.count.toUInt64
          cpuHashes := effects.cpuHashes + work.region.count.toUInt64
          polled := effects.polled ++ [changed] }
        rest polled := by
  simp [addFinished, addNonces, UInt64.add_assoc]

/-- The loops do, batch by batch, what `cpuMineJob` says. -/
theorem sweep_eq {batch : UInt32} (stride : UInt64) (changes : List Bool) (en2 : UInt64)
    (header : Vector UInt8 80) (nonce : UInt32) (effects : CpuEffects)
    (hfits : en2Fits en2 job.extranonce2Size = true)
    (hholds : HoldsHeader header (en2Header sha256d job en2).header) :
    let run := cpuMineJob sha256d pow job batch stride changes ⟨en2, nonce⟩
    sweep sha256d pow job batch stride changes
      (encodeExtranonce2 en2 job.extranonce2Size) en2 header
        nonce effects =
      some ⟨effects.addFinished run.finished (changes.take run.finished.length), run.cursor,
        run.exhausted⟩ := by
  induction changes generalizing en2 header nonce effects with
  | nil =>
    unfold cpuMineJob sweep
    simp [hfits, CpuEffects.addFinished]
  | cons changed changes ih =>
    have hzero : (0 : UInt32).toNat + batch.toNat = batch.toNat := Nat.zero_add _
    obtain ⟨last, hlast, hbatch⟩ := batchLoop_eq pow job
      (encodeExtranonce2 en2 job.extranonce2Size) en2 batch.toNat 0 header nonce
        effects hzero hholds
    rcases hmine : mineBatch pow job (en2Header sha256d job en2).header
      (encodeExtranonce2 en2 job.extranonce2Size) batch.toNat nonce with ⟨submissions, count, next⟩
    rw [hmine] at hbatch
    simp only [UInt32.zero_add] at hbatch
    unfold cpuMineJob sweep
    simp only [hfits, Bool.not_true, Bool.false_eq_true, if_false, hmine, hbatch,
      Option.bind_eq_bind, Option.bind_some, en2Header_extranonce2]
    cases changed with
    | true =>
      rw [if_pos rfl, if_pos rfl]
      simp only [List.length_singleton, List.take_succ_cons, List.take_zero]
      rw [CpuEffects.addFinished_cons, CpuEffects.addFinished_nil]
      rfl
    | false =>
      simp only [Bool.false_eq_true, if_false, List.length_cons, List.take_succ_cons]
      rw [CpuEffects.addFinished_cons]
      by_cases hwrap : next = 0
      · simp only [if_pos hwrap]
        by_cases hnext : en2Fits (en2 + stride) job.extranonce2Size = true
        · simp only [hnext, Bool.not_true, Bool.false_eq_true, if_false]
          exact ih _ _ _ _ hnext (HoldsHeader.serialize _)
        · simp only [hnext, Bool.not_false, if_true]
          unfold cpuMineJob
          simp only [hnext, Bool.not_false, if_true, List.length_nil, List.take_zero]
          rw [CpuEffects.addFinished_nil]
          rfl
      · simp only [if_neg hwrap]
        exact ih _ _ _ _ hfits hlast

/-- The run, loop by loop, is the run batch by batch. -/
theorem mineJobLoops_eq {batch : UInt32} (stride : UInt64) (changes : List Bool) (cursor : Cursor)
    (effects : CpuEffects) :
    let run := cpuMineJob sha256d pow job batch stride changes cursor
    mineJobLoops sha256d pow job batch stride changes cursor effects =
      some ⟨effects.addFinished run.finished (changes.take run.finished.length), run.cursor,
        run.exhausted⟩ := by
  by_cases hfits : en2Fits cursor.en2 job.extranonce2Size = true
  · unfold mineJobLoops
    simp only [hfits, Bool.not_true, Bool.false_eq_true, if_false]
    exact sweep_eq sha256d pow job stride changes cursor.en2 _ cursor.nonce effects hfits
      (HoldsHeader.serialize _)
  · unfold mineJobLoops cpuMineJob
    simp only [hfits, Bool.not_false, if_true, List.length_nil, List.take_zero]
    rw [CpuEffects.addFinished_nil]

/-! ### What was searched -/

/-- A position of the header space, as numbers. -/
def position (hashed : UInt64 × UInt32) : ℕ × ℕ := (hashed.1.toNat, hashed.2.toNat)

/-- Let a region start at a cursor that stands at an index of the search order. The nonces of the
region, in order, are then the positions from that index on, as many as the region has. -/
theorem positions_of_startsAt {base stride index : ℕ} {region : Region} {cursor : Cursor}
    (hstarts : region.StartsAt cursor) (hindex : cursor.AtIndex base stride index) :
    (noncesFrom region.start region.count.toNat).map (fun nonce ↦ position (region.en2, nonce)) =
      (List.range' index region.count.toNat).map (searchOrder base stride) := by
  obtain ⟨hen2, hnonce, hpos, hle⟩ := hstarts
  simp only [Cursor.AtIndex, searchOrder, Prod.mk.injEq] at hindex
  obtain ⟨hcounter, hstart⟩ := hindex
  rw [← hen2] at hcounter
  rw [← hnonce] at hstart
  apply List.ext_getElem
  · simp [noncesFrom]
  · intro offset hoffset _
    simp only [noncesFrom, List.map_map, List.length_map, List.length_range] at hoffset
    simp only [noncesFrom, List.getElem_map, List.getElem_range, List.getElem_range', Nat.one_mul,
      position, searchOrder, Prod.mk.injEq]
    have hquotient : (index + offset) / 2 ^ 32 = index / 2 ^ 32 := by omega
    have hremainder : (index + offset) % 2 ^ 32 = index % 2 ^ 32 + offset := by omega
    refine ⟨by rw [hcounter, hquotient], ?_⟩
    rw [toNat_add_ofNat (by omega), hstart, hremainder]

/-- Let regions be searched one after the other, the first from a cursor at an index, and none of
them saturate. Nonce by nonce they are then the positions from that index on, and the cursor behind
them stands at the index behind those. -/
theorem Chain.positions {base : ℕ} {stride : UInt64} {first last : Cursor} {regions : List Region}
    (hchain : Chain stride first regions last)
    (hroom : ∀ region ∈ regions, ¬region.Saturates stride) {index : ℕ}
    (hindex : first.AtIndex base stride.toNat index) :
    ∃ size, last.AtIndex base stride.toNat (index + size) ∧
      (regions.flatMap fun region ↦ (noncesFrom region.start region.count.toNat).map
        fun nonce ↦ position (region.en2, nonce)) =
        (List.range' index size).map (searchOrder base stride.toNat) ∧
      (regions.map fun region ↦ region.count.toUInt64).sum = UInt64.ofNat size := by
  induction hchain generalizing index with
  | nil cursor => exact ⟨0, hindex, rfl, rfl⟩
  | @cons cursor last region rest hstarts _ ih =>
    obtain ⟨size, hlast, hpositions, hsum⟩ := ih
      (fun other hother ↦ hroom other (List.mem_cons_of_mem _ hother))
      (Region.next_atIndex hstarts (hroom region List.mem_cons_self) hindex)
    refine ⟨region.count.toNat + size, ?_, ?_, ?_⟩
    · rwa [← Nat.add_assoc]
    · rw [List.flatMap_cons, positions_of_startsAt hstarts hindex, hpositions,
        ← List.range'_append_1, List.map_append]
    · rw [List.map_cons, List.sum_cons, hsum, UInt64.ofNat_add]
      congr 1
      exact UInt64.toNat_inj.mp (by simp)

/-- The submission that a hashed position owes, if its hash meets the share target. -/
def shareFound (hashed : UInt64 × UInt32) : Option Submission :=
  shareAt job job.algo (encodeExtranonce2 hashed.1 job.extranonce2Size) hashed.2
    (pow (patchNonce (cpuHeader sha256d job hashed.1) hashed.2))

/-- Before a run, with the counters as they stand. -/
def CpuEffects.fresh (hashes cpuHashes : UInt64) : CpuEffects := ⟨[], [], hashes, cpuHashes, []⟩

/-- The counter did not run past `2 ^ 64 - stride`: under none whose nonces ran out does the next
one not exist. -/
def CpuEnd.Room (final : CpuEnd) (stride : UInt64) : Prop :=
  ∀ hashed ∈ final.effects.hashed, hashed.2.toNat + 1 = 2 ^ 32 →
    hashed.1.toNat + stride.toNat < 2 ^ 64

/-- The search from a cursor was what the run left behind says: the positions up to the cursor it
left behind were hashed in order and each once, those whose hash meets the share target were
submitted, in order, and both counters went up by their number. -/
structure CpuEnd.Searched (final : CpuEnd) (stride : UInt64) (first : Cursor)
    (hashes cpuHashes : UInt64) : Prop where
  region : ∃ size,
    final.cursor.AtIndex first.en2.toNat stride.toNat (first.nonce.toNat + size) ∧
      final.effects.hashed.map position =
        (List.range' first.nonce.toNat size).map (searchOrder first.en2.toNat stride.toNat) ∧
      final.effects.hashes = hashes + UInt64.ofNat size ∧
      final.effects.cpuHashes = cpuHashes + UInt64.ofNat size
  once : final.effects.hashed.Nodup
  submitted : final.effects.submissions =
    final.effects.hashed.filterMap (shareFound sha256d pow job)

/-- What the return value says: false where a load of the generation showed a change, and true where
none did and the counter no longer fits the job's extranonce2 size. -/
def CpuEnd.ReturnsRight (final : CpuEnd) : Prop :=
  (final.returned = some false ↔ true ∈ final.effects.polled) ∧
    (final.returned = some true ↔
      true ∉ final.effects.polled ∧ en2Fits final.cursor.en2 job.extranonce2Size = false)

/-- What the loop returns: `false` exactly when one of its batches found the job changed, and `true`
exactly when none did and the counter it stopped at does not fit the extranonce2. -/
theorem cpuMineJob_returned (batch : UInt32) (stride : UInt64) (changes : List Bool)
    (cursor : Cursor) :
    let run := cpuMineJob sha256d pow job batch stride changes cursor
    (run.exhausted = some false ↔ true ∈ changes.take run.finished.length) ∧
      (run.exhausted = some true ↔ true ∉ changes.take run.finished.length ∧
        en2Fits run.cursor.en2 job.extranonce2Size = false) := by
  induction changes generalizing cursor with
  | nil =>
    unfold cpuMineJob
    by_cases hfits : en2Fits cursor.en2 job.extranonce2Size = true
    · simp [hfits]
    · simp [hfits]
  | cons changed changes ih =>
    unfold cpuMineJob
    by_cases hfits : en2Fits cursor.en2 job.extranonce2Size = true
    · simp only [hfits, Bool.not_true, Bool.false_eq_true, if_false]
      rcases mineBatch pow job (en2Header sha256d job cursor.en2).header
        (en2Header sha256d job cursor.en2).extranonce2 batch.toNat cursor.nonce with
        ⟨found, done, nonce⟩
      cases changed with
      | true => simp
      | false => simpa using ih _
    · simp [hfits]

/-- If wherever the run hashed the last nonce of a counter the counter could take another stride,
then none of the regions it finished saturates. -/
theorem not_saturates_of_room {batch : UInt32} (hbatch : 0 < batch.toNat) {stride : UInt64}
    {changes : List Bool} {first : Cursor}
    (hroom : ∀ hashed ∈ (cpuMineJob sha256d pow job batch stride changes first).finished.flatMap
        (fun work ↦ work.looked.map (Prod.mk work.region.en2)),
      hashed.2.toNat + 1 = 2 ^ 32 → hashed.1.toNat + stride.toNat < 2 ^ 64) :
    ∀ work ∈ (cpuMineJob sha256d pow job batch stride changes first).finished,
      ¬work.region.Saturates stride := by
  intro work hwork hsaturates
  obtain ⟨hend, hover⟩ := hsaturates
  have hlooked := (cpuMineJob_sound sha256d pow job hbatch stride changes first work hwork).2
  have hlast : (UInt32.ofNat (2 ^ 32 - 1)).toNat = 2 ^ 32 - 1 := by
    rw [UInt32.toNat_ofNat', Nat.mod_eq_of_lt (by omega)]
  have hpos : 0 < work.region.count.toNat := by
    have hstart := work.region.start.toNat_lt
    omega
  have hcontains : work.region.Contains (UInt32.ofNat (2 ^ 32 - 1)) := by
    unfold Region.Contains
    rw [hlast]
    omega
  have hin := hroom (work.region.en2, UInt32.ofNat (2 ^ 32 - 1)) (List.mem_flatMap.mpr
    ⟨work, hwork, List.mem_map.mpr ⟨_, (hlooked _).mpr hcontains, rfl⟩⟩)
    (by rw [hlast]; omega)
  change work.region.en2.toNat + stride.toNat < 2 ^ 64 at hin
  omega

/-- The submissions of finished work are those its positions owe. -/
theorem submissions_eq_shareFound {work : Finished}
    (hsound : work.Sound sha256d pow job job.algo) :
    work.submissions =
      (work.looked.map (Prod.mk work.region.en2)).filterMap (shareFound sha256d pow job) := by
  rw [hsound.shares, sharesOf, List.filterMap_map]
  apply List.filterMap_congr
  intro nonce _
  have hheader : patchNonce (cpuHeader sha256d job work.region.en2) nonce =
      recheckHeader (en2Header sha256d job work.region.en2).header nonce :=
    patchNonce_serialize (en2Header sha256d job work.region.en2).header nonce
  simp only [Function.comp_apply, shareFound, hheader]
  rfl

/-- `looked` of a finished batch is its nonces in order. -/
theorem cpuMineJob_looked (batch : UInt32) (stride : UInt64) (changes : List Bool)
    (cursor : Cursor) :
    ∀ work ∈ (cpuMineJob sha256d pow job batch stride changes cursor).finished,
      work.looked = noncesFrom work.region.start work.region.count.toNat := by
  induction changes generalizing cursor with
  | nil =>
    unfold cpuMineJob
    split_ifs <;> simp
  | cons changed changes ih =>
    unfold cpuMineJob
    by_cases hfits : en2Fits cursor.en2 job.extranonce2Size = true
    · simp only [hfits, Bool.not_true, Bool.false_eq_true, if_false]
      rcases mineBatch pow job (en2Header sha256d job cursor.en2).header
        (en2Header sha256d job cursor.en2).extranonce2 batch.toNat cursor.nonce with
        ⟨found, done, nonce⟩
      cases changed with
      | true => simp
      | false => exact List.forall_mem_cons.mpr ⟨rfl, ih _⟩
    · simp [hfits]

/-- A run of the CPU worker, whenever the generation changes: every batch ends, the return value
says what it should, and as long as the counter stays in range, exactly the region from where the
run started to where it left was searched. -/
theorem mineJob_searches {batch : UInt32} (hbatch : 0 < batch.toNat) {stride : UInt64}
    (hstride : 0 < stride.toNat) (changes : List Bool) (first : Cursor)
    (hashes cpuHashes : UInt64) :
    ∃ final, mineJobLoops sha256d pow job batch stride changes first (.fresh hashes cpuHashes) =
        some final ∧
      final.ReturnsRight job ∧
      (final.Room stride → final.Searched sha256d pow job stride first hashes cpuHashes) := by
  refine ⟨_, mineJobLoops_eq sha256d pow job stride changes first _, ?_, ?_⟩
  · exact cpuMineJob_returned sha256d pow job batch stride changes first
  · intro hroom
    have hsaturates := not_saturates_of_room sha256d pow job hbatch hroom
    have hchain := cpuMineJob_chain sha256d pow job hbatch stride changes first hsaturates
    have hsound := cpuMineJob_sound sha256d pow job hbatch stride changes first
    have hlooked := cpuMineJob_looked sha256d pow job batch stride changes first
    revert hroom hsaturates hchain hsound hlooked
    generalize cpuMineJob sha256d pow job batch stride changes first = run
    intro hroom hsaturates hchain hsound hlooked
    obtain ⟨size, hlast, hpositions, hsum⟩ := hchain.positions
      (List.forall_mem_map.mpr hsaturates) (first.atIndex_self stride.toNat)
    have hhashed : (run.finished.flatMap fun work ↦
        work.looked.map (Prod.mk work.region.en2)).map position =
          (List.range' first.nonce.toNat size).map (searchOrder first.en2.toNat stride.toNat) := by
      rw [← hpositions, List.flatMap_map, List.map_flatMap]
      apply List.flatMap_congr
      intro work hwork
      rw [hlooked work hwork, List.map_map]
      rfl
    rw [List.map_map] at hsum
    refine ⟨⟨size, hlast, hhashed, congrArg (hashes + ·) hsum, congrArg (cpuHashes + ·) hsum⟩, ?_,
      ?_⟩
    · apply List.Nodup.of_map position
      change ((run.finished.flatMap fun work ↦
        work.looked.map (Prod.mk work.region.en2)).map position).Nodup
      rw [hhashed]
      exact (List.nodup_range' 1).map (searchOrder_injective first.en2.toNat hstride)
    · change run.finished.flatMap Finished.submissions =
        (run.finished.flatMap fun work ↦
          work.looked.map (Prod.mk work.region.en2)).filterMap (shareFound sha256d pow job)
      rw [List.filterMap_flatMap]
      apply List.flatMap_congr
      intro work hwork
      exact submissions_eq_shareFound sha256d pow job (hsound work hwork).1

end Loops

/-- A run of two batches of four nonces, ended by a change of the job, over a proof of work that
finds nothing: it comes to its end, returns what it should, and has searched the eight nonces that
it hashed, each once and in order. -/
theorem twoBatches_searched :
    ∃ final, mineJobLoops (fun _ ↦ diff1) (fun _ ↦ Vector.replicate 32 1) (bareJob 0 diff1) 4 1
        [false, true] ⟨0, 0⟩ (.fresh 10 10) = some final ∧
      final.ReturnsRight (bareJob 0 diff1) ∧
      final.Searched (fun _ ↦ diff1) (fun _ ↦ Vector.replicate 32 1) (bareJob 0 diff1) 1 ⟨0, 0⟩
        10 10 := by
  obtain ⟨final, hrun, hreturns, hsearched⟩ :=
    mineJob_searches (fun _ ↦ diff1) (fun _ ↦ Vector.replicate 32 1) (bareJob 0 diff1)
      (show 0 < (4 : UInt32).toNat by decide) (show 0 < (1 : UInt64).toNat by decide)
      [false, true] ⟨0, 0⟩ 10 10
  refine ⟨final, hrun, hreturns, hsearched ?_⟩
  have hhashed : (mineJobLoops (fun _ ↦ diff1) (fun _ ↦ Vector.replicate 32 1) (bareJob 0 diff1) 4
      1 [false, true] ⟨0, 0⟩ (.fresh 10 10)).map (fun final ↦ final.effects.hashed) =
        some ([0, 1, 2, 3, 4, 5, 6, 7].map (Prod.mk 0)) := by decide +kernel
  rw [hrun] at hhashed
  have height : final.effects.hashed = [0, 1, 2, 3, 4, 5, 6, 7].map (Prod.mk 0) :=
    Option.some.inj hhashed
  intro hashed hmem _
  rw [height] at hmem
  obtain ⟨nonce, -, rfl⟩ := List.mem_map.mp hmem
  exact show 0 + 1 < 2 ^ 64 by norm_num

/-- A job of one byte of extranonce2. -/
def oneByteJob : MinerJob := { bareJob 0 (Vector.replicate 32 0) with extranonce2Size := 1 }

/-- The generation changes in the very batch that hashes the last nonce of the last extranonce2: the
run returns false, and the counter it leaves behind does not fit. -/
theorem lastBatch_changed :
    ∃ final, mineJobLoops (fun _ ↦ diff1) (fun _ ↦ Vector.replicate 32 1) oneByteJob 1 1 [true]
        ⟨255, 0xffffffff⟩ (.fresh 0 0) = some final ∧
      final.cursor = ⟨256, 0⟩ ∧ final.returned = some false ∧
      en2Fits final.cursor.en2 oneByteJob.extranonce2Size = false :=
  ⟨_, rfl, rfl, rfl, rfl⟩

end Bc3Miner.Mining
