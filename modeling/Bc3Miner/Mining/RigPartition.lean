import Bc3Miner.Mining.SearchEngine
import Bc3Miner.Foundations.PartialMachine
import Mathlib.Data.List.Nodup
import Mathlib.Data.List.FinRange

/-!
# The workers of a rig

A rig is any number of workers, CPU threads and GPUs, that share the search space of the published
jobs: worker `i` of `n` uses the extranonce2 counters `i`, `i + n`, `i + 2n`, …. The workers take
the current job, are told how their batches and launches fare, return and take the job again, in any
order among themselves and with the pool's thread.

`History` is what one worker has to show for: within a search space, the intervals of its order that
it has finished ascend, and its cursor stands behind them. It survives any job that the worker
enters, as long as the jobs of one search space follow one another (`History.extend`).

`Rig.never_repeats` is the result, over every run of a rig: no header is hashed in two pieces of
finished work, no share is submitted twice. Its assumptions are the ones under which the miner
promises it: the search spaces of the jobs follow one another, and a counter of eight bytes or more
stays clear of the top of the 64 bits. Nothing is assumed of how fast the workers are, of which
launches fail, or of what they find.
-/

set_option autoImplicit false
set_option relaxedAutoImplicit false

namespace Bc3Miner.Mining

open Consensus Foundations.IntervalTiling Foundations.PartialMachine Set

/-! ### One worker's history -/

/-- Finished work and the job it was finished for. -/
abbrev Entry := MinerJob × Finished

/-- The headers that finished work has hashed: search space, extranonce2 and nonce. -/
def Entry.headers (entry : Entry) : Set (MinerJob.SearchSpace × List UInt8 × UInt32) :=
  {header | header.1 = entry.1.searchSpace ∧
    header.2.1 = encodeExtranonce2 entry.2.region.en2 entry.1.extranonce2Size ∧
    (entry.2.region.en2.toNat, header.2.2.toNat) ∈ entry.2.region.positions}

/-- The headers whose shares finished work has passed to `Shared::submit`. -/
def Entry.submitted (entry : Entry) : List (MinerJob.SearchSpace × List UInt8 × UInt32) :=
  entry.2.submissions.map fun found ↦
    (entry.1.searchSpace, found.share.extranonce2, found.share.nonce)

/-- What a worker has finished so far: ascending intervals of its order within each search space,
the cursor behind those of the space it mined last. -/
structure History (workerIndex stride : UInt64) (previous : Option MinerJob) (cursor : Cursor)
    (past : List Entry) : Prop where
  ascending : past.Pairwise fun entry later ↦ entry.1.searchSpace = later.1.searchSpace →
    (entry.2.region.cut workerIndex.toNat stride.toNat).2 ≤
      (later.2.region.cut workerIndex.toNat stride.toNat).1
  reached : ∃ stop, (cursor.AtIndex workerIndex.toNat stride.toNat stop ∨ cursor.Dead stride) ∧
    ∀ entry ∈ past, previous.map MinerJob.searchSpace = some entry.1.searchSpace →
      (entry.2.region.cut workerIndex.toNat stride.toNat).2 ≤ stop
  inOrder : ∀ entry ∈ past, entry.2.region.InOrder workerIndex.toNat stride.toNat

/-- A worker that has not mined yet. -/
theorem History.initial (workerIndex stride : UInt64) :
    History workerIndex stride none ⟨workerIndex, 0⟩ [] where
  ascending := .nil
  reached := ⟨0, Or.inl (Cursor.atIndex_self _ _), by simp⟩
  inOrder := by simp

/-- Let the search space of a job be new to a worker, or the one that it mined last. The cursor with
which the worker enters the job then stands behind everything that it has finished in that search
space. -/
theorem History.startOn {workerIndex stride : UInt64} {previous : Option MinerJob} {cursor : Cursor}
    {past : List Entry} (h : History workerIndex stride previous cursor past) {job : MinerJob}
    (hfresh : ∀ entry ∈ past, entry.1.searchSpace = job.searchSpace →
      previous.map MinerJob.searchSpace = some job.searchSpace) :
    ∃ index,
      ((startOn previous job workerIndex cursor).AtIndex workerIndex.toNat stride.toNat index ∨
        (startOn previous job workerIndex cursor).Dead stride) ∧
      ∀ entry ∈ past, entry.1.searchSpace = job.searchSpace →
        (entry.2.region.cut workerIndex.toNat stride.toNat).2 ≤ index := by
  have hstart : Mining.startOn previous job workerIndex cursor =
      if previous.map MinerJob.searchSpace = some job.searchSpace then cursor
      else ⟨workerIndex, 0⟩ := by
    cases previous with
    | none => rfl
    | some before =>
      by_cases hsame : before.searchSpace = job.searchSpace
      · have htrue := (MinerJob.sameSearchSpace_iff before job).mpr hsame
        simp [Mining.startOn, htrue, hsame]
      · have hfalse : before.sameSearchSpace job = false := by
          rw [Bool.eq_false_iff]
          exact fun htrue ↦ hsame ((MinerJob.sameSearchSpace_iff before job).mp htrue)
        simp [Mining.startOn, hfalse, hsame]
  rw [hstart]
  by_cases hsame : previous.map MinerJob.searchSpace = some job.searchSpace
  · obtain ⟨stop, hcursor, hbehind⟩ := h.reached
    rw [if_pos hsame]
    exact ⟨stop, hcursor, fun entry hentry hspace ↦
      hbehind entry hentry (hsame.trans (congrArg some hspace.symm))⟩
  · rw [if_neg hsame]
    exact ⟨0, Or.inl (Cursor.atIndex_self _ _), fun entry hentry hspace ↦
      absurd (hfresh entry hentry hspace) hsame⟩

/-- One more job in the history of a worker, in a search space that is new to it or the one that it
mined last: the regions finished on it come behind what was finished in that search space before, so
the history stays one of ascending intervals. -/
theorem History.extend {workerIndex stride : UInt64} (hstride : 0 < stride.toNat)
    {previous : Option MinerJob} {cursor last : Cursor} {past : List Entry}
    (h : History workerIndex stride previous cursor past) {job : MinerJob}
    (hfresh : ∀ entry ∈ past, entry.1.searchSpace = job.searchSpace →
      previous.map MinerJob.searchSpace = some job.searchSpace)
    {regions : List Region} {finished : List Finished}
    (hchain : Chain stride (Mining.startOn previous job workerIndex cursor) regions last)
    (hsublist : (finished.map Finished.region).Sublist regions)
    (hlive : ∀ work ∈ finished, work.region.en2.toNat + stride.toNat < 2 ^ 64) :
    History workerIndex stride (some job) last (past ++ finished.map fun work ↦ (job, work)) := by
  obtain ⟨index, hindex, hbehind⟩ := h.startOn hfresh
  obtain ⟨stop, hascends, hlast, horder⟩ := hchain.ascends_of_sublist hstride hindex hsublist
    (by simpa using hlive)
  have hcuts : ∀ work ∈ finished,
      index ≤ (work.region.cut workerIndex.toNat stride.toNat).1 ∧
        (work.region.cut workerIndex.toNat stride.toNat).2 ≤ stop := by
    intro work hwork
    have hbounds := hascends.bounds (List.mem_map_of_mem (List.mem_map_of_mem hwork))
    exact ⟨hbounds.1, hbounds.2.2⟩
  refine ⟨?_, ⟨stop, hlast, ?_⟩, ?_⟩
  · rw [List.pairwise_append]
    refine ⟨h.ascending, ?_, ?_⟩
    · rw [List.pairwise_map]
      have hpairs := hascends.pairwise_le
      rw [List.pairwise_map, List.pairwise_map] at hpairs
      refine hpairs.imp ?_
      intro work later hle _
      exact hle
    · intro entry hentry later hlater hspace
      obtain ⟨work, hwork, rfl⟩ := List.mem_map.mp hlater
      exact (hbehind entry hentry hspace).trans (hcuts work hwork).1
  · intro entry hentry hspace
    have hsame : entry.1.searchSpace = job.searchSpace := (Option.some.inj hspace).symm
    rcases List.mem_append.mp hentry with hold | hnew
    · exact (hbehind entry hold hsame).trans hascends.le
    · obtain ⟨work, hwork, rfl⟩ := List.mem_map.mp hnew
      exact (hcuts work hwork).2
  · intro entry hentry
    rcases List.mem_append.mp hentry with hold | hnew
    · exact h.inOrder entry hold
    · obtain ⟨work, hwork, rfl⟩ := List.mem_map.mp hnew
      exact horder _ (List.mem_map_of_mem hwork)

/-! ### Headers of different work -/

/-- Regions whose intervals follow one another have no position in common. -/
theorem Region.InOrder.disjoint {base stride : ℕ} (hstride : 0 < stride) {region later : Region}
    (h : region.InOrder base stride) (h' : later.InOrder base stride)
    (hle : (region.cut base stride).2 ≤ (later.cut base stride).1) :
    Disjoint region.positions later.positions := by
  obtain ⟨cursor, index, hstarts, hindex⟩ := h
  obtain ⟨cursor', index', hstarts', hindex'⟩ := h'
  obtain ⟨hcut, hpositions⟩ := Region.cut_eq hstride hstarts hindex
  obtain ⟨hcut', hpositions'⟩ := Region.cut_eq hstride hstarts' hindex'
  rw [hcut, hcut'] at hle
  rw [hpositions, hpositions', disjoint_image_iff (searchOrder_injective base hstride),
    Ico_disjoint_Ico]
  exact (min_le_left _ _).trans (hle.trans (le_max_right _ _))

/-- The counters of a worker are its index modulo the number of workers. -/
theorem Region.InOrder.mod_eq {base stride : ℕ} {region : Region} (h : region.InOrder base stride)
    (hbase : base < stride) : region.en2.toNat % stride = base := by
  obtain ⟨cursor, index, hstarts, hindex⟩ := h
  simp only [Cursor.AtIndex, searchOrder, Prod.mk.injEq] at hindex
  rw [hstarts.1, hindex.1, Nat.add_mul_mod_self_left, Nat.mod_eq_of_lt hbase]

/-- Work on headers of one search space is work on positions. -/
theorem Entry.headers_disjoint {entry later : Entry}
    (hfits : en2Fits entry.2.region.en2 entry.1.extranonce2Size = true)
    (hfits' : en2Fits later.2.region.en2 later.1.extranonce2Size = true)
    (hdisjoint : entry.1.searchSpace = later.1.searchSpace →
      Disjoint entry.2.region.positions later.2.region.positions) :
    Disjoint entry.headers later.headers := by
  rw [Set.disjoint_left]
  rintro ⟨space, extranonce2, nonce⟩ ⟨hspace, hencode, hposition⟩ ⟨hspace', hencode', hposition'⟩
  have hsame : entry.1.searchSpace = later.1.searchSpace := hspace.symm.trans hspace'
  have hsize : entry.1.extranonce2Size = later.1.extranonce2Size :=
    congrArg MinerJob.SearchSpace.extranonce2Size hsame
  rw [hsize] at hfits hencode
  have hcounter := encodeExtranonce2_injective hfits hfits' (hencode.symm.trans hencode')
  rw [hcounter] at hposition
  exact Set.disjoint_left.mp (hdisjoint hsame) hposition hposition'

/-- What is submitted from sound work are headers of that work, each once. -/
theorem Entry.submitted_spec {sha256d : List UInt8 → Bytes32} {pow : PowFn} {entry : Entry}
    (hsound : entry.2.Sound sha256d pow entry.1 entry.1.algo) :
    entry.submitted.Nodup ∧ ∀ header ∈ entry.submitted, header ∈ entry.headers := by
  obtain ⟨hfits, hnodup, hinside, hshares⟩ := hsound
  have hsubmitted : entry.submitted = (entry.2.looked.filter fun nonce ↦ hashMeetsTarget
      (hashAt pow (en2Header sha256d entry.1 entry.2.region.en2).header nonce)
        entry.1.shareTarget).map fun nonce ↦
      (entry.1.searchSpace, encodeExtranonce2 entry.2.region.en2 entry.1.extranonce2Size,
        nonce) := by
    rw [Entry.submitted, hshares, sharesOf, List.map_filterMap, ← List.filterMap_eq_filter,
      List.map_filterMap]
    refine List.filterMap_congr fun nonce _ ↦ ?_
    unfold shareAt
    split_ifs with hmeets <;> simp [submission, Option.guard, hmeets]
  rw [hsubmitted]
  refine ⟨(hnodup.filter _).map fun first second heq ↦ ?_, fun header hheader ↦ ?_⟩
  · exact (Prod.mk.inj (Prod.mk.inj heq).2).2
  · obtain ⟨nonce, hnonce, rfl⟩ := List.mem_map.mp hheader
    exact ⟨rfl, rfl, rfl, hinside nonce (List.mem_of_mem_filter hnonce)⟩

/-! ### The rig -/

/-- The workers a rig can have. -/
inductive WorkerKind
  | cpu
  | gpu
  deriving DecidableEq

/-- The workers of a rig, by their index; each has a thread of its own. -/
structure RigPlan where
  total : ℕ
  total_le : total ≤ 2 ^ 63
  kind : Fin total → WorkerKind

theorem RigPlan.stride_eq (plan : RigPlan) : (UInt64.ofNat plan.total).toNat = plan.total := by
  have hle := plan.total_le
  rw [UInt64.toNat_ofNat', Nat.mod_eq_of_lt (by omega)]

theorem RigPlan.stride_pos (plan : RigPlan) (index : Fin plan.total) :
    0 < (UInt64.ofNat plan.total).toNat := by
  rw [plan.stride_eq]
  exact index.pos

theorem RigPlan.index_eq (plan : RigPlan) (index : Fin plan.total) :
    (UInt64.ofNat index).toNat = index := by
  have hle := plan.total_le
  have hlt := index.isLt
  rw [UInt64.toNat_ofNat', Nat.mod_eq_of_lt (by omega)]

section Rig

variable (sha256d : List UInt8 → Bytes32) (pow : PowFn) (plan : RigPlan)

/-- The worker at an index. -/
def RigPlan.engine (index : Fin plan.total) :
    SearchEngine sha256d pow (UInt64.ofNat index) (UInt64.ofNat plan.total) :=
  match plan.kind index with
  | .cpu => cpuEngine sha256d pow _ _
  | .gpu => gpuEngine sha256d pow _ _ (plan.stride_pos index)

variable {sha256d pow} in
/-- A job that a worker is at, and what it was told so far. -/
structure Task {workerIndex stride : UInt64}
    (engine : SearchEngine sha256d pow workerIndex stride) where
  job : MinerJob
  setup : engine.Setup
  answers : List engine.Answer

variable {sha256d pow} in
/-- A worker of a running rig. -/
structure RigWorker {workerIndex stride : UInt64}
    (engine : SearchEngine sha256d pow workerIndex stride) where
  state : engine.State
  task : Option (Task engine)
  /-- What it finished on the jobs it has returned from. -/
  past : List Entry

section RigWorker

variable {sha256d pow} {workerIndex stride : UInt64}
  {engine : SearchEngine sha256d pow workerIndex stride}

/-- What a worker at a job has finished on it, and the state it is left in once it returns. -/
def RigWorker.grinding (worker : RigWorker engine) (task : Task engine) :
    List Finished × Option engine.State :=
  engine.grind worker.state task.job task.setup task.answers

/-- Everything a worker has finished. -/
def RigWorker.finished (worker : RigWorker engine) : List Entry :=
  worker.past ++ match worker.task with
    | none => []
    | some task => (worker.grinding task).1.map fun work ↦ (task.job, work)

end RigWorker

/-- A rig: the jobs published so far, the one in the slot, and the workers. -/
structure Rig where
  published : List MinerJob
  current : Option MinerJob
  worker : ∀ index, RigWorker (plan.engine sha256d pow index)

/-- What happens on a rig. What the generation shows a worker at which poll is part of its answers,
so nudges and new jobs that it notices early, late or never need no event of their own. -/
inductive RigEvent
  | publish (job : MinerJob)
  | clear
  /-- An idle worker takes the job in the slot. -/
  | take (index : Fin plan.total) (setup : (plan.engine sha256d pow index).Setup)
  | answer (index : Fin plan.total) (answer : (plan.engine sha256d pow index).Answer)
  /-- A worker returns from its job. -/
  | leave (index : Fin plan.total)
  /-- An idle worker's device is opened again. -/
  | reopened (index : Fin plan.total)

variable {sha256d pow plan}

/-- One worker changes. -/
def Rig.set (rig : Rig sha256d pow plan) (index : Fin plan.total)
    (worker : RigWorker (plan.engine sha256d pow index)) : Rig sha256d pow plan :=
  { rig with worker := Function.update rig.worker index worker }

/-- One step of the rig. A worker sits out a job whose proof of work has no hash function. -/
def Rig.step (rig : Rig sha256d pow plan) : RigEvent sha256d pow plan →
    Option (Rig sha256d pow plan)
  | .publish job => some { rig with published := rig.published ++ [job], current := some job }
  | .clear => some { rig with current := none }
  | .take index setup =>
    match (rig.worker index).task, rig.current with
    | none, some job =>
      if (job.algo.hashFn (some pow)).isSome then
        some (rig.set index { rig.worker index with task := some ⟨job, setup, []⟩ })
      else none
    | _, _ => none
  | .answer index answer =>
    match (rig.worker index).task with
    | some task => some (rig.set index { rig.worker index with
        task := some { task with answers := task.answers ++ [answer] } })
    | none => none
  | .leave index =>
    match (rig.worker index).task with
    | some task =>
      match ((rig.worker index).grinding task).2 with
      | some left => some (rig.set index ⟨left, none, (rig.worker index).finished⟩)
      | none => none
    | none => none
  | .reopened index =>
    match (rig.worker index).task with
    | none => some (rig.set index { rig.worker index with
        state := (plan.engine sha256d pow index).reopened (rig.worker index).state })
    | some _ => none

/-- A rig before its first job. -/
def Rig.initial : Rig sha256d pow plan where
  published := []
  current := none
  worker index := ⟨(plan.engine sha256d pow index).initial, none, []⟩

/-- Everything the rig has finished, worker by worker. -/
def Rig.finished (rig : Rig sha256d pow plan) : List Entry :=
  (List.finRange plan.total).flatMap fun index ↦ (rig.worker index).finished

/-- Everything the rig has passed to `Shared::submit`. -/
def Rig.submitted (rig : Rig sha256d pow plan) :
    List (MinerJob.SearchSpace × List UInt8 × UInt32) :=
  rig.finished.flatMap Entry.submitted

/-! ### What holds on every rig -/

/-- The jobs of each search space follow one another. -/
def Consecutive (published : List MinerJob) : Prop :=
  ∀ (first middle last : ℕ) (job job' job'' : MinerJob), first ≤ middle → middle ≤ last →
    published[first]? = some job → published[middle]? = some job' →
    published[last]? = some job'' → job.searchSpace = job''.searchSpace →
    job'.searchSpace = job.searchSpace

private theorem getElem?_append_of_some {published later : List MinerJob} {position : ℕ}
    {job : MinerJob} (hjob : published[position]? = some job) :
    (published ++ later)[position]? = some job := by
  obtain ⟨hlt, -⟩ := List.getElem?_eq_some_iff.mp hjob
  rw [List.getElem?_append_left hlt, hjob]

theorem Consecutive.of_append {published later : List MinerJob}
    (h : Consecutive (published ++ later)) : Consecutive published := by
  intro first middle last job job' job'' hle hle' hfirst hmiddle hlast
  exact h first middle last job job' job'' hle hle' (getElem?_append_of_some hfirst)
    (getElem?_append_of_some hmiddle) (getElem?_append_of_some hlast)

/-- A worker's jobs so far were published up to a position, the one it mined last after those of
everything it finished. -/
def PlacedUpTo (published : List MinerJob) (previous : Option MinerJob) (past : List Entry)
    (position : ℕ) : Prop :=
  (previous = none → past = []) ∧ ∀ before, previous = some before →
    ∃ place ≤ position, published[place]? = some before ∧
      ∀ entry ∈ past, ∃ earlier ≤ place, published[earlier]? = some entry.1

/-- Where the search spaces of the published jobs follow one another, and what a worker has finished
was published before a position: the job published at that position has a search space that is new
to the worker, or the one that it mined last. -/
theorem PlacedUpTo.fresh {published : List MinerJob} {previous : Option MinerJob}
    {past : List Entry} {position : ℕ} (h : PlacedUpTo published previous past position)
    (hconsecutive : Consecutive published) {job : MinerJob}
    (hjob : published[position]? = some job) :
    ∀ entry ∈ past, entry.1.searchSpace = job.searchSpace →
      previous.map MinerJob.searchSpace = some job.searchSpace := by
  intro entry hentry hspace
  cases hprevious : previous with
  | none =>
    rw [h.1 hprevious] at hentry
    simp at hentry
  | some before =>
    obtain ⟨place, hplace, hbefore, hpast⟩ := h.2 before hprevious
    obtain ⟨earlier, hearlier, hentryAt⟩ := hpast entry hentry
    have hsame := hconsecutive earlier place position _ _ _ hearlier hplace hentryAt
      hbefore hjob hspace
    rw [Option.map_some, hsame, hspace]

section WorkerInvariant

variable {workerIndex stride : UInt64} {engine : SearchEngine sha256d pow workerIndex stride}

/-- The counter of finished work has room for a stride. -/
def Entry.Live (stride : UInt64) (entry : Entry) : Prop :=
  entry.2.region.en2.toNat + stride.toNat < 2 ^ 64

/-- What holds of each worker of a rig. -/
structure WorkerInvariant (published : List MinerJob) (worker : RigWorker engine) : Prop where
  sound : ∀ entry ∈ worker.past, entry.2.Sound sha256d pow entry.1 entry.1.algo
  placed : ∃ position, PlacedUpTo published (engine.previous worker.state) worker.past position ∧
    ∀ task, worker.task = some task → published[position]? = some task.job
  history : Consecutive published → (∀ entry ∈ worker.past, entry.Live stride) →
    History workerIndex stride (engine.previous worker.state)
      (engine.cursor worker.state) worker.past

/-- What a worker has finished is sound for the job and the proof of work it was finished under. -/
theorem WorkerInvariant.sound_finished {published : List MinerJob} {worker : RigWorker engine}
    (h : WorkerInvariant published worker) :
    ∀ entry ∈ worker.finished, entry.2.Sound sha256d pow entry.1 entry.1.algo := by
  intro entry hentry
  unfold RigWorker.finished at hentry
  rcases List.mem_append.mp hentry with hold | hnew
  · exact h.sound entry hold
  · cases htask : worker.task with
    | none => simp [htask] at hnew
    | some task =>
      rw [htask] at hnew
      obtain ⟨work, hwork, rfl⟩ := List.mem_map.mp hnew
      exact engine.sound worker.state task.job task.setup task.answers work hwork

/-- Let a worker of a rig meet its invariant, the search spaces follow one another, and its counters
stay clear of the top. All that it has finished is a history of ascending intervals, and if it has
returned from its job its cursor stands behind all of them. -/
theorem WorkerInvariant.history_finished (hstride : 0 < stride.toNat) {published : List MinerJob}
    {worker : RigWorker engine} (h : WorkerInvariant published worker)
    (hconsecutive : Consecutive published)
    (hlive : ∀ entry ∈ worker.finished, entry.Live stride) :
    ∃ previous cursor, History workerIndex stride previous cursor worker.finished ∧
      ∀ task, worker.task = some task → ∀ left, (worker.grinding task).2 = some left →
        engine.previous left = previous ∧ engine.cursor left = cursor := by
  have hpast := h.history hconsecutive fun entry hentry ↦
    hlive entry (List.mem_append_left _ hentry)
  unfold RigWorker.finished at hlive ⊢
  cases htask : worker.task with
  | none =>
    refine ⟨engine.previous worker.state, engine.cursor worker.state, ?_, by simp⟩
    simpa using hpast
  | some task =>
    simp only [htask, List.mem_append, List.mem_map] at hlive
    obtain ⟨position, hplaced, hposition⟩ := h.placed
    have hwork : ∀ work ∈ (worker.grinding task).1,
        work.region.en2.toNat + stride.toNat < 2 ^ 64 := fun work hwork ↦
      hlive (task.job, work) (Or.inr ⟨work, hwork, rfl⟩)
    obtain ⟨regions, last, hchain, hsublist, hleft⟩ := engine.accounts worker.state task.job
      task.setup task.answers fun work hmem hfull ↦ absurd hfull.2 (not_le.mpr (hwork work hmem))
    refine ⟨some task.job, last, hpast.extend hstride
      (hplaced.fresh hconsecutive (hposition task htask)) hchain hsublist hwork, ?_⟩
    rintro task' hsame left hgrinding
    obtain rfl := Option.some.inj hsame
    exact ⟨engine.left_previous _ _ _ _ _ hgrinding, hleft left hgrinding⟩

/-- Publishing a job changes nothing for a worker. -/
theorem WorkerInvariant.publish {published : List MinerJob} {worker : RigWorker engine}
    (h : WorkerInvariant published worker) (job : MinerJob) :
    WorkerInvariant (published ++ [job]) worker where
  sound := h.sound
  placed := by
    obtain ⟨position, ⟨hnone, hsome⟩, htask⟩ := h.placed
    refine ⟨position, ⟨hnone, fun before hbefore ↦ ?_⟩, fun task hsome ↦
      getElem?_append_of_some (htask task hsome)⟩
    obtain ⟨place, hplace, hat, hpast⟩ := hsome before hbefore
    refine ⟨place, hplace, getElem?_append_of_some hat, fun entry hentry ↦ ?_⟩
    obtain ⟨earlier, hearlier, hentryAt⟩ := hpast entry hentry
    exact ⟨earlier, hearlier, getElem?_append_of_some hentryAt⟩
  history hconsecutive := h.history hconsecutive.of_append

/-- Taking the last job published. -/
theorem WorkerInvariant.take {published : List MinerJob} {worker : RigWorker engine}
    (h : WorkerInvariant published worker) {job : MinerJob}
    (hjob : published[published.length - 1]? = some job) (setup : engine.Setup) :
    WorkerInvariant published { worker with task := some ⟨job, setup, []⟩ } where
  sound := h.sound
  placed := by
    obtain ⟨position, ⟨hnone, hsome⟩, -⟩ := h.placed
    refine ⟨published.length - 1, ⟨hnone, fun before hbefore ↦ ?_⟩, ?_⟩
    · obtain ⟨place, -, hat, hpast⟩ := hsome before hbefore
      obtain ⟨hlt, -⟩ := List.getElem?_eq_some_iff.mp hat
      exact ⟨place, by omega, hat, hpast⟩
    · rintro task hsame
      obtain rfl := Option.some.inj hsame
      exact hjob
  history := h.history

/-- An answer to a worker at a job. -/
theorem WorkerInvariant.answer {published : List MinerJob} {worker : RigWorker engine}
    (h : WorkerInvariant published worker) {task : Task engine} (htask : worker.task = some task)
    (answer : engine.Answer) :
    WorkerInvariant published
      { worker with task := some { task with answers := task.answers ++ [answer] } } where
  sound := h.sound
  placed := by
    obtain ⟨position, hplaced, hposition⟩ := h.placed
    refine ⟨position, hplaced, ?_⟩
    rintro task' hsame
    obtain rfl := Option.some.inj hsame
    exact hposition task htask
  history := h.history

/-- A worker that meets its invariant returns from its job and is idle. It meets the invariant
again: all that it has finished on the job is among its finished work, and the state it is left with
stands behind that. -/
theorem WorkerInvariant.leave (hstride : 0 < stride.toNat) {published : List MinerJob}
    {worker : RigWorker engine} (h : WorkerInvariant published worker) {task : Task engine}
    (htask : worker.task = some task) {left : engine.State}
    (hleft : (worker.grinding task).2 = some left) :
    WorkerInvariant published ⟨left, none, worker.finished⟩ where
  sound := h.sound_finished
  placed := by
    have hprevious := engine.left_previous _ _ _ _ _ hleft
    obtain ⟨position, ⟨hnone, hsome⟩, hposition⟩ := h.placed
    refine ⟨position, ⟨fun habsurd ↦ ?_, fun before hbefore ↦ ?_⟩, by simp⟩
    · rw [hprevious] at habsurd
      simp at habsurd
    · rw [hprevious] at hbefore
      obtain rfl := Option.some.inj hbefore
      refine ⟨position, le_rfl, hposition task htask, fun entry hentry ↦ ?_⟩
      unfold RigWorker.finished at hentry
      rw [htask] at hentry
      rcases List.mem_append.mp hentry with hold | hnew
      · cases hstate : engine.previous worker.state with
        | none =>
          rw [hnone hstate] at hold
          simp at hold
        | some before =>
          obtain ⟨place, hplace, -, hpast⟩ := hsome before hstate
          obtain ⟨earlier, hearlier, hat⟩ := hpast entry hold
          exact ⟨earlier, hearlier.trans hplace, hat⟩
      · obtain ⟨work, -, rfl⟩ := List.mem_map.mp hnew
        exact ⟨position, le_rfl, hposition task htask⟩
  history hconsecutive hlive := by
    obtain ⟨previous, cursor, hhistory, hreturned⟩ :=
      h.history_finished hstride hconsecutive hlive
    obtain ⟨rfl, rfl⟩ := hreturned task htask left hleft
    exact hhistory

/-- The device of an idle worker is opened again. -/
theorem WorkerInvariant.reopened {published : List MinerJob} {worker : RigWorker engine}
    (h : WorkerInvariant published worker) :
    WorkerInvariant published { worker with state := engine.reopened worker.state } where
  sound := h.sound
  placed := by
    simp only [engine.reopened_previous]
    exact h.placed
  history := by
    simp only [engine.reopened_previous, engine.reopened_cursor]
    exact h.history

/-- A worker that has not started yet. -/
theorem WorkerInvariant.initial :
    WorkerInvariant [] (⟨engine.initial, none, []⟩ : RigWorker engine) where
  sound := by simp
  placed := ⟨0, ⟨fun _ ↦ rfl, by simp [engine.initial_previous]⟩, by simp⟩
  history _ _ := by
    simp only [engine.initial_previous, engine.initial_cursor]
    exact .initial workerIndex stride

end WorkerInvariant

/-- What holds of a rig: the job in the slot is the last one published, and every worker is in
order. -/
structure RigInvariant (rig : Rig sha256d pow plan) : Prop where
  current : ∀ job, rig.current = some job → rig.published[rig.published.length - 1]? = some job
  workers : ∀ index, WorkerInvariant rig.published (rig.worker index)

theorem RigInvariant.initial : RigInvariant (Rig.initial : Rig sha256d pow plan) where
  current _ hjob := absurd hjob (by simp [Rig.initial])
  workers _ := .initial

/-- Replacing one worker by one that meets its invariant keeps the invariant of the rig. -/
theorem RigInvariant.set {rig : Rig sha256d pow plan} (h : RigInvariant rig)
    {index : Fin plan.total}
    {worker : RigWorker (plan.engine sha256d pow index)}
    (hworker : WorkerInvariant rig.published worker) : RigInvariant (rig.set index worker) where
  current := h.current
  workers other := by
    by_cases hsame : other = index
    · subst hsame
      have hself : (rig.set other worker).worker other = worker := Function.update_self ..
      rw [hself]
      exact hworker
    · have hother : (rig.set index worker).worker other = rig.worker other :=
        Function.update_of_ne hsame ..
      rw [hother]
      exact h.workers other

/-- Every event of the rig keeps its invariant. -/
theorem RigInvariant.step {rig next : Rig sha256d pow plan} {event : RigEvent sha256d pow plan}
    (hstep : rig.step event = some next) (h : RigInvariant rig) : RigInvariant next := by
  cases event with
  | publish job =>
    cases hstep
    refine ⟨fun other hother ↦ ?_, fun index ↦ (h.workers index).publish job⟩
    obtain rfl := Option.some.inj hother
    simp
  | clear =>
    cases hstep
    exact ⟨fun job hjob ↦ absurd hjob (by simp), h.workers⟩
  | take index setup =>
    simp only [Rig.step] at hstep
    split at hstep
    · rename_i job htask hcurrent
      split at hstep
      · cases hstep
        exact h.set ((h.workers index).take (h.current job hcurrent) setup)
      · cases hstep
    · cases hstep
  | answer index answer =>
    simp only [Rig.step] at hstep
    split at hstep
    · rename_i task htask
      cases hstep
      exact h.set ((h.workers index).answer htask answer)
    · cases hstep
  | leave index =>
    simp only [Rig.step] at hstep
    split at hstep
    · rename_i task htask
      split at hstep
      · rename_i left hleft
        cases hstep
        exact h.set ((h.workers index).leave (plan.stride_pos index) htask hleft)
      · cases hstep
    · cases hstep
  | reopened index =>
    simp only [Rig.step] at hstep
    split at hstep
    · cases hstep
      exact h.set (h.workers index).reopened
    · cases hstep

/-- No work of a rig is done twice. Take any run of the rig, with any workers, any order of events
and any answers to their questions, in which the search spaces of the jobs follow one another, and
with eight bytes of extranonce2 or more the counters stay clear of the top of the 64 bits. Then no
two pieces of finished work have a header in common, no header is submitted twice, and counters that
fit encode to different bytes. Two pieces of one worker are apart because its intervals ascend
within each search space, two of different workers because their counters differ modulo the number
of workers. -/
theorem Rig.never_repeats {events : List (RigEvent sha256d pow plan)} {rig : Rig sha256d pow plan}
    (hrun : run Rig.step Rig.initial events = some rig) (hconsecutive : Consecutive rig.published)
    (hcounters : ∀ entry ∈ rig.finished, 8 ≤ entry.1.extranonce2Size →
      entry.2.region.en2.toNat < 2 ^ 64 - plan.total) :
    (rig.finished.Pairwise fun entry later ↦ Disjoint entry.headers later.headers) ∧
      rig.submitted.Nodup ∧
      ∀ (size : ℕ) (first second : UInt64), en2Fits first size = true → en2Fits second size = true →
        encodeExtranonce2 first size = encodeExtranonce2 second size → first = second := by
  have hinvariant : RigInvariant rig :=
    invariant_of_run (fun _ _ _ hstep h ↦ h.step hstep) hrun .initial
  have hsound : ∀ entry ∈ rig.finished, entry.2.Sound sha256d pow entry.1 entry.1.algo := by
    intro entry hentry
    obtain ⟨index, -, hmem⟩ := List.mem_flatMap.mp hentry
    exact (hinvariant.workers index).sound_finished entry hmem
  have hlive : ∀ entry ∈ rig.finished, entry.Live (UInt64.ofNat plan.total) := by
    intro entry hentry
    have hfits := (hsound entry hentry).fits
    have htotal := plan.total_le
    unfold Entry.Live
    rw [plan.stride_eq]
    by_cases hsize : 8 ≤ entry.1.extranonce2Size
    · have hlow := hcounters entry hentry hsize
      omega
    · have hlow : entry.2.region.en2.toNat < 2 ^ (8 * entry.1.extranonce2Size) := by
        simpa [en2Fits, hsize] using hfits
      have hpow : 2 ^ (8 * entry.1.extranonce2Size) ≤ 2 ^ 56 :=
        Nat.pow_le_pow_right (by omega) (by omega)
      omega
  have hmem : ∀ {index : Fin plan.total} {entry : Entry}, entry ∈ (rig.worker index).finished →
      entry ∈ rig.finished := fun hentry ↦
    List.mem_flatMap.mpr ⟨_, List.mem_finRange _, hentry⟩
  have hhistory : ∀ index : Fin plan.total, ∃ previous cursor, History (UInt64.ofNat index)
      (UInt64.ofNat plan.total) previous cursor (rig.worker index).finished := by
    intro index
    obtain ⟨previous, cursor, hworker, -⟩ := (hinvariant.workers index).history_finished
      (plan.stride_pos index) hconsecutive fun entry hentry ↦ hlive entry (hmem hentry)
    exact ⟨previous, cursor, hworker⟩
  have hdisjoint : rig.finished.Pairwise fun entry later ↦
      Disjoint entry.headers later.headers := by
    unfold Rig.finished
    rw [List.pairwise_flatMap]
    constructor
    · intro index _
      obtain ⟨previous, cursor, hworker⟩ := hhistory index
      refine hworker.ascending.imp_of_mem fun {entry later} hentry hlater hle ↦ ?_
      exact Entry.headers_disjoint (hsound entry (hmem hentry)).fits
        (hsound later (hmem hlater)).fits
        fun hspace ↦ (hworker.inOrder entry hentry).disjoint (plan.stride_pos index)
          (hworker.inOrder later hlater) (hle hspace)
    · refine (List.nodup_finRange plan.total).imp_of_mem fun {index other} _ _ hne ↦ ?_
      intro entry hentry later hlater
      refine Entry.headers_disjoint (hsound entry (hmem hentry)).fits
        (hsound later (hmem hlater)).fits fun _ ↦ ?_
      obtain ⟨previous, cursor, hworker⟩ := hhistory index
      obtain ⟨previous', cursor', hworker'⟩ := hhistory other
      rw [Set.disjoint_left]
      rintro ⟨counter, nonce⟩ ⟨hcounter, -⟩ ⟨hcounter', -⟩
      have hbelow (place : Fin plan.total) :
          (UInt64.ofNat place).toNat < (UInt64.ofNat plan.total).toNat := by
        rw [plan.index_eq, plan.stride_eq]
        exact place.isLt
      have hmod := (hworker.inOrder entry hentry).mod_eq (hbelow index)
      have hmod' := (hworker'.inOrder later hlater).mod_eq (hbelow other)
      rw [← hcounter] at hmod
      rw [← hcounter', hmod, plan.index_eq, plan.index_eq] at hmod'
      exact hne (Fin.ext hmod')
  refine ⟨hdisjoint, ?_, fun size first second ↦ encodeExtranonce2_injective⟩
  unfold Rig.submitted
  rw [List.nodup_flatMap]
  refine ⟨fun entry hentry ↦ (Entry.submitted_spec (hsound entry hentry)).1, ?_⟩
  refine hdisjoint.imp_of_mem fun {entry later} hentry hlater hheaders ↦ ?_
  intro header hheader hheader'
  exact Set.disjoint_left.mp hheaders
    ((Entry.submitted_spec (hsound entry hentry)).2 header hheader)
    ((Entry.submitted_spec (hsound later hlater)).2 header hheader')

end Rig

/-! ### Two threads on one job -/

/-- A hash function that meets every target. -/
def lowestHash : PowFn := fun _ ↦ Vector.replicate 32 0

/-- Two CPU threads. -/
def twoThreads : RigPlan where
  total := 2
  total_le := by decide
  kind _ := .cpu

def firstThread : Fin twoThreads.total := ⟨0, by decide⟩

def secondThread : Fin twoThreads.total := ⟨1, by decide⟩

/-- Both threads take the job, the first finishes two batches and the second one. -/
def twoThreadsMine : List (RigEvent (fun _ ↦ Vector.replicate 32 0) lowestHash twoThreads) :=
  [.publish (bareJob diff1Bits diff1), .take firstThread (), .take secondThread (),
    .answer firstThread false, .answer secondThread true, .leave secondThread,
    .answer firstThread false]

theorem Consecutive.singleton (job : MinerJob) : Consecutive [job] := by
  intro first middle last first' middle' last' _ _ hfirst hmiddle _ _
  rw [List.getElem?_singleton] at hfirst hmiddle
  split_ifs at hfirst hmiddle
  rw [← Option.some.inj hfirst, ← Option.some.inj hmiddle]

/-- The rig after these events. -/
def twoThreadsRig : Rig (fun _ ↦ Vector.replicate 32 0) lowestHash twoThreads :=
  (run Rig.step Rig.initial twoThreadsMine).getD Rig.initial

/-- Two CPU threads and no card, three batches and twelve submissions: no header is searched twice
and no share submitted twice. -/
theorem twoThreadsRig_never_repeats :
    run Rig.step Rig.initial twoThreadsMine = some twoThreadsRig ∧
      twoThreadsRig.finished.length = 3 ∧ twoThreadsRig.submitted.length = 12 ∧
      (twoThreadsRig.finished.Pairwise fun entry later ↦ Disjoint entry.headers later.headers) ∧
      twoThreadsRig.submitted.Nodup := by
  have hsome : (run Rig.step Rig.initial twoThreadsMine).isSome = true := by decide +kernel
  have hpublished : twoThreadsRig.published = [bareJob diff1Bits diff1] := by decide +kernel
  have hrun : run Rig.step Rig.initial twoThreadsMine = some twoThreadsRig := by
    obtain ⟨rig, hrig⟩ := Option.isSome_iff_exists.mp hsome
    rw [twoThreadsRig, hrig, Option.getD_some]
  obtain ⟨hheaders, hsubmitted, -⟩ := Rig.never_repeats hrun
    (hpublished ▸ Consecutive.singleton _) (by decide +kernel)
  exact ⟨hrun, by decide +kernel, by decide +kernel, hheaders, hsubmitted⟩

end Bc3Miner.Mining
