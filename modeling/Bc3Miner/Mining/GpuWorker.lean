import Bc3Miner.Mining.FinishedWork
import Bc3Miner.Mining.LaunchSize
import Mathlib.Data.List.Sort

/-!
# The GPU worker

One job on a GPU (`Worker::mine_job` of `src/gpu_worker.rs`): launches queued up to the depth of the
queue, collected in order and finished, the cursor taken back where a launch fails. What the worker
does not decide comes as a list of answers, one for each question it asks: whether the generation
has changed or a window switch is wanted, how an `enqueue` went, how a `collect` went. A run whose
answers are used up is still going.

The backend is its queue of launches: `enqueue` appends to it, a `collect` that succeeds answers its
first launch, and `abandon` empties it. The lists `collected` and `finished` record, for the
launches whose `collect` succeeded and for the launches that went through `finish`, what the source
leaves in the device, in the counters and in the submit queue.

A turn of the loop is `turn`, and `pump` takes turns as long as there are answers. A turn can leave
the loop with one of the ends of `JobEnd`, or go on; what it can come to is said once in
`LaunchAccounting`.

Not modelled here: the kernel, which is `verify` and the hits that come with a `collect`, and the
texts that are printed on the way.
-/

set_option autoImplicit false
set_option relaxedAutoImplicit false

namespace Bc3Miner.Mining

open Consensus Foundations

/-! ### The worker's state -/

/-- Why a job's run ended. -/
inductive JobEnd
  | changed
  | exhausted
  | deviceGone
  deriving DecidableEq, Repr

/-- Launches in a row that may fail before the device counts as gone. -/
def maxScanErrors : ℕ := 5

/-- What one launch found: the nonces stored, how many hits the kernel counted, and how long the
device ran, where it can say. -/
structure Scan where
  hits : List UInt32
  reported : ℕ
  busy : Option ℕ
  deriving DecidableEq

/-- A launch in flight, with what its hits need to become shares. -/
structure InFlight where
  en2 : UInt64
  extranonce2 : List UInt8
  header : BlockHeader
  start : UInt32
  count : UInt32
  queued : ℕ

def InFlight.region (launch : InFlight) : Region := ⟨launch.en2, launch.start, launch.count⟩

/-- Where a launch that is given up is done again. -/
def InFlight.restart (launch : InFlight) : Cursor := ⟨launch.en2, launch.start⟩

/-- One GPU's state across jobs. -/
structure Worker where
  workerIndex : UInt64
  /-- The number of workers, at least one. -/
  stride : UInt64
  stridePos : 0 < stride.toNat
  /-- The job last mined. -/
  prev : Option MinerJob
  cursor : Cursor
  /-- Autotuned nonces per launch. -/
  batch : ℕ
  budget : HitBudget
  errors : ℕ
  /-- Launches that came back since the caller last looked. -/
  collected : ℕ
  lastCollect : Option ℕ
  saidHashing : Bool

/-- What the finish of a launch adds to the statistics and tells the tuner. -/
structure LaunchReport where
  count : UInt32
  /-- What the device found; its busy time is added to the slot's. -/
  scan : Scan
  /-- When the slot was stamped. -/
  stamp : ℕ
  warning : Option String
  /-- Window, hashes and time passed on to `Tune::launched`. -/
  tuned : Option (ℕ × ℕ × ℕ)

/-- One job on this GPU, while it runs, with the device's queue and the records of what came
back. -/
structure JobRun where
  job : MinerJob
  algo : PowAlgo
  depth : ℕ
  granule : ℕ
  minBatch : ℕ
  maxBatch : ℕ
  inflight : List InFlight
  /-- Set once no more launches may be queued for the job. -/
  ending : Option JobEnd
  header : Option En2Header
  window : ℕ
  device : List Region
  collected : List Region
  finished : List Finished
  reports : List LaunchReport

/-- An answer to the worker: whether the generation has changed or a window switch is wanted, when
an `enqueue` succeeded, what a `collect` found and when it is looked at. None is a failure. -/
inductive Answer
  | poll (moved : Bool)
  | enqueue (queued : Option ℕ)
  | collect (found : Option (Scan × ℕ))
  deriving DecidableEq

/-- How a part of the run came out: done, with the device gone, or out of answers. -/
inductive Outcome
  | done
  | gone
  | waiting
  deriving DecidableEq, Repr

/-! ### A failed launch -/

/-- A launch failed to queue or to come back: everything in flight is given up and done again from
`restart`. Gone after too many failures in a row. -/
def deviceError (worker : Worker) (run : JobRun) (restart : Cursor) : Outcome × Worker × JobRun :=
  let run := { run with device := [], inflight := [] }
  let worker := { worker with errors := worker.errors + 1, cursor := restart, lastCollect := none }
  if maxScanErrors ≤ worker.errors then (.gone, { worker with errors := 0 }, run)
  else (.done, worker, run)

section Pump

variable (sha256d : List UInt8 → Bytes32) (verify : PowFn)

/-! ### Queueing launches -/

/-- The header of the job for an extranonce2, built again only when the extranonce2 is another. -/
def headerFor (run : JobRun) (en2 : UInt64) : En2Header :=
  match run.header with
  | some header => if header.en2 = en2 then header else en2Header sha256d run.job en2
  | none => en2Header sha256d run.job en2

/-- What follows an `enqueue` of the region `taken`, whose launch started from `restart`. Where it
failed, the worker starts again from the oldest launch that is not done, or else from `restart`. -/
def enqueued (worker : Worker) (run : JobRun) (taken : Region) (header : En2Header)
    (restart : Cursor) : Option ℕ → Outcome × Worker × JobRun
  | some queued =>
    let launch : InFlight :=
      ⟨taken.en2, header.extranonce2, header.header, taken.start, taken.count, queued⟩
    (.done, worker,
      { run with inflight := run.inflight ++ [launch], device := run.device ++ [taken] })
  | none =>
    deviceError worker run ((run.inflight.head?.map InFlight.restart).getD restart)

/-- May another launch be queued? -/
def JobRun.takesMore (run : JobRun) : Bool := run.ending.isNone && run.inflight.length < run.depth

/-- Queue launches until `run.depth` are in flight, unless the job is over. -/
def topUp (worker : Worker) (run : JobRun) : List Answer → Outcome × Worker × JobRun × List Answer
  | .poll moved :: answers =>
    if !run.takesMore then (.done, worker, run, .poll moved :: answers)
    else if moved then (.done, worker, { run with ending := some .changed }, answers)
    else if !en2Fits worker.cursor.en2 run.job.extranonce2Size then
      (.done, worker, { run with ending := some .exhausted }, answers)
    else
      let most := UInt32.ofNat (max (worker.budget.chunk worker.batch) 1)
      let restart := worker.cursor
      let (taken, cursor) := worker.cursor.take most worker.stride
      let worker := { worker with cursor }
      let header := headerFor sha256d run taken.en2
      let run := { run with header := some header }
      match answers with
      | .enqueue result :: answers =>
        match enqueued worker run taken header restart result with
        | (.done, worker, run) => topUp worker run answers
        | (outcome, worker, run) => (outcome, worker, run, answers)
      | answers => (.waiting, worker, run, answers)
  | answers => (if run.takesMore then .waiting else .done, worker, run, answers)

/-! ### Finishing a launch -/

/-- The hits of a launch that are looked at: each nonce once, and none from outside the launch. The
list is sorted, so that repeated nonces stand side by side. -/
def Region.ownHits (region : Region) (hits : List UInt32) : List UInt32 :=
  (hits.insertionSort (· ≤ ·)).dedup.filter fun nonce ↦ nonce - region.start < region.count

/-- Everything a launch that came back is owed: its hits re-checked and submitted, the counters, the
launch size. -/
def finish (worker : Worker) (run : JobRun) (done : InFlight) (scan : Scan) (now : ℕ) :
    Worker × JobRun :=
  let queued := match worker.lastCollect with
    | none => done.queued
    | some last => max last done.queued
  let elapsed := scan.busy.getD (now - queued)
  let (budget, warning) := worker.budget.overflowed done.count.toNat scan.reported
  let hits := done.region.ownHits scan.hits
  let submissions := sharesOf verify run.job run.algo done.header done.extranonce2 hits
  let ratio := (Binary64.ofNat worker.batch).div (.ofNat (max done.count.toNat 1))
  let projected := scaleDuration elapsed ratio
  let batch := autotune worker.batch projected targetLaunch run.granule run.minBatch run.maxBatch
  let tuned := if run.algo = .bc3Hash ∧ run.window ≠ 0 then
    some (run.window, done.count.toNat, elapsed) else none
  ({ worker with budget, batch, lastCollect := some now, collected := worker.collected + 1,
                 saidHashing := true },
    { run with finished := run.finished ++ [⟨done.region, hits, submissions⟩]
               reports := run.reports ++ [⟨done.count, scan, now, warning, tuned⟩] })

/-! ### The launch loop -/

/-- What a turn of the launch loop comes to: the run has ended, or is out of answers; or there is
another turn. -/
inductive Turn
  | over (ended : Option JobEnd) (worker : Worker) (run : JobRun) (rest : List Answer)
  | again (worker : Worker) (run : JobRun) (rest : List Answer)

/-- The run with the oldest launch back from the device, and these still in flight. -/
def JobRun.collect (run : JobRun) (inflight : List InFlight) : JobRun :=
  { run with inflight, device := run.device.tail
             collected := run.collected ++ run.device.head?.toList }

/-- What `top_up` queues behind a running launch before the hits of the one that came back are
looked at: nothing at a depth of one. -/
def topUpBehind (worker : Worker) (run : JobRun) (answers : List Answer) :
    Outcome × Worker × JobRun × List Answer :=
  if 1 < run.depth then topUp sha256d worker run answers else (.done, worker, run, answers)

/-- One turn of the launch loop, which collects one launch. -/
def turn (worker : Worker) (run : JobRun) (answers : List Answer) : Turn :=
  match topUp sha256d worker run answers with
  | (.gone, worker, run, answers) => .over (some .deviceGone) worker run answers
  | (.waiting, worker, run, answers) => .over none worker run answers
  | (.done, worker, run, answers) =>
    match run.inflight with
    | [] => .over (some (run.ending.getD .changed)) worker run answers
    | done :: inflight =>
      match answers with
      | .collect none :: answers =>
        match deviceError worker { run with inflight } done.restart with
        | (.done, worker, run) => .again worker run answers
        | (_, worker, run) => .over (some .deviceGone) worker run answers
      | .collect (some (scan, now)) :: answers =>
        match topUpBehind sha256d { worker with errors := 0 } (run.collect inflight) answers with
        | (.gone, worker, run, answers) => .over (some .deviceGone) worker run answers
        | (.waiting, worker, run, answers) => .over none worker run answers
        | (.done, worker, run, answers) =>
          let (worker, run) := finish verify worker run done scan now
          .again worker run answers
      | answers => .over none worker { run with inflight } answers

/-- The launch loop of one job, of at most `fuel` turns. -/
def pump : ℕ → Worker → JobRun → List Answer → Option JobEnd × Worker × JobRun × List Answer
  | 0, worker, run, answers => (none, worker, run, answers)
  | fuel + 1, worker, run, answers =>
    match turn sha256d verify worker run answers with
    | .over ended worker run answers => (ended, worker, run, answers)
    | .again worker run answers => pump fuel worker run answers

/-- The run of a job as `mine_job` sets it up, and the worker it starts with. -/
def startRun (worker : Worker) (job : MinerJob) (algo : PowAlgo) (depth granule window : ℕ) :
    Worker × JobRun :=
  let cursor := startOn worker.prev job worker.workerIndex worker.cursor
  let granule := max granule 1
  let low := max minBatch granule / granule * granule
  let high := max maxBatch low
  let batch := max (max low (min high worker.batch) / granule) 1 * granule
  ({ worker with cursor, batch },
    { job, algo, depth, granule, minBatch := low, maxBatch := high, inflight := [], ending := none,
      header := none, window, device := [], collected := [], finished := [], reports := [] })

/-- Grind `job` until it changes, its extranonce2 space runs out, or the device fails. -/
def mineJob (worker : Worker) (job : MinerJob) (algo : PowAlgo) (depth granule window : ℕ)
    (answers : List Answer) : Option JobEnd × Worker × JobRun × List Answer :=
  let start := startRun worker job algo depth granule window
  match pump sha256d verify (answers.length + 1) start.1 start.2 answers with
  | (some ended, worker, run, rest) => (some ended, { worker with prev := some job }, run, rest)
  | (none, worker, run, rest) => (none, worker, run, rest)

end Pump

/-- The state of a GPU worker that has just started, `workerIndex` of `total` workers. -/
def Worker.new (workerIndex total : UInt64) : Worker where
  workerIndex := workerIndex
  stride := if total = 0 then 1 else total
  stridePos := by
    split_ifs with hzero
    · decide
    · refine Nat.pos_of_ne_zero fun h ↦ hzero ?_
      exact UInt64.toNat_inj.mp h
  prev := none
  cursor := ⟨workerIndex, 0⟩
  batch := startBatch
  budget := {}
  errors := 0
  collected := 0
  lastCollect := none
  saidHashing := false

/-- The device was opened again: nothing changes about where the card is in the search space. -/
def Worker.reopened (worker : Worker) : Worker :=
  { worker with errors := 0, saidHashing := false, lastCollect := none }

end Bc3Miner.Mining
