import Bc3Miner.Mining.GpuWorker
import Mathlib.Data.List.Dedup

/-!
# No launch is unaccounted for

The launches that a job's loop in `src/gpu_worker.rs` has collected: what was finished and then what
was lost follow each other, from the cursor the job was entered with to the one it is left with
(`pump_accounts`, whose conclusion is `PumpResult`).

`Turned` says once what a turn of the loop can come to, and every induction over the turns splits on
it. What a turn keeps of the launches in flight and of the records is said once as well, for a
`collect` that fails (`InStep.retried`) and for one that succeeds (`InStep.back`). Between the turns
the launches in flight are those on the device, and lead from the oldest one that is not done to the
worker's cursor (`InStep`); what was finished leads to that oldest one (`Accounted`). A turn that
ends early leaves at most the one launch it has just collected unfinished, and `losesLaunch` reads
off the answers whether it does.

The main lemma is `pump_accounts`, by induction over the turns. A launch is identified by its
region and the counter it is under; that its hits are among its own nonces is part of what was
collected.
-/

set_option autoImplicit false
set_option relaxedAutoImplicit false

namespace Bc3Miner.Mining

open Consensus Foundations

/-! ### What queueing launches leaves alone -/

/-- What neither queueing nor giving up launches touches: the job, the records of what came back,
and the worker's place among the workers. -/
structure SameRecords (worker : Worker) (run : JobRun) (worker' : Worker)
    (run' : JobRun) : Prop where
  job : run'.job = run.job
  algo : run'.algo = run.algo
  depth : run'.depth = run.depth
  collected : run'.collected = run.collected
  finished : run'.finished = run.finished
  reports : run'.reports = run.reports
  stride : worker'.stride = worker.stride
  workerIndex : worker'.workerIndex = worker.workerIndex

theorem SameRecords.refl (worker : Worker) (run : JobRun) : SameRecords worker run worker run :=
  ⟨rfl, rfl, rfl, rfl, rfl, rfl, rfl, rfl⟩

/-- Two stretches that change none of the records make one. -/
theorem SameRecords.trans {worker worker' worker'' : Worker} {run run' run'' : JobRun}
    (h : SameRecords worker run worker' run') (h' : SameRecords worker' run' worker'' run'') :
    SameRecords worker run worker'' run'' :=
  ⟨h'.job.trans h.job, h'.algo.trans h.algo, h'.depth.trans h.depth,
    h'.collected.trans h.collected, h'.finished.trans h.finished, h'.reports.trans h.reports,
    h'.stride.trans h.stride,
    h'.workerIndex.trans h.workerIndex⟩

/-- A launch that comes back before or after launches are queued. -/
theorem SameRecords.concat {worker worker' : Worker} {run run' : JobRun}
    (h : SameRecords worker run worker' run') (back : List Region) :
    SameRecords worker { run with collected := run.collected ++ back } worker'
      { run' with collected := run'.collected ++ back } :=
  ⟨h.job, h.algo, h.depth, congrArg (· ++ back) h.collected, h.finished, h.reports, h.stride,
    h.workerIndex⟩

/-- Giving up what is in flight: the cursor goes back, the queues are empty, and the device is gone
from the fifth failure in a row on. -/
theorem deviceError_spec (worker : Worker) (run : JobRun) (restart : Cursor) :
    ∃ outcome errors, deviceError worker run restart =
        (outcome, { worker with errors, cursor := restart, lastCollect := none },
          { run with device := [], inflight := [] }) ∧
      (outcome = .gone ∧ maxScanErrors ≤ worker.errors + 1 ∧ errors = 0 ∨
        outcome = .done ∧ worker.errors + 1 < maxScanErrors ∧ errors = worker.errors + 1) := by
  by_cases hgone : maxScanErrors ≤ worker.errors + 1
  · exact ⟨.gone, 0, if_pos hgone, Or.inl ⟨rfl, hgone, rfl⟩⟩
  · exact ⟨.done, worker.errors + 1, if_neg hgone, Or.inr ⟨rfl, not_le.mp hgone, rfl⟩⟩

section TopUp

variable (sha256d : List UInt8 → Bytes32)

/-- The launches in flight are those on the device, carry the header of their extranonce2, and lead
from the oldest launch that is not done to the cursor. -/
structure InStep (frontier : Cursor) (worker : Worker) (run : JobRun) : Prop where
  device : run.device = run.inflight.map InFlight.region
  launches : ∀ launch ∈ run.inflight, en2Fits launch.en2 run.job.extranonce2Size = true ∧
    launch.extranonce2 = encodeExtranonce2 launch.en2 run.job.extranonce2Size ∧
    launch.header = (en2Header sha256d run.job launch.en2).header
  cached : ∀ header, run.header = some header → header = en2Header sha256d run.job header.en2
  chain : Chain worker.stride frontier (run.inflight.map InFlight.region) worker.cursor

variable {sha256d}

/-- The header kept for the current counter is the one that would be built for it. -/
theorem headerFor_eq {frontier : Cursor} {worker : Worker} {run : JobRun}
    (h : InStep sha256d frontier worker run) (en2 : UInt64) :
    headerFor sha256d run en2 = en2Header sha256d run.job en2 := by
  unfold headerFor
  cases hheader : run.header with
  | none => rfl
  | some header =>
    have hcached := h.cached header hheader
    by_cases hsame : header.en2 = en2
    · simp only [hsame, if_true]
      rw [hcached, hsame]
    · simp only [hsame, if_false]

/-- The oldest launch that is not done starts where the launches in flight lead from. -/
theorem InStep.restart_eq {frontier : Cursor} {worker : Worker} {run : JobRun}
    (h : InStep sha256d frontier worker run) :
    (run.inflight.head?.map InFlight.restart).getD worker.cursor = frontier := by
  have hchain := h.chain
  cases hinflight : run.inflight with
  | nil =>
    rw [hinflight, List.map_nil, Chain.nil_iff] at hchain
    exact hchain.symm
  | cons launch rest =>
    rw [hinflight, List.map_cons, Chain.cons_iff] at hchain
    obtain ⟨⟨hen2, hnonce, -⟩, -⟩ := hchain
    exact (Cursor.mk.injEq ..).mpr ⟨hen2, hnonce⟩

/-- Let the launches in flight follow one another from the frontier to the cursor. An `enqueue` of
the next launch keeps them so, whether it is accepted, fails and leaves the cursor, or fails for the
fifth time in a row. -/
theorem InStep.enqueued {frontier : Cursor} {worker worker' : Worker} {run run' : JobRun}
    (h : InStep sha256d frontier worker run) {most : UInt32} {taken : Region} {cursor : Cursor}
    {result : Option ℕ} {outcome : Outcome}
    (hfits : en2Fits worker.cursor.en2 run.job.extranonce2Size = true)
    (htake : worker.cursor.take most worker.stride = (taken, cursor))
    (henqueued : enqueued { worker with cursor }
      { run with header := some (headerFor sha256d run taken.en2) } taken
      (headerFor sha256d run taken.en2) worker.cursor result = (outcome, worker', run')) :
    InStep sha256d frontier worker' run' ∧ SameRecords worker run worker' run' ∧
      (outcome = .gone → run'.inflight = []) := by
  obtain ⟨hstarts, hnext⟩ := worker.cursor.take_eq most worker.stride
  rw [htake] at hstarts hnext
  obtain rfl : cursor = taken.next worker.stride := hnext
  rw [headerFor_eq h taken.en2] at henqueued
  have hcached : ∀ header, some (en2Header sha256d run.job taken.en2) = some header →
      header = en2Header sha256d run.job header.en2 := by
    intro header heq
    obtain rfl := Option.some.inj heq
    rfl
  cases result with
  | some queued =>
    cases henqueued
    refine ⟨⟨?_, ?_, hcached, ?_⟩, ⟨rfl, rfl, rfl, rfl, rfl, rfl, rfl, rfl⟩, by simp⟩
    · simp [h.device, InFlight.region]
    · intro launch hlaunch
      rcases List.mem_append.mp hlaunch with hold | hnew
      · exact h.launches launch hold
      · obtain rfl := List.mem_singleton.mp hnew
        exact ⟨hstarts.1 ▸ hfits, rfl, rfl⟩
    · simp only [List.map_append, List.map_cons, List.map_nil]
      exact h.chain.concat hstarts
  | none =>
    unfold Mining.enqueued at henqueued
    simp only [h.restart_eq] at henqueued
    obtain ⟨outcome', errors, herror, -⟩ := deviceError_spec
      { worker with cursor := taken.next worker.stride }
      { run with header := some (en2Header sha256d run.job taken.en2) } frontier
    cases herror.symm.trans henqueued
    exact ⟨⟨rfl, by simp, hcached, .nil _⟩, ⟨rfl, rfl, rfl, rfl, rfl, rfl, rfl, rfl⟩, fun _ ↦ rfl⟩

/-- Queueing launches up to the depth changes none of the records, and keeps the launches in flight
in step between the frontier and the cursor, whether the device is found gone in the end or not. -/
theorem InStep.topUp {frontier : Cursor} {worker worker' : Worker} {run run' : JobRun}
    {answers rest : List Answer} {outcome : Outcome} (h : InStep sha256d frontier worker run)
    (htop : topUp sha256d worker run answers = (outcome, worker', run', rest)) :
    SameRecords worker run worker' run' ∧
      (outcome ≠ .waiting → InStep sha256d frontier worker' run') ∧
      (outcome = .gone → run'.inflight = []) ∧ (outcome = .done → run'.takesMore = false) := by
  induction worker, run, answers using topUp.induct sha256d with
  | case1 worker run moved answers hfull =>
    rw [Mining.topUp, if_pos hfull] at htop
    cases htop
    exact ⟨.refl _ _, fun _ ↦ h, by simp, fun _ ↦ by simpa using hfull⟩
  | case2 worker run answers hroom =>
    rw [Mining.topUp, if_neg hroom, if_pos rfl] at htop
    cases htop
    exact ⟨⟨rfl, rfl, rfl, rfl, rfl, rfl, rfl, rfl⟩, fun _ ↦
      ⟨h.device, h.launches, h.cached, h.chain⟩,
      by simp, fun _ ↦ rfl⟩
  | case3 worker run moved answers hroom hmoved hfits =>
    rw [Mining.topUp, if_neg hroom, if_neg hmoved, if_pos hfits] at htop
    cases htop
    exact ⟨⟨rfl, rfl, rfl, rfl, rfl, rfl, rfl, rfl⟩, fun _ ↦
      ⟨h.device, h.launches, h.cached, h.chain⟩,
      by simp, fun _ ↦ rfl⟩
  | case4 worker run moved hroom hmoved hfits most restart taken cursor htake worker₁ header run₁
      result answers worker₂ run₂ henqueued ih =>
    rw [Mining.topUp, if_neg hroom, if_neg hmoved, if_neg hfits] at htop
    simp only [most] at htake
    simp only [htake] at htop
    rw [henqueued] at htop
    obtain ⟨hstep, hrecords, -⟩ := h.enqueued (by simpa using hfits) htake henqueued
    obtain ⟨hrecords', hrest⟩ := ih hstep htop
    exact ⟨hrecords.trans hrecords', hrest⟩
  | case5 worker run moved hroom hmoved hfits most restart taken cursor htake worker₁ header run₁
      result answers outcome' worker₂ run₂ hnotDone henqueued =>
    rw [Mining.topUp, if_neg hroom, if_neg hmoved, if_neg hfits] at htop
    simp only [most] at htake
    simp only [htake] at htop
    rw [henqueued] at htop
    obtain ⟨hstep, hrecords, hgone⟩ := h.enqueued (by simpa using hfits) htake henqueued
    cases outcome' with
    | done => exact absurd rfl hnotDone
    | gone =>
      cases htop
      exact ⟨hrecords, fun _ ↦ hstep, hgone, by simp⟩
    | waiting =>
      cases htop
      exact ⟨hrecords, by simp, by simp, by simp⟩
  | case6 worker run moved hroom hmoved hfits most taken cursor htake answers hnone =>
    rw [Mining.topUp, if_neg hroom, if_neg hmoved, if_neg hfits] at htop
    simp only [most] at htake
    simp only [htake] at htop
    rcases answers with _ | ⟨_ | _ | _, _⟩
    · cases htop
      exact ⟨⟨rfl, rfl, rfl, rfl, rfl, rfl, rfl, rfl⟩, by simp, by simp, by simp⟩
    · cases htop
      exact ⟨⟨rfl, rfl, rfl, rfl, rfl, rfl, rfl, rfl⟩, by simp, by simp, by simp⟩
    · exact absurd rfl (hnone _ _)
    · cases htop
      exact ⟨⟨rfl, rfl, rfl, rfl, rfl, rfl, rfl, rfl⟩, by simp, by simp, by simp⟩
  | case7 worker run answers hnone =>
    rw [Mining.topUp] at htop
    · cases htop
      refine ⟨.refl _ _, fun _ ↦ h, ?_, ?_⟩
      · split_ifs <;> simp
      · split_ifs with hmore <;> simp [hmore]
    · exact hnone

/-- The oldest launch in flight starts where the launches in flight lead from. -/
theorem InStep.oldest {frontier : Cursor} {worker : Worker} {run : JobRun} {done : InFlight}
    {inflight : List InFlight} (h : InStep sha256d frontier worker run)
    (holdest : run.inflight = done :: inflight) :
    done.region.StartsAt frontier ∧ done.restart = frontier ∧
      en2Fits done.en2 run.job.extranonce2Size = true ∧
      done.extranonce2 = encodeExtranonce2 done.en2 run.job.extranonce2Size ∧
      done.header = (en2Header sha256d run.job done.en2).header := by
  have hchain := h.chain
  rw [holdest, List.map_cons, Chain.cons_iff] at hchain
  obtain ⟨hstarts, -⟩ := hchain
  exact ⟨hstarts, (Cursor.mk.injEq ..).mpr ⟨hstarts.1, hstarts.2.1⟩,
    h.launches done (by simp [holdest])⟩

/-- With nothing in flight, the launches have led to the cursor. -/
theorem InStep.cursor_eq {frontier : Cursor} {worker : Worker} {run : JobRun}
    (h : InStep sha256d frontier worker run) (hempty : run.inflight = []) :
    frontier = worker.cursor := by
  have hchain := h.chain
  rwa [hempty, List.map_nil, Chain.nil_iff] at hchain

/-- Once the oldest launch is back, the others lead from just past it. -/
theorem InStep.collect {frontier : Cursor} {worker : Worker} {run : JobRun} {done : InFlight}
    {inflight : List InFlight} (h : InStep sha256d frontier worker run)
    (holdest : run.inflight = done :: inflight) :
    InStep sha256d (done.region.next worker.stride) { worker with errors := 0 }
        (run.collect inflight) ∧
      SameRecords worker { run with collected := run.collected ++ [done.region] }
        { worker with errors := 0 } (run.collect inflight) := by
  have hdevice := h.device
  have hchain := h.chain
  rw [holdest, List.map_cons] at hdevice
  rw [holdest, List.map_cons, Chain.cons_iff] at hchain
  refine ⟨⟨?_, ?_, h.cached, hchain.2⟩, ⟨rfl, rfl, rfl, ?_, rfl, rfl, rfl, rfl⟩⟩
  · simp [JobRun.collect, hdevice]
  · exact fun launch hmem ↦ h.launches launch (by rw [holdest]; exact List.mem_cons_of_mem _ hmem)
  · simp [JobRun.collect, hdevice]

/-- After a failure nothing is in flight, and the launches lead on from where they start again. -/
theorem InStep.deviceError {frontier restart : Cursor} {worker worker' : Worker}
    {run run' : JobRun} {inflight : List InFlight} {outcome : Outcome}
    (h : InStep sha256d frontier worker run)
    (herror : deviceError worker { run with inflight } restart = (outcome, worker', run')) :
    InStep sha256d restart worker' run' ∧ SameRecords worker run worker' run' ∧
      worker'.cursor = restart := by
  obtain ⟨outcome', errors, hspec, -⟩ := deviceError_spec worker { run with inflight } restart
  cases hspec.symm.trans herror
  exact ⟨⟨rfl, by simp, h.cached, .nil _⟩, ⟨rfl, rfl, rfl, rfl, rfl, rfl, rfl, rfl⟩, rfl⟩

/-- A turn whose `collect` fails gives up what is in flight. The launches lead on from where the
oldest of them starts, the cursor stands there, and none of the records has changed. -/
theorem InStep.retried {frontier : Cursor} {worker worker₁ worker₂ : Worker}
    {run run₁ run₂ : JobRun} {done : InFlight} {inflight : List InFlight}
    {answers rest : List Answer} {outcome : Outcome} (h : InStep sha256d frontier worker run)
    (htop : Mining.topUp sha256d worker run answers = (.done, worker₁, run₁, rest))
    (holdest : run₁.inflight = done :: inflight)
    (herror : Mining.deviceError worker₁ { run₁ with inflight } done.restart =
      (outcome, worker₂, run₂)) :
    InStep sha256d frontier worker₂ run₂ ∧ SameRecords worker run worker₂ run₂ ∧
      worker₂.cursor = frontier := by
  obtain ⟨hrecords, hstep, -⟩ := h.topUp htop
  obtain ⟨-, hrestart, -⟩ := (hstep (by simp)).oldest holdest
  obtain ⟨hretry, hrecords₂, hcursor⟩ := (hstep (by simp)).deviceError herror
  rw [hrestart] at hretry hcursor
  exact ⟨hretry, hrecords.trans hrecords₂, hcursor⟩

/-! ### The answers that queueing launches reads -/

/-- Answers of the kind that queueing launches asks for. -/
def Answer.IsQueueing : Answer → Prop
  | .poll _ | .enqueue _ => True
  | .collect _ => False

/-- The `enqueue`s among the answers that failed. -/
def failedEnqueues : List Answer → ℕ
  | [] => 0
  | .enqueue none :: answers => failedEnqueues answers + 1
  | _ :: answers => failedEnqueues answers

/-- The failed enqueues of a list of answers are counted one answer after the other. -/
theorem failedEnqueues_cons (answer : Answer) (answers : List Answer) :
    failedEnqueues (answer :: answers) = failedEnqueues [answer] + failedEnqueues answers := by
  cases answer with
  | poll moved => simp [failedEnqueues]
  | collect found => simp [failedEnqueues]
  | enqueue result => cases result <;> simp [failedEnqueues, Nat.add_comm]

/-- With fewer errors than the limit so far: an `enqueue` that is accepted counts none, one that
fails counts one more, and the device is gone exactly when that reaches the limit of five. -/
theorem enqueued_errors {worker worker' : Worker} {run run' : JobRun} {taken : Region}
    {header : En2Header} {restart : Cursor} {result : Option ℕ} {outcome : Outcome}
    (hbelow : worker.errors < maxScanErrors)
    (henqueued : enqueued worker run taken header restart result = (outcome, worker', run')) :
    (outcome = .done ∧ worker'.errors = worker.errors + failedEnqueues [.enqueue result] ∧
        worker'.errors < maxScanErrors) ∨
      (outcome = .gone ∧ maxScanErrors ≤ worker.errors + failedEnqueues [.enqueue result]) := by
  cases result with
  | some queued =>
    cases henqueued
    exact Or.inl ⟨rfl, rfl, hbelow⟩
  | none =>
    obtain ⟨outcome', errors, herror, hcases⟩ := deviceError_spec worker run
      ((run.inflight.head?.map InFlight.restart).getD restart)
    cases herror.symm.trans henqueued
    rcases hcases with ⟨rfl, hfive, -⟩ | ⟨rfl, hlow, rfl⟩
    · exact Or.inr ⟨rfl, hfive⟩
    · exact Or.inl ⟨rfl, rfl, hlow⟩

/-- Queueing launches uses up answers to polls and `enqueue`s only. With fewer errors than the limit
before it, the errors after it count those before and the `enqueue`s that failed, and the device is
gone exactly when they reach five. -/
theorem topUp_answers {worker worker' : Worker} {run run' : JobRun} {answers rest : List Answer}
    {outcome : Outcome}
    (htop : topUp sha256d worker run answers = (outcome, worker', run', rest)) :
    ∃ used, answers = used ++ rest ∧ (∀ answer ∈ used, answer.IsQueueing) ∧
      (worker.errors < maxScanErrors →
        (outcome = .gone → maxScanErrors ≤ worker.errors + failedEnqueues used) ∧
          (outcome = .done → worker.errors + failedEnqueues used < maxScanErrors)) := by
  induction worker, run, answers using topUp.induct sha256d with
  | case1 worker run moved answers hfull =>
    rw [topUp, if_pos hfull] at htop
    cases htop
    exact ⟨[], rfl, by simp, fun hbelow ↦ ⟨by simp, fun _ ↦ hbelow⟩⟩
  | case2 worker run answers hroom =>
    rw [topUp, if_neg hroom, if_pos rfl] at htop
    cases htop
    exact ⟨[.poll true], rfl, by simp [Answer.IsQueueing], fun hbelow ↦ ⟨by simp, fun _ ↦ hbelow⟩⟩
  | case3 worker run moved answers hroom hmoved hfits =>
    rw [topUp, if_neg hroom, if_neg hmoved, if_pos hfits] at htop
    cases htop
    exact ⟨[.poll moved], rfl, by simp [Answer.IsQueueing], fun hbelow ↦ ⟨by simp, fun _ ↦ hbelow⟩⟩
  | case4 worker run moved hroom hmoved hfits most restart taken cursor htake worker₁ header run₁
      result answers worker₂ run₂ henqueued ih =>
    rw [topUp, if_neg hroom, if_neg hmoved, if_neg hfits] at htop
    simp only [most] at htake
    simp only [htake] at htop
    rw [henqueued] at htop
    obtain ⟨used, hused, hkinds, herrors⟩ := ih htop
    refine ⟨.poll moved :: .enqueue result :: used, by rw [hused]; rfl, ?_, ?_⟩
    · simp only [List.forall_mem_cons]
      exact ⟨trivial, trivial, hkinds⟩
    · intro hbelow
      have hcount : worker.errors + failedEnqueues (.poll moved :: .enqueue result :: used) =
          worker.errors + failedEnqueues [.enqueue result] + failedEnqueues used := by
        rw [failedEnqueues, failedEnqueues_cons (.enqueue result), Nat.add_assoc]
        exact nofun
      rw [hcount]
      rcases enqueued_errors (by exact hbelow) henqueued with ⟨-, hsum, hlow⟩ | ⟨hgone, -⟩
      · exact hsum ▸ herrors hlow
      · exact absurd hgone (by simp)
  | case5 worker run moved hroom hmoved hfits most restart taken cursor htake worker₁ header run₁
      result answers outcome' worker₂ run₂ hnotDone henqueued =>
    rw [topUp, if_neg hroom, if_neg hmoved, if_neg hfits] at htop
    simp only [most] at htake
    simp only [htake] at htop
    rw [henqueued] at htop
    cases outcome' with
    | done => exact absurd rfl hnotDone
    | gone =>
      cases htop
      refine ⟨[.poll moved, .enqueue result], rfl, by simp [Answer.IsQueueing], fun hbelow ↦ ?_⟩
      rcases enqueued_errors (by exact hbelow) henqueued with ⟨hdone, -⟩ | ⟨-, hfive⟩
      · exact absurd hdone (by simp)
      · exact ⟨fun _ ↦ hfive, by simp⟩
    | waiting =>
      cases htop
      exact ⟨[.poll moved, .enqueue result], rfl, by simp [Answer.IsQueueing], by simp⟩
  | case6 worker run moved hroom hmoved hfits most taken cursor htake answers hnone =>
    rw [topUp, if_neg hroom, if_neg hmoved, if_neg hfits] at htop
    simp only [most] at htake
    simp only [htake] at htop
    rcases answers with _ | ⟨_ | _ | _, _⟩
    · cases htop
      exact ⟨[.poll moved], rfl, by simp [Answer.IsQueueing], by simp⟩
    · cases htop
      exact ⟨[.poll moved], rfl, by simp [Answer.IsQueueing], by simp⟩
    · exact absurd rfl (hnone _ _)
    · cases htop
      exact ⟨[.poll moved], rfl, by simp [Answer.IsQueueing], by simp⟩
  | case7 worker run answers hnone =>
    rw [topUp] at htop
    · cases htop
      refine ⟨[], rfl, by simp, fun hbelow ↦ ⟨?_, fun _ ↦ hbelow⟩⟩
      split_ifs <;> simp
    · exact hnone

theorem topUp_of_full {worker : Worker} {run : JobRun} (hfull : run.takesMore = false)
    (answers : List Answer) : topUp sha256d worker run answers = (.done, worker, run, answers) := by
  rcases answers with _ | ⟨_ | _ | _, _⟩ <;> simp [topUp, hfull]

end TopUp

/-! ### Which answers lose a launch -/

/-- Do five `enqueue`s fail between a `collect` that succeeded and the next `collect`? The first
argument counts the failures since the last `collect`, if that one succeeded. -/
def losesLaunch : Option ℕ → List Answer → Bool
  | _, [] => false
  | failures, .poll _ :: answers => losesLaunch failures answers
  | failures, .enqueue (some _) :: answers => losesLaunch failures answers
  | none, .enqueue none :: answers => losesLaunch none answers
  | some failures, .enqueue none :: answers =>
    decide (maxScanErrors ≤ failures + 1) || losesLaunch (some (failures + 1)) answers
  | _, .collect none :: answers => losesLaunch none answers
  | _, .collect (some _) :: answers => losesLaunch (some 0) answers

/-- While no collect has succeeded, answers to polls and enqueues lose no launch. -/
theorem losesLaunch_none_append {used : List Answer} (hkinds : ∀ answer ∈ used, answer.IsQueueing)
    (rest : List Answer) : losesLaunch none (used ++ rest) = losesLaunch none rest := by
  induction used with
  | nil => rfl
  | cons answer used ih =>
    obtain ⟨hkind, hused⟩ := List.forall_mem_cons.mp hkinds
    rcases answer with _ | (_ | _) | _
    · exact ih hused
    · exact ih hused
    · exact ih hused
    · exact hkind.elim

/-- After a collect that succeeded the failed enqueues are counted: below the limit the count goes
on, and at the limit the collected launch is lost. -/
theorem losesLaunch_some_append {used : List Answer} (hkinds : ∀ answer ∈ used, answer.IsQueueing)
    (rest : List Answer) (failures : ℕ) :
    (failures + failedEnqueues used < maxScanErrors →
      losesLaunch (some failures) (used ++ rest) =
        losesLaunch (some (failures + failedEnqueues used)) rest) ∧
    (failures < maxScanErrors → maxScanErrors ≤ failures + failedEnqueues used →
      losesLaunch (some failures) (used ++ rest) = true) := by
  induction used generalizing failures with
  | nil =>
    refine ⟨fun _ ↦ rfl, fun hlow hfive ↦ ?_⟩
    change _ ≤ failures + 0 at hfive
    omega
  | cons answer used ih =>
    obtain ⟨hkind, hused⟩ := List.forall_mem_cons.mp hkinds
    rcases answer with _ | (_ | _) | _
    · exact ih hused failures
    · have hshift : failures + failedEnqueues (.enqueue none :: used) =
          failures + 1 + failedEnqueues used := by
        change failures + (failedEnqueues used + 1) = _
        omega
      rw [hshift]
      obtain ⟨hlow, hfive⟩ := ih hused (failures + 1)
      simp only [List.cons_append, losesLaunch, Bool.or_eq_true, decide_eq_true_eq]
      constructor
      · intro hsum
        rw [decide_eq_false (by omega), Bool.false_or]
        exact hlow hsum
      · intro _ hsum
        by_cases hnow : maxScanErrors ≤ failures + 1
        · exact Or.inl hnow
        · exact Or.inr (hfive (not_le.mp hnow) hsum)
    · exact ih hused failures
    · exact hkind.elim

/-! ### The launch loop -/

section Pump

variable (sha256d : List UInt8 → Bytes32) (verify : PowFn)

/-- The ways a turn of the launch loop can go, each with what it comes to: the device is gone, or
there is no answer, while launches are queued; nothing is left in flight; a `collect` is not
answered; it fails; it succeeds, and the launch behind is queued or not. -/
inductive Turned (worker : Worker) (run : JobRun) (answers : List Answer) : Turn → Prop
  | queueing {worker₁ : Worker} {run₁ : JobRun} {rest : List Answer}
      (top : topUp sha256d worker run answers = (.waiting, worker₁, run₁, rest)) :
      Turned worker run answers (.over none worker₁ run₁ rest)
  | goneQueueing {worker₁ : Worker} {run₁ : JobRun} {rest : List Answer}
      (top : topUp sha256d worker run answers = (.gone, worker₁, run₁, rest)) :
      Turned worker run answers (.over (some .deviceGone) worker₁ run₁ rest)
  | idle {worker₁ : Worker} {run₁ : JobRun} {rest : List Answer}
      (top : topUp sha256d worker run answers = (.done, worker₁, run₁, rest))
      (empty : run₁.inflight = []) :
      Turned worker run answers (.over (some (run₁.ending.getD .changed)) worker₁ run₁ rest)
  | collecting {worker₁ : Worker} {run₁ : JobRun} {rest : List Answer}
      {inflight : List InFlight}
      (top : topUp sha256d worker run answers = (.done, worker₁, run₁, rest))
      (unanswered : ∀ found later, rest ≠ .collect found :: later) :
      Turned worker run answers (.over none worker₁ { run₁ with inflight } rest)
  | failed {worker₁ worker₂ : Worker} {run₁ run₂ : JobRun} {done : InFlight}
      {inflight : List InFlight} {rest : List Answer}
      (top : topUp sha256d worker run answers = (.done, worker₁, run₁, .collect none :: rest))
      (oldest : run₁.inflight = done :: inflight)
      (error : deviceError worker₁ { run₁ with inflight } done.restart =
        (.done, worker₂, run₂)) :
      Turned worker run answers (.again worker₂ run₂ rest)
  | goneFailed {worker₁ worker₂ : Worker} {run₁ run₂ : JobRun} {done : InFlight}
      {inflight : List InFlight} {rest : List Answer} {outcome : Outcome}
      (top : topUp sha256d worker run answers = (.done, worker₁, run₁, .collect none :: rest))
      (oldest : run₁.inflight = done :: inflight)
      (error : deviceError worker₁ { run₁ with inflight } done.restart =
        (outcome, worker₂, run₂)) :
      Turned worker run answers (.over (some .deviceGone) worker₂ run₂ rest)
  | queueingBehind {worker₁ worker₂ : Worker} {run₁ run₂ : JobRun} {done : InFlight}
      {inflight : List InFlight} {answers₁ rest : List Answer} {found : Scan × ℕ}
      (top : topUp sha256d worker run answers =
        (.done, worker₁, run₁, .collect (some found) :: answers₁))
      (oldest : run₁.inflight = done :: inflight)
      (behind : topUpBehind sha256d { worker₁ with errors := 0 } (run₁.collect inflight) answers₁ =
        (.waiting, worker₂, run₂, rest)) :
      Turned worker run answers (.over none worker₂ run₂ rest)
  | goneBehind {worker₁ worker₂ : Worker} {run₁ run₂ : JobRun} {done : InFlight}
      {inflight : List InFlight} {answers₁ rest : List Answer} {found : Scan × ℕ}
      (top : topUp sha256d worker run answers =
        (.done, worker₁, run₁, .collect (some found) :: answers₁))
      (oldest : run₁.inflight = done :: inflight)
      (behind : topUpBehind sha256d { worker₁ with errors := 0 } (run₁.collect inflight) answers₁ =
        (.gone, worker₂, run₂, rest)) :
      Turned worker run answers (.over (some .deviceGone) worker₂ run₂ rest)
  | finished {worker₁ worker₂ : Worker} {run₁ run₂ : JobRun} {done : InFlight}
      {inflight : List InFlight} {answers₁ rest : List Answer} {scan : Scan} {now : ℕ}
      (top : topUp sha256d worker run answers =
        (.done, worker₁, run₁, .collect (some (scan, now)) :: answers₁))
      (oldest : run₁.inflight = done :: inflight)
      (behind : topUpBehind sha256d { worker₁ with errors := 0 } (run₁.collect inflight) answers₁ =
        (.done, worker₂, run₂, rest)) :
      Turned worker run answers (.again (finish verify worker₂ run₂ done scan now).1
        (finish verify worker₂ run₂ done scan now).2 rest)

/-- A turn goes one of these ways. -/
theorem turned (worker : Worker) (run : JobRun) (answers : List Answer) :
    Turned sha256d verify worker run answers (turn sha256d verify worker run answers) := by
  rcases htop : topUp sha256d worker run answers with ⟨_ | _ | _, worker₁, run₁, answers₁⟩
  · cases hinflight : run₁.inflight with
    | nil =>
      simp only [turn, htop, hinflight]
      exact .idle htop hinflight
    | cons done inflight =>
      rcases answers₁ with _ | ⟨_ | _ | (_ | ⟨scan, now⟩), answers₂⟩
      · simp only [turn, htop, hinflight]
        exact .collecting htop (by simp)
      · simp only [turn, htop, hinflight]
        exact .collecting htop (by simp)
      · simp only [turn, htop, hinflight]
        exact .collecting htop (by simp)
      · rcases herror : deviceError worker₁ { run₁ with inflight } done.restart with
          ⟨_ | _ | _, worker₂, run₂⟩ <;> simp only [turn, htop, hinflight, herror]
        · exact .failed htop hinflight herror
        · exact .goneFailed htop hinflight herror
        · exact .goneFailed htop hinflight herror
      · rcases hbehind : topUpBehind sha256d { worker₁ with errors := 0 } (run₁.collect inflight)
          answers₂ with ⟨_ | _ | _, worker₂, run₂, answers₃⟩ <;>
          simp only [turn, htop, hinflight, hbehind]
        · exact .finished htop hinflight hbehind
        · exact .goneBehind htop hinflight hbehind
        · exact .queueingBehind htop hinflight hbehind
  · simp only [turn, htop]
    exact .goneQueueing htop
  · simp only [turn, htop]
    exact .queueing htop

/-- What has come back of a job: it was finished, from the cursor the job was entered with to the
oldest launch that is not done, and nothing else was collected. -/
structure Accounted (entry frontier : Cursor) (worker : Worker) (run : JobRun) : Prop where
  chain : Chain worker.stride entry (run.finished.map Finished.region) frontier
  collected : run.collected = run.finished.map Finished.region
  sound : ∀ work ∈ run.finished, work.Sound sha256d verify run.job run.algo
  scans : List.Forall₂ (fun work report ↦ work.looked = work.region.ownHits report.scan.hits)
    run.finished run.reports

variable {sha256d verify}

/-- The hits that are looked at are those among the nonces of the launch. -/
theorem mem_ownHits {region : Region} (hvalid : region.Valid) {hits : List UInt32}
    {nonce : UInt32} : nonce ∈ region.ownHits hits ↔ nonce ∈ hits ∧ region.Contains nonce := by
  have hle := hvalid.2
  have hnonce := nonce.toNat_lt
  have hrange : nonce - region.start < region.count ↔ region.Contains nonce := by
    unfold Region.Contains
    rw [UInt32.lt_iff_toNat_lt, UInt32.toNat_sub]
    omega
  simp only [Region.ownHits, List.mem_filter, List.mem_dedup, List.mem_insertionSort,
    decide_eq_true_eq, hrange]

theorem nodup_ownHits (region : Region) (hits : List UInt32) : (region.ownHits hits).Nodup :=
  (List.nodup_dedup _).filter _

variable (verify) in
/-- What `finish` does to the records and leaves alone. -/
theorem finish_spec (worker : Worker) (run : JobRun) (done : InFlight) (scan : Scan) (now : ℕ) :
    ∃ batch budget report, report.scan = scan ∧ finish verify worker run done scan now =
      ({ worker with batch, budget, lastCollect := some now, collected := worker.collected + 1,
                     saidHashing := true },
        { run with finished := run.finished ++ [⟨done.region, done.region.ownHits scan.hits,
            sharesOf verify run.job run.algo done.header done.extranonce2
              (done.region.ownHits scan.hits)⟩]
                   reports := run.reports ++ [report] }) :=
  ⟨_, _, ⟨_, scan, _, _, _⟩, rfl, rfl⟩

variable (verify) in
/-- Finishing a launch leaves those in flight in step. -/
theorem InStep.finish {frontier : Cursor} {worker : Worker} {run : JobRun}
    (h : InStep sha256d frontier worker run) (done : InFlight) (scan : Scan) (now : ℕ) :
    InStep sha256d frontier (finish verify worker run done scan now).1
      (finish verify worker run done scan now).2 := by
  obtain ⟨batch, budget, report, -, hfinish⟩ := finish_spec verify worker run done scan now
  rw [hfinish]
  exact ⟨h.device, h.launches, h.cached, h.chain⟩

/-- Let a run account for everything from its entry to the frontier, and the oldest launch start
there. Finishing it, with whatever its scan reports, keeps the account, with the frontier at the
point just past that launch. -/
theorem Accounted.finish {entry frontier : Cursor} {worker worker₁ : Worker} {run run₁ : JobRun}
    {done : InFlight} (h : Accounted sha256d verify entry frontier worker run) (scan : Scan)
    (now : ℕ)
    (hrecords : SameRecords worker { run with collected := run.collected ++ [done.region] }
      worker₁ run₁)
    (hstarts : done.region.StartsAt frontier)
    (hlaunch : en2Fits done.en2 run.job.extranonce2Size = true ∧
      done.extranonce2 = encodeExtranonce2 done.en2 run.job.extranonce2Size ∧
      done.header = (en2Header sha256d run.job done.en2).header)
    (hstep : InStep sha256d (done.region.next worker.stride) worker₁ run₁) :
    let after := finish verify worker₁ run₁ done scan now
    InStep sha256d (done.region.next worker.stride) after.1 after.2 ∧
      Accounted sha256d verify entry (done.region.next worker.stride) after.1 after.2 := by
  refine ⟨hstep.finish verify done scan now, ?_⟩
  obtain ⟨batch, budget, report, hreport, hfinish⟩ :=
    finish_spec verify worker₁ run₁ done scan now
  rw [hfinish]
  refine ⟨?_, ?_, ?_, ?_⟩
  · simp only [hrecords.stride, hrecords.finished, List.map_append, List.map_cons, List.map_nil]
    exact h.chain.concat hstarts
  · simp only [hrecords.collected, hrecords.finished, h.collected, List.map_append, List.map_cons,
      List.map_nil]
  · intro work hwork
    simp only [hrecords.finished, hrecords.job, hrecords.algo, List.mem_append,
      List.mem_singleton] at hwork ⊢
    rcases hwork with hold | rfl
    · exact h.sound work hold
    · refine ⟨hlaunch.1, nodup_ownHits _ _, fun nonce hnonce ↦ ?_, ?_⟩
      · exact ((mem_ownHits hstarts.2.2).mp hnonce).2
      · rw [hlaunch.2.1, hlaunch.2.2]
        rfl
  · simp only [hrecords.finished, hrecords.reports]
    exact List.rel_append h.scans (.cons (by rw [hreport]) .nil)

/-- What leaves the records alone leaves the account alone. -/
theorem Accounted.of_sameRecords {entry frontier : Cursor} {worker worker' : Worker}
    {run run' : JobRun} (h : Accounted sha256d verify entry frontier worker run)
    (hrecords : SameRecords worker run worker' run') :
    Accounted sha256d verify entry frontier worker' run' where
  chain := by
    rw [hrecords.stride, hrecords.finished]
    exact h.chain
  collected := by
    rw [hrecords.collected, hrecords.finished]
    exact h.collected
  sound := by
    rw [hrecords.finished, hrecords.job, hrecords.algo]
    exact h.sound
  scans := by
    rw [hrecords.finished, hrecords.reports]
    exact h.scans

/-- How the launch loop leaves a job: what was finished and then the lost launches lead from the
cursor the job was entered with to where the loop is left. -/
structure PumpResult (sha256d : List UInt8 → Bytes32) (verify : PowFn) (entry : Cursor)
    (worker : Worker) (run : JobRun) (failures : Option ℕ) (answers : List Answer)
    (ended : Option JobEnd) (worker' : Worker) (run' : JobRun) (rest : List Answer)
    (lost : List Region) (last : Cursor) : Prop where
  chain : Chain worker.stride entry (run'.finished.map Finished.region ++ lost) last
  sound : ∀ work ∈ run'.finished, work.Sound sha256d verify run.job run.algo
  scans : List.Forall₂ (fun work report ↦ work.looked = work.region.ownHits report.scan.hits)
    run'.finished run'.reports
  stride : worker'.stride = worker.stride
  workerIndex : worker'.workerIndex = worker.workerIndex
  count : run'.finished.length + rest.length ≤ run.finished.length + answers.length
  cursor : ended.isSome → last = worker'.cursor
  collected : ended.isSome → run'.collected = run'.finished.map Finished.region ++ lost
  lost_iff : ended.isSome → rest = [] →
    (lost ≠ [] ↔ 1 < run.depth ∧ losesLaunch failures answers = true)

/-- If one turn of the loop keeps the account and changes no record behind the back of it, then what
the rest of the loop leads to from there, with the launches lost and where it left off, the whole
loop leads to. -/
theorem PumpResult.of_step {entry : Cursor} {worker worker₁ worker' : Worker}
    {run run₁ run' : JobRun} {failures failures₁ : Option ℕ} {answers answers₁ rest : List Answer}
    {ended : Option JobEnd} {lost : List Region} {last : Cursor}
    (h : PumpResult sha256d verify entry worker₁ run₁ failures₁ answers₁ ended worker'
      run' rest lost
      last)
    (hstride : worker₁.stride = worker.stride) (hindex : worker₁.workerIndex = worker.workerIndex)
    (hjob : run₁.job = run.job) (halgo : run₁.algo = run.algo) (hdepth : run₁.depth = run.depth)
    (hcount : run₁.finished.length + answers₁.length ≤ run.finished.length + answers.length)
    (hloses : 1 < run.depth → losesLaunch failures₁ answers₁ = losesLaunch failures answers) :
    PumpResult sha256d verify entry worker run failures answers ended worker' run' rest lost
      last where
  chain := hstride ▸ h.chain
  sound := hjob ▸ halgo ▸ h.sound
  scans := h.scans
  stride := h.stride.trans hstride
  workerIndex := h.workerIndex.trans hindex
  count := h.count.trans hcount
  cursor := h.cursor
  collected := h.collected
  lost_iff := by
    intro hended hrest
    rw [h.lost_iff hended hrest, hdepth]
    exact and_congr_right fun hdeep ↦ by rw [hloses hdeep]

/-- A loop that is left right after a collect accounts for everything: the launches finished reach
up to the frontier, and those that were collected and not finished from there to the point where it
left off. -/
theorem Accounted.leave {entry frontier last : Cursor} {worker worker' : Worker} {run run' : JobRun}
    {failures : Option ℕ} {answers rest : List Answer} {ended : Option JobEnd} {lost : List Region}
    (h : Accounted sha256d verify entry frontier worker run)
    (hlost : Chain worker.stride frontier lost last)
    (hrecords : SameRecords worker { run with collected := run.collected ++ lost } worker' run')
    (hcount : rest.length ≤ answers.length) (hcursor : ended.isSome → last = worker'.cursor)
    (hloses : ended.isSome → rest = [] →
      (lost ≠ [] ↔ 1 < run.depth ∧ losesLaunch failures answers = true)) :
    PumpResult sha256d verify entry worker run failures answers ended worker' run' rest lost
      last where
  chain := by
    rw [hrecords.finished]
    exact h.chain.append hlost
  sound := by
    rw [hrecords.finished]
    exact h.sound
  scans := by
    rw [hrecords.finished, hrecords.reports]
    exact h.scans
  stride := hrecords.stride
  workerIndex := hrecords.workerIndex
  count := by
    rw [hrecords.finished]
    exact Nat.add_le_add_left hcount _
  cursor := hcursor
  collected := by
    intro _
    rw [hrecords.collected, hrecords.finished]
    exact congrArg (· ++ lost) h.collected
  lost_iff := hloses

/-- A loop that is left with every collected launch finished has lost nothing. -/
theorem Accounted.stop {entry frontier : Cursor} {worker worker' : Worker} {run run' : JobRun}
    {failures : Option ℕ} {answers rest : List Answer} {ended : Option JobEnd}
    (h : Accounted sha256d verify entry frontier worker run)
    (hrecords : SameRecords worker run worker' run')
    (hcount : rest.length ≤ answers.length) (hcursor : ended.isSome → frontier = worker'.cursor)
    (hloses : rest = [] → losesLaunch failures answers = false) :
    PumpResult sha256d verify entry worker run failures answers ended worker' run' rest []
      frontier := by
  refine h.leave (.nil _) ⟨hrecords.job, hrecords.algo, hrecords.depth, ?_, hrecords.finished,
    hrecords.reports, hrecords.stride, hrecords.workerIndex⟩ hcount hcursor
    fun _ hrest ↦ by simp [hloses hrest]
  rw [hrecords.collected]
  exact (List.append_nil _).symm

/-- The answers that are read while launches are queued say nothing about a loss, unless a `collect`
has succeeded and the queue has had room since. -/
theorem losesLaunch_topUp {worker worker' : Worker} {run run' : JobRun}
    {answers rest : List Answer} {outcome : Outcome} {failures : Option ℕ}
    (hfailures : failures = none ∨ run.takesMore = false)
    (htop : topUp sha256d worker run answers = (outcome, worker', run', rest)) :
    losesLaunch failures answers = losesLaunch failures rest := by
  rcases hfailures with rfl | hfull
  · obtain ⟨used, rfl, hkinds, -⟩ := topUp_answers htop
    exact losesLaunch_none_append hkinds rest
  · rw [topUp_of_full hfull] at htop
    cases htop
    rfl

/-- Behind a launch that is back, queueing keeps the launches in step. It is where the device can go
and take the launch along, and then the answers say so; otherwise they say as much about the rest as
before. -/
theorem InStep.topUpBehind {frontier : Cursor} {worker worker' : Worker} {run run' : JobRun}
    {answers rest : List Answer} {outcome : Outcome} (h : InStep sha256d frontier worker run)
    (herrors : worker.errors = 0)
    (hbehind : topUpBehind sha256d worker run answers = (outcome, worker', run', rest)) :
    SameRecords worker run worker' run' ∧
      (outcome ≠ .waiting → InStep sha256d frontier worker' run') ∧
      rest.length ≤ answers.length ∧
      (outcome = .gone →
        run'.inflight = [] ∧ 1 < run.depth ∧ losesLaunch (some 0) answers = true) ∧
      (outcome = .done → ∃ failures, (failures = none ∨ run'.takesMore = false) ∧
        (1 < run.depth → losesLaunch failures rest = losesLaunch (some 0) answers)) := by
  unfold Mining.topUpBehind at hbehind
  by_cases hdeep : 1 < run.depth
  · rw [if_pos hdeep] at hbehind
    obtain ⟨hrecords, hstep, hempty, hfull⟩ := h.topUp hbehind
    obtain ⟨used, rfl, hkinds, hcount⟩ := topUp_answers hbehind
    obtain ⟨hfive, hfour⟩ := hcount (by rw [herrors]; decide)
    rw [herrors] at hfive hfour
    obtain ⟨hlow, hlost⟩ := losesLaunch_some_append hkinds rest 0
    refine ⟨hrecords, hstep, by simp, fun hgone ↦ ?_, fun hdone ↦ ?_⟩
    · exact ⟨hempty hgone, hdeep, hlost (by decide) (hfive hgone)⟩
    · exact ⟨_, Or.inr (hfull hdone), fun _ ↦ (hlow (hfour hdone)).symm⟩
  · rw [if_neg hdeep] at hbehind
    cases hbehind
    exact ⟨.refl _ _, fun _ ↦ h, le_rfl, by simp, fun _ ↦ ⟨none, Or.inl rfl,
      fun hless ↦ absurd hless hdeep⟩⟩

variable (sha256d) in
/-- What a turn has come to whose `collect` succeeded, once the launch behind was queued or was not.
The launch that is back starts at the frontier, the records have it and nothing else besides, and
the launches in flight lead on from just past it. If the device went, it took the launch along. -/
structure Back (frontier : Cursor) (worker : Worker) (run : JobRun) (answers : List Answer)
    (done : InFlight) (behind : List Answer) (outcome : Outcome) (worker' : Worker) (run' : JobRun)
    (rest : List Answer) : Prop where
  starts : done.region.StartsAt frontier
  launch : en2Fits done.en2 run.job.extranonce2Size = true ∧
    done.extranonce2 = encodeExtranonce2 done.en2 run.job.extranonce2Size ∧
    done.header = (en2Header sha256d run.job done.en2).header
  records : SameRecords worker { run with collected := run.collected ++ [done.region] } worker' run'
  step : outcome ≠ .waiting → InStep sha256d (done.region.next worker.stride) worker' run'
  count : rest.length + 1 ≤ answers.length
  gone : outcome = .gone →
    run'.inflight = [] ∧ 1 < run.depth ∧ losesLaunch (some 0) behind = true
  queued : outcome = .done → ∃ failures, (failures = none ∨ run'.takesMore = false) ∧
    (1 < run.depth → losesLaunch failures rest = losesLaunch (some 0) behind)

/-- A turn whose `collect` succeeds, from launches in step, has come to that. -/
theorem InStep.back {frontier : Cursor} {worker worker₁ worker₂ : Worker} {run run₁ run₂ : JobRun}
    {done : InFlight} {inflight : List InFlight} {answers answers₁ rest : List Answer}
    {found : Scan × ℕ} {outcome : Outcome} (h : InStep sha256d frontier worker run)
    (htop : Mining.topUp sha256d worker run answers =
      (.done, worker₁, run₁, .collect (some found) :: answers₁))
    (holdest : run₁.inflight = done :: inflight)
    (hbehind : Mining.topUpBehind sha256d { worker₁ with errors := 0 } (run₁.collect inflight)
      answers₁ = (outcome, worker₂, run₂, rest)) :
    Back sha256d frontier worker run answers done answers₁ outcome worker₂ run₂ rest := by
  obtain ⟨hrecords, hstep, -⟩ := h.topUp htop
  obtain ⟨used, hused, -⟩ := topUp_answers htop
  obtain ⟨hstarts, -, hlaunch⟩ := (hstep (by simp)).oldest holdest
  obtain ⟨hback, hrecords₁⟩ := (hstep (by simp)).collect holdest
  obtain ⟨hrecords₂, hstep₂, hcount, hgone, hdone⟩ := hback.topUpBehind rfl hbehind
  have hdepth : (run₁.collect inflight).depth = run.depth := hrecords.depth
  rw [hrecords.job] at hlaunch
  rw [hrecords.stride] at hstep₂
  rw [hdepth] at hgone hdone
  refine ⟨hstarts, hlaunch, (hrecords.concat _).trans (hrecords₁.trans hrecords₂), hstep₂, ?_,
    hgone, hdone⟩
  rw [hused, List.length_append, List.length_cons]
  omega

/-- The launch loop accounts for every launch, but for at most one that was collected and lost. It
is lost exactly when the device failed for the fifth time while the launch behind it was being
queued. By induction over the turns, each of which is one of `Turned`: a turn first queues launches,
whichever way it goes on, and a launch whose `collect` failed is done again from where it starts. -/
theorem pump_accounts {entry frontier : Cursor} {failures : Option ℕ} {fuel : ℕ}
    {worker worker' : Worker} {run run' : JobRun} {answers rest : List Answer}
    {ended : Option JobEnd} (hstep : InStep sha256d frontier worker run)
    (haccount : Accounted sha256d verify entry frontier worker run)
    (hfailures : failures = none ∨ run.takesMore = false)
    (hpump : pump sha256d verify fuel worker run answers = (ended, worker', run', rest)) :
    ∃ lost last, PumpResult sha256d verify entry worker run failures answers ended worker' run' rest
      lost last := by
  induction fuel generalizing frontier failures worker run answers with
  | zero =>
    cases hpump
    exact ⟨[], frontier, haccount.stop (.refl _ _) le_rfl (by simp)
      (by rintro rfl; cases failures <;> rfl)⟩
  | succ fuel ih =>
    have hturned := turned sha256d verify worker run answers
    rw [pump] at hpump
    generalize turn sha256d verify worker run answers = result at hturned hpump
    have htopUp : ∀ {outcome : Outcome} {worker₁ : Worker} {run₁ : JobRun} {rest : List Answer},
        topUp sha256d worker run answers = (outcome, worker₁, run₁, rest) →
        rest.length ≤ answers.length ∧ losesLaunch failures answers = losesLaunch failures rest ∧
          (rest = [] → losesLaunch failures answers = false) := by
      intro outcome worker₁ run₁ rest htop
      have hloses := losesLaunch_topUp hfailures htop
      obtain ⟨used, hused, -⟩ := topUp_answers htop
      refine ⟨by rw [hused, List.length_append]; omega, hloses, fun hrest ↦ ?_⟩
      rw [hloses, hrest]
      cases failures <;> rfl
    cases hturned with
    | queueing top =>
      cases hpump
      obtain ⟨hrecords, -⟩ := hstep.topUp top
      obtain ⟨hlength, -, hend⟩ := htopUp top
      exact ⟨[], frontier, haccount.stop hrecords hlength (by simp) hend⟩
    | goneQueueing top =>
      cases hpump
      obtain ⟨hrecords, hstep₁, hempty, -⟩ := hstep.topUp top
      obtain ⟨hlength, -, hend⟩ := htopUp top
      exact ⟨[], frontier, haccount.stop hrecords hlength
        (fun _ ↦ (hstep₁ (by simp)).cursor_eq (hempty rfl)) hend⟩
    | idle top empty =>
      cases hpump
      obtain ⟨hrecords, hstep₁, -⟩ := hstep.topUp top
      obtain ⟨hlength, -, hend⟩ := htopUp top
      exact ⟨[], frontier, haccount.stop hrecords hlength
        (fun _ ↦ (hstep₁ (by simp)).cursor_eq empty) hend⟩
    | collecting top unanswered =>
      cases hpump
      obtain ⟨hrecords, -⟩ := hstep.topUp top
      obtain ⟨hlength, -, hend⟩ := htopUp top
      exact ⟨[], frontier, haccount.stop ⟨hrecords.job, hrecords.algo, hrecords.depth,
        hrecords.collected, hrecords.finished, hrecords.reports, hrecords.stride,
        hrecords.workerIndex⟩ hlength (by simp) hend⟩
    | goneFailed top oldest error =>
      cases hpump
      obtain ⟨-, hrecords, hcursor⟩ := hstep.retried top oldest error
      obtain ⟨hlength, hloses, -⟩ := htopUp top
      refine ⟨[], frontier, haccount.stop hrecords (Nat.le_of_succ_le hlength)
        (fun _ ↦ hcursor.symm) fun hrest ↦ ?_⟩
      rw [hloses, hrest]
      cases failures <;> rfl
    | @failed worker₁ worker₂ run₁ run₂ done inflight answers₂ top oldest error =>
      obtain ⟨hretry, hrecords, -⟩ := hstep.retried top oldest error
      obtain ⟨hlength, hloses, -⟩ := htopUp top
      have hnone : losesLaunch none answers₂ = losesLaunch failures answers := by
        rw [hloses]
        cases failures <;> rfl
      obtain ⟨lost, last, hresult⟩ :=
        ih hretry (haccount.of_sameRecords hrecords) (Or.inl rfl) hpump
      refine ⟨lost, last, hresult.of_step hrecords.stride hrecords.workerIndex hrecords.job
        hrecords.algo hrecords.depth ?_ fun _ ↦ hnone⟩
      rw [List.length_cons] at hlength
      rw [hrecords.finished]
      omega
    | @queueingBehind _ _ _ _ done _ _ _ _ top oldest behind =>
      cases hpump
      have hback := hstep.back top oldest behind
      exact ⟨[done.region], _, haccount.leave (.cons hback.starts (.nil _)) hback.records
        (Nat.le_of_succ_le hback.count) (by simp) (by simp)⟩
    | @goneBehind _ _ _ _ done _ answers₁ _ _ top oldest behind =>
      cases hpump
      have hback := hstep.back top oldest behind
      obtain ⟨-, hloses, -⟩ := htopUp top
      obtain ⟨hempty, hdeep, hlost⟩ := hback.gone rfl
      have hcollect : losesLaunch failures answers = true := by
        rw [hloses, ← hlost]
        cases failures <;> rfl
      exact ⟨[done.region], _, haccount.leave (.cons hback.starts (.nil _)) hback.records
        (Nat.le_of_succ_le hback.count) (fun _ ↦ (hback.step (by simp)).cursor_eq hempty)
        (by simp [hcollect, hdeep])⟩
    | @finished _ worker₂ _ run₂ done _ answers₁ rest₁ scan now top oldest behind =>
      have hback := hstep.back top oldest behind
      have hrecords := hback.records
      obtain ⟨-, hloses, -⟩ := htopUp top
      obtain ⟨failures₂, hfailures₂, hloses₂⟩ := hback.queued rfl
      have hcollect : losesLaunch (some 0) answers₁ = losesLaunch failures answers := by
        rw [hloses]
        cases failures <;> rfl
      obtain ⟨hstep₃, haccount₃⟩ :=
        haccount.finish scan now hrecords hback.starts hback.launch (hback.step (by simp))
      obtain ⟨batch, budget, report, -, hfinish⟩ := finish_spec verify worker₂ run₂ done scan now
      rw [hfinish] at hstep₃ haccount₃ hpump
      obtain ⟨lost, last, hresult⟩ := ih hstep₃ haccount₃ hfailures₂ hpump
      refine ⟨lost, last, hresult.of_step hrecords.stride hrecords.workerIndex hrecords.job
        hrecords.algo hrecords.depth ?_ fun hdeep ↦ (hloses₂ hdeep).trans hcollect⟩
      have hcount := hback.count
      simp only [hrecords.finished, List.length_append, List.length_cons, List.length_nil]
      omega

end Pump

end Bc3Miner.Mining
