import Bc3Miner.Mining.LaunchAccounting

/-!
# What a GPU worker has searched when it returns

The account of a job that a GPU worker has returned from: what went through `finish` covers, without
a gap and without an overlap, what lies between the cursor it entered the job with and the one it
leaves. There is one way to lose a launch. The next launch is queued after a `collect` that
succeeded and before that launch is finished, and when the device fails for the fifth time right
there, the worker returns with the collected launch in hand. Below full intensity that cannot happen
(`mineJob_finishes_all_collected`).

`mineJob_searchedExactly_iff` has both ways to go wrong as conditions: on the answers, that no five
`enqueue`s fail between two `collect`s that succeed, and on the turns, that the launch which comes
back is not the last of a counter that cannot take another stride (`HasRoom`, `EveryTurn`).
`runFromStart_retriedLaunch` is a run with a launch that failed and was done again, and
`runFromStart_lostLaunch` one that loses a launch.
-/

set_option autoImplicit false
set_option relaxedAutoImplicit false

namespace Bc3Miner.Mining

open Consensus Foundations

section MineJob

variable (sha256d : List UInt8 → Bytes32) (verify : PowFn)

/-- The launches that went through `finish` are disjoint, follow one another in the worker's order
and cover exactly what lies between the cursor the job was entered with and the one it was left
with, and no other launch was collected. -/
structure SearchedExactly (stride : UInt64) (entry exit : Cursor) (run : JobRun) : Prop where
  inOrder : Chain stride entry (run.finished.map Finished.region) exit
  covers : Covers stride.toNat entry exit (run.finished.map Finished.region)
  collected : run.collected = run.finished.map Finished.region

/-- The launch loop starts with nothing in flight and nothing done. -/
theorem startRun_spec (worker : Worker) (job : MinerJob) (algo : PowAlgo)
    (depth granule window : ℕ) :
    let start := startRun worker job algo depth granule window
    let entry := startOn worker.prev job worker.workerIndex worker.cursor
    InStep sha256d entry start.1 start.2 ∧ Accounted sha256d verify entry entry start.1 start.2 :=
  ⟨⟨rfl, by simp [startRun], by simp [startRun], .nil _⟩, .nil _, rfl, by simp [startRun], .nil⟩

/-- A run of `mine_job`, returned or not, whatever the worker's state and the answers. The launches
it finished follow one another from its cursor and are sound; behind them comes at most one that was
collected and not finished; and the cursor stands behind that. -/
theorem mineJob_accounts {worker worker' : Worker} {job : MinerJob} {algo : PowAlgo}
    {depth granule window : ℕ} {answers rest : List Answer} {ended : Option JobEnd} {run : JobRun}
    (hmine : mineJob sha256d verify worker job algo depth granule window answers =
      (ended, worker', run, rest)) :
    ∃ lost last, PumpResult sha256d verify
      (startOn worker.prev job worker.workerIndex worker.cursor)
      (startRun worker job algo depth granule window).1
      (startRun worker job algo depth granule window).2 none answers ended worker' run rest lost
      last := by
  obtain ⟨hstep, haccount⟩ := startRun_spec sha256d verify worker job algo depth granule window
  rcases hpump : pump sha256d verify (answers.length + 1)
    (startRun worker job algo depth granule window).1
    (startRun worker job algo depth granule window).2 answers with ⟨ended', worker₁, run₁, rest₁⟩
  obtain ⟨lost, last, hresult⟩ := pump_accounts hstep haccount (Or.inl rfl) hpump
  simp only [mineJob, hpump] at hmine
  refine ⟨lost, last, ?_⟩
  cases ended' with
  | none =>
    cases hmine
    exact hresult
  | some ended' =>
    cases hmine
    exact ⟨hresult.chain, hresult.sound, hresult.scans, hresult.stride, hresult.workerIndex,
      hresult.count,
      hresult.cursor, hresult.collected, hresult.lost_iff⟩

/-- Let a run of `mine_job` have returned at the depth of a worker below full intensity. Every launch
that it collected it has finished: with one launch queued at a time, no `enqueue` comes between a
`collect` and the finish of its launch, so none that fails can lose it. -/
theorem mineJob_finishes_all_collected {settings : Settings} (hlow : settings.intensity < 100)
    {worker worker' : Worker} {job : MinerJob} {algo : PowAlgo} {granule window : ℕ}
    {answers : List Answer} {ended : JobEnd} {run : JobRun}
    (hmine : mineJob sha256d verify worker job algo settings.gpuQueueDepth granule window answers =
      (some ended, worker', run, [])) :
    run.collected = run.finished.map Finished.region := by
  obtain ⟨lost, last, hresult⟩ := mineJob_accounts sha256d verify hmine
  have hdepth : (startRun worker job algo settings.gpuQueueDepth granule window).2.depth = 1 :=
    Settings.gpuQueueDepth_of_lt hlow
  have hlost : lost = [] := by
    by_contra hsome
    have hdeep := ((hresult.lost_iff rfl rfl).mp hsome).1
    rw [hdepth] at hdeep
    exact absurd hdeep (Nat.lt_irrefl 1)
  have hcollected := hresult.collected rfl
  rwa [hlost, List.append_nil] at hcollected

/-- A worker keeps its place among the workers, and remembers the job it returned from. -/
theorem mineJob_keeps (worker : Worker) (job : MinerJob) (algo : PowAlgo)
    (depth granule window : ℕ) (answers : List Answer) :
    let result := mineJob sha256d verify worker job algo depth granule window answers
    result.2.1.workerIndex = worker.workerIndex ∧ result.2.1.stride = worker.stride ∧
      (result.1.isSome → result.2.1.prev = some job) := by
  rcases hmine : mineJob sha256d verify worker job algo depth granule window answers with
    ⟨ended, worker', run, rest⟩
  obtain ⟨lost, last, hresult⟩ := mineJob_accounts sha256d verify hmine
  refine ⟨hresult.workerIndex, hresult.stride, fun hended ↦ ?_⟩
  simp only [mineJob] at hmine
  split at hmine
  · cases hmine
    rfl
  · cases hmine
    simp at hended

/-! ### The condition on the turns -/

/-- The launch whose `collect` succeeds in the turn that is about to begin, with the cursor it was
taken from. -/
def collects (worker : Worker) (run : JobRun) (answers : List Answer) : Option InFlight :=
  match topUp sha256d worker run answers with
  | (.done, _, run, .collect (some _) :: _) => run.inflight.head?
  | _ => none

/-- The launch that comes back in the turn that is about to begin, if any does, was taken from a
cursor with room: it leaves nonces of its counter, or the counter can take another stride. -/
def HasRoom (worker : Worker) (run : JobRun) (answers : List Answer) : Prop :=
  ∀ launch ∈ collects sha256d worker run answers, ¬ launch.region.Saturates worker.stride

/-- Before every turn of the launch loop the condition holds. -/
def EveryTurn (condition : Worker → JobRun → List Answer → Prop) :
    ℕ → Worker → JobRun → List Answer → Prop
  | 0, _, _, _ => True
  | fuel + 1, worker, run, answers => condition worker run answers ∧
      match turn sha256d verify worker run answers with
      | .over .. => True
      | .again worker run answers => EveryTurn condition fuel worker run answers

variable {sha256d verify}

/-- A turn that collects a launch collects that one. -/
theorem collects_eq {worker worker₁ : Worker} {run run₁ : JobRun} {done : InFlight}
    {inflight : List InFlight} {answers rest : List Answer} {found : Scan × ℕ}
    (htop : topUp sha256d worker run answers =
      (.done, worker₁, run₁, .collect (some found) :: rest))
    (holdest : run₁.inflight = done :: inflight) :
    collects sha256d worker run answers = some done := by
  simp only [collects, htop, holdest, List.head?_cons]

/-- With nothing in flight, or no `collect` that succeeds, nothing is collected. -/
theorem collects_eq_none {worker worker₁ : Worker} {run run₁ : JobRun}
    {answers rest : List Answer}
    (htop : topUp sha256d worker run answers = (.done, worker₁, run₁, rest))
    (hnone : run₁.inflight = [] ∨ ∀ found later, rest ≠ .collect (some found) :: later) :
    collects sha256d worker run answers = none := by
  rcases rest with _ | ⟨_ | _ | (_ | found), later⟩
  · simp only [collects, htop]
  · simp only [collects, htop]
  · simp only [collects, htop]
  · simp only [collects, htop]
  · rcases hnone with hempty | hother
    · simp only [collects, htop, hempty, List.head?_nil]
    · exact absurd rfl (hother found later)

/-- The launches that a loop collects had room if and only if there was room before each of its
turns, and there are no more of them than answers it used. -/
theorem everyTurn_hasRoom_iff {frontier : Cursor} {fuel : ℕ} {worker worker' : Worker}
    {run run' : JobRun} {answers rest : List Answer} {ended : Option JobEnd}
    (hstep : InStep sha256d frontier worker run)
    (hpump : pump sha256d verify fuel worker run answers = (ended, worker', run', rest)) :
    ∃ back, run'.collected = run.collected ++ back ∧
      back.length + rest.length ≤ answers.length ∧
      (EveryTurn sha256d verify (HasRoom sha256d) fuel worker run answers ↔
        ∀ region ∈ back, ¬ region.Saturates worker.stride) := by
  induction fuel generalizing frontier worker run answers with
  | zero =>
    cases hpump
    exact ⟨[], by simp, by simp, by simp [EveryTurn]⟩
  | succ fuel ih =>
    have hturned := turned sha256d verify worker run answers
    rw [pump] at hpump
    unfold EveryTurn
    generalize turn sha256d verify worker run answers = result at hturned hpump ⊢
    have htopUp : ∀ {outcome : Outcome} {worker₁ : Worker} {run₁ : JobRun} {rest : List Answer},
        topUp sha256d worker run answers = (outcome, worker₁, run₁, rest) →
        rest.length ≤ answers.length := by
      intro outcome worker₁ run₁ rest htop
      obtain ⟨used, hused, -⟩ := topUp_answers htop
      rw [hused, List.length_append]
      omega
    have hnothing : ∀ {worker₁ : Worker} {run₁ : JobRun} {rest : List Answer},
        SameRecords worker run worker₁ run₁ → rest.length ≤ answers.length →
        collects sha256d worker run answers = none →
        ∃ back, run₁.collected = run.collected ++ back ∧
          back.length + rest.length ≤ answers.length ∧
          ((HasRoom sha256d worker run answers ∧ True) ↔
            ∀ region ∈ back, ¬ region.Saturates worker.stride) := by
      intro worker₁ run₁ rest hrecords hlength hnone
      exact ⟨[], by rw [hrecords.collected, List.append_nil], by simpa using hlength,
        by simp [HasRoom, hnone]⟩
    have hone : ∀ {done : InFlight}, collects sha256d worker run answers = some done →
        (HasRoom sha256d worker run answers ↔ ¬ done.region.Saturates worker.stride) := by
      intro done hdone
      simp [HasRoom, hdone]
    cases hturned with
    | queueing top =>
      cases hpump
      exact hnothing (hstep.topUp top).1 (htopUp top) (by simp only [collects, top])
    | goneQueueing top =>
      cases hpump
      exact hnothing (hstep.topUp top).1 (htopUp top) (by simp only [collects, top])
    | idle top empty =>
      cases hpump
      exact hnothing (hstep.topUp top).1 (htopUp top) (collects_eq_none top (.inl empty))
    | collecting top unanswered =>
      cases hpump
      obtain ⟨hrecords, -⟩ := hstep.topUp top
      exact hnothing ⟨hrecords.job, hrecords.algo, hrecords.depth, hrecords.collected,
        hrecords.finished, hrecords.reports, hrecords.stride, hrecords.workerIndex⟩ (htopUp top)
        (collects_eq_none top (.inr fun found ↦ unanswered (some found)))
    | goneFailed top oldest error =>
      cases hpump
      obtain ⟨-, hrecords, -⟩ := hstep.retried top oldest error
      exact hnothing hrecords (Nat.le_of_succ_le (htopUp top))
        (collects_eq_none top (.inr (by simp)))
    | failed top oldest error =>
      obtain ⟨hretry, hrecords, -⟩ := hstep.retried top oldest error
      have hlength := htopUp top
      rw [List.length_cons] at hlength
      obtain ⟨back, hback, hcount, hiff⟩ := ih hretry hpump
      refine ⟨back, by rw [hback, hrecords.collected], by omega, ?_⟩
      have hroom : HasRoom sha256d worker run answers := by
        unfold HasRoom
        rw [collects_eq_none top (.inr (by simp))]
        intro done hnone
        exact absurd hnone (Option.not_mem_none done)
      dsimp only
      rw [hiff, hrecords.stride]
      exact and_iff_right hroom
    | queueingBehind top oldest behind | goneBehind top oldest behind =>
      cases hpump
      have hback := hstep.back top oldest behind
      refine ⟨_, hback.records.collected, ?_, ?_⟩
      · have hcount := hback.count
        rw [List.length_singleton]
        omega
      · rw [hone (collects_eq top oldest), and_true, List.forall_mem_singleton]
    | @finished _ worker₂ _ run₂ done _ _ _ scan now top oldest behind =>
      have hback := hstep.back top oldest behind
      obtain ⟨batch, budget, report, -, hfinish⟩ := finish_spec verify worker₂ run₂ done scan now
      have hstep₃ := (hback.step (by simp)).finish verify done scan now
      rw [hfinish] at hstep₃ hpump ⊢
      obtain ⟨back, hcollected, hlength, hiff⟩ := ih hstep₃ hpump
      refine ⟨done.region :: back, ?_, ?_, ?_⟩
      · rw [hcollected]
        show run₂.collected ++ back = _
        rw [hback.records.collected, List.append_assoc, List.singleton_append]
      · have hcount := hback.count
        rw [List.length_cons]
        omega
      · dsimp only
        rw [hone (collects_eq top oldest), List.forall_mem_cons, hiff]
        show _ ∧ (∀ region ∈ back, ¬ region.Saturates worker₂.stride) ↔ _
        rw [hback.records.stride]

variable (sha256d verify)

/-- Take a run of `mine_job` that has returned, whatever the worker's state, the job, the depth of
the queue and the answers it used up. It has searched exactly what lies between its cursors if and
only if no five `enqueue`s fail between a `collect` that succeeds and the next one, at a depth above
one, and before each turn the launch that comes back had room: it is not the last of a counter that
cannot take another stride. There is room all along if the counter can take a stride for every
answer. -/
theorem mineJob_searchedExactly_iff {worker worker' : Worker} {job : MinerJob} {algo : PowAlgo}
    {depth granule window : ℕ} {answers : List Answer} {ended : JobEnd} {run : JobRun}
    (hmine : mineJob sha256d verify worker job algo depth granule window answers =
      (some ended, worker', run, [])) :
    let entry := startOn worker.prev job worker.workerIndex worker.cursor
    let start := startRun worker job algo depth granule window
    let room := EveryTurn sha256d verify (HasRoom sha256d) (answers.length + 1) start.1 start.2
      answers
    (SearchedExactly worker.stride entry worker'.cursor run ↔
      ¬ (1 < depth ∧ losesLaunch none answers = true) ∧ room) ∧
      (entry.en2.toNat + worker.stride.toNat * answers.length < 2 ^ 64 → room) := by
  intro entry start room
  obtain ⟨lost, last, hresult⟩ := mineJob_accounts sha256d verify hmine
  have hlast : last = worker'.cursor := hresult.cursor rfl
  have hcollected := hresult.collected rfl
  have hlost : lost ≠ [] ↔ 1 < depth ∧ losesLaunch none answers = true :=
    hresult.lost_iff rfl rfl
  have hchain : Chain worker.stride entry (run.finished.map Finished.region ++ lost)
      worker'.cursor := hlast ▸ hresult.chain
  have hroom : (room ↔ ∀ region ∈ run.collected, ¬ region.Saturates worker.stride) ∧
      run.collected.length ≤ answers.length := by
    rcases hpump : pump sha256d verify (answers.length + 1) start.1 start.2 answers with
      ⟨ended', worker₁, run₁, rest₁⟩
    obtain ⟨back, hback, hcount, hiff⟩ :=
      everyTurn_hasRoom_iff (startRun_spec sha256d verify worker job algo depth granule window).1
        hpump
    have hstart : start.2.collected = [] := rfl
    rw [hstart, List.nil_append] at hback
    simp only [mineJob] at hmine
    rw [hpump] at hmine
    cases ended' with
    | none => cases hmine
    | some ended' =>
      cases hmine
      rw [hback]
      exact ⟨hiff, by simpa using hcount⟩
  constructor
  · rw [← hlost, not_not, hroom.1, hcollected]
    constructor
    · intro hsearched
      have hnone : lost = [] := by
        rw [hsearched.collected] at hcollected
        exact List.self_eq_append_right.mp hcollected
      refine ⟨hnone, ?_⟩
      rw [hnone, List.append_nil]
      exact (hsearched.inOrder.covers_iff worker.stridePos).mp hsearched.covers
    · rintro ⟨hnone, hroom⟩
      rw [hnone, List.append_nil] at hchain hcollected hroom
      exact ⟨hchain, hchain.covers worker.stridePos hroom, hcollected⟩
  · intro hstrides
    rw [hroom.1, hcollected]
    intro region hregion hfull
    have hbound := hchain.en2_add_le region hregion
    have hcount := hroom.2
    rw [hcollected] at hcount
    have htimes := Nat.mul_le_mul_left worker.stride.toNat hcount
    have hover := hfull.2
    omega

end MineJob

/-! ### A run that retries a launch and a run that loses one -/

/-- A hash function that meets no target but the largest. -/
def highestHash : PowFn := fun _ ↦ Vector.replicate 32 0xff

/-- A run from the start of a lone worker's nonces, two launches deep. -/
def runFromStart (answers : List Answer) : Option JobEnd × Worker × JobRun × List Answer :=
  mineJob (fun _ ↦ Vector.replicate 32 0) highestHash (.new 0 1) (bareJob diff1Bits diff1) .bc3Hash
    2 1 16 answers

/-- Two launches queued, the first of them collected, and the second given up. -/
def retriedLaunch : List Answer :=
  [.poll false, .enqueue (some 0), .poll false, .enqueue (some 0),
    .collect (some (⟨[], 0, some 0⟩, 0)), .poll false, .enqueue none, .poll true]

/-- The first of two launches is collected and finished and the second given up: what is searched is
the region of the first, and the job ends at the point past it. -/
theorem runFromStart_retriedLaunch :
    (runFromStart retriedLaunch).2.2.1.finished.map Finished.region = [⟨0, 0, 256⟩] ∧
      SearchedExactly 1 ⟨0, 0⟩ ⟨0, 256⟩ (runFromStart retriedLaunch).2.2.1 := by
  have hended : (runFromStart retriedLaunch).1 = some .changed := by decide +kernel
  have hrest : (runFromStart retriedLaunch).2.2.2 = [] := by decide +kernel
  have hcursor : (runFromStart retriedLaunch).2.1.cursor = ⟨0, 256⟩ := by decide +kernel
  have hmine : runFromStart retriedLaunch = (some .changed, (runFromStart retriedLaunch).2.1,
      (runFromStart retriedLaunch).2.2.1, []) := by rw [← hended, ← hrest]
  obtain ⟨hiff, hroom⟩ := mineJob_searchedExactly_iff
    (fun _ ↦ Vector.replicate 32 0) highestHash hmine
  rw [hcursor] at hiff
  exact ⟨by decide +kernel, hiff.mpr ⟨by decide, hroom (by decide)⟩⟩

/-- Five `enqueue`s that fail behind a launch that was collected. -/
def lostLaunch : List Answer :=
  [.poll false, .enqueue (some 0), .poll false, .enqueue (some 0),
    .collect (some (⟨[], 0, some 0⟩, 0)), .poll false, .enqueue none, .poll false, .enqueue none,
    .poll false, .enqueue none, .poll false, .enqueue none, .poll false, .enqueue none]

/-- Two launches queued, the first collected, and five enqueues failing after that: the device is
given up, the cursor stands behind the first launch, and no launch was finished. What lies between
the cursors is not covered. -/
theorem runFromStart_lostLaunch :
    (runFromStart lostLaunch).1 = some .deviceGone ∧ (runFromStart lostLaunch).2.2.2 = [] ∧
      (runFromStart lostLaunch).2.2.1.collected = [⟨0, 0, 256⟩] ∧
      (runFromStart lostLaunch).2.2.1.finished.map Finished.region = [] ∧
      (runFromStart lostLaunch).2.1.cursor = ⟨0, 256⟩ ∧
      ¬ Covers 1 ⟨0, 0⟩ (runFromStart lostLaunch).2.1.cursor
        ((runFromStart lostLaunch).2.2.1.finished.map Finished.region) := by
  have hcursor : (runFromStart lostLaunch).2.1.cursor = ⟨0, 256⟩ := by decide +kernel
  have hregions : (runFromStart lostLaunch).2.2.1.finished.map Finished.region = [] := by
    decide +kernel
  refine ⟨by decide +kernel, by decide +kernel, by decide +kernel, hregions, hcursor, ?_⟩
  rw [hcursor, hregions]
  intro hcovers
  have hmissed : ((0, 0) : ℕ × ℕ) ∈ between 1 ⟨0, 0⟩ ⟨0, 256⟩ :=
    ⟨0, 256, by decide, by decide, by unfold Cursor.AtIndex; decide, Prod.ext rfl rfl⟩
  obtain ⟨region, hregion, -⟩ := (hcovers.exact _).mp hmissed
  simp at hregion

end Bc3Miner.Mining
