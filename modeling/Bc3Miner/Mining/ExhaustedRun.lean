import Bc3Miner.Mining.CpuLoop
import Bc3Miner.Mining.GpuSearch

/-!
# What an exhausted job has searched

The verdict that a job's extranonce2 values are used up is latched in `JobRun.ending` while launches
are still in flight. A `collect` that fails afterwards takes the cursor back to the launch it was
for, and gives up every launch behind it, but the verdict stands and nothing is queued again. So a
run that returns `exhausted` has searched everything that was left of the job exactly when no
`collect` failed after the last poll, and otherwise the cursor it leaves still fits the job
(`pump_exhausted`).

`mineJob_exhausted_iff` says so of the answers alone. Both sides occur: `runLastLaunch_exhausted` is
a job whose last launch is done, and `runLastLaunch_gives_up` the same job with one failed
`collect`, whose last nonces nobody searches.
-/

set_option autoImplicit false
set_option relaxedAutoImplicit false

namespace Bc3Miner.Mining

open Consensus Foundations

/-! ### The answers -/

/-- Did a `collect` fail after the last poll? The first argument says it of what came before. -/
def failedSincePoll : Bool → List Answer → Bool
  | failed, [] => failed
  | _, .poll _ :: answers => failedSincePoll false answers
  | _, .collect none :: answers => failedSincePoll true answers
  | failed, .collect (some _) :: answers => failedSincePoll failed answers
  | failed, .enqueue _ :: answers => failedSincePoll failed answers

/-- Whether a collect has failed since the last poll is kept from one part of the answers to the
next. -/
theorem failedSincePoll_append (failed : Bool) (first last : List Answer) :
    failedSincePoll failed (first ++ last) =
      failedSincePoll (failedSincePoll failed first) last := by
  induction first generalizing failed with
  | nil => rfl
  | cons answer first ih =>
    rcases answer with moved | queued | (_ | found)
    · exact ih false
    · exact ih failed
    · exact ih true
    · exact ih failed

section Pump

variable (sha256d : List UInt8 → Bytes32) (verify : PowFn)

/-! ### The latched verdict -/

/-- What the verdict means for the cursor: it does not fit, unless a `collect` has failed since the
last poll; then it stands at a launch that was given up. -/
def Latched (failed : Bool) (worker : Worker) (run : JobRun) : Prop :=
  run.ending = some .exhausted → run.job.extranonce2Size < 8 ∧
    en2Fits worker.cursor.en2 run.job.extranonce2Size = failed ∧ (failed = true → run.inflight = [])

theorem Latched.of_ending {failed : Bool} {worker : Worker} {run : JobRun}
    (hending : run.ending ≠ some .exhausted) : Latched failed worker run :=
  fun hexhausted ↦ absurd hexhausted hending

/-- A counter of fewer than 64 bits is all that can run out. -/
theorem size_lt_of_not_fits {en2 : UInt64} {size : ℕ} (hfits : en2Fits en2 size = false) :
    size < 8 := by
  simp only [en2Fits, decide_eq_false_iff_not, not_or] at hfits
  exact not_le.mp hfits.1

/-- An `enqueue` leaves the verdict as it is. -/
theorem enqueued_ending {worker worker' : Worker} {run run' : JobRun} {taken : Region}
    {header : En2Header} {restart : Cursor} {result : Option ℕ} {outcome : Outcome}
    (henqueued : enqueued worker run taken header restart result = (outcome, worker', run')) :
    run'.ending = run.ending := by
  cases result with
  | some queued =>
    cases henqueued
    rfl
  | none =>
    obtain ⟨outcome', errors, herror, -⟩ := deviceError_spec worker run
      ((run.inflight.head?.map InFlight.restart).getD restart)
    cases herror.symm.trans henqueued
    rfl

variable {sha256d} in
/-- Queueing launches keeps the verdict in step with the cursor. -/
theorem Latched.topUp {worker worker' : Worker} {run run' : JobRun} {answers rest : List Answer}
    (htop : topUp sha256d worker run answers = (.done, worker', run', rest)) :
    ∃ used, answers = used ++ rest ∧ ∀ failed, Latched failed worker run →
      Latched (failedSincePoll failed used) worker' run' := by
  induction worker, run, answers using topUp.induct sha256d with
  | case1 worker run moved answers hfull =>
    rw [Mining.topUp, if_pos hfull] at htop
    cases htop
    exact ⟨[], rfl, fun _ h ↦ h⟩
  | case2 worker run answers hroom =>
    rw [Mining.topUp, if_neg hroom, if_pos rfl] at htop
    cases htop
    exact ⟨[.poll true], rfl, fun _ _ ↦ .of_ending (by simp)⟩
  | case3 worker run moved answers hroom hmoved hfits =>
    have hunfit : en2Fits worker.cursor.en2 run.job.extranonce2Size = false := by simpa using hfits
    rw [Mining.topUp, if_neg hroom, if_neg hmoved, if_pos hfits] at htop
    cases htop
    exact ⟨[.poll moved], rfl,
      fun _ _ _ ↦ ⟨size_lt_of_not_fits hunfit, hunfit, by simp [failedSincePoll]⟩⟩
  | case4 worker run moved hroom hmoved hfits most restart taken cursor htake worker₁ header run₁
      result answers worker₂ run₂ henqueued ih =>
    rw [Mining.topUp, if_neg hroom, if_neg hmoved, if_neg hfits] at htop
    simp only [most] at htake
    simp only [htake] at htop
    rw [henqueued] at htop
    have hopen : run₂.ending ≠ some .exhausted := by
      have hnone : run.ending = none := by
        rw [Bool.not_eq_true', Bool.not_eq_false] at hroom
        exact Option.isNone_iff_eq_none.mp (Bool.and_eq_true_iff.mp hroom).1
      rw [enqueued_ending henqueued, hnone]
      exact Option.some_ne_none _ ∘ Eq.symm
    obtain ⟨used, rfl, hlatched⟩ := ih htop
    exact ⟨.poll moved :: .enqueue result :: used, rfl,
      fun _ _ ↦ hlatched false (.of_ending hopen)⟩
  | case5 worker run moved hroom hmoved hfits most restart taken cursor htake worker₁ header run₁
      result answers outcome' worker₂ run₂ hnotDone henqueued =>
    rw [Mining.topUp, if_neg hroom, if_neg hmoved, if_neg hfits] at htop
    simp only [most] at htake
    simp only [htake] at htop
    rw [henqueued] at htop
    cases outcome' with
    | done => exact absurd rfl hnotDone
    | gone => cases htop
    | waiting => cases htop
  | case6 worker run moved hroom hmoved hfits most taken cursor htake answers hnone =>
    rw [Mining.topUp, if_neg hroom, if_neg hmoved, if_neg hfits] at htop
    simp only [most] at htake
    simp only [htake] at htop
    rcases answers with _ | ⟨_ | _ | _, _⟩
    · cases htop
    · cases htop
    · exact absurd rfl (hnone _ _)
    · cases htop
  | case7 worker run answers hnone =>
    rw [Mining.topUp] at htop
    · obtain ⟨-, hrest⟩ := Prod.mk.inj htop
      cases hrest
      exact ⟨[], rfl, fun _ h ↦ h⟩
    · exact hnone

/-! ### The launch loop -/

variable {sha256d verify}

/-- How the launch loop leaves a job that it says is exhausted: everything from the cursor the job
was entered with to the one it leaves was finished, and that one fits the job exactly when a
`collect` failed after the last poll. -/
structure ExhaustedResult (sha256d : List UInt8 → Bytes32) (verify : PowFn) (entry : Cursor)
    (failed : Bool) (worker : Worker) (run : JobRun) (worker' : Worker) (run' : JobRun)
    (used : List Answer) : Prop where
  accounted : Accounted sha256d verify entry worker'.cursor worker' run'
  job : run'.job = run.job
  stride : worker'.stride = worker.stride
  size : run.job.extranonce2Size < 8
  fits : en2Fits worker'.cursor.en2 run.job.extranonce2Size = failedSincePoll failed used

/-- What the rest of the loop leads to, the whole loop leads to. -/
theorem ExhaustedResult.of_step {entry : Cursor} {failed : Bool}
    {worker worker₁ worker' : Worker} {run run₁ run' : JobRun} {first last : List Answer}
    (h : ExhaustedResult sha256d verify entry
    (failedSincePoll failed first) worker₁ run₁ worker' run'
      last)
    (hjob : run₁.job = run.job) (hstride : worker₁.stride = worker.stride) :
    ExhaustedResult sha256d verify entry failed worker run worker' run' (first ++ last) where
  accounted := h.accounted
  job := h.job.trans hjob
  stride := h.stride.trans hstride
  size := hjob ▸ h.size
  fits := by
    rw [failedSincePoll_append, ← hjob]
    exact h.fits

/-- Behind a launch that is back, queueing keeps the verdict in step with the cursor, too. -/
theorem Latched.topUpBehind {worker worker' : Worker} {run run' : JobRun}
    {answers rest : List Answer}
    (hbehind : topUpBehind sha256d worker run answers = (.done, worker', run', rest)) :
    ∃ used, answers = used ++ rest ∧ ∀ failed, Latched failed worker run →
      Latched (failedSincePoll failed used) worker' run' := by
  unfold Mining.topUpBehind at hbehind
  by_cases hdeep : 1 < run.depth
  · rw [if_pos hdeep] at hbehind
    exact Latched.topUp hbehind
  · rw [if_neg hdeep] at hbehind
    cases hbehind
    exact ⟨[], rfl, fun _ hlatched ↦ hlatched⟩

/-- A loop that ends with the verdict, from launches in step and an account of what came back, has
used up some of the answers and leaves the job as `ExhaustedResult` says. By induction over the
turns: a `collect` that fails gives up its launch, and with it the verdict's word on the cursor; and
a launch that comes back was in flight, so no `collect` has failed under the verdict. -/
theorem pump_exhausted {entry frontier : Cursor} {failed : Bool} {fuel : ℕ}
    {worker worker' : Worker} {run run' : JobRun} {answers rest : List Answer}
    (hstep : InStep sha256d frontier worker run)
    (haccount : Accounted sha256d verify entry frontier worker run)
    (hlatched : Latched failed worker run)
    (hpump : pump sha256d verify fuel worker run answers =
      (some .exhausted, worker', run', rest)) :
    ∃ used, answers = used ++ rest ∧
      ExhaustedResult sha256d verify entry failed worker run worker' run' used := by
  induction fuel generalizing frontier failed worker run answers with
  | zero => cases hpump
  | succ fuel ih =>
    have hturned := turned sha256d verify worker run answers
    rw [pump] at hpump
    generalize turn sha256d verify worker run answers = result at hturned hpump
    cases hturned with
    | queueing top => cases hpump
    | goneQueueing top => cases hpump
    | collecting top unanswered => cases hpump
    | goneFailed top oldest error => cases hpump
    | queueingBehind top oldest behind => cases hpump
    | goneBehind top oldest behind => cases hpump
    | @idle worker₁ run₁ rest top empty =>
      obtain ⟨hrecords, hstep₁, -, -⟩ := hstep.topUp top
      obtain ⟨used, hused, hkept⟩ := Latched.topUp top
      have hended : run₁.ending = some .exhausted := by
        have hgetD := Option.some.inj (congrArg Prod.fst hpump)
        cases hending : run₁.ending with
        | none =>
          rw [hending] at hgetD
          cases hgetD
        | some ended =>
          rw [hending] at hgetD
          exact congrArg some hgetD
      obtain ⟨hsize, hfits, -⟩ := hkept failed hlatched hended
      rw [hended] at hpump
      cases hpump
      have hfrontier : frontier = worker'.cursor := (hstep₁ (by simp)).cursor_eq empty
      rw [hrecords.job] at hsize hfits
      exact ⟨used, hused, hfrontier ▸ haccount.of_sameRecords hrecords, hrecords.job,
        hrecords.stride, hsize, hfits⟩
    | @failed worker₁ worker₂ run₁ run₂ done inflight answers₂ top oldest error =>
      obtain ⟨-, hstep₁, -, -⟩ := hstep.topUp top
      obtain ⟨used, hused, hkept⟩ := Latched.topUp top
      obtain ⟨-, -, hlaunch, -⟩ := (hstep₁ (by simp)).oldest oldest
      obtain ⟨hretry, hrecords, -⟩ := hstep.retried top oldest error
      obtain ⟨outcome, errors, hspec, -⟩ :=
        deviceError_spec worker₁ { run₁ with inflight } done.restart
      cases hspec.symm.trans error
      have hlatched₂ : Latched (failedSincePoll failed (used ++ [.collect none]))
          { worker₁ with errors, cursor := done.restart, lastCollect := none }
          { run₁ with device := [], inflight := [] } := by
        intro hexhausted
        obtain ⟨hsize, -, -⟩ := hkept failed hlatched hexhausted
        rw [failedSincePoll_append]
        exact ⟨hsize, hlaunch, fun _ ↦ rfl⟩
      obtain ⟨later, hanswers, hresult⟩ :=
        ih hretry (haccount.of_sameRecords hrecords) hlatched₂ hpump
      refine ⟨used ++ [.collect none] ++ later, ?_, hresult.of_step hrecords.job hrecords.stride⟩
      rw [hused, hanswers, List.append_assoc, List.append_assoc]
      rfl
    | @finished worker₁ worker₂ run₁ run₂ done inflight answers₁ answers₂ scan now top oldest
        behind =>
      have hback := hstep.back top oldest behind
      have hrecords := hback.records
      obtain ⟨used, hused, hkept⟩ := Latched.topUp top
      obtain ⟨queued, hqueued, hkept₂⟩ := Latched.topUpBehind behind
      have hlatched₁ : Latched (failedSincePoll failed (used ++ [.collect (some (scan, now))]))
          { worker₁ with errors := 0 } (run₁.collect inflight) := by
        intro hexhausted
        obtain ⟨hsize, hfits, hnone⟩ := hkept failed hlatched hexhausted
        rw [failedSincePoll_append]
        refine ⟨hsize, hfits, fun hfailed ↦ ?_⟩
        rw [hnone hfailed] at oldest
        cases oldest
      have hlatched₂ := hkept₂ _ hlatched₁
      rw [← failedSincePoll_append, List.append_assoc] at hlatched₂
      obtain ⟨hstep₃, haccount₃⟩ :=
        haccount.finish scan now hrecords hback.starts hback.launch (hback.step (by simp))
      obtain ⟨batch, budget, report, -, hfinish⟩ := finish_spec verify worker₂ run₂ done scan now
      rw [hfinish] at hstep₃ haccount₃ hpump
      obtain ⟨later, hanswers, hresult⟩ := ih hstep₃ haccount₃ hlatched₂ hpump
      refine ⟨used ++ .collect (some (scan, now)) :: queued ++ later, ?_,
        hresult.of_step hrecords.job hrecords.stride⟩
      rw [hused, hqueued, hanswers]
      simp

/-! ### What was left of the job -/

/-- The positions of a worker's order from an index on whose extranonce2 the job's size allows. -/
def remaining (base stride size index : ℕ) : Set (ℕ × ℕ) :=
  {position | ∃ later, index ≤ later ∧ position = searchOrder base stride later ∧
    (8 ≤ size ∨ position.1 < 2 ^ (8 * size))}

/-- A counter fits an extranonce2 of less than eight bytes if it is below the number of its values.
-/
theorem en2Fits_iff_lt {en2 : UInt64} {size : ℕ} (hsize : size < 8) :
    en2Fits en2 size = true ↔ en2.toNat < 2 ^ (8 * size) := by
  simp only [en2Fits, decide_eq_true_eq]
  constructor
  · rintro (hlarge | hlt)
    · omega
    · exact hlt
  · exact Or.inr

/-- A region that saturates the counter leaves none that fits. -/
theorem Region.Saturates.next_not_fits {stride : UInt64} {region : Region}
    (hsaturates : region.Saturates stride) {size : ℕ} (hsize : size < 8) :
    en2Fits (region.next stride).en2 size = false := by
  obtain ⟨hend, hover⟩ := hsaturates
  have hpow : 2 ^ (8 * size) ≤ 2 ^ 56 := Nat.pow_le_pow_right (by omega) (by omega)
  have hnext : (region.next stride).en2.toNat = 2 ^ 64 - 1 := by
    unfold Region.next saturatingAdd
    rw [if_pos hend.ge, if_neg (by omega)]
    rfl
  rw [Bool.eq_false_iff, ne_eq, en2Fits_iff_lt hsize, hnext]
  omega

/-- Let the counters of all regions of a chain fit an extranonce2 of less than eight bytes, and the
counter of the cursor it leads to as well. Then no region of the chain saturates, for a counter at
the top of the 64 bits would not fit. -/
theorem Chain.not_saturates {stride : UInt64} {first last : Cursor} {regions : List Region}
    (hchain : Chain stride first regions last) {size : ℕ} (hsize : size < 8)
    (hfits : ∀ region ∈ regions, en2Fits region.en2 size = true)
    (hlast : en2Fits last.en2 size = true) :
    ∀ region ∈ regions, ¬region.Saturates stride := by
  induction hchain with
  | nil cursor => simp
  | @cons cursor last region rest hstarts hrest ih =>
    obtain ⟨-, hlater⟩ := List.forall_mem_cons.mp hfits
    refine List.forall_mem_cons.mpr ⟨fun hsaturates ↦ ?_, ih hlater hlast⟩
    have hunfit := hsaturates.next_not_fits hsize
    have hnext : en2Fits (region.next stride).en2 size = true := by
      cases hrest with
      | nil => exact hlast
      | cons hstarts' hrest' =>
        rw [← hstarts'.1]
        exact hlater _ List.mem_cons_self
    rw [hunfit] at hnext
    cases hnext

/-- A chain that leads to a cursor that does not fit covers what remained where it began. Past a
region that saturates, every counter is too large for the job. -/
theorem Chain.covers_remaining {base : ℕ} {stride : UInt64} (hstride : 0 < stride.toNat)
    {first last : Cursor} {regions : List Region} (hchain : Chain stride first regions last)
    {size : ℕ} (hsize : size < 8) (hlast : en2Fits last.en2 size = false) {index : ℕ}
    (hindex : first.AtIndex base stride.toNat index) :
    ∀ position ∈ remaining base stride.toNat size index,
      ∃ region ∈ regions, position ∈ region.positions := by
  induction hchain generalizing index with
  | nil cursor =>
    rintro position ⟨later, hlow, rfl, hfits⟩
    exfalso
    have hunfit : 2 ^ (8 * size) ≤ cursor.en2.toNat := by
      rwa [Bool.eq_false_iff, ne_eq, en2Fits_iff_lt hsize, not_lt] at hlast
    have hcounter : cursor.en2.toNat = base + stride.toNat * (index / 2 ^ 32) :=
      congrArg Prod.fst hindex
    have hstrides := Nat.mul_le_mul_left stride.toNat (Nat.div_le_div_right (c := 2 ^ 32) hlow)
    have hlt : base + stride.toNat * (later / 2 ^ 32) < 2 ^ (8 * size) := by
      rcases hfits with hlarge | hlt
      · omega
      · exact hlt
    omega
  | @cons cursor last region rest hstarts _ ih =>
    rintro position ⟨later, hlow, rfl, hfits⟩
    by_cases hinside : later < index + region.count.toNat
    · obtain ⟨-, hpositions⟩ := Region.cut_eq hstride hstarts hindex
      refine ⟨region, List.mem_cons_self, ?_⟩
      rw [hpositions]
      exact ⟨later, ⟨hlow, hinside⟩, rfl⟩
    · by_cases hsaturates : region.Saturates stride
      · exfalso
        obtain ⟨hend, hover⟩ := hsaturates
        have hpow : 2 ^ (8 * size) ≤ 2 ^ 56 := Nat.pow_le_pow_right (by omega) (by omega)
        have hlt : base + stride.toNat * (later / 2 ^ 32) < 2 ^ (8 * size) := by
          rcases hfits with hlarge | hlt
          · omega
          · exact hlt
        have hcounter : cursor.en2.toNat = base + stride.toNat * (index / 2 ^ 32) :=
          congrArg Prod.fst hindex
        have hnonce : cursor.nonce.toNat = index % 2 ^ 32 := congrArg Prod.snd hindex
        rw [hstarts.2.1] at hend
        rw [hstarts.1] at hover
        have hquotient : index / 2 ^ 32 + 1 ≤ later / 2 ^ 32 := by omega
        have hstrides := Nat.mul_le_mul_left stride.toNat hquotient
        rw [Nat.mul_add, Nat.mul_one] at hstrides
        omega
      · have hnext := Region.next_atIndex hstarts hsaturates hindex
        obtain ⟨other, hother, hposition⟩ :=
          ih hlast hnext _ ⟨later, Nat.not_lt.mp hinside, rfl, hfits⟩
        exact ⟨other, List.mem_cons_of_mem _ hother, hposition⟩

/-- A chain of regions that all fit, and that leads to a cursor that fits too, does not cover what
remained of the job: the position of that cursor is part of it and lies in no region of the chain.
-/
theorem Chain.not_covers_remaining {stride : UInt64} (hstride : 0 < stride.toNat)
    {first last : Cursor} {regions : List Region} (hchain : Chain stride first regions last)
    {size : ℕ} (hsize : size < 8) (hfits : ∀ region ∈ regions, en2Fits region.en2 size = true)
    (hlast : en2Fits last.en2 size = true) :
    ∃ position ∈ remaining first.en2.toNat stride.toNat size first.nonce.toNat,
      ¬∃ region ∈ regions, position ∈ region.positions := by
  have hroom := hchain.not_saturates hsize hfits hlast
  obtain ⟨stop, htiles, hstop, -⟩ :=
    hchain.tiles hstride hroom (Cursor.atIndex_self stride.toNat first)
  have hlow : first.nonce.toNat ≤ stop := htiles.ascends.le
  refine ⟨searchOrder first.en2.toNat stride.toNat stop, ⟨stop, hlow, rfl, Or.inr ?_⟩, ?_⟩
  · rw [← hstop]
    exact (en2Fits_iff_lt hsize).mp hlast
  · rintro hcovered
    obtain ⟨index, stop', -, hlt, hstop', heq⟩ :=
      ((hchain.covers hstride hroom).exact _).mpr hcovered
    have hsame := searchOrder_injective first.en2.toNat hstride heq
    have hunique := hstop'.unique hstride hstop
    omega

/-! ### The run of a job -/

variable (sha256d verify)

/-- Everything that was left of the job for this worker has gone through a finished launch. -/
def SearchedRemaining (stride : UInt64) (entry : Cursor) (run : JobRun) : Prop :=
  ∀ position ∈ remaining entry.en2.toNat stride.toNat run.job.extranonce2Size entry.nonce.toNat,
    ∃ work ∈ run.finished, position ∈ work.region.positions

/-- What an exhausted job has searched. Take a run of `mine_job` that has returned with the verdict
that the job's extranonce2 values are used up, whatever the worker's state, the job, the depth of
the queue and the answers. Every position that was left of the job for this worker, from its cursor
on, is in a launch that was finished if and only if no `collect` failed after the last poll. -/
theorem mineJob_exhausted_iff {worker worker' : Worker} {job : MinerJob} {algo : PowAlgo}
    {depth granule window : ℕ} {answers : List Answer} {run : JobRun}
    (hmine : mineJob sha256d verify worker job algo depth granule window answers =
      (some .exhausted, worker', run, [])) :
    SearchedRemaining worker.stride (startOn worker.prev job worker.workerIndex worker.cursor) run ↔
      failedSincePoll false answers = false := by
  obtain ⟨hstep, haccount⟩ := startRun_spec sha256d verify worker job algo depth granule window
  have hlatched : Latched false (startRun worker job algo depth granule window).1
      (startRun worker job algo depth granule window).2 := .of_ending (by simp [startRun])
  rcases hpump : pump sha256d verify (answers.length + 1)
    (startRun worker job algo depth granule window).1
    (startRun worker job algo depth granule window).2 answers with ⟨ended, worker₁, run₁, rest⟩
  simp only [mineJob, hpump] at hmine
  cases ended with
  | none => cases hmine
  | some ended =>
    cases hmine
    obtain ⟨used, hused, hresult⟩ := pump_exhausted hstep haccount hlatched hpump
    rw [List.append_nil] at hused
    subst hused
    have hchain := hresult.accounted.chain
    have hjob : run.job = job := hresult.job
    have hsize : job.extranonce2Size < 8 := hresult.size
    have hfits : en2Fits worker₁.cursor.en2 job.extranonce2Size = failedSincePoll false answers :=
      hresult.fits
    rw [hresult.stride] at hchain
    have hregions (position : ℕ × ℕ) :
        (∃ work ∈ run.finished, position ∈ work.region.positions) ↔
          ∃ region ∈ run.finished.map Finished.region, position ∈ region.positions := by
      simp
    unfold SearchedRemaining
    simp only [hregions, hjob]
    constructor
    · intro hall
      by_contra hfailed
      rw [Bool.not_eq_false] at hfailed
      have hsound : ∀ region ∈ run.finished.map Finished.region,
          en2Fits region.en2 job.extranonce2Size = true := by
        intro region hregion
        obtain ⟨work, hwork, rfl⟩ := List.mem_map.mp hregion
        exact hjob ▸ (hresult.accounted.sound work hwork).fits
      obtain ⟨position, hposition, hmissed⟩ := hchain.not_covers_remaining worker.stridePos hsize
        hsound (hfits.trans hfailed)
      exact hmissed (hall position hposition)
    · intro hkept
      exact hchain.covers_remaining worker.stridePos hsize (hfits.trans hkept)
        (Cursor.atIndex_self _ _)

end Pump

/-! ### A run that is exhausted, and one that only says so -/

/-- A lone worker that stands before the last launch of a job of one byte of extranonce2. -/
def lastLaunchWorker : Worker :=
  { Worker.new 0 1 with prev := some oneByteJob, cursor := ⟨255, 0xffffff00⟩ }

/-- Its run, two launches deep. -/
def runLastLaunch (answers : List Answer) : Option JobEnd × Worker × JobRun × List Answer :=
  mineJob (fun _ ↦ Vector.replicate 32 0) highestHash lastLaunchWorker oneByteJob .bc3Hash 2 1 16
    answers

/-- The last launch comes back, and the job is exhausted. -/
def exhaustingAnswers : List Answer :=
  [.poll false, .enqueue (some 0), .poll false, .collect (some (⟨[], 0, some 0⟩, 0))]

/-- With no failure the last launch of a one-byte extranonce2 ends the job as exhausted, and all
that remained has been searched. -/
theorem runLastLaunch_exhausted :
    (runLastLaunch exhaustingAnswers).1 = some .exhausted ∧
      SearchedRemaining 1 ⟨255, 0xffffff00⟩ (runLastLaunch exhaustingAnswers).2.2.1 := by
  have hended : (runLastLaunch exhaustingAnswers).1 = some .exhausted := by decide +kernel
  have hrest : (runLastLaunch exhaustingAnswers).2.2.2 = [] := by decide +kernel
  have hmine : runLastLaunch exhaustingAnswers = (some .exhausted,
      (runLastLaunch exhaustingAnswers).2.1, (runLastLaunch exhaustingAnswers).2.2.1, []) := by
    rw [← hended, ← hrest]
  refine ⟨hended, ?_⟩
  exact (mineJob_exhausted_iff (fun _ ↦ Vector.replicate 32 0) highestHash hmine).mpr (by decide)

/-- The last launch is lost to a `collect` that fails once. -/
def failedLastLaunch : List Answer := [.poll false, .enqueue (some 0), .poll false, .collect none]

/-- The run says that the job is exhausted, nothing of it was finished, and the cursor stands where
the launch began, under an extranonce2 that fits. -/
theorem runLastLaunch_gives_up :
    (runLastLaunch failedLastLaunch).1 = some .exhausted ∧
      (runLastLaunch failedLastLaunch).2.2.2 = [] ∧
      (runLastLaunch failedLastLaunch).2.1.cursor = ⟨255, 0xffffff00⟩ ∧
      (runLastLaunch failedLastLaunch).2.2.1.finished.map Finished.region = [] ∧
      ¬SearchedRemaining 1 ⟨255, 0xffffff00⟩ (runLastLaunch failedLastLaunch).2.2.1 := by
  have hregions : (runLastLaunch failedLastLaunch).2.2.1.finished.map Finished.region = [] := by
    decide +kernel
  have hsize : (runLastLaunch failedLastLaunch).2.2.1.job.extranonce2Size = 1 := by decide +kernel
  refine ⟨by decide +kernel, by decide +kernel, by decide +kernel, hregions, ?_⟩
  intro hsearched
  obtain ⟨work, hwork, -⟩ := hsearched (255, 0xffffff00)
    ⟨0xffffff00, Nat.le_refl _, rfl, by rw [hsize]; decide⟩
  rw [List.map_eq_nil_iff.mp hregions] at hwork
  cases hwork

end Bc3Miner.Mining
