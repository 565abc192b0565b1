import Bc3Miner.Sharing.StallCheck

/-!
# What a card is blamed for

The stall check reconstructs since when a card has had work from the latest of three times: its last
launch, its last claim, and the first job after none. All three are set when the card's work begins
in one of these ways, but work can also begin when a job of a proof of work that the card does not
claim gives way to one of a proof of work that it does: no time is taken then, and the card is
blamed for the time before.

`stalled_hadWork_iff` has exactly that as its condition, on the events alone (`NoIdleJobReplaced`):
in the time for which the card is blamed, no job gave way to another whose predecessor the card did
not claim. `forkedAfterSilence_blamed` is a card that is blamed for time without work. The clock is
monotone there, as the source's is.
-/

set_option autoImplicit false
set_option relaxedAutoImplicit false

namespace Bc3Miner.Sharing.Capabilities

open Foundations Consensus Mining

variable {gpus : ℕ}

/-! ### Having work -/

/-- A job is there whose proof of work the card claims. -/
def Busy (slot : Fin gpus) (state : Capabilities gpus) : Prop :=
  ∃ job, state.job = some job ∧ (state.cards slot).claims job.algo = true

/-- When the next call is made, or the check if none comes before it. -/
def nextTime (now : ℕ) : List (CapabilityEvent gpus) → ℕ
  | [] => now
  | event :: _ => event.time

/-- Throughout the limit before a check, the card had a job to work on and finished no launch. The
records stand from one call to the next, so those that are still standing at the beginning of that
time, and all that come after, have to be such that the card is busy. -/
def HadWork (events : List (CapabilityEvent gpus)) (now limit : ℕ) (slot : Fin gpus) : Prop :=
  (∀ first rest, events = first ++ rest → now ≤ nextTime now rest + limit → (run first).Busy slot) ∧
    ∀ finishedAt, .launched slot finishedAt ∈ events → finishedAt + limit < now

/-- Within the limit before a check, no job took the place of one whose proof of work the card did
not claim. -/
def NoIdleJobReplaced (events : List (CapabilityEvent gpus)) (now limit : ℕ)
    (slot : Fin gpus) : Prop :=
  ∀ first job publishedAt rest standing, events = first ++ .publish job publishedAt :: rest →
    now ≤ publishedAt + limit → (run first).job = some standing →
    ((run first).cards slot).claims standing.algo = true

/-! ### The three times -/

/-- A time at or before a stamp, a claim or the start of the job is at or before the last sign of
life. -/
theorem le_last (state : Capabilities gpus) (slot : Fin gpus) {time : ℕ}
    (hstamped : time ≤ (state.cards slot).stamp ∨ time ≤ (state.cards slot).claimedAt ∨
      time ≤ state.jobSince) : time ≤ state.last slot := by
  unfold last
  rcases hstamped with hstamp | hclaimed | hsince
  · exact le_max_of_le_left (le_max_of_le_left hstamp)
  · exact le_max_of_le_left (le_max_of_le_right hclaimed)
  · exact le_max_of_le_right hsince

theorem last_le_iff (state : Capabilities gpus) (slot : Fin gpus) (time : ℕ) :
    state.last slot ≤ time ↔ (state.cards slot).stamp ≤ time ∧ (state.cards slot).claimedAt ≤ time ∧
      state.jobSince ≤ time := by
  unfold last
  rw [max_le_iff, max_le_iff, and_assoc]

/-- Of the three times each is left alone by a call, or set to the time of the call. -/
def Stamped (before after time : ℕ) : Prop := after = before ∨ after = time

theorem Stamped.bounds {before after time : ℕ} (hstamped : Stamped before after time)
    (hbefore : before ≤ time) : before ≤ after ∧ after ≤ time := by
  rcases hstamped with rfl | rfl
  · exact ⟨le_refl _, hbefore⟩
  · exact ⟨hbefore, le_refl _⟩

/-- What a call does to the three times of a card. -/
structure Stamps (slot : Fin gpus) (state next : Capabilities gpus) (time : ℕ) : Prop where
  stamp : Stamped (state.cards slot).stamp (next.cards slot).stamp time
  claimedAt : Stamped (state.cards slot).claimedAt (next.cards slot).claimedAt time
  jobSince : Stamped state.jobSince next.jobSince time

theorem Stamped.trans {before middle after time : ℕ} (hfirst : Stamped before middle time)
    (hsecond : Stamped middle after time) : Stamped before after time := by
  rcases hsecond with rfl | rfl
  · exact hfirst
  · exact .inr rfl

/-- Setting a claim stamps a card with its time or leaves its stamps. -/
theorem stamps_set (state : Capabilities gpus) (slot card : Fin gpus) (algo : PowAlgo)
    (capable : Bool)
    (now : ℕ) : Stamps slot state (state.set card algo capable now) now := by
  refine ⟨.inl (set_rest ..).2, ?_, .inl (set_jobs ..).2.2⟩
  rw [set_cards]
  split
  · rename_i hboth
    rw [hboth.1]
    cases capable with
    | true => exact .inr rfl
    | false => exact .inl rfl
  · exact .inl rfl

/-- Every event stamps a card with its time or leaves its stamps. -/
theorem stamps_step (state : Capabilities gpus) (slot : Fin gpus) (event : CapabilityEvent gpus) :
    Stamps slot state (state.step event) event.time := by
  cases event with
  | set card algo capable now => exact stamps_set state slot card algo capable now
  | drop card now =>
    refine drop_keeps (fun current ↦ Stamps slot state current now) (fun current algo hkept ↦ ?_)
      ⟨.inl rfl, .inl rfl, .inl rfl⟩
    have hset := stamps_set current slot card algo false now
    exact ⟨hkept.stamp.trans hset.stamp, hkept.claimedAt.trans hset.claimedAt,
      hkept.jobSince.trans hset.jobSince⟩
  | launched card now =>
    refine ⟨?_, .inl ?_, .inl rfl⟩
    · show Stamped _ ((state.launched card now).cards slot).stamp now
      rw [launched_cards]
      by_cases hslot : slot = card
      · exact .inr (if_pos hslot)
      · exact .inl (if_neg hslot)
    · show ((state.launched card now).cards slot).claimedAt = _
      rw [launched_cards]
  | publish job now =>
    refine ⟨.inl rfl, .inl rfl, ?_⟩
    by_cases hnone : state.job.isNone = true
    · exact .inr (if_pos hnone)
    · exact .inl (if_neg hnone)
  | clear now => exact ⟨.inl rfl, .inl rfl, .inl rfl⟩
  | check now limit =>
    refine ⟨.inl ?_, .inl ?_, .inl rfl⟩
    · show (state.checkCard now limit slot).1.stamp = _
      rw [checkCard_fields]
    · show (state.checkCard now limit slot).1.claimedAt = _
      rw [checkCard_fields]

/-- The latest of the three times never goes back, and never ahead of the clock. -/
theorem last_step {state : Capabilities gpus} {slot : Fin gpus} (event : CapabilityEvent gpus)
    (hbefore : state.last slot ≤ event.time) :
    state.last slot ≤ (state.step event).last slot ∧ (state.step event).last slot ≤ event.time := by
  have hstamps := stamps_step state slot event
  obtain ⟨hstamp, hclaimed, hsince⟩ := (last_le_iff state slot _).mp hbefore
  have hstampNext := hstamps.stamp.bounds hstamp
  have hclaimedNext := hstamps.claimedAt.bounds hclaimed
  have hsinceNext := hstamps.jobSince.bounds hsince
  constructor
  · exact (last_le_iff ..).mpr ⟨le_last _ slot (.inl hstampNext.1),
      le_last _ slot (.inr (.inl hclaimedNext.1)), le_last _ slot (.inr (.inr hsinceNext.1))⟩
  · exact (last_le_iff ..).mpr ⟨hstampNext.2, hclaimedNext.2, hsinceNext.2⟩

/-! ### The clock -/

/-- A clock that never goes back, up to the time of a check. -/
def Clocked (events : List (CapabilityEvent gpus)) (now : ℕ) : Prop :=
  (events.map CapabilityEvent.time ++ [now]).Pairwise (· ≤ ·)

instance (events : List (CapabilityEvent gpus)) (now : ℕ) : Decidable (Clocked events now) :=
  inferInstanceAs (Decidable (List.Pairwise _ _))

theorem nextTime_mem (now : ℕ) (events : List (CapabilityEvent gpus)) :
    nextTime now events ∈ events.map CapabilityEvent.time ++ [now] := by
  cases events with
  | nil => exact List.mem_singleton_self _
  | cons event rest => exact List.mem_cons_self

/-- What is left of a clocked list of events is clocked. -/
theorem Clocked.tail (first : List (CapabilityEvent gpus))
    {rest : List (CapabilityEvent gpus)} {now : ℕ}
    (hclock : Clocked (first ++ rest) now) : Clocked rest now := by
  unfold Clocked at hclock ⊢
  rw [List.map_append, List.append_assoc] at hclock
  exact (List.pairwise_append.mp hclock).2.1

/-- Each call comes before the next. -/
theorem Clocked.time_le_next {event : CapabilityEvent gpus}
    {rest : List (CapabilityEvent gpus)} {now : ℕ}
    (hclock : Clocked (event :: rest) now) : event.time ≤ nextTime now rest :=
  (List.pairwise_cons.mp hclock).1 _ (nextTime_mem now rest)

/-- The next call comes before every later one. -/
theorem Clocked.next_le_time {before after : List (CapabilityEvent gpus)}
    {event : CapabilityEvent gpus}
    {now : ℕ} (hclock : Clocked (before ++ event :: after) now) :
    nextTime now (before ++ event :: after) ≤ event.time := by
  cases before with
  | nil => exact le_refl _
  | cons earlier rest =>
    refine (List.pairwise_cons.mp hclock).1 _ ?_
    exact List.mem_append_left _ (List.mem_map_of_mem (List.mem_append_right _ List.mem_cons_self))

/-- Over calls with a clock that never goes back, the latest of the three times never goes back and
is never ahead of the next call. -/
theorem last_run {state : Capabilities gpus} {slot : Fin gpus}
    {first rest : List (CapabilityEvent gpus)}
    {now : ℕ} (hclock : Clocked (first ++ rest) now)
    (hbefore : state.last slot ≤ nextTime now (first ++ rest)) :
    state.last slot ≤ (TotalMachine.run step state first).last slot ∧
      (TotalMachine.run step state first).last slot ≤ nextTime now rest := by
  induction first generalizing state with
  | nil => exact ⟨le_refl _, hbefore⟩
  | cons event between ih =>
    obtain ⟨hlater, hahead⟩ := last_step event hbefore
    have hnext : (state.step event).last slot ≤ nextTime now (between ++ rest) :=
      hahead.trans hclock.time_le_next
    obtain ⟨hrun, hbound⟩ := ih (Clocked.tail [event] hclock) hnext
    exact ⟨hlater.trans hrun, hbound⟩

theorem last_start (slot : Fin gpus) : (start : Capabilities gpus).last slot = 0 := rfl

/-- What a call of a run did to the three times of a card is still seen at the end of the run. -/
theorem last_of_split {first rest : List (CapabilityEvent gpus)}
    {event : CapabilityEvent gpus} {now : ℕ}
    (hclock : Clocked (first ++ event :: rest) now) (slot : Fin gpus) :
    ((run first).step event).last slot ≤ (run (first ++ event :: rest)).last slot := by
  have hstart : (start : Capabilities gpus).last slot ≤ nextTime now (first ++ event :: rest) := by
    rw [last_start]
    exact Nat.zero_le _
  have hreach := (last_run hclock hstart).2
  have hahead := (last_step event hreach).2
  have hafter : Clocked (rest ++ []) now := by
    rw [List.append_nil]
    exact Clocked.tail [event] (Clocked.tail first hclock)
  have hnext : ((run first).step event).last slot ≤ nextTime now (rest ++ []) := by
    rw [List.append_nil]
    exact hahead.trans (Clocked.tail first hclock).time_le_next
  have hrun : run (first ++ event :: rest) = TotalMachine.run step ((run first).step event) rest :=
    TotalMachine.run_append step start first (event :: rest)
  rw [hrun]
  exact (last_run hafter hnext).1

/-! ### How work begins -/

/-- A card that had no work and has some after a call: one of its three times was taken, or a job of
a proof of work that the card does not claim has given way. A drop only releases, so it gives no
card work. -/
theorem busy_turn {state : Capabilities gpus} {event : CapabilityEvent gpus} {slot : Fin gpus}
    (hidle : ¬ state.Busy slot) (hbusy : (state.step event).Busy slot) :
    event.time ≤ (state.step event).last slot ∨
      ∃ job publishedAt standing, event = .publish job publishedAt ∧ state.job = some standing ∧
        (state.cards slot).claims standing.algo = false := by
  cases event with
  | set card algo capable now =>
    left
    obtain ⟨job, hjob, hclaims⟩ := hbusy
    have hstanding : state.job = some job :=
      (set_jobs state card algo capable now).1.symm.trans hjob
    have hafter := set_cards state card slot algo capable now
    by_cases hboth : slot = card ∧ (state.cards card).held algo ≠ capable
    · rw [if_pos hboth] at hafter
      obtain ⟨rfl, -⟩ := hboth
      have hmask : Function.update (state.cards slot).claims algo capable job.algo = true := by
        rw [← hclaims]
        exact (congrArg (fun card : Card ↦ card.claims job.algo) hafter).symm
      by_cases halgo : job.algo = algo
      · rw [halgo, Function.update_self] at hmask
        refine le_last _ slot (.inr (.inl ?_))
        show now ≤ ((state.set slot algo capable now).cards slot).claimedAt
        rw [hafter, hmask]
        exact le_refl _
      · rw [Function.update_of_ne halgo] at hmask
        exact absurd ⟨job, hstanding, hmask⟩ hidle
    · rw [if_neg hboth] at hafter
      refine absurd ⟨job, hstanding, ?_⟩ hidle
      rw [← hafter]
      exact hclaims
  | drop card now =>
    refine absurd hbusy (drop_keeps (fun current ↦ ¬ current.Busy slot)
      (fun current algo hkept ↦ ?_) hidle)
    rintro ⟨job, hjob, hclaims⟩
    rw [(set_jobs ..).1] at hjob
    rw [set_cards] at hclaims
    by_cases hboth : slot = card ∧ (current.cards card).held algo ≠ false
    · rw [if_pos hboth] at hclaims
      obtain ⟨rfl, -⟩ := hboth
      by_cases halgo : job.algo = algo
      · have hoff : ((current.cards slot).withClaim algo false now).claims job.algo = false := by
          rw [halgo]
          exact Function.update_self ..
        rw [hoff] at hclaims
        cases hclaims
      · have hsame : ((current.cards slot).withClaim algo false now).claims job.algo =
            (current.cards slot).claims job.algo := Function.update_of_ne halgo ..
        rw [hsame] at hclaims
        exact hkept ⟨job, hjob, hclaims⟩
    · rw [if_neg hboth] at hclaims
      exact hkept ⟨job, hjob, hclaims⟩
  | launched card now =>
    obtain ⟨job, hjob, hclaims⟩ := hbusy
    refine absurd ⟨job, hjob, ?_⟩ hidle
    have hsame : ((state.launched card now).cards slot).claims = (state.cards slot).claims := by
      rw [launched_cards]
    rw [← hsame]
    exact hclaims
  | publish job now =>
    cases hstanding : state.job with
    | none =>
      refine .inl (le_last _ slot (.inr (.inr ?_)))
      show now ≤ if state.job.isNone = true then now else state.jobSince
      rw [hstanding]
      exact le_refl _
    | some standing =>
      refine .inr ⟨job, now, standing, rfl, rfl, ?_⟩
      by_contra hclaims
      exact hidle ⟨standing, hstanding, Bool.eq_true_of_not_eq_false hclaims⟩
  | clear now =>
    obtain ⟨job, hjob, -⟩ := hbusy
    cases hjob
  | check now limit =>
    obtain ⟨job, hjob, hclaims⟩ := hbusy
    refine absurd ⟨job, hjob, ?_⟩ hidle
    have hsame : (state.checkCard now limit slot).1.claims = (state.cards slot).claims := by
      rw [checkCard_fields]
    rw [← hsame]
    exact hclaims

/-- The job that is there is of the proof of work last noted. -/
theorem run_noted (events : List (CapabilityEvent gpus)) :
    ∀ job, (run events).job = some job → (run events).currentAlgo = some job.algo := by
  refine TotalMachine.invariant_of_run
    (fun state : Capabilities gpus ↦ ∀ job, state.job = some job →
      state.currentAlgo = some job.algo)
    (fun state event hnoted ↦ ?_) (fun job hjob ↦ by cases hjob) events
  cases event with
  | set slot algo capable now =>
    intro job hjob
    obtain ⟨hsameJob, hsameAlgo, -⟩ := set_jobs state slot algo capable now
    exact hsameAlgo.trans (hnoted job (hsameJob.symm.trans hjob))
  | drop slot now =>
    refine drop_keeps (fun current ↦ ∀ job, current.job = some job →
      current.currentAlgo = some job.algo)
      (fun current algo hkept job hjob ↦ ?_) hnoted
    obtain ⟨hsameJob, hsameAlgo, -⟩ := set_jobs current slot algo false now
    exact hsameAlgo.trans (hkept job (hsameJob.symm.trans hjob))
  | launched slot now => exact hnoted
  | publish job now =>
    intro published hjob
    rw [← Option.some.inj hjob]
    rfl
  | clear now =>
    intro job hjob
    cases hjob
  | check now limit => exact hnoted

/-! ### The blame -/

/-- A card that a check reports as stalled is busy at that moment. -/
theorem busy_of_stalled {events : List (CapabilityEvent gpus)} {now limit idleSecs : ℕ}
    {slot : Fin gpus}
    (hreport : .stalled slot idleSecs ∈ ((run events).checkGpuStalls now limit).2) :
    (run events).Busy slot := by
  obtain ⟨-, -, ⟨algo, halgo, hclaims⟩, hsome, -⟩ := stalled_reported hreport
  obtain ⟨job, hjob⟩ := Option.isSome_iff_exists.mp (Option.isNone_eq_false_iff.mp hsome)
  refine ⟨job, hjob, ?_⟩
  have hsame := Option.some.inj (halgo.symm.trans (run_noted events job hjob))
  rw [← hsame]
  exact hclaims

/-- What a card is blamed for, over every sequence of calls with a clock that never goes back and
every report of a check at its end that a card has been silent for the limit. The card had work
throughout that time exactly when within it no job took the place of one whose proof of work the
card did not claim (`NoIdleJobReplaced`), which is a condition on the calls alone. Whatever call the
card's times have seen was before the limit began. -/
theorem stalled_hadWork_iff {events : List (CapabilityEvent gpus)} {now limit idleSecs : ℕ}
    {slot : Fin gpus}
    (hclock : Clocked events now)
    (hreport : .stalled slot idleSecs ∈ ((run events).checkGpuStalls now limit).2) :
    HadWork events now limit slot ↔ NoIdleJobReplaced events now limit slot := by
  have hlate := (stalled_reported hreport).2.2.2.2
  have hseen : ∀ time, time ≤ (run events).last slot → time + limit < now := by
    intro time htime
    omega
  constructor
  · intro hwork first job publishedAt rest standing hsplit htime hstanding
    obtain ⟨busyWith, hjob, hclaims⟩ := hwork.1 first _ hsplit htime
    rw [hstanding] at hjob
    rw [Option.some.inj hjob]
    exact hclaims
  · intro hreplaced
    constructor
    · intro first rest hsplit htime
      by_contra hidle
      have hbusy := busy_of_stalled hreport
      have hrun : run events = TotalMachine.run step (run first) rest := by
        rw [hsplit]
        exact TotalMachine.run_append step start first rest
      rw [hrun] at hbusy
      obtain ⟨before, event, after, hrest, hoff, hon⟩ :=
        TotalMachine.exists_turn (fun state : Capabilities gpus ↦ state.Busy slot) hidle hbusy
      have hturn : TotalMachine.run step (run first) before = run (first ++ before) :=
        (TotalMachine.run_append step start first before).symm
      have hsplitTurn : events = (first ++ before) ++ event :: after := by
        rw [hsplit, hrest, List.append_assoc]
      rw [hrest] at htime
      rw [hsplit, hrest] at hclock
      have hlatest : now ≤ event.time + limit :=
        htime.trans (Nat.add_le_add_right (Clocked.tail first hclock).next_le_time limit)
      rw [hturn] at hoff hon
      rcases busy_turn hoff hon with
        htaken | ⟨job, publishedAt, standing, rfl, hstanding, hunclaimed⟩
      · rw [← List.append_assoc] at hclock
        have hkept := last_of_split hclock slot
        rw [← hsplitTurn] at hkept
        exact absurd (hseen _ (htaken.trans hkept)) (Nat.not_lt.mpr hlatest)
      · have hclaimed := hreplaced _ job publishedAt after standing hsplitTurn hlatest hstanding
        rw [hunclaimed] at hclaimed
        cases hclaimed
    · intro finishedAt hfinished
      obtain ⟨before, after, hsplit⟩ := List.append_of_mem hfinished
      rw [hsplit] at hclock
      have hkept := last_of_split hclock slot
      rw [← hsplit] at hkept
      refine hseen finishedAt (le_trans (le_last _ slot (.inl ?_)) hkept)
      show finishedAt ≤ (((run before).launched slot finishedAt).cards slot).stamp
      rw [launched_cards]
      exact (if_pos rfl).ge

/-- There is a card. -/
local instance neZeroCards : NeZero 1 := ⟨Nat.one_ne_zero⟩

/-- A card that claims BC3Hash is silent for ninety seconds of jobs of another proof of work, and is
checked as soon as the first BC3Hash job comes. -/
def forkedAfterSilence : List (CapabilityEvent 1) :=
  [.set 0 .bc3Hash true 0, .publish { bareJob 0 (Vector.replicate 32 0) with algo := .sha3t } 0,
    .publish (bareJob 0 (Vector.replicate 32 0)) 95000000]

/-- The card is blamed for ninety-five seconds, of which it had work in none: what stood before the
BC3Hash job came was a job that it does not claim. -/
theorem forkedAfterSilence_blamed :
    Clocked forkedAfterSilence 95000000 ∧
      .stalled 0 95 ∈ ((run forkedAfterSilence).checkGpuStalls 95000000 90000000).2 ∧
      ¬ HadWork forkedAfterSilence 95000000 90000000 0 := by
  refine ⟨by decide +kernel, by decide +kernel, ?_⟩
  intro hwork
  obtain ⟨job, hjob, hclaims⟩ := hwork.1 (forkedAfterSilence.take 2) (forkedAfterSilence.drop 2) rfl
    (by decide)
  have halgo : job.algo = .sha3t := by
    rw [← Option.some.inj hjob]
  rw [halgo] at hclaims
  cases hclaims

/-- A card with a BC3Hash job from the start is blamed for time in which it had work. -/
theorem silentCard_hadWork :
    HadWork ([.set 0 .bc3Hash true 0, .publish (bareJob 0 (Vector.replicate 32 0)) 0] :
      List (CapabilityEvent 1)) 95000000 90000000 0 := by
  have hreport : .stalled 0 95 ∈ ((run [.set (0 : Fin 1) .bc3Hash true 0,
      .publish (bareJob 0 (Vector.replicate 32 0)) 0]).checkGpuStalls 95000000 90000000).2 := by
    decide +kernel
  refine (stalled_hadWork_iff (by decide +kernel) hreport).mpr ?_
  intro first job publishedAt rest standing hsplit htime hstanding
  rcases first with _ | ⟨claim, _ | ⟨publish, before⟩⟩
  · cases hsplit
  · injection hsplit with _ hrest
    injection hrest with hpublish _
    injection hpublish with _ hat
    omega
  · injection hsplit with _ hrest
    injection hrest with _ hnone
    exact absurd hnone.symm (List.append_ne_nil_of_right_ne_nil _ (List.cons_ne_nil _ _))

end Bc3Miner.Sharing.Capabilities
