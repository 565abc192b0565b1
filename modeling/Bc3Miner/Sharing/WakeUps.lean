import Bc3Miner.Sharing.PendingNudges

/-!
# No wake-up is lost in the hand-over

A stand-in that leaves a job to the GPUs goes to sleep until the generation changes, and it may do
so on a count it read long ago. `HandOver.Judged` says for each stage of its verdict that unless the
generation has changed, or something is pending that will change it, what it has read is still good
enough: the count it took is not above the claims there are, and the stalled claims it counted are
not below those there are. Every step of every party keeps that, so a stand-in asleep on such a
verdict, with nothing pending, leaves the job to a card that takes it.

`no_standIn_sleeps_on_an_untaken_job` is for every run that has come to rest (`Settled`), in which
no worker, no stall check and no publication is under way. While something is, a stand-in may well
sleep on a verdict that is out of date, and is woken afterwards. `droppedClaim_wakes` is a card that
gives up its claim beside a stand-in asleep.
-/

set_option autoImplicit false
set_option relaxedAutoImplicit false

namespace Bc3Miner.Sharing

open Foundations Consensus Mining

namespace HandOver

variable {gpus : ℕ} {StandIn : Type*} [DecidableEq StandIn]

/-! ### What a stand-in goes by -/

/-- The cards before `slot` that claim BC3Hash and are set aside. -/
def setAside (state : HandOver gpus StandIn) (slot : ℕ) : ℕ :=
  (Finset.univ.filter fun other : Fin gpus ↦
    other.val < slot ∧ state.claims other .bc3Hash = true ∧ state.stalled other ≠ 0).card

/-- Some card claims BC3Hash and is not set aside. -/
def Takes (state : HandOver gpus StandIn) : Prop :=
  ∃ slot, state.claims slot .bc3Hash = true ∧ state.stalled slot = 0

/-- What a stand-in was handed: unless it is over, or something is pending, what it found holds. -/
def StillTrue (state : HandOver gpus StandIn) (thread : StandIn) (generation : ℕ) (job : MinerJob)
    (found : Prop) : Prop :=
  (.standIn thread, generation, job) ∈ state.board.handed ∧
    (job.algo = .bc3Hash → state.board.generation = generation → state.Pending ∨ found)

/-- What holds at each stage of a stand-in's verdict: the count it took is at most the claims there
are, the stalled claims it has counted are at least those there are, and so a verdict that the GPUs
mine the job means that some card does. -/
def Judged (state : HandOver gpus StandIn) (thread : StandIn) : StandInState → Prop
  | .judging generation job => (.standIn thread, generation, job) ∈ state.board.handed
  | .scanning generation job capable slot stalledClaims
  | .scanningClaims generation job capable slot stalledClaims =>
    state.StillTrue thread generation job
      (capable ≤ state.claimed ∧ state.setAside slot ≤ stalledClaims)
  | .ready (.judged generation job) | .waiting (.judged generation job) =>
    state.StillTrue thread generation job state.Takes
  | _ => True

omit [DecidableEq StandIn] in
/-- Where no claim changes, the number of claims does not. -/
theorem claimed_congr {state next : HandOver gpus StandIn}
    (hclaims : ∀ slot, next.claims slot .bc3Hash = state.claims slot .bc3Hash) :
    next.claimed = state.claimed := by
  unfold claimed
  simp only [hclaims]

omit [DecidableEq StandIn] in
/-- Where no claim changes and no card is set aside, no more cards are set aside. -/
theorem setAside_mono {state next : HandOver gpus StandIn}
    (hclaims : ∀ slot, next.claims slot .bc3Hash = state.claims slot .bc3Hash)
    (hstalled : ∀ slot, state.stalled slot = 0 → next.stalled slot = 0) (slot : ℕ) :
    next.setAside slot ≤ state.setAside slot := by
  apply Finset.card_le_card
  intro other hother
  simp only [Finset.mem_filter, Finset.mem_univ, true_and] at hother ⊢
  obtain ⟨hbefore, hclaimed, haside⟩ := hother
  exact ⟨hbefore, (hclaims other).symm.trans hclaimed, fun hzero ↦ haside (hstalled other hzero)⟩

/-- What a stand-in found when it looked at a job stays true over a step of any party, if what it
found is about the claims and the cards set aside: the step leaves these alone, or it moves the
generation on, or something is pending after it. -/
theorem StillTrue.step {state next : HandOver gpus StandIn} (haccounted : state.Accounted)
    {event : HandOverEvent gpus StandIn} (hstep : state.step event = some next)
    {thread : StandIn} {generation : ℕ} {job : MinerJob} {found foundNext : Prop}
    (hstill : state.StillTrue thread generation job found)
    (hfound : (∀ slot, next.claims slot .bc3Hash = state.claims slot .bc3Hash) →
      (∀ slot, state.stalled slot = 0 → next.stalled slot = 0) → found → foundNext) :
    next.StillTrue thread generation job foundNext := by
  obtain ⟨hgrows, hhanded⟩ := board_grows hstep
  refine ⟨hhanded hstill.1, fun hbc3 hgeneration ↦ ?_⟩
  have hpast := haccounted.board.past _ hstill.1
  have hnow : state.board.generation = generation :=
    Nat.le_antisymm (hgeneration ▸ hgrows) hpast
  have hhere : state.Here := by
    rcases haccounted.board.held _ hstill.1 hnow with hslot | ⟨-, hclearing⟩
    · exact .inl ⟨job, hslot, hbc3⟩
    · exact .inr hclearing
  have hcalm := haccounted.calm hhere hstep (hgeneration.trans hnow.symm)
  by_cases hpending : next.Pending
  · exact .inl hpending
  · rcases hstill.2 hbc3 hnow with hbefore | hholds
    · exact .inl (hcalm.pending hbefore)
    · exact .inr (hfound (hcalm.claims hpending) (hcalm.stalled hpending) hholds)

/-- Every step keeps what is true of a stage of a stand-in's verdict, whoever takes it. -/
theorem Judged.step {state next : HandOver gpus StandIn} (haccounted : state.Accounted)
    {event : HandOverEvent gpus StandIn} (hstep : state.step event = some next) {thread : StandIn}
    {standIn : StandInState} (hjudged : state.Judged thread standIn) :
    next.Judged thread standIn := by
  have hcounts {capable slot stalledClaims : ℕ}
      (hclaims : ∀ slot, next.claims slot .bc3Hash = state.claims slot .bc3Hash)
      (hstalled : ∀ slot, state.stalled slot = 0 → next.stalled slot = 0)
      (hfound : capable ≤ state.claimed ∧ state.setAside slot ≤ stalledClaims) :
      capable ≤ next.claimed ∧ next.setAside slot ≤ stalledClaims := by
    rw [claimed_congr hclaims]
    exact ⟨hfound.1, (setAside_mono hclaims hstalled slot).trans hfound.2⟩
  have htakes (hclaims : ∀ slot, next.claims slot .bc3Hash = state.claims slot .bc3Hash)
      (hstalled : ∀ slot, state.stalled slot = 0 → next.stalled slot = 0)
      (hfound : state.Takes) : next.Takes := by
    obtain ⟨slot, hclaimed, hzero⟩ := hfound
    exact ⟨slot, (hclaims slot).trans hclaimed, hstalled slot hzero⟩
  cases standIn with
  | judging generation job => exact (board_grows hstep).2 hjudged
  | scanning generation job capable slot stalledClaims =>
    exact StillTrue.step haccounted hstep hjudged hcounts
  | scanningClaims generation job capable slot stalledClaims =>
    exact StillTrue.step haccounted hstep hjudged hcounts
  | mining generation job => trivial
  | ready sat =>
    cases sat with
    | judged generation job => exact StillTrue.step haccounted hstep hjudged htakes
    | none => trivial
    | other generation => trivial
  | waiting sat =>
    cases sat with
    | judged generation job => exact StillTrue.step haccounted hstep hjudged htakes
    | none => trivial
    | other generation => trivial

/-! ### A stand-in moves -/

omit [DecidableEq StandIn] in
/-- One more card adds at most one to those set aside. -/
theorem setAside_succ_le (state : HandOver gpus StandIn) (slot : Fin gpus) :
    state.setAside (slot.val + 1) ≤ state.setAside slot.val + 1 := by
  unfold setAside
  refine le_trans (Finset.card_le_card ?_) (Finset.card_insert_le slot _)
  intro other hother
  simp only [Finset.mem_filter, Finset.mem_univ, true_and, Finset.mem_insert] at hother ⊢
  obtain ⟨hbefore, hcounts⟩ := hother
  rcases Nat.lt_succ_iff_lt_or_eq.mp hbefore with hless | heq
  · exact .inr ⟨hless, hcounts⟩
  · exact .inl (Fin.ext heq)

omit [DecidableEq StandIn] in
/-- A card that claims nothing, or is not set aside, adds nothing. -/
theorem setAside_succ_of_not (state : HandOver gpus StandIn) (slot : Fin gpus)
    (hnot : ¬(state.claims slot .bc3Hash = true ∧ state.stalled slot ≠ 0)) :
    state.setAside (slot.val + 1) ≤ state.setAside slot.val := by
  unfold setAside
  apply Finset.card_le_card
  intro other hother
  simp only [Finset.mem_filter, Finset.mem_univ, true_and] at hother ⊢
  obtain ⟨hbefore, hcounts⟩ := hother
  rcases Nat.lt_succ_iff_lt_or_eq.mp hbefore with hless | heq
  · exact ⟨hless, hcounts⟩
  · rw [Fin.ext heq] at hcounts
    exact absurd hcounts hnot

omit [DecidableEq StandIn] in
/-- More claims than cards set aside: some card takes the job. -/
theorem takes_of_setAside_lt {state : HandOver gpus StandIn} {slot : ℕ} (hslot : gpus ≤ slot)
    (hless : state.setAside slot < state.claimed) : state.Takes := by
  by_contra hnone
  have hall : state.claimed ≤ state.setAside slot := by
    apply Finset.card_le_card
    intro other hother
    simp only [Finset.mem_filter, Finset.mem_univ, true_and] at hother ⊢
    exact ⟨other.isLt.trans_le hslot, hother, fun hzero ↦ hnone ⟨other, hother, hzero⟩⟩
  exact absurd hless (Nat.not_lt.mpr hall)

omit [DecidableEq StandIn] in
theorem setAside_zero (state : HandOver gpus StandIn) : state.setAside 0 = 0 := by
  simp [setAside]

/-- Reading on, and coming to a verdict. -/
theorem Judged.judgeStep {state : HandOver gpus StandIn} (haccounted : state.Accounted)
    {thread : StandIn} {standIn next : StandInState} (hjudged : state.Judged thread standIn)
    (hstep : state.judgeStep standIn = some next) : state.Judged thread next := by
  cases standIn with
  | ready sat => cases hstep
  | waiting sat => cases hstep
  | mining generation job => cases hstep
  | judging generation job =>
    obtain rfl := Option.some.inj hstep
    refine ⟨hjudged, fun hbc3 _ ↦ ?_⟩
    by_cases hpending : state.Pending
    · exact .inl hpending
    · have hidle : ∀ slot, state.claim slot = .idle := by
        intro slot
        by_contra hclaim
        exact hpending (.claim slot hclaim)
      have hcapable : state.capable job.algo = state.claimed := by
        rw [hbc3]
        exact haccounted.capable_eq hidle
      exact .inr ⟨hcapable.le, (setAside_zero state).le⟩
  | scanning generation job capable slot stalledClaims =>
    obtain ⟨hhanded, hfound⟩ := hjudged
    simp only [HandOver.judgeStep] at hstep
    by_cases hslot : slot < gpus
    · rw [dif_pos hslot] at hstep
      by_cases hstalled : state.stalled ⟨slot, hslot⟩ ≠ 0
      · rw [if_pos hstalled] at hstep
        obtain rfl := Option.some.inj hstep
        exact ⟨hhanded, hfound⟩
      · rw [if_neg hstalled] at hstep
        obtain rfl := Option.some.inj hstep
        refine ⟨hhanded, fun hbc3 hgeneration ↦
          (hfound hbc3 hgeneration).imp_right fun hcounts ↦ ?_⟩
        have hsame := state.setAside_succ_of_not ⟨slot, hslot⟩ fun hboth ↦ hstalled hboth.2
        exact ⟨hcounts.1, hsame.trans hcounts.2⟩
    · rw [dif_neg hslot] at hstep
      by_cases hless : stalledClaims < capable
      · rw [if_pos hless] at hstep
        obtain rfl := Option.some.inj hstep
        refine ⟨hhanded, fun hbc3 hgeneration ↦
          (hfound hbc3 hgeneration).imp_right fun hcounts ↦ ?_⟩
        apply takes_of_setAside_lt (Nat.not_lt.mp hslot)
        calc state.setAside slot ≤ stalledClaims := hcounts.2
          _ < capable := hless
          _ ≤ state.claimed := hcounts.1
      · rw [if_neg hless] at hstep
        obtain rfl := Option.some.inj hstep
        trivial
  | scanningClaims generation job capable slot stalledClaims =>
    obtain ⟨hhanded, hfound⟩ := hjudged
    simp only [HandOver.judgeStep] at hstep
    by_cases hslot : slot < gpus
    · rw [dif_pos hslot] at hstep
      obtain rfl := Option.some.inj hstep
      refine ⟨hhanded, fun hbc3 hgeneration ↦ (hfound hbc3 hgeneration).imp_right fun hcounts ↦ ?_⟩
      refine ⟨hcounts.1, ?_⟩
      rw [hbc3]
      by_cases hclaims : state.claims ⟨slot, hslot⟩ .bc3Hash = true
      · rw [if_pos hclaims]
        exact (state.setAside_succ_le ⟨slot, hslot⟩).trans (Nat.succ_le_succ hcounts.2)
      · rw [if_neg hclaims]
        have hsame := state.setAside_succ_of_not ⟨slot, hslot⟩ fun hboth ↦ hclaims hboth.1
        exact hsame.trans hcounts.2
    · rw [dif_neg hslot] at hstep
      cases hstep

/-- What a step can do to the record of a stand-in. -/
inductive Moves (state next : HandOver gpus StandIn) (thread : StandIn) :
    StandInState → StandInState → Prop
  | stays (standIn : StandInState) : Moves state next thread standIn standIn
  | calls (sat : SatOut) : Moves state next thread (.ready sat) (.waiting sat)
  | finds (sat : SatOut) (generation : ℕ) (job : MinerJob)
      (hhanded : (.standIn thread, generation, job) ∈ next.board.handed) :
      Moves state next thread (.waiting sat) (.judging generation job)
  | judges (standIn standInNext : StandInState)
  (hjudge : state.judgeStep standIn = some standInNext) :
      Moves state next thread standIn standInNext
  | leaves (generation : ℕ) (job : MinerJob) (sat : SatOut)
      (hsat : sat = .none ∨ sat = .other generation) :
      Moves state next thread (.mining generation job) (.ready sat)

/-- The record of the thread that moves is as it moved, that of any other as it was. -/
theorem Moves.of_update {state next : HandOver gpus StandIn} {thread : StandIn}
    {standIn : StandInState}
    (hnext : next.standIn = Function.update state.standIn thread standIn)
    (hmoves : Moves state next thread (state.standIn thread) standIn) (other : StandIn) :
    Moves state next other (state.standIn other) (next.standIn other) := by
  rw [hnext]
  by_cases hother : other = thread
  · rw [hother, Function.update_self]
    exact hmoves
  · rw [Function.update_of_ne hother]
    exact .stays _

omit [DecidableEq StandIn] in
theorem Moves.of_same {state next : HandOver gpus StandIn} (hsame : next.standIn = state.standIn)
    (thread : StandIn) : Moves state next thread (state.standIn thread) (next.standIn thread) := by
  rw [hsame]
  exact .stays _

/-- A look at the board that finds a job records that it was handed out. -/
theorem moves_of_look {state next : HandOver gpus StandIn} {thread : StandIn}
    (hstep : state.lookStep thread = some next) (other : StandIn) :
    Moves state next other (state.standIn other) (next.standIn other) := by
  unfold lookStep at hstep
  split at hstep
  · rename_i sat call hwaiting hchecking
    obtain ⟨board, hboard, rfl⟩ := Option.map_eq_some_iff.mp hstep
    refine Moves.of_update rfl ?_ other
    rw [hwaiting]
    simp only [Board.step, hchecking] at hboard
    obtain rfl := Option.some.inj hboard
    cases hfound : call.found state.board.slot state.board.generation with
    | none => exact .stays _
    | some job =>
      refine .finds sat state.board.generation job ?_
      simp only [Board.look, hfound]
      exact List.mem_cons_self
  · cases hstep

/-- In every step each stand-in's record moves in one of these ways. -/
theorem moves_of_step {state next : HandOver gpus StandIn} {event : HandOverEvent gpus StandIn}
    (hstep : state.step event = some next) (other : StandIn) :
    Moves state next other (state.standIn other) (next.standIn other) := by
  cases event with
  | call thread =>
    simp only [HandOver.step] at hstep
    split at hstep
    · rename_i sat hready
      obtain ⟨board, hboard, rfl⟩ := Option.map_eq_some_iff.mp hstep
      refine Moves.of_update rfl ?_ other
      rw [hready]
      exact .calls sat
    · cases hstep
  | look thread => exact moves_of_look hstep other
  | judge thread =>
    obtain ⟨standIn, hjudge, rfl⟩ := Option.map_eq_some_iff.mp hstep
    exact Moves.of_update rfl (.judges _ _ hjudge) other
  | leave thread exhausted =>
    simp only [HandOver.step] at hstep
    split at hstep
    · rename_i generation job hmining
      split_ifs at hstep
      · obtain rfl := Option.some.inj hstep
        refine Moves.of_update rfl ?_ other
        rw [hmining]
        exact .leaves generation job _ (.inr rfl)
      · obtain rfl := Option.some.inj hstep
        refine Moves.of_update rfl ?_ other
        rw [hmining]
        exact .leaves generation job _ (.inl rfl)
    · cases hstep
  | _ => exact .of_same (elsewhere_of_step hstep rfl).1 other

/-- What every step of the hand-over keeps, the stand-ins included. -/
structure Sound (state : HandOver gpus StandIn) : Prop where
  accounted : state.Accounted
  judged : ∀ thread, state.Judged thread (state.standIn thread)

theorem Sound.start : (HandOver.start : HandOver gpus StandIn).Sound where
  accounted := .start
  judged := fun _ ↦ trivial

/-- Every step keeps the hand-over sound. -/
theorem Sound.step {state next : HandOver gpus StandIn} (hsound : state.Sound)
    {event : HandOverEvent gpus StandIn} (hstep : state.step event = some next) : next.Sound := by
  obtain ⟨haccounted, hjudged⟩ := hsound
  refine ⟨haccounted.step hstep, fun thread ↦ ?_⟩
  have hbefore := hjudged thread
  have hmoves := moves_of_step hstep thread
  generalize state.standIn thread = standIn at hbefore hmoves
  generalize next.standIn thread = standInNext at hmoves
  cases hmoves with
  | stays => exact hbefore.step haccounted hstep
  | calls sat =>
    have hcalled : state.Judged thread (.waiting sat) := by
      cases sat <;> exact hbefore
    exact hcalled.step haccounted hstep
  | finds sat generation job hhanded => exact hhanded
  | judges _ _ hjudge => exact (hbefore.judgeStep haccounted hjudge).step haccounted hstep
  | leaves generation job sat hsat =>
    rcases hsat with rfl | rfl
    · trivial
    · trivial

theorem Sound.of_run {events : List (HandOverEvent gpus StandIn)} {state : HandOver gpus StandIn}
    (hrun : PartialMachine.run HandOver.step HandOver.start events = some state) : state.Sound :=
  PartialMachine.invariant_of_run (fun _ _ _ hstep hsound ↦ hsound.step hstep) hrun .start

/-! ### Nobody sleeps on a job that no GPU takes -/

/-- Every claim, every stall check and every publication that was begun is complete. -/
structure Settled (state : HandOver gpus StandIn) : Prop where
  claim : ∀ slot, state.claim slot = .idle
  gpu : ∀ slot, state.board.threads (.gpu slot) = .idle
  stall : state.stall = .idle
  stalls : state.board.threads .stalls = .idle
  publish : state.publish = .idle
  stratum : state.board.stratum = .idle

/-- In a settled state no nudge is pending. -/
theorem Settled.not_pending {state : HandOver gpus StandIn} (hsettled : state.Settled) :
    ¬state.Pending := by
  intro hpending
  rcases hpending with ⟨slot, hclaim⟩ | howes | ⟨job, hposting⟩ | hclearing
  · exact hclaim (hsettled.claim slot)
  · rw [hsettled.stall] at howes
    exact howes
  · rw [hsettled.publish] at hposting
    cases hposting
  · rw [hsettled.stratum] at hclearing
    cases hclearing

/-- No wake-up is lost between the cards and their stand-ins. Take any interleaving of claims,
releases, stall checks, publications and verdicts, step by step, at whose end everything that was
begun is complete (`Settled`) and the job in the slot is a BC3Hash job that no card takes: every one
that claims it is set aside. Then no stand-in sleeps on it because it judged, at the present
generation, that the GPUs mine the job. -/
theorem no_standIn_sleeps_on_an_untaken_job {events : List (HandOverEvent gpus StandIn)}
    {state : HandOver gpus StandIn}
    (hrun : PartialMachine.run HandOver.step HandOver.start events = some state)
    (hsettled : state.Settled) {job : MinerJob} (hslot : state.board.slot = some job)
    (hbc3 : job.algo = .bc3Hash)
    (huntaken : ∀ slot, state.claims slot .bc3Hash = true → state.stalled slot ≠ 0) :
    ¬∃ thread judgedJob lookedAt,
      state.standIn thread = .waiting (.judged state.board.generation judgedJob) ∧
      state.board.threads (.standIn thread) = .asleep (.after state.board.generation) lookedAt := by
  rintro ⟨thread, judgedJob, lookedAt, hwaiting, -⟩
  have hsound := Sound.of_run hrun
  have hjudged := hsound.judged thread
  rw [hwaiting] at hjudged
  obtain ⟨hhanded, hfound⟩ := hjudged
  have hsame : judgedJob = job := by
    rcases hsound.accounted.board.held _ hhanded rfl with hheld | ⟨-, hclearing⟩
    · exact Option.some.inj (hheld.symm.trans hslot)
    · rw [hsettled.stratum] at hclearing
      cases hclearing
  rcases hfound (hsame ▸ hbc3) rfl with hpending | ⟨slot, hclaims, hzero⟩
  · exact hsettled.not_pending hpending
  · exact huntaken slot hclaims hzero

/-- There is a card, and a stand-in. -/
local instance neZeroParties : NeZero 1 := ⟨Nat.one_ne_zero⟩

/-- A card claims BC3Hash and a stand-in leaves it a job; then the card drops its claim and
nudges. -/
def droppedClaim (job : MinerJob) : List (HandOverEvent 1 (Fin 1)) :=
  [.set 0 .bc3Hash true, .claim 0 1, .claim 0 1, .claim 0 1, .claim 0 1,
    .publish job, .notePow, .post 2, .notify,
    .call 0, .look 0, .judge 0, .judge 0, .judge 0, .call 0, .look 0,
    .set 0 .bc3Hash false, .claim 0 3, .claim 0 3, .claim 0 3, .claim 0 3, .claimNotify 0]

/-- A card drops its claim on a job that a stand-in has left to it. At the end of the run all is
settled with the job still on the board, no card takes it, and the stand-in is not asleep on what it
had found. -/
theorem droppedClaim_wakes : ∃ state job,
    PartialMachine.run HandOver.step HandOver.start (droppedClaim job) = some state ∧
      state.board.slot = some job ∧ state.Settled ∧
      (∀ slot, state.claims slot .bc3Hash = true → state.stalled slot ≠ 0) ∧
      ¬∃ thread judgedJob lookedAt,
        state.standIn thread = .waiting (.judged state.board.generation judgedJob) ∧
        state.board.threads (.standIn thread) =
          .asleep (.after state.board.generation) lookedAt := by
  let job := bareJob 0 (Vector.replicate 32 0)
  obtain ⟨state, hrun⟩ : ∃ state,
      PartialMachine.run HandOver.step HandOver.start (droppedClaim job) = some state := ⟨_, rfl⟩
  have hstate := Option.some.inj hrun
  have hslot : state.board.slot = some job := by
    rw [← hstate]
    rfl
  have hsettled : state.Settled := by
    rw [← hstate]
    exact ⟨by decide, by decide, rfl, rfl, rfl, rfl⟩
  have huntaken : ∀ slot, state.claims slot .bc3Hash = true → state.stalled slot ≠ 0 := by
    rw [← hstate]
    decide
  exact ⟨state, job, hrun, hslot, hsettled, huntaken,
    no_standIn_sleeps_on_an_untaken_job hrun hsettled hslot rfl huntaken⟩

end HandOver

end Bc3Miner.Sharing
