import Bc3Miner.Foundations.TotalMachine
import Bc3Miner.Sharing.HandOver
import Mathlib.Data.Fintype.Card

/-!
# Claims, launch stamps and the stall check

`Shared` keeps three records of the GPUs: how many cards take each proof of work, which proofs of
work each card claims, and since when the stall check has set a card's claims aside.
`GpuCapability::set` and its drop, the launch stamps, `publish_job`, `clear_job` and
`check_gpu_stalls` of `src/shared.rs` each change some of them.

Here every call is one step that ends before the next begins, with the clock reading it goes by. The
counters are integers, so that a count that fell below zero would show. The generation and the
announcements go by these records and change none of them; they are left out.

`checkCard` is what a check does to one card, and a check goes over the cards in the order of their
slots. It reports about each card at most once (`reports_nodup`), and a card that it reports as
stalled met every condition for it (`stalled_reported`).
-/

set_option autoImplicit false
set_option relaxedAutoImplicit false

namespace Bc3Miner.Sharing

open Foundations Consensus Mining

/-- The card a report is about. -/
def GpuStall.slot : GpuStall → ℕ
  | .stalled slot _ | .resumed slot => slot

/-! ### The records -/

/-- The mask of a card has no bit set. -/
def claimNothing (claims : Claims) : Bool := PowAlgo.all.all fun algo ↦ !claims algo

/-- A card claims nothing exactly when it claims none of the proofs of work. -/
theorem claimNothing_iff (claims : Claims) : claimNothing claims = true ↔
    ∀ algo, claims algo = false := by
  unfold claimNothing
  rw [List.all_eq_true]
  constructor
  · intro hall algo
    have hmem : algo ∈ PowAlgo.all := List.mem_of_getElem? (PowAlgo.all_index algo)
    exact Bool.eq_false_of_not_eq_true' (hall algo hmem)
  · intro hnone algo _
    rw [hnone algo]
    rfl

/-- What is kept of one GPU slot: its mask, when it last raised a claim, since when it is set aside
(0 while it hashes), when its last launch ended, and the claims that its `GpuCapability` holds. -/
structure Card where
  claims : Claims
  claimedAt : ℕ
  stalled : ℕ
  stamp : ℕ
  held : Claims

/-- A card that has claimed or released a proof of work; only a claim is timed. -/
def Card.withClaim (card : Card) (algo : PowAlgo) (capable : Bool) (now : ℕ) : Card :=
  { card with
    held := Function.update card.held algo capable
    claimedAt := if capable then now else card.claimedAt
    claims := Function.update card.claims algo capable }

/-- Everything the stall check and `gpus_mine` go by. -/
structure Capabilities (gpus : ℕ) where
  job : Option MinerJob
  currentAlgo : Option PowAlgo
  jobSince : ℕ
  capable : PowAlgo → ℤ
  cards : Fin gpus → Card

/-- One call, with the time it is made at. -/
inductive CapabilityEvent (gpus : ℕ)
  | set (slot : Fin gpus) (algo : PowAlgo) (capable : Bool) (now : ℕ)
  | drop (slot : Fin gpus) (now : ℕ)
  | launched (slot : Fin gpus) (now : ℕ)
  | publish (job : MinerJob) (now : ℕ)
  | clear (now : ℕ)
  | check (now limit : ℕ)

/-- When the call is made. -/
def CapabilityEvent.time {gpus : ℕ} : CapabilityEvent gpus → ℕ
  | .set _ _ _ now | .drop _ now | .launched _ now | .publish _ now
  | .clear now | .check now _ => now

namespace Capabilities

variable {gpus : ℕ}

/-- Before the first claim and the first job. -/
def start : Capabilities gpus where
  job := none
  currentAlgo := none
  jobSince := 0
  capable := fun _ ↦ 0
  cards := fun _ ↦ ⟨fun _ ↦ false, 0, 0, 0, fun _ ↦ false⟩

/-! ### The calls -/

/-- `GpuCapability::set`: claim or release a proof of work. -/
def set (state : Capabilities gpus) (slot : Fin gpus) (algo : PowAlgo) (capable : Bool) (now : ℕ) :
    Capabilities gpus :=
  if (state.cards slot).held algo = capable then state
  else
    { state with
      cards := Function.update state.cards slot ((state.cards slot).withClaim algo capable now)
      capable := Function.update state.capable algo
        (if capable then state.capable algo + 1 else state.capable algo - 1) }

/-- The drop of a `GpuCapability`: every proof of work is released in turn. -/
def drop (state : Capabilities gpus) (slot : Fin gpus) (now : ℕ) : Capabilities gpus :=
  PowAlgo.all.foldl (fun current algo ↦ current.set slot algo false now) state

/-- A launch of the card ended. -/
def launched (state : Capabilities gpus) (slot : Fin gpus) (now : ℕ) : Capabilities gpus :=
  { state with cards := Function.update state.cards slot { state.cards slot with stamp := now } }

/-- `publish_job`: the proof of work is noted, and a first job after none starts the run of jobs. -/
def publishJob (state : Capabilities gpus) (job : MinerJob) (now : ℕ) : Capabilities gpus :=
  { state with
    currentAlgo := some job.algo
    jobSince := if state.job.isNone then now else state.jobSince
    job := some job }

/-- `clear_job`. -/
def clearJob (state : Capabilities gpus) : Capabilities gpus := { state with job := none }

/-- The latest of the card's last launch, its claim and the start of the current run of jobs. -/
def last (state : Capabilities gpus) (slot : Fin gpus) : ℕ :=
  max (max (state.cards slot).stamp (state.cards slot).claimedAt) state.jobSince

/-- What `check_gpu_stalls` does about one card: the body of its loop, with the change it reports.
It reads and writes no other card. -/
def checkCard (state : Capabilities gpus) (now limit : ℕ)
    (slot : Fin gpus) : Card × List GpuStall :=
  let card := state.cards slot
  if card.stalled ≠ 0 then
    if card.stalled < card.stamp ∨ claimNothing card.claims = true then
      ({ card with stalled := 0 },
        if claimNothing card.claims = true then [] else [.resumed slot])
    else (card, [])
  else
    match state.currentAlgo with
    | none => (card, [])
    | some algo =>
      if state.job.isNone = true ∨ card.claims algo = false then (card, [])
      else if limit < now - state.last slot then
        ({ card with stalled := max now 1 }, [.stalled slot ((now - state.last slot) / 10 ^ 6)])
      else (card, [])

/-- `check_gpu_stalls`: the records after it and the changes it reports, card by card. -/
def checkGpuStalls (state : Capabilities gpus)
    (now limit : ℕ) : Capabilities gpus × List GpuStall :=
  ({ state with cards := fun slot ↦ (state.checkCard now limit slot).1 },
    (List.finRange gpus).flatMap fun slot ↦ (state.checkCard now limit slot).2)

/-- One call. -/
def step (state : Capabilities gpus) : CapabilityEvent gpus → Capabilities gpus
  | .set slot algo capable now => state.set slot algo capable now
  | .drop slot now => state.drop slot now
  | .launched slot now => state.launched slot now
  | .publish job now => state.publishJob job now
  | .clear _ => state.clearJob
  | .check now limit => (state.checkGpuStalls now limit).1

/-- The records after a sequence of calls. -/
def run (events : List (CapabilityEvent gpus)) : Capabilities gpus :=
    TotalMachine.run step start events

/-- The claims on a proof of work that are held by cards set aside. -/
def stalledClaims (state : Capabilities gpus) (algo : PowAlgo) : ℕ :=
  ((List.finRange gpus).filter fun slot ↦
    (state.cards slot).stalled ≠ 0 ∧ (state.cards slot).claims algo = true).length

/-- `gpus_mine`: do GPUs take jobs of this proof of work right now? -/
def gpusMine (state : Capabilities gpus) (algo : PowAlgo) : Bool :=
  decide ((state.stalledClaims algo : ℤ) < state.capable algo)

/-! ### What each call does to a card -/

/-- What every release keeps, a drop keeps. -/
theorem drop_keeps (kept : Capabilities gpus → Prop) {slot : Fin gpus} {now : ℕ}
    (hkeep : ∀ state algo, kept state → kept (set state slot algo false now))
    {state : Capabilities gpus} (hstart : kept state) : kept (state.drop slot now) :=
  TotalMachine.invariant_of_run kept hkeep hstart PowAlgo.all

theorem set_of_eq (state : Capabilities gpus) {slot : Fin gpus} {algo : PowAlgo}
    {capable : Bool} (now : ℕ)
    (hheld : (state.cards slot).held algo = capable) : state.set slot algo capable now = state :=
  if_pos hheld

/-- Setting a claim that is not held yet, or giving one back: the card has the claim, and the count
of the proof of work moves by one. -/
theorem set_of_ne (state : Capabilities gpus) {slot : Fin gpus} {algo : PowAlgo}
    {capable : Bool} (now : ℕ)
    (hheld : (state.cards slot).held algo ≠ capable) :
    state.set slot algo capable now =
      { state with
        cards := Function.update state.cards slot ((state.cards slot).withClaim algo capable now)
        capable := Function.update state.capable algo
          (if capable then state.capable algo + 1 else state.capable algo - 1) } :=
  if_neg hheld

/-- A `set` either does nothing or changes the claim of the one card. -/
theorem set_cards (state : Capabilities gpus) (slot other : Fin gpus) (algo : PowAlgo)
    (capable : Bool)
    (now : ℕ) :
    (state.set slot algo capable now).cards other =
      if other = slot ∧ (state.cards slot).held algo ≠ capable then
        (state.cards slot).withClaim algo capable now
      else state.cards other := by
  by_cases hheld : (state.cards slot).held algo = capable
  · rw [set_of_eq state now hheld, if_neg (fun hboth ↦ hboth.2 hheld)]
  · rw [set_of_ne state now hheld]
    show Function.update state.cards slot _ other = _
    by_cases hother : other = slot
    · rw [if_pos ⟨hother, hheld⟩, hother]
      exact Function.update_self ..
    · rw [if_neg (fun hboth ↦ hother hboth.1)]
      exact Function.update_of_ne hother ..

/-- A `set` neither sets a card aside nor stamps a launch. -/
theorem set_rest (state : Capabilities gpus) (slot other : Fin gpus) (algo : PowAlgo)
    (capable : Bool)
    (now : ℕ) :
    ((state.set slot algo capable now).cards other).stalled = (state.cards other).stalled ∧
      ((state.set slot algo capable now).cards other).stamp = (state.cards other).stamp := by
  rw [set_cards]
  split
  · rename_i hboth
    rw [hboth.1]
    exact ⟨rfl, rfl⟩
  · exact ⟨rfl, rfl⟩

/-- A `set` leaves the job, its proof of work and the start of the run of jobs alone. -/
theorem set_jobs (state : Capabilities gpus) (slot : Fin gpus) (algo : PowAlgo)
    (capable : Bool) (now : ℕ) :
    (state.set slot algo capable now).job = state.job ∧
      (state.set slot algo capable now).currentAlgo = state.currentAlgo ∧
      (state.set slot algo capable now).jobSince = state.jobSince := by
  by_cases hheld : (state.cards slot).held algo = capable
  · rw [set_of_eq state now hheld]
    exact ⟨rfl, rfl, rfl⟩
  · rw [set_of_ne state now hheld]
    exact ⟨rfl, rfl, rfl⟩

/-- The end of a launch stamps the one card. -/
theorem launched_cards (state : Capabilities gpus) (slot other : Fin gpus) (now : ℕ) :
    (state.launched slot now).cards other =
      { state.cards other with stamp := if other = slot then now
      else (state.cards other).stamp } := by
  show Function.update state.cards slot _ other = _
  by_cases hother : other = slot
  · subst hother
    rw [Function.update_self, if_pos rfl]
  · rw [Function.update_of_ne hother, if_neg hother]

/-- The stall check changes of a card nothing but since when it is set aside. -/
theorem checkCard_fields (state : Capabilities gpus) (now limit : ℕ) (slot : Fin gpus) :
    (state.checkCard now limit slot).1 =
      { state.cards slot with stalled := (state.checkCard now limit slot).1.stalled } := by
  unfold checkCard
  dsimp only
  split
  · split
    · rfl
    · rfl
  · split
    · rfl
    · split
      · rfl
      · split
        · rfl
        · rfl

/-! ### What the stall check does about a card -/

/-- A card is taken back, set aside, or left as it is. It is taken back once it has finished a
launch or claims nothing, and set aside while it claims the current proof of work, a job is there,
and the latest of its launch, its claim and the start of the jobs is longer ago than the limit. -/
theorem checkCard_cases (state : Capabilities gpus) (now limit : ℕ) (slot : Fin gpus) :
    ((state.cards slot).stalled ≠ 0 ∧
      ((state.cards slot).stalled < (state.cards slot).stamp ∨
        claimNothing (state.cards slot).claims = true) ∧
      state.checkCard now limit slot =
        ({ state.cards slot with stalled := 0 },
          if claimNothing (state.cards slot).claims = true then [] else [.resumed slot])) ∨
    ((state.cards slot).stalled = 0 ∧
      (∃ algo, state.currentAlgo = some algo ∧ (state.cards slot).claims algo = true) ∧
      state.job.isNone = false ∧ limit < now - state.last slot ∧
      state.checkCard now limit slot =
        ({ state.cards slot with stalled := max now 1 },
          [.stalled slot ((now - state.last slot) / 10 ^ 6)])) ∨
    (((state.cards slot).stalled ≠ 0 → claimNothing (state.cards slot).claims = false) ∧
      state.checkCard now limit slot = (state.cards slot, [])) := by
  unfold checkCard
  dsimp only
  by_cases hstalled : (state.cards slot).stalled ≠ 0
  · rw [if_pos hstalled]
    by_cases hback : (state.cards slot).stalled < (state.cards slot).stamp ∨
        claimNothing (state.cards slot).claims = true
    · rw [if_pos hback]
      exact .inl ⟨hstalled, hback, rfl⟩
    · rw [if_neg hback]
      refine .inr (.inr ⟨fun _ ↦ ?_, rfl⟩)
      exact Bool.eq_false_of_not_eq_true fun hnothing ↦ hback (.inr hnothing)
  · rw [if_neg hstalled]
    have hhashes : (state.cards slot).stalled = 0 := not_not.mp hstalled
    cases halgo : state.currentAlgo with
    | none => exact .inr (.inr ⟨fun habsurd ↦ absurd habsurd hstalled, rfl⟩)
    | some algo =>
      dsimp only
      by_cases hidle : state.job.isNone = true ∨ (state.cards slot).claims algo = false
      · rw [if_pos hidle]
        exact .inr (.inr ⟨fun habsurd ↦ absurd habsurd hstalled, rfl⟩)
      · rw [if_neg hidle]
        by_cases hlate : limit < now - state.last slot
        · rw [if_pos hlate]
          obtain ⟨hjob, hclaims⟩ := not_or.mp hidle
          exact .inr (.inl ⟨hhashes, ⟨algo, rfl, Bool.eq_true_of_not_eq_false hclaims⟩,
            Bool.eq_false_of_not_eq_true hjob, hlate, rfl⟩)
        · rw [if_neg hlate]
          exact .inr (.inr ⟨fun habsurd ↦ absurd habsurd hstalled, rfl⟩)

/-- The reports about one card are at most one, and about that card. -/
theorem checkCard_slots (state : Capabilities gpus) (now limit : ℕ) (slot : Fin gpus) :
    (state.checkCard now limit slot).2.map GpuStall.slot = [] ∨
      (state.checkCard now limit slot).2.map GpuStall.slot = [(slot : ℕ)] := by
  rcases checkCard_cases state now limit slot with
    ⟨-, -, hcheck⟩ | ⟨-, -, -, -, hcheck⟩ | ⟨-, hcheck⟩
  · rw [hcheck]
    dsimp only
    split
    · exact .inl rfl
    · exact .inr rfl
  · rw [hcheck]
    exact .inr rfl
  · rw [hcheck]
    exact .inl rfl

/-- A check reports at most once about a card. -/
theorem reports_nodup (state : Capabilities gpus) (now limit : ℕ) :
    ((state.checkGpuStalls now limit).2.map GpuStall.slot).Nodup := by
  have hsub : ∀ slots : List (Fin gpus),
      ((slots.flatMap fun slot ↦ (state.checkCard now limit slot).2).map GpuStall.slot).Sublist
        (slots.map Fin.val) := by
    intro slots
    induction slots with
    | nil => exact .slnil
    | cons slot rest ih =>
      rw [List.flatMap_cons, List.map_append, List.map_cons]
      rcases checkCard_slots state now limit slot with hnone | hone
      · rw [hnone]
        exact ih.cons _
      · rw [hone]
        exact ih.cons_cons _
  refine (hsub _).nodup ?_
  exact (List.nodup_finRange gpus).map Fin.val_injective

theorem mem_reports (state : Capabilities gpus) (now limit : ℕ) (report : GpuStall) :
    report ∈ (state.checkGpuStalls now limit).2 ↔ ∃ slot,
      report ∈ (state.checkCard now limit slot).2 := by
  unfold checkGpuStalls
  simp only [List.mem_flatMap, List.mem_finRange, true_and]

/-- What a report of a stall says. The card was not set aside before the check and is now; it claims
the current proof of work, of which there is a job; and more than the limit has passed since its
last sign of life. -/
theorem stalled_reported {state : Capabilities gpus} {now limit idleSecs : ℕ} {slot : Fin gpus}
    (hreport : .stalled slot idleSecs ∈ (state.checkGpuStalls now limit).2) :
    (state.cards slot).stalled = 0 ∧ (state.checkCard now limit slot).1.stalled ≠ 0 ∧
      (∃ algo, state.currentAlgo = some algo ∧ (state.cards slot).claims algo = true) ∧
      state.job.isNone = false ∧ limit < now - state.last slot := by
  obtain ⟨card, hcard⟩ := (mem_reports state now limit _).mp hreport
  rcases checkCard_cases state now limit card with
    ⟨-, -, hcheck⟩ | ⟨hhashes, hclaims, hjob, hlate, hcheck⟩ | ⟨-, hcheck⟩
  · rw [hcheck] at hcard
    dsimp only at hcard
    split at hcard
    · cases hcard
    · cases List.mem_singleton.mp hcard
  · rw [hcheck] at hcard
    injection List.mem_singleton.mp hcard with hslot
    obtain rfl : slot = card := Fin.ext hslot
    refine ⟨hhashes, ?_, hclaims, hjob, hlate⟩
    rw [hcheck]
    exact Nat.ne_of_gt (Nat.lt_of_lt_of_le Nat.one_pos (Nat.le_max_right ..))
  · rw [hcheck] at hcard
    cases hcard

end Capabilities

end Bc3Miner.Sharing
