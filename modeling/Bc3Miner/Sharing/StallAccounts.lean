import Bc3Miner.Sharing.StallCheck

/-!
# The three records of the cards agree

However claims are raised and dropped, launches end, jobs come and go and the stall check goes over
the cards: the count of a proof of work is the number of cards whose mask has its bit, each counted
once, the GPUs mine it exactly when one of them claims it and is not set aside, and the stall check
reports a card that it set aside a second time only after it has taken it back.

`claims_and_stalls_are_accounted` is over any calls with any clock, one that goes back included. A
drop of a claim that is not held changes nothing (`drop_keeps` of `StallCheck`), which is why a
count cannot fall below zero.
-/

set_option autoImplicit false
set_option relaxedAutoImplicit false

namespace Bc3Miner.Sharing.Capabilities

open Foundations Consensus Mining

variable {gpus : ℕ}

/-! ### Masks and counts -/

/-- The cards whose mask has the bit of a proof of work. -/
def claimants (state : Capabilities gpus) (algo : PowAlgo) : Finset (Fin gpus) :=
  Finset.univ.filter fun slot ↦ (state.cards slot).claims algo = true

@[simp] theorem mem_claimants (state : Capabilities gpus) (algo : PowAlgo) (slot : Fin gpus) :
    slot ∈ state.claimants algo ↔ (state.cards slot).claims algo = true := by
  simp [claimants]

/-- Every `GpuCapability` holds what the mask of its card says, and every claim is counted once. -/
structure Accounted (state : Capabilities gpus) : Prop where
  held : ∀ slot, (state.cards slot).held = (state.cards slot).claims
  counted : ∀ algo, state.capable algo = (state.claimants algo).card

/-- At the start no card claims anything. -/
theorem Accounted.start : (Capabilities.start : Capabilities gpus).Accounted where
  held := fun _ ↦ rfl
  counted := by
    intro algo
    have hnone : (Capabilities.start : Capabilities gpus).claimants algo = ∅ :=
      Finset.filter_eq_empty_iff.mpr fun _ _ hclaims ↦ Bool.false_ne_true hclaims
    rw [hnone]
    rfl

/-- Claims, counts and holdings are all that the accounts go by. -/
theorem Accounted.of_same {state next : Capabilities gpus} (haccounted : state.Accounted)
    (hheld : ∀ slot, (next.cards slot).held = (state.cards slot).held)
    (hclaims : ∀ slot, (next.cards slot).claims = (state.cards slot).claims)
    (hcapable : next.capable = state.capable) : next.Accounted where
  held := by
    intro slot
    rw [hheld, hclaims]
    exact haccounted.held slot
  counted := by
    intro algo
    have hsame : next.claimants algo = state.claimants algo := by
      ext slot
      rw [mem_claimants, mem_claimants, hclaims]
    rw [hcapable, hsame]
    exact haccounted.counted algo

/-- A claim that a card does not have yet adds the card to the claimants of the proof of work, and a
release takes it from them; the claimants of other proofs of work are the same. -/
theorem claimants_set {state : Capabilities gpus} {slot : Fin gpus} {algo : PowAlgo}
    {capable : Bool}
    (now : ℕ) (hheld : (state.cards slot).held algo ≠ capable) (other : PowAlgo) :
    (state.set slot algo capable now).claimants other =
      if other = algo then
        if capable then insert slot (state.claimants algo) else (state.claimants algo).erase slot
      else state.claimants other := by
  ext card
  rw [mem_claimants, set_cards]
  by_cases hother : other = algo
  · subst hother
    rw [if_pos rfl]
    by_cases hcard : card = slot
    · subst hcard
      rw [if_pos ⟨rfl, hheld⟩]
      cases capable with
      | true => simp [Card.withClaim]
      | false => simp [Card.withClaim]
    · rw [if_neg fun hboth ↦ hcard hboth.1]
      cases capable with
      | true => simp [hcard]
      | false => simp [hcard]
  · rw [if_neg hother, mem_claimants]
    by_cases hcard : card = slot
    · subst hcard
      rw [if_pos ⟨rfl, hheld⟩]
      simp [Card.withClaim, Function.update_of_ne hother]
    · rw [if_neg fun hboth ↦ hcard hboth.1]

/-- Setting a claim keeps the accounts. -/
theorem Accounted.set {state : Capabilities gpus} (haccounted : state.Accounted) (slot : Fin gpus)
    (algo : PowAlgo) (capable : Bool) (now : ℕ) : (state.set slot algo capable now).Accounted := by
  by_cases hheld : (state.cards slot).held algo = capable
  · rw [set_of_eq state now hheld]
    exact haccounted
  · have hclaims : (state.cards slot).claims algo = !capable := by
      rw [← haccounted.held slot]
      exact Bool.eq_not_of_ne hheld
    constructor
    · intro card
      rw [set_cards]
      by_cases hcard : card = slot
      · rw [if_pos ⟨hcard, hheld⟩]
        exact congrArg (Function.update · algo capable) (haccounted.held slot)
      · rw [if_neg fun hboth ↦ hcard hboth.1]
        exact haccounted.held card
    · intro other
      rw [claimants_set now hheld, set_of_ne state now hheld]
      by_cases hother : other = algo
      · subst hother
        rw [if_pos rfl]
        show Function.update state.capable other _ other = _
        rw [Function.update_self, haccounted.counted]
        cases capable with
        | true =>
          have hnot : slot ∉ state.claimants other := by simp [hclaims]
          rw [if_pos rfl, if_pos rfl, Finset.card_insert_of_notMem hnot]
          exact (Nat.cast_succ _).symm
        | false =>
          have hmem : slot ∈ state.claimants other := by simp [hclaims]
          rw [if_neg Bool.false_ne_true, if_neg Bool.false_ne_true, Finset.card_erase_of_mem hmem]
          exact (Nat.cast_pred (Finset.card_pos.mpr ⟨slot, hmem⟩)).symm
      · rw [if_neg hother]
        show Function.update state.capable algo _ other = _
        rw [Function.update_of_ne hother]
        exact haccounted.counted other

/-- Every event keeps the accounts. -/
theorem Accounted.step {state : Capabilities gpus} (haccounted : state.Accounted)
    (event : CapabilityEvent gpus) : (state.step event).Accounted := by
  cases event with
  | set slot algo capable now => exact haccounted.set slot algo capable now
  | drop slot now =>
    exact drop_keeps Accounted
      (fun _ algo hkept ↦ Accounted.set hkept slot algo false now) haccounted
  | launched slot now =>
    refine haccounted.of_same (fun card ↦ ?_) (fun card ↦ ?_) rfl
    · show ((state.launched slot now).cards card).held = _
      rw [launched_cards]
    · show ((state.launched slot now).cards card).claims = _
      rw [launched_cards]
  | publish job now => exact haccounted.of_same (fun _ ↦ rfl) (fun _ ↦ rfl) rfl
  | clear now => exact haccounted.of_same (fun _ ↦ rfl) (fun _ ↦ rfl) rfl
  | check now limit =>
    refine haccounted.of_same (fun card ↦ ?_) (fun card ↦ ?_) rfl
    · show (state.checkCard now limit card).1.held = _
      rw [checkCard_fields]
    · show (state.checkCard now limit card).1.claims = _
      rw [checkCard_fields]

theorem run_accounted (events : List (CapabilityEvent gpus)) : (run events).Accounted :=
  TotalMachine.invariant_of_run Accounted (fun _ event haccounted ↦ haccounted.step event)
    Accounted.start events

/-- A claim that is held is counted, so releasing it cannot take the count below zero. -/
theorem Accounted.capable_pos {state : Capabilities gpus} (haccounted : state.Accounted)
    {slot : Fin gpus}
    {algo : PowAlgo} (hheld : (state.cards slot).held algo = true) : 0 < state.capable algo := by
  have hmem : slot ∈ state.claimants algo := by
    rw [mem_claimants, ← haccounted.held]
    exact hheld
  rw [haccounted.counted]
  exact Int.natCast_pos.mpr (Finset.card_pos.mpr ⟨slot, hmem⟩)

/-! ### What the GPUs mine -/

/-- The stalled claims are counted as the cards that claim and are stalled. -/
theorem stalledClaims_eq (state : Capabilities gpus) (algo : PowAlgo) :
    state.stalledClaims algo =
      ((state.claimants algo).filter fun slot ↦ (state.cards slot).stalled ≠ 0).card := by
  have hcard : state.stalledClaims algo =
      (Finset.univ.filter fun slot ↦
        (state.cards slot).stalled ≠ 0 ∧ (state.cards slot).claims algo = true).card := rfl
  rw [hcard]
  congr 1
  ext slot
  simp [and_comm]

/-- The GPUs mine a proof of work exactly when a card that is not set aside claims it. -/
theorem Accounted.gpusMine_iff {state : Capabilities gpus} (haccounted : state.Accounted)
    (algo : PowAlgo) :
    state.gpusMine algo = true ↔
      ∃ slot, (state.cards slot).claims algo = true ∧ (state.cards slot).stalled = 0 := by
  unfold gpusMine
  rw [decide_eq_true_iff, haccounted.counted, stalledClaims_eq, Nat.cast_lt]
  constructor
  · intro hfewer
    by_contra hnone
    push Not at hnone
    refine absurd hfewer (Nat.not_lt.mpr (Finset.card_le_card fun slot hslot ↦ ?_))
    exact Finset.mem_filter.mpr ⟨hslot, hnone slot ((mem_claimants ..).mp hslot)⟩
  · rintro ⟨slot, hclaims, hhashes⟩
    exact Finset.card_lt_card (Finset.filter_ssubset.mpr
      ⟨slot, (mem_claimants ..).mpr hclaims, fun hstalled ↦ hstalled hhashes⟩)

/-! ### Cards set aside -/

/-- A card that claims nothing is not set aside after a check. -/
theorem check_nothing {state : Capabilities gpus} (now limit : ℕ) {slot : Fin gpus}
    (hnothing : ∀ algo, (state.cards slot).claims algo = false) :
    (state.checkCard now limit slot).1.stalled = 0 := by
  have hmask := (claimNothing_iff _).mpr hnothing
  rcases checkCard_cases state now limit slot with
    ⟨-, -, hcheck⟩ | ⟨-, ⟨algo, -, hclaims⟩, -, -, -⟩ | ⟨hkept, hcheck⟩
  · rw [hcheck]
  · rw [hnothing algo] at hclaims
    cases hclaims
  · rw [hcheck]
    by_contra hstalled
    rw [hkept hstalled] at hmask
    cases hmask

/-- If a card was set aside before a step and is not after it, then the step was a check, and that
check reports the card as back or has found that it claims nothing. -/
theorem taken_back {state : Capabilities gpus} {event : CapabilityEvent gpus} {slot : Fin gpus}
    (hbefore : (state.cards slot).stalled ≠ 0)
    (hafter : ((state.step event).cards slot).stalled = 0) :
    ∃ now limit, event = .check now limit ∧
      (.resumed slot ∈ (state.checkGpuStalls now limit).2 ∨
        ∀ algo, (state.cards slot).claims algo = false) := by
  cases event with
  | set card algo capable now =>
    have hsame : ((state.set card algo capable now).cards slot).stalled =
      (state.cards slot).stalled :=
      (set_rest ..).1
    exact absurd (hsame.symm.trans hafter) hbefore
  | drop card now =>
    have hsame : ((state.drop card now).cards slot).stalled = (state.cards slot).stalled :=
      drop_keeps (fun current ↦ (current.cards slot).stalled = (state.cards slot).stalled)
        (fun current algo hkept ↦ (set_rest ..).1.trans hkept) rfl
    exact absurd (hsame.symm.trans hafter) hbefore
  | launched card now =>
    have hsame : ((state.launched card now).cards slot).stalled = (state.cards slot).stalled := by
      rw [launched_cards]
    exact absurd (hsame.symm.trans hafter) hbefore
  | publish job now => exact absurd hafter hbefore
  | clear now => exact absurd hafter hbefore
  | check now limit =>
    have hcard : (state.checkCard now limit slot).1.stalled = 0 := hafter
    refine ⟨now, limit, rfl, ?_⟩
    rcases checkCard_cases state now limit slot with
      ⟨-, -, hcheck⟩ | ⟨hhashes, -, -, -, -⟩ | ⟨-, hcheck⟩
    · by_cases hnothing : claimNothing (state.cards slot).claims = true
      · exact .inr ((claimNothing_iff _).mp hnothing)
      · refine .inl ((mem_reports state now limit _).mpr ⟨slot, ?_⟩)
        rw [hcheck, if_neg hnothing]
        exact List.mem_singleton_self _
    · exact absurd hhashes hbefore
    · rw [hcheck] at hcard
      exact absurd hcard hbefore

/-- Between two reports that a card stalled there is a check that reports it resumed, or one at
which it claims nothing: the card goes from set aside to hashing somewhere between the two. -/
theorem taken_back_between {first middle : List (CapabilityEvent gpus)}
    {now limit idleSecs laterNow laterLimit laterIdleSecs : ℕ} {slot : Fin gpus}
    (hfirst : .stalled slot idleSecs ∈ ((run first).checkGpuStalls now limit).2)
    (hsecond : .stalled slot laterIdleSecs ∈
      ((run (first ++ .check now limit :: middle)).checkGpuStalls laterNow laterLimit).2) :
    ∃ (before after : List (CapabilityEvent gpus)) (backNow backLimit : ℕ),
      middle = before ++ .check backNow backLimit :: after ∧
      (.resumed slot ∈
          ((run (first ++ .check now limit :: before)).checkGpuStalls backNow backLimit).2 ∨
        ∀ algo, ((run (first ++ .check now limit :: before)).cards slot).claims algo = false) := by
  have hsplit : ∀ events : List (CapabilityEvent gpus),
      run (first ++ .check now limit :: events) =
        TotalMachine.run step ((run first).step (.check now limit)) events :=
    fun events ↦ TotalMachine.run_append step start first (.check now limit :: events)
  have haside : (((run first).step (.check now limit)).cards slot).stalled ≠ 0 :=
    (stalled_reported hfirst).2.1
  have hback := (stalled_reported hsecond).1
  rw [hsplit] at hback
  obtain ⟨before, event, after, hmiddle, hoff, hon⟩ :=
    TotalMachine.exists_turn (fun state : Capabilities gpus ↦ (state.cards slot).stalled = 0)
      haside hback
  obtain ⟨backNow, backLimit, hevent, hhow⟩ := taken_back hoff hon
  refine ⟨before, after, backNow, backLimit, ?_, ?_⟩
  · rw [hmiddle, hevent]
  · rw [hsplit]
    exact hhow

/-- The accounts over every sequence of claims, releases, drops, launch stamps, jobs and checks:
every `GpuCapability` holds what its card's mask says and the count of a proof of work is the number
of masks with its bit, so that no count falls below zero; the GPUs mine it exactly when a card
claims it that is not set aside; a check leaves no card set aside that claims nothing, and reports
about no card twice; and between two reports that a card stalled it is taken back. -/
theorem claims_and_stalls_are_accounted (events : List (CapabilityEvent gpus)) :
    (∀ slot, ((run events).cards slot).held = ((run events).cards slot).claims) ∧
    (∀ algo, (run events).capable algo = ((run events).claimants algo).card) ∧
    (∀ slot algo, ((run events).cards slot).held algo = true → 0 < (run events).capable algo) ∧
    (∀ algo, (run events).gpusMine algo = true ↔ ∃ slot,
      ((run events).cards slot).claims algo = true ∧ ((run events).cards slot).stalled = 0) ∧
    (∀ now limit slot, (∀ algo, ((run events).cards slot).claims algo = false) →
      ((run (events ++ [.check now limit])).cards slot).stalled = 0) ∧
    (∀ now limit, (((run events).checkGpuStalls now limit).2.map GpuStall.slot).Nodup) ∧
    (∀ (slot : Fin gpus) (first middle rest : List (CapabilityEvent gpus))
      (now limit laterNow laterLimit idleSecs laterIdleSecs : ℕ),
      events = first ++ .check now limit :: middle ++ .check laterNow laterLimit :: rest →
      .stalled slot idleSecs ∈ ((run first).checkGpuStalls now limit).2 →
      .stalled slot laterIdleSecs ∈
        ((run (first ++ .check now limit :: middle)).checkGpuStalls laterNow laterLimit).2 →
      ∃ (before after : List (CapabilityEvent gpus)) (backNow backLimit : ℕ),
        middle = before ++ .check backNow backLimit :: after ∧
        (.resumed slot ∈
            ((run (first ++ .check now limit :: before)).checkGpuStalls backNow backLimit).2 ∨
          ∀ algo, ((run (first ++ .check now limit :: before)).cards slot).claims algo =
          false)) := by
  have haccounted := run_accounted events
  refine ⟨haccounted.held, haccounted.counted, fun slot algo hheld ↦ haccounted.capable_pos hheld,
    haccounted.gpusMine_iff, ?_, reports_nodup _, ?_⟩
  · intro now limit slot hnothing
    have hconcat : run (events ++ [.check now limit]) = (run events).step (.check now limit) :=
      TotalMachine.run_concat step start events _
    rw [hconcat]
    exact check_nothing now limit hnothing
  · intro slot first middle rest now limit laterNow laterLimit idleSecs laterIdleSecs _
      hfirst hsecond
    exact taken_back_between hfirst hsecond

/-- A card that claims BC3Hash, is found silent, finishes a launch, and falls silent again. -/
def silentTwice : List (CapabilityEvent 1) :=
  [.set 0 .bc3Hash true 0, .publish (bareJob 0 (Vector.replicate 32 0)) 0, .check 100 90,
    .launched 0 150,
    .check 160 90, .check 300 90]

/-- A card that is silent, comes back and is silent again: between the two reports of a stall stands
one that takes the first back. -/
theorem silentTwice_taken_back :
    (run silentTwice).gpusMine .bc3Hash = false ∧
      ∃ (before after : List (CapabilityEvent 1)) (backNow backLimit : ℕ),
        [.launched 0 150, .check 160 90] = before ++ .check backNow backLimit :: after ∧
        (.resumed 0 ∈ ((run (silentTwice.take 3 ++ before)).checkGpuStalls backNow backLimit).2 ∨
          ∀ algo, ((run (silentTwice.take 3 ++ before)).cards 0).claims algo = false) := by
  refine ⟨by decide +kernel, ?_⟩
  exact (claims_and_stalls_are_accounted silentTwice).2.2.2.2.2.2 0 (silentTwice.take 2)
    [.launched 0 150, .check 160 90] [] 100 90 300 90 0 0 rfl (by decide +kernel)
      (by decide +kernel)

end Bc3Miner.Sharing.Capabilities
