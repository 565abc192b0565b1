import Mathlib.Init

/-!
# Attempts

An attempt is a computation on a state that may fail and keeps, when it does, what it had changed
until then: a method on a mutable receiver whose steps return early with an error. `Ensures` says of
one what holds of the state where it returns and where it fails; its rules follow how attempts are
put together.

The rules compose along `>>=` (`Ensures.bind`), split on conditions (`Ensures.ite`), look at the
state (`Ensures.get`) and change it (`Ensures.modify`); `Ensures.weaken` is the rule of consequence,
and `Ensures.ok` and `Ensures.error` read the conclusion off a run. `onError` and `mapError` are the
two ways in which a caller treats a failure, each with its rule.
-/

set_option autoImplicit false
set_option relaxedAutoImplicit false

namespace Bc3Miner.Foundations

/-- A computation on a state that returns a value or fails with an error. -/
abbrev Attempt (Error State Value : Type) := EStateM Error State Value

namespace Attempt

variable {Error State Value Other : Type}

/-- The state is cleaned up where the attempt fails, and the error passed on. -/
def onError (attempt : Attempt Error State Value) (cleanup : State → State) :
    Attempt Error State Value := fun state ↦
  match attempt state with
  | .ok value next => .ok value next
  | .error error next => .error error (cleanup next)

/-- The error is put in other words where the attempt fails. -/
def mapError (attempt : Attempt Error State Value) (reword : Error → Error) :
    Attempt Error State Value := fun state ↦
  match attempt state with
  | .ok value next => .ok value next
  | .error error next => .error (reword error) next

/-- From a state as described, the attempt returns with one property or fails with the other. -/
def Ensures (before : State → Prop) (attempt : Attempt Error State Value)
    (after : Value → State → Prop) (failed : State → Prop) : Prop :=
  ∀ state, before state →
    match attempt state with
    | .ok value next => after value next
    | .error _ next => failed next

namespace Ensures

variable {before before' : State → Prop} {attempt : Attempt Error State Value}
  {after after' : Value → State → Prop} {failed failed' : State → Prop}

/-- A call that succeeds from a state meeting the precondition ends in a state meeting the
postcondition with the value returned. -/
theorem ok (hensures : Ensures before attempt after failed) {state next : State} {value : Value}
    (hbefore : before state) (hrun : attempt.run state = .ok value next) : after value next := by
  have hresult := hensures state hbefore
  change attempt state = .ok value next at hrun
  rw [hrun] at hresult
  exact hresult

/-- A call that fails from a state meeting the precondition leaves a state meeting the condition for
failures. -/
theorem error (hensures : Ensures before attempt after failed) {state next : State} {error : Error}
    (hbefore : before state) (hrun : attempt.run state = .error error next) : failed next := by
  have hresult := hensures state hbefore
  change attempt state = .error error next at hrun
  rw [hrun] at hresult
  exact hresult

/-- A stronger assumption and weaker conclusions. -/
theorem weaken (hensures : Ensures before attempt after failed)
    (hbefore : ∀ state, before' state → before state)
    (hafter : ∀ value state, after value state → after' value state)
    (hfailed : ∀ state, failed state → failed' state) : Ensures before' attempt after' failed' := by
  intro state hstate
  have hresult := hensures state (hbefore state hstate)
  cases hrun : attempt state with
  | ok value next =>
    rw [hrun] at hresult
    exact hafter value next hresult
  | error error next =>
    rw [hrun] at hresult
    exact hfailed next hresult

/-- It is enough to look at each state alone. -/
theorem ofState (hensures : ∀ seen, before seen →
    Ensures (fun state ↦ state = seen) attempt after failed) :
      Ensures before attempt after failed :=
  fun state hstate ↦ hensures state hstate state rfl

/-- Something is known to exist in the state. -/
theorem ofExists {Witness : Type} {before : Witness → State → Prop}
    (hensures : ∀ witness, Ensures (before witness) attempt after failed) :
    Ensures (fun state ↦ ∃ witness, before witness state) attempt after failed := by
  rintro state ⟨witness, hstate⟩
  exact hensures witness state hstate

/-- Something else is known besides, that does not speak of the state. -/
theorem ofAnd {fact : Prop} (hensures : fact → Ensures before attempt after failed) :
    Ensures (fun state ↦ fact ∧ before state) attempt after failed := by
  rintro state ⟨hfact, hstate⟩
  exact hensures hfact state hstate

theorem pure {value : Value} (hafter : ∀ state, before state → after value state) :
    Ensures before (pure value : Attempt Error State Value) after failed := hafter

theorem throw {error : Error} (hfailed : ∀ state, before state → failed state) :
    Ensures before (throw error : Attempt Error State Value) after failed := hfailed

theorem modify {change : State → State} {after : Unit → State → Prop}
    (hafter : ∀ state, before state → after () (change state)) :
    Ensures before (modify change : Attempt Error State Unit) after failed := hafter

/-- One attempt after another, with what holds between them. -/
theorem bind {between : Value → State → Prop} {rest : Value → Attempt Error State Other}
    {after : Other → State → Prop} (hfirst : Ensures before attempt between failed)
    (hrest : ∀ value, Ensures (between value) (rest value) after failed) :
    Ensures before (attempt >>= rest) after failed := by
  intro state hstate
  have hresult := hfirst state hstate
  show match EStateM.bind attempt rest state with
    | .ok value next => after value next
    | .error _ next => failed next
  unfold EStateM.bind
  cases hrun : attempt state with
  | ok value next =>
    rw [hrun] at hresult
    exact hrest value next hresult
  | error error next =>
    rw [hrun] at hresult
    exact hresult

/-- The state is looked at. -/
theorem get {rest : State → Attempt Error State Value}
    (hrest : ∀ seen, before seen → Ensures (fun state ↦ state = seen) (rest seen) after failed) :
    Ensures before (get >>= rest) after failed := by
  intro state hstate
  exact hrest state hstate state rfl

/-- Both branches of a conditional need to ensure the same, each under its side of the condition. -/
theorem ite {condition : Prop} [Decidable condition] {other : Attempt Error State Value}
    (hpos : condition → Ensures before attempt after failed)
    (hneg : ¬condition → Ensures before other after failed) :
    Ensures before (if condition then attempt else other) after failed := by
  by_cases hcondition : condition
  · rw [if_pos hcondition]
    exact hpos hcondition
  · rw [if_neg hcondition]
    exact hneg hcondition

/-- A cleanup after a failure needs to turn what holds after the failing call into what is promised;
success is not affected. -/
theorem onError {cleanup : State → State} (hensures : Ensures before attempt after failed)
    (hcleanup : ∀ state, failed state → failed' (cleanup state)) :
    Ensures before (attempt.onError cleanup) after failed' := by
  intro state hstate
  have hresult := hensures state hstate
  unfold Attempt.onError
  cases hrun : attempt state with
  | ok value next =>
    rw [hrun] at hresult
    exact hresult
  | error error next =>
    rw [hrun] at hresult
    exact hcleanup next hresult

/-- What a call ensures does not depend on how its error is worded. -/
theorem mapError {reword : Error → Error} (hensures : Ensures before attempt after failed) :
    Ensures before (attempt.mapError reword) after failed := by
  intro state hstate
  have hresult := hensures state hstate
  unfold Attempt.mapError
  cases hrun : attempt state with
  | ok value next =>
    rw [hrun] at hresult
    exact hresult
  | error error next =>
    rw [hrun] at hresult
    exact hresult

end Ensures

end Attempt

end Bc3Miner.Foundations
