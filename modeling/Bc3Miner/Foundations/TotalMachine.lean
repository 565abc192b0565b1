import Mathlib.Data.List.Basic

/-!
# Runs of a total machine

A machine whose step never refuses an event: `step state event` is the next state. Calls that end
before the next one begins make such a machine, so a statement about every sequence of calls is a
statement about every list of events.

An invariant that every step keeps holds at the end of every run (`invariant_of_run`). A property
that does not hold before a run and holds after it was turned on by one of its events
(`exists_turn`): what is known about the events of a run is then known of the one that did it.

What can happen between two calls, and whether calls can overlap, is not a question for such a
machine; where it is one, the machine is a `PartialMachine` with a step for each access.
-/

set_option autoImplicit false
set_option relaxedAutoImplicit false

namespace Bc3Miner.Foundations.TotalMachine

section Machine

variable {State Event : Type*} (step : State → Event → State)

/-- The state after a list of events. -/
def run (state : State) (events : List Event) : State := events.foldl step state

@[simp] theorem run_nil (state : State) : run step state [] = state := rfl

theorem run_cons (state : State) (event : Event) (rest : List Event) :
    run step state (event :: rest) = run step (step state event) rest := rfl

theorem run_append (state : State) (first rest : List Event) :
    run step state (first ++ rest) = run step (run step state first) rest := List.foldl_append

/-- One more event at the end of a run. -/
theorem run_concat (state : State) (events : List Event) (event : Event) :
    run step state (events ++ [event]) = step (run step state events) event := by
  rw [run_append, run_cons, run_nil]

variable {step}

/-- An invariant that every step keeps holds at the end of every run. -/
theorem invariant_of_run (invariant : State → Prop)
    (hkeep : ∀ state event, invariant state → invariant (step state event)) {state : State}
    (hstart : invariant state) (events : List Event) : invariant (run step state events) := by
  induction events generalizing state with
  | nil => exact hstart
  | cons event rest ih => exact ih (hkeep state event hstart)

/-- A property that holds after a run and not before it is turned on by one event of the run. -/
theorem exists_turn (property : State → Prop) {state : State} {events : List Event}
    (hbefore : ¬ property state) (hafter : property (run step state events)) :
    ∃ first event rest, events = first ++ event :: rest ∧ ¬ property (run step state first) ∧
      property (step (run step state first) event) := by
  induction events generalizing state with
  | nil => exact absurd hafter hbefore
  | cons event rest ih =>
    by_cases hnext : property (step state event)
    · exact ⟨[], event, rest, rfl, hbefore, hnext⟩
    · obtain ⟨first, turn, last, hsplit, hoff, hon⟩ := ih hnext hafter
      exact ⟨event :: first, turn, last, congrArg _ hsplit, hoff, hon⟩

end Machine

end Bc3Miner.Foundations.TotalMachine
