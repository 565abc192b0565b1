import Mathlib.Data.List.Basic

/-!
# Runs of a partial machine

A machine is a step function that may refuse an event: `step state event` is `none` where the event
cannot happen in that state. Interleavings are lists of events, each naming the party that moves, so
a statement about every interleaving is a statement about every list of events that the machine
accepts.

`run` folds the step along a list of events and `Reachable` forgets the list. An invariant that
every step keeps holds at the end of every run (`invariant_of_run`), and one that only the steps
meeting a condition keep holds at the end of every run whose steps all meet it
(`invariant_of_run_of_everyStep`). Where a step keeps a property exactly when it meets a condition,
a run has the property throughout exactly when all its steps meet the condition
(`everyStep_iff_everyState`).
-/

set_option autoImplicit false
set_option relaxedAutoImplicit false

namespace Bc3Miner.Foundations.PartialMachine

section Machine

variable {State Event : Type*} (step : State → Event → Option State)

/-- The state after a list of events, or `none` as soon as one of them is refused. -/
def run (state : State) : List Event → Option State
  | [] => some state
  | event :: rest => (step state event).bind fun next ↦ run next rest

/-- Some list of events leads from one state to the other. -/
def Reachable (start state : State) : Prop :=
  ∃ events, run step start events = some state

/-- Every event of the list meets the condition in the state it is taken in. -/
def EveryStep (condition : State → Event → Prop) (state : State) : List Event → Prop
  | [] => True
  | event :: rest => condition state event ∧
      ∀ next, step state event = some next → EveryStep condition next rest

/-- The property holds in every state of the run. -/
def EveryState (property : State → Prop) (state : State) : List Event → Prop
  | [] => property state
  | event :: rest => property state ∧
      ∀ next, step state event = some next → EveryState property next rest

@[simp] theorem run_nil (state : State) : run step state [] = some state := rfl

theorem run_cons_eq_some {state final : State} {event : Event} {rest : List Event} :
    run step state (event :: rest) = some final ↔
      ∃ next, step state event = some next ∧ run step next rest = some final := by
  simp only [run, Option.bind_eq_some_iff]

theorem run_singleton (state : State) (event : Event) :
    run step state [event] = step state event := by
  simp [run]

/-- A run over two lists of events is a run over the first and a run over the second from where that
one ended. -/
theorem run_append_eq_some {state final : State} {first last : List Event} :
    run step state (first ++ last) = some final ↔
      ∃ middle, run step state first = some middle ∧ run step middle last = some final := by
  induction first generalizing state with
  | nil => simp
  | cons event rest ih =>
    simp only [List.cons_append, run_cons_eq_some, ih]
    constructor
    · rintro ⟨next, hstep, middle, hfirst, hlast⟩
      exact ⟨middle, ⟨next, hstep, hfirst⟩, hlast⟩
    · rintro ⟨middle, ⟨next, hstep, hfirst⟩, hlast⟩
      exact ⟨next, hstep, middle, hfirst, hlast⟩

/-- One more event at the end of a run. -/
theorem run_concat_eq_some {state final : State} {events : List Event} {event : Event} :
    run step state (events ++ [event]) = some final ↔
      ∃ last, run step state events = some last ∧ step last event = some final := by
  simp only [run_append_eq_some, run_cons_eq_some, run_nil, Option.some.injEq, exists_eq_right]

theorem Reachable.refl (state : State) : Reachable step state state := ⟨[], rfl⟩

theorem Reachable.next {start state next : State} {event : Event}
    (hreach : Reachable step start state) (hstep : step state event = some next) :
    Reachable step start next := by
  obtain ⟨events, hrun⟩ := hreach
  exact ⟨events ++ [event], (run_concat_eq_some step).mpr ⟨state, hrun, hstep⟩⟩

variable {step}

/-- An invariant that every step keeps holds at the end of every run. -/
theorem invariant_of_run {invariant : State → Prop}
    (hkeep : ∀ state event next, step state event = some next → invariant state → invariant next)
    {state final : State} {events : List Event} (hrun : run step state events = some final)
    (hstart : invariant state) : invariant final := by
  induction events generalizing state with
  | nil =>
    obtain rfl : state = final := Option.some.inj hrun
    exact hstart
  | cons event rest ih =>
    obtain ⟨next, hstep, hrest⟩ := (run_cons_eq_some step).mp hrun
    exact ih hrest (hkeep state event next hstep hstart)

/-- An invariant that every step keeps holds in every reachable state. -/
theorem invariant_of_reachable {invariant : State → Prop}
    (hkeep : ∀ state event next, step state event = some next → invariant state → invariant next)
    {start state : State} (hreach : Reachable step start state) (hstart : invariant start) :
    invariant state := by
  obtain ⟨events, hrun⟩ := hreach
  exact invariant_of_run hkeep hrun hstart

/-- An invariant that every step meeting a condition keeps holds at the end of every run whose steps
all meet the condition. -/
theorem invariant_of_run_of_everyStep {invariant : State → Prop}
    {condition : State → Event → Prop}
    (hkeep : ∀ state event next, step state event = some next → condition state event →
      invariant state → invariant next)
    {state final : State} {events : List Event} (hrun : run step state events = some final)
    (hevery : EveryStep step condition state events) (hstart : invariant state) :
    invariant final := by
  induction events generalizing state with
  | nil =>
    obtain rfl : state = final := Option.some.inj hrun
    exact hstart
  | cons event rest ih =>
    obtain ⟨next, hstep, hrest⟩ := (run_cons_eq_some step).mp hrun
    exact ih hrest (hevery.2 next hstep) (hkeep state event next hstep hevery.1 hstart)

/-- One more step that meets the condition, in front of others that do. -/
theorem EveryStep.cons {condition : State → Event → Prop} {state next : State} {event : Event}
    {rest : List Event} (hstep : step state event = some next) (hcondition : condition state event)
    (hrest : EveryStep step condition next rest) :
      EveryStep step condition state (event :: rest) := by
  refine ⟨hcondition, fun other hother ↦ ?_⟩
  rw [← Option.some.inj (hstep.symm.trans hother)]
  exact hrest

/-- What holds in every state of a run holds at its end. -/
theorem EveryState.final {property : State → Prop} {state final : State} {events : List Event}
    (hevery : EveryState step property state events) (hrun : run step state events = some final) :
    property final := by
  induction events generalizing state with
  | nil =>
    obtain rfl : state = final := Option.some.inj hrun
    exact hevery
  | cons event rest ih =>
    obtain ⟨next, hstep, hrest⟩ := (run_cons_eq_some step).mp hrun
    exact ih (hevery.2 next hstep) hrest

/-- A condition that holds everywhere holds at every step. -/
theorem EveryStep.of_forall {condition : State → Event → Prop}
    (hall : ∀ state event, condition state event) (state : State) (events : List Event) :
    EveryStep step condition state events := by
  induction events generalizing state with
  | nil => trivial
  | cons event rest ih => exact ⟨hall state event, fun next _ ↦ ih next⟩

/-- Where a step from a state with a property leads to another exactly when it meets a condition, a
run from such a state has the property throughout exactly when all its steps meet the condition. -/
theorem everyStep_iff_everyState {invariant property : State → Prop}
    {condition : State → Event → Prop}
    (hkeep : ∀ state event next, step state event = some next → invariant state → invariant next)
    (hexact : ∀ state event next, step state event = some next → invariant state → property state →
      (condition state event ↔ property next))
    {state final : State} {events : List Event} (hrun : run step state events = some final)
    (hstart : invariant state) (hproperty : property state) :
    EveryStep step condition state events ↔ EveryState step property state events := by
  induction events generalizing state with
  | nil => exact ⟨fun _ ↦ hproperty, fun _ ↦ trivial⟩
  | cons event rest ih =>
    obtain ⟨next, hstep, hrest⟩ := (run_cons_eq_some step).mp hrun
    have honly : ∀ other, step state event = some other → other = next := by
      intro other hother
      exact Option.some.inj (hother.symm.trans hstep)
    have hmatch := hexact state event next hstep hstart hproperty
    constructor
    · rintro ⟨hcondition, hlater⟩
      refine ⟨hproperty, fun other hother ↦ ?_⟩
      rw [honly other hother]
      exact (ih hrest (hkeep _ _ _ hstep hstart) (hmatch.mp hcondition)).mp (hlater next hstep)
    · rintro ⟨-, hlater⟩
      have hnext := hlater next hstep
      have hgood : property next := by
        cases rest with
        | nil => exact hnext
        | cons _ _ => exact hnext.1
      refine ⟨hmatch.mpr hgood, fun other hother ↦ ?_⟩
      rw [honly other hother]
      exact (ih hrest (hkeep _ _ _ hstep hstart) hgood).mpr hnext

end Machine

end Bc3Miner.Foundations.PartialMachine
