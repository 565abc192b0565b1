import Mathlib.Data.List.Basic

/-!
# Events that a machine does not notice

A machine that answers every event: `step state event` is the next state and the answer. Its
transcript lists, for every event, the answer to it and the state it left.

Two runs are compared here. In the longer one some events, each marked, were inserted at places
where the machine does not notice them: they leave the state as it is. The transcript of the longer
run without its marked events is then the transcript of the shorter run
(`transcript_without_insertions`).

`InsertedAt` is the condition along the longer run: each marked event comes where the machine, in
the state it has come to, answers it and stays where it is. The two conclusions are on the
transcript and on the state at the end (`after_without_insertions`), and `answer_of_inserted` is
what a marked event itself is answered with.
-/

set_option autoImplicit false
set_option relaxedAutoImplicit false

namespace Bc3Miner.Foundations.Insertions

/-- One event of a run, the answer to it and the state it left. -/
structure Turn (Event Answer State : Type*) where
  event : Event
  answer : Answer
  after : State
  deriving DecidableEq

/-- An event of a run, and whether it was inserted. -/
structure Marked (Event : Type*) where
  event : Event
  inserted : Bool
  deriving DecidableEq

section Machine

variable {State Event Answer : Type*} (step : State → Event → State × Answer)

/-- Every event of a run with the answer to it and the state it left. -/
def transcript (state : State) : List Event → List (Turn Event Answer State)
  | [] => []
  | event :: rest =>
    ⟨event, (step state event).2, (step state event).1⟩ :: transcript (step state event).1 rest

/-- The machine on marked events: it cannot see the marks. -/
def blind (state : State) (marked : Marked Event) : State × Answer := step state marked.event

/-- The state after a list of events. -/
def after (state : State) (events : List Event) : State :=
  events.foldl (fun state event ↦ (step state event).1) state

/-- The events that were not inserted. -/
def own (marked : List (Marked Event)) : List Event :=
  (marked.filter (fun entry ↦ !entry.inserted)).map Marked.event

/-- The turns of the events that were not inserted. -/
def ownTurns (turns : List (Turn (Marked Event) Answer State)) : List (Turn Event Answer State) :=
  (turns.filter (fun turn ↦ !turn.event.inserted)).map fun turn ↦
    ⟨turn.event.event, turn.answer, turn.after⟩

/-- Every inserted event meets the condition in the state of the run that it meets. -/
def InsertedAt (condition : State → Event → Prop) (state : State) : List (Marked Event) → Prop
  | [] => True
  | marked :: rest =>
    (marked.inserted = true → condition state marked.event) ∧
      InsertedAt condition (step state marked.event).1 rest

instance decidableInsertedAt {condition : State → Event → Prop}
    [∀ state event, Decidable (condition state event)] (state : State) :
    (marked : List (Marked Event)) → Decidable (InsertedAt step condition state marked)
  | [] => .isTrue trivial
  | marked :: rest =>
    have : Decidable (InsertedAt step condition (step state marked.event).1 rest) :=
      decidableInsertedAt (step state marked.event).1 rest
    inferInstanceAs (Decidable (_ ∧ _))

variable {step} {condition : State → Event → Prop}

/-- Let events that meet a condition leave the state as it is. Such events can be inserted anywhere
into a run: the turns of the others, with their answers and the states they leave, are those of the
run without the insertions. -/
theorem transcript_without_insertions
    (hunnoticed : ∀ state event, condition state event → (step state event).1 = state)
    (state : State) (marked : List (Marked Event))
    (hinserted : InsertedAt step condition state marked) :
    ownTurns (transcript (blind step) state marked) = transcript step state (own marked) := by
  induction marked generalizing state with
  | nil => rfl
  | cons entry rest ih =>
    rcases hinserted with ⟨hentry, hrest⟩
    have hnext := ih (step state entry.event).1 hrest
    by_cases hmark : entry.inserted = true
    · rw [hunnoticed state entry.event (hentry hmark)] at hnext
      simp only [ownTurns, own, transcript, blind, hmark, Bool.not_true, Bool.false_eq_true,
        not_false_eq_true, List.filter_cons_of_neg]
      rw [hunnoticed state entry.event (hentry hmark)]
      exact hnext
    · simp only [ownTurns, own, transcript, blind, hmark, Bool.not_false, List.filter_cons_of_pos,
        List.map_cons]
      exact congrArg _ hnext

/-- The state at the end is the same with and without the inserted events. -/
theorem after_without_insertions
    (hunnoticed : ∀ state event, condition state event → (step state event).1 = state)
    (state : State) (marked : List (Marked Event))
    (hinserted : InsertedAt step condition state marked) :
    after (blind step) state marked = after step state (own marked) := by
  induction marked generalizing state with
  | nil => rfl
  | cons entry rest ih =>
    rcases hinserted with ⟨hentry, hrest⟩
    have hnext := ih (step state entry.event).1 hrest
    by_cases hmark : entry.inserted = true
    · rw [hunnoticed state entry.event (hentry hmark)] at hnext
      simp only [after, own, blind, hmark, List.foldl_cons, Bool.not_true, Bool.false_eq_true,
        not_false_eq_true, List.filter_cons_of_neg]
      rw [hunnoticed state entry.event (hentry hmark)]
      exact hnext
    · simp only [after, own, blind, hmark, List.foldl_cons, Bool.not_false, List.filter_cons_of_pos,
        List.map_cons]
      exact hnext

/-- If the answer to every event that meets the condition has a property, then in the transcript of
a run every inserted event has an answer with that property. -/
theorem answer_of_inserted (property : Answer → Prop)
    (hanswer : ∀ state event, condition state event → property (step state event).2)
    (state : State) (marked : List (Marked Event))
    (hinserted : InsertedAt step condition state marked) :
    ∀ turn ∈ transcript (blind step) state marked,
      turn.event.inserted = true → property turn.answer := by
  induction marked generalizing state with
  | nil =>
    intro turn hturn
    exact absurd hturn List.not_mem_nil
  | cons entry rest ih =>
    rcases hinserted with ⟨hentry, hrest⟩
    intro turn hturn hmark
    rcases List.mem_cons.mp hturn with rfl | hlater
    · exact hanswer state entry.event (hentry hmark)
    · exact ih (step state entry.event).1 hrest turn hlater hmark

end Machine

end Bc3Miner.Foundations.Insertions
