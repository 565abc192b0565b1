import Bc3Miner.Foundations.PartialMachine
import Mathlib.Algebra.BigOperators.Group.Finset.Basic
import Mathlib.Data.Fintype.BigOperators

/-!
# A queue of work

Workers take items from one queue, each writes what its item comes to in the item's own slot, and
leaves when the queue is empty. An item that comes to nothing is noted as a failure and leaves its
slot as it is.

Whoever takes which item, and in whichever order they finish: once all have left, every slot holds
what its item comes to, and a failure is noted exactly when an item failed (`slots_of_finished`).
Every step brings the workers closer to that (`length_add_measure`), and from everywhere they can
come to it (`exists_finished`).

The workers may stop between any two steps, and an item that is held is in nobody else's hands. What
an item comes to is a function of the item alone, which is what makes the order irrelevant; that two
items have different slots is in the type of the slots.
-/

set_option autoImplicit false
set_option relaxedAutoImplicit false

namespace Bc3Miner.Foundations.WorkQueue

/-- What a worker is at. -/
inductive Place (Item : Type)
  | idle
  | holding (item : Item)
  | gone
  deriving DecidableEq

structure State (Worker Item Slot : Type) where
  queue : List Item
  place : Worker → Place Item
  slot : Item → Slot
  failed : Bool

/-- A worker takes the next item, is done with its item, or finds the queue empty and leaves. -/
inductive Event (Worker : Type)
  | take (worker : Worker)
  | finish (worker : Worker)
  | leave (worker : Worker)

section Machine

variable {Worker Item Slot : Type} [DecidableEq Worker] [DecidableEq Item]

/-- All items in the queue, and all workers idle. -/
def start (items : List Item) (blank : Item → Slot) : State Worker Item Slot :=
  ⟨items, fun _ ↦ .idle, blank, false⟩

def take (state : State Worker Item Slot) (worker : Worker) : Option (State Worker Item Slot) :=
  match state.place worker, state.queue with
  | .idle, item :: rest =>
    some { state with queue := rest, place := Function.update state.place worker (.holding item) }
  | _, _ => none

def finish (job : Item → Option Slot) (state : State Worker Item Slot) (worker : Worker) :
    Option (State Worker Item Slot) :=
  match state.place worker with
  | .holding item =>
    let place := Function.update state.place worker .idle
    match job item with
    | some result => some { state with place, slot := Function.update state.slot item result }
    | none => some { state with place, failed := true }
  | _ => none

def leave (state : State Worker Item Slot) (worker : Worker) : Option (State Worker Item Slot) :=
  match state.place worker, state.queue with
  | .idle, [] => some { state with place := Function.update state.place worker .gone }
  | _, _ => none

def step (job : Item → Option Slot) (state : State Worker Item Slot) :
    Event Worker → Option (State Worker Item Slot)
  | .take worker => take state worker
  | .finish worker => finish job state worker
  | .leave worker => leave state worker

/-- All workers have left. -/
def Finished (state : State Worker Item Slot) : Prop := ∀ worker, state.place worker = .gone

/-! ### What a step does -/

variable {job : Item → Option Slot} {state next : State Worker Item Slot} {worker : Worker}

omit [DecidableEq Item] in
/-- What taking an item can do: an idle worker comes to hold the first of the queue, and nothing
else changes. -/
theorem take_cases (hstep : take state worker = some next) :
    ∃ item, state.place worker = .idle ∧ state.queue = item :: next.queue ∧
      next.place = Function.update state.place worker (.holding item) ∧ next.slot = state.slot ∧
      next.failed = state.failed := by
  unfold take at hstep
  rcases hplace : state.place worker with _ | held | _
  · rcases hqueue : state.queue with _ | ⟨item, rest⟩
    · rw [hplace, hqueue] at hstep
      exact absurd hstep (by simp)
    · rw [hplace, hqueue] at hstep
      rw [← Option.some.inj hstep]
      exact ⟨item, rfl, rfl, rfl, rfl, rfl⟩
  · rw [hplace] at hstep
    exact absurd hstep (by simp)
  · rw [hplace] at hstep
    exact absurd hstep (by simp)

/-- What finishing an item can do: the worker is idle again, and either the result is in the slot of
the item or the failure is noted. -/
theorem finish_cases (hstep : finish job state worker = some next) :
    ∃ item, state.place worker = .holding item ∧ next.queue = state.queue ∧
      next.place = Function.update state.place worker .idle ∧
      ((∃ result, job item = some result ∧ next.slot = Function.update state.slot item result ∧
          next.failed = state.failed) ∨
        (job item = none ∧ next.slot = state.slot ∧ next.failed = true)) := by
  unfold finish at hstep
  rcases hplace : state.place worker with _ | item | _
  · rw [hplace] at hstep
    exact absurd hstep (by simp)
  · rcases hjob : job item with _ | result
    · simp only [hplace, hjob] at hstep
      rw [← Option.some.inj hstep]
      exact ⟨item, rfl, rfl, rfl, Or.inr ⟨hjob, rfl, rfl⟩⟩
    · simp only [hplace, hjob] at hstep
      rw [← Option.some.inj hstep]
      exact ⟨item, rfl, rfl, rfl, Or.inl ⟨result, hjob, rfl, rfl⟩⟩
  · rw [hplace] at hstep
    exact absurd hstep (by simp)

omit [DecidableEq Item] in
/-- What leaving can do: an idle worker goes when the queue is empty, and nothing else changes. -/
theorem leave_cases (hstep : leave state worker = some next) :
    state.place worker = .idle ∧ state.queue = [] ∧
      next = { state with place := Function.update state.place worker .gone } := by
  unfold leave at hstep
  rcases hplace : state.place worker with _ | held | _
  · rcases hqueue : state.queue with _ | ⟨item, rest⟩
    · rw [hplace, hqueue] at hstep
      exact ⟨rfl, rfl, (Option.some.inj hstep).symm⟩
    · rw [hplace, hqueue] at hstep
      exact absurd hstep (by simp)
  · rw [hplace] at hstep
    exact absurd hstep (by simp)
  · rw [hplace] at hstep
    exact absurd hstep (by simp)

/-! ### Every schedule -/

/-- The item's slot holds what the item comes to, or its failure is noted. -/
def Settled (job : Item → Option Slot) (state : State Worker Item Slot) (item : Item) : Prop :=
  (∀ result, job item = some result → state.slot item = result) ∧
    (job item = none → state.failed = true)

/-- Every item is in the queue, in a worker's hand or settled, and there are no others. -/
structure Sound (job : Item → Option Slot) (items : List Item)
    (state : State Worker Item Slot) : Prop where
  each : ∀ item ∈ items, item ∈ state.queue ∨ (∃ worker, state.place worker = .holding item) ∨
    Settled job state item
  queued : ∀ item ∈ state.queue, item ∈ items
  held : ∀ worker item, state.place worker = .holding item → item ∈ items
  failed : state.failed = true → ∃ item ∈ items, job item = none
  gone : ∀ worker, state.place worker = .gone → state.queue = []

variable {items : List Item}

omit [DecidableEq Worker] [DecidableEq Item] in
/-- At the start every item waits in the queue, and no slot is claimed to be settled. -/
theorem sound_start (job : Item → Option Slot) (items : List Item) (blank : Item → Slot) :
    Sound job items (start items blank : State Worker Item Slot) where
  each _ hmem := Or.inl hmem
  queued _ hmem := hmem
  held _ _ hplace := absurd hplace (by simp [start])
  failed hfailed := absurd hfailed Bool.false_ne_true
  gone _ hplace := absurd hplace (by simp [start])

omit [DecidableEq Worker] in
/-- An item that is settled stays so when another worker finishes. -/
theorem Settled.finish {item done : Item} (hsettled : Settled job state item)
    (hnext :
      (∃ result, job done = some result ∧ next.slot = Function.update state.slot done result ∧
        next.failed = state.failed) ∨
      (job done = none ∧ next.slot = state.slot ∧ next.failed = true)) :
    Settled job next item := by
  rcases hnext with ⟨result, hjob, hslot, hfailed⟩ | ⟨-, hslot, hfailed⟩
  · refine ⟨fun other hother ↦ ?_, fun hnone ↦ hfailed.trans (hsettled.2 hnone)⟩
    rw [hslot]
    by_cases hsame : item = done
    · rw [hsame, Function.update_self]
      rw [hsame, hjob] at hother
      exact Option.some.inj hother
    · rw [Function.update_of_ne hsame]
      exact hsettled.1 other hother
  · exact ⟨fun other hother ↦ hslot ▸ hsettled.1 other hother, fun _ ↦ hfailed⟩

omit [DecidableEq Item] in
/-- Taking an item keeps every item in one place. -/
theorem Sound.take (hsound : Sound job items state)
    (hstep : WorkQueue.take state worker = some next) : Sound job items next := by
  obtain ⟨item, hidle, hqueue, hplace, hslot, hfailed⟩ := take_cases hstep
  have hsettled : ∀ other, Settled job state other → Settled job next other := by
    intro other hother
    unfold Settled
    rw [hslot, hfailed]
    exact hother
  refine ⟨fun other hmem ↦ ?_, fun other hmem ↦ ?_, fun holder other hholding ↦ ?_, fun hfail ↦ ?_,
    fun leaver hgone ↦ ?_⟩
  · rcases hsound.each other hmem with hqueued | ⟨holder, hholding⟩ | hdone
    · rw [hqueue, List.mem_cons] at hqueued
      rcases hqueued with hfirst | hlater
      · refine Or.inr (Or.inl ⟨worker, ?_⟩)
        rw [hplace, Function.update_self, hfirst]
      · exact Or.inl hlater
    · refine Or.inr (Or.inl ⟨holder, ?_⟩)
      have hne : holder ≠ worker := by
        rintro rfl
        rw [hidle] at hholding
        exact absurd hholding (by simp)
      rw [hplace, Function.update_of_ne hne, hholding]
    · exact Or.inr (Or.inr (hsettled other hdone))
  · exact hsound.queued other (hqueue ▸ List.mem_cons_of_mem item hmem)
  · rw [hplace] at hholding
    by_cases hsame : holder = worker
    · rw [hsame, Function.update_self, Place.holding.injEq] at hholding
      rw [← hholding]
      exact hsound.queued item (hqueue ▸ List.mem_cons_self)
    · rw [Function.update_of_ne hsame] at hholding
      exact hsound.held holder other hholding
  · rw [hfailed] at hfail
    exact hsound.failed hfail
  · rw [hplace] at hgone
    by_cases hsame : leaver = worker
    · rw [hsame, Function.update_self] at hgone
      exact absurd hgone (by simp)
    · rw [Function.update_of_ne hsame] at hgone
      have hempty := hsound.gone leaver hgone
      rw [hqueue] at hempty
      exact absurd hempty (by simp)

/-- Finishing an item keeps every item in one place and settles the one that is finished. -/
theorem Sound.finish (hsound : Sound job items state)
    (hstep : WorkQueue.finish job state worker = some next) : Sound job items next := by
  obtain ⟨item, hholds, hqueue, hplace, hnext⟩ := finish_cases hstep
  have hdone : Settled job next item := by
    rcases hnext with ⟨result, hjob, hslot, -⟩ | ⟨hjob, -, hfailed⟩
    · refine ⟨fun other hother ↦ ?_, fun hnone ↦ ?_⟩
      · rw [hslot, Function.update_self]
        exact Option.some.inj (hjob.symm.trans hother)
      · rw [hjob] at hnone
        exact absurd hnone (by simp)
    · refine ⟨fun other hother ↦ ?_, fun _ ↦ hfailed⟩
      rw [hjob] at hother
      exact absurd hother (by simp)
  refine ⟨fun other hmem ↦ ?_, fun other hmem ↦ ?_, fun holder other hholding ↦ ?_, fun hfail ↦ ?_,
    fun leaver hgone ↦ ?_⟩
  · rcases hsound.each other hmem with hqueued | ⟨holder, hholding⟩ | hsettled
    · exact Or.inl (hqueue ▸ hqueued)
    · by_cases hsame : holder = worker
      · rw [hsame, hholds, Place.holding.injEq] at hholding
        exact Or.inr (Or.inr (hholding ▸ hdone))
      · refine Or.inr (Or.inl ⟨holder, ?_⟩)
        rw [hplace, Function.update_of_ne hsame, hholding]
    · exact Or.inr (Or.inr (hsettled.finish hnext))
  · exact hsound.queued other (hqueue ▸ hmem)
  · rw [hplace] at hholding
    by_cases hsame : holder = worker
    · rw [hsame, Function.update_self] at hholding
      exact absurd hholding (by simp)
    · rw [Function.update_of_ne hsame] at hholding
      exact hsound.held holder other hholding
  · rcases hnext with ⟨-, -, -, hfailed⟩ | ⟨hjob, -, -⟩
    · rw [hfailed] at hfail
      exact hsound.failed hfail
    · exact ⟨item, hsound.held worker item hholds, hjob⟩
  · rw [hplace] at hgone
    by_cases hsame : leaver = worker
    · rw [hsame, Function.update_self] at hgone
      exact absurd hgone (by simp)
    · rw [Function.update_of_ne hsame] at hgone
      rw [hqueue]
      exact hsound.gone leaver hgone

omit [DecidableEq Item] in
/-- A worker that leaves holds nothing, so nothing is lost with it. -/
theorem Sound.leave (hsound : Sound job items state)
    (hstep : WorkQueue.leave state worker = some next) : Sound job items next := by
  obtain ⟨hidle, hempty, rfl⟩ := leave_cases hstep
  have hplaces : ∀ other item, Function.update state.place worker .gone other = .holding item →
      state.place other = .holding item := by
    intro other item hholding
    by_cases hsame : other = worker
    · rw [hsame, Function.update_self] at hholding
      exact absurd hholding (by simp)
    · rwa [Function.update_of_ne hsame] at hholding
  refine ⟨fun other hmem ↦ ?_, hsound.queued, fun holder other hholding ↦ ?_, hsound.failed,
    fun _ _ ↦ hempty⟩
  · rcases hsound.each other hmem with hqueued | ⟨holder, hholding⟩ | hsettled
    · exact Or.inl hqueued
    · refine Or.inr (Or.inl ⟨holder, ?_⟩)
      have hne : holder ≠ worker := by
        rintro rfl
        rw [hidle] at hholding
        exact absurd hholding (by simp)
      exact (Function.update_of_ne hne _ _).trans hholding
    · exact Or.inr (Or.inr hsettled)
  · exact hsound.held holder other (hplaces holder other hholding)

/-- Every step keeps every item in one place and every settled slot settled. -/
theorem Sound.step {event : Event Worker} (hsound : Sound job items state)
    (hstep : WorkQueue.step job state event = some next) : Sound job items next := by
  rcases event with worker | worker | worker
  · exact hsound.take hstep
  · exact hsound.finish hstep
  · exact hsound.leave hstep

/-- In every state that the queue can come to and in which all workers have left: every item whose
job has a result has it in its slot, whichever worker took it, and a failure is noted exactly when
the job of some item has none. -/
theorem slots_of_finished [Nonempty Worker] {blank : Item → Slot}
    (hreach : PartialMachine.Reachable (step job) (start items blank) state)
    (hfinished : Finished state) :
    (state.failed = false ↔ ∀ item ∈ items, job item ≠ none) ∧
      ∀ item ∈ items, ∀ result, job item = some result → state.slot item = result := by
  have hsound : Sound job items state := PartialMachine.invariant_of_reachable
    (fun _ _ _ hstep hbefore ↦ Sound.step hbefore hstep) hreach (sound_start job items blank)
  obtain ⟨first⟩ := ‹Nonempty Worker›
  have hempty := hsound.gone first (hfinished first)
  have hsettled : ∀ item ∈ items, Settled job state item := by
    intro item hmem
    rcases hsound.each item hmem with hqueued | ⟨holder, hholding⟩ | hsettled
    · rw [hempty] at hqueued
      exact absurd hqueued List.not_mem_nil
    · rw [hfinished holder] at hholding
      exact absurd hholding (by simp)
    · exact hsettled
  refine ⟨⟨fun hfailed item hmem hnone ↦ ?_, fun hall ↦ ?_⟩, fun item hmem ↦ (hsettled item hmem).1⟩
  · rw [(hsettled item hmem).2 hnone] at hfailed
    exact absurd hfailed (by simp)
  · rw [← Bool.not_eq_true]
    intro hfailed
    obtain ⟨item, hmem, hnone⟩ := hsound.failed hfailed
    exact hall item hmem hnone

/-! ### The end -/

/-- How far a worker is from having left. -/
def Place.weight {Item : Type} : Place Item → ℕ
  | .idle => 1
  | .holding _ => 2
  | .gone => 0

variable [Fintype Worker]

def measure (state : State Worker Item Slot) : ℕ :=
  2 * state.queue.length + ∑ worker, (state.place worker).weight

omit [DecidableEq Item] in
/-- What changing the place of one worker does to the sum over all of them. -/
theorem sum_weight_update (place : Worker → Place Item) (worker : Worker) (after : Place Item) :
    ∑ other, (Function.update place worker after other).weight + (place worker).weight =
      ∑ other, (place other).weight + after.weight := by
  have hrest : ∑ other ∈ Finset.univ.erase worker, (Function.update place worker after other).weight
      = ∑ other ∈ Finset.univ.erase worker, (place other).weight := by
    refine Finset.sum_congr rfl fun other hmem ↦ ?_
    rw [Function.update_of_ne (Finset.ne_of_mem_erase hmem)]
  have hbefore := Finset.sum_erase_add _ (fun other ↦ (place other).weight) (Finset.mem_univ worker)
  have hafter := Finset.sum_erase_add _
    (fun other ↦ (Function.update place worker after other).weight) (Finset.mem_univ worker)
  rw [Function.update_self, hrest] at hafter
  omega

/-- Every step lowers the measure by exactly one, so no run is longer than it. -/
theorem measure_step {event : Event Worker} (hstep : step job state event = some next) :
    measure next + 1 = measure state := by
  unfold measure
  rcases event with worker | worker | worker
  · obtain ⟨item, hidle, hqueue, hplace, -, -⟩ := take_cases hstep
    have hsum := sum_weight_update state.place worker (.holding item)
    rw [hidle] at hsum
    rw [hplace, hqueue, List.length_cons]
    simp only [Place.weight] at hsum ⊢
    omega
  · obtain ⟨item, hholds, hqueue, hplace, -⟩ := finish_cases hstep
    have hsum := sum_weight_update state.place worker .idle
    rw [hholds] at hsum
    rw [hplace, hqueue]
    simp only [Place.weight] at hsum ⊢
    omega
  · obtain ⟨hidle, -, rfl⟩ := leave_cases hstep
    have hsum := sum_weight_update state.place worker .gone
    rw [hidle] at hsum
    simp only [Place.weight] at hsum ⊢
    omega

/-- Every step counts: no run is longer than the measure it starts with. -/
theorem length_add_measure {events : List (Event Worker)}
    (hrun : PartialMachine.run (step job) state events = some next) :
    events.length + measure next = measure state := by
  induction events generalizing state with
  | nil =>
    obtain rfl : state = next := Option.some.inj hrun
    exact Nat.zero_add _
  | cons event rest ih =>
    obtain ⟨middle, hstep, hrest⟩ := (PartialMachine.run_cons_eq_some _).mp hrun
    have hbefore := measure_step hstep
    have hafter := ih hrest
    rw [List.length_cons]
    omega

omit [Fintype Worker] in
/-- Until all have left, somebody can move. -/
theorem exists_step (job : Item → Option Slot) (hfinished : ¬Finished state) :
    ∃ event next, step job state event = some next := by
  obtain ⟨worker, hplace⟩ := not_forall.mp hfinished
  rcases hat : state.place worker with _ | item | _
  · rcases hqueue : state.queue with _ | ⟨item, rest⟩
    · exact ⟨.leave worker, _, by simp only [step, leave, hat, hqueue]; rfl⟩
    · exact ⟨.take worker, _, by simp only [step, take, hat, hqueue]; rfl⟩
  · rcases hjob : job item with _ | result
    · exact ⟨.finish worker, _, by simp only [step, finish, hat, hjob]; rfl⟩
    · exact ⟨.finish worker, _, by simp only [step, finish, hat, hjob]; rfl⟩
  · exact absurd hat hplace

/-- From everywhere the workers come to the end. -/
theorem exists_finished (job : Item → Option Slot) (state : State Worker Item Slot) :
    ∃ events final, PartialMachine.run (step job) state events = some final ∧ Finished final := by
  induction hleft : measure state generalizing state with
  | zero =>
    refine ⟨[], state, rfl, ?_⟩
    by_contra hfinished
    obtain ⟨event, next, hstep⟩ := exists_step job hfinished
    have hbefore := measure_step hstep
    omega
  | succ left ih =>
    by_cases hfinished : Finished state
    · exact ⟨[], state, rfl, hfinished⟩
    · obtain ⟨event, next, hstep⟩ := exists_step job hfinished
      have hbefore := measure_step hstep
      obtain ⟨events, final, hrun, hfinal⟩ := ih next (by omega)
      exact ⟨event :: events, final,
        (PartialMachine.run_cons_eq_some _).mpr ⟨next, hstep, hrun⟩, hfinal⟩

omit [DecidableEq Worker] [DecidableEq Item] in
theorem measure_start (items : List Item) (blank : Item → Slot) :
    measure (start items blank : State Worker Item Slot) =
      2 * items.length + Fintype.card Worker := by
  unfold measure start
  simp [Place.weight]

end Machine

end Bc3Miner.Foundations.WorkQueue
