import Mathlib.Algebra.Group.Fin.Basic
import Mathlib.Data.List.Chain
import Mathlib.Data.List.Nodup
import Mathlib.Logic.Function.Basic
import Mathlib.Algebra.GroupWithZero.Nat

/-!
# In-order command queues

A device with a memory for each slot works through a queue of commands, each an action on the memory
of one slot, in the order they were submitted. The host sees the memory as it is now and, where it
reasons ahead, as it will be once the queue has drained (`settled`). An event is the number of
commands that had been submitted when it was recorded; waiting for it runs the device that far.

What a command does to `settled` it does at once, at its own slot only, and the device working on
does not change `settled` at all. The last section is about slots taken in turn from a ring.

`settled_submit_self` and `settled_submit_of_ne` are the two halves of submitting, `settled_advance`
is that the device is free to work on at any time, and `Covers.idle_waitFor` what waiting is for: a
slot that an event covers has nothing pending once the event has come. `InTurn` is a ring: the slots
in flight with the next one after them follow each other, so a slot that is taken is one of no
launch as long as there is room (`InTurn.nodup`).
-/

set_option autoImplicit false
set_option relaxedAutoImplicit false

namespace Bc3Miner.Foundations

/-- A device's memory, the commands it has not executed yet, oldest first, and how many it has. -/
structure CommandQueue (Slot Action Memory : Type*) where
  memory : Slot → Memory
  pending : List (Slot × Action)
  executed : ℕ

namespace CommandQueue

variable {Slot Action Memory : Type*} [DecidableEq Slot] (act : Action → Memory → Memory)

/-! ### What the queue does -/

/-- The actions of the commands on one slot. -/
def onSlot (slot : Slot) (commands : List (Slot × Action)) : List Action :=
  (commands.filter fun command ↦ command.1 = slot).map Prod.snd

/-- The memory after a list of commands. -/
def execute (memory : Slot → Memory) (commands : List (Slot × Action)) : Slot → Memory :=
  commands.foldl
    (fun memory command ↦
      Function.update memory command.1 (act command.2 (memory command.1)))
    memory

/-- The device executes up to `count` more commands. -/
def advance (count : ℕ) (queue : CommandQueue Slot Action Memory) :
    CommandQueue Slot Action Memory where
  memory := execute act queue.memory (queue.pending.take count)
  pending := queue.pending.drop count
  executed := queue.executed + min count queue.pending.length

/-- A command goes to the end of the queue. -/
def submit (slot : Slot) (action : Action) (queue : CommandQueue Slot Action Memory) :
    CommandQueue Slot Action Memory :=
  { queue with pending := queue.pending ++ [(slot, action)] }

/-- The event of everything submitted so far. -/
def event (queue : CommandQueue Slot Action Memory) : ℕ := queue.executed + queue.pending.length

/-- The device works until everything up to the event is done, and perhaps a little further. -/
def waitFor (event further : ℕ) (queue : CommandQueue Slot Action Memory) :
    CommandQueue Slot Action Memory :=
  queue.advance act (event - queue.executed + further)

/-- The device works until nothing is left. -/
def finish (queue : CommandQueue Slot Action Memory) : CommandQueue Slot Action Memory :=
  queue.advance act queue.pending.length

/-- The host writes to a slot's memory, past the queue. -/
def writeHost (slot : Slot) (write : Memory → Memory) (queue : CommandQueue Slot Action Memory) :
    CommandQueue Slot Action Memory :=
  { queue with memory := Function.update queue.memory slot (write (queue.memory slot)) }

/-- The memory once the queue has drained. -/
def settled (queue : CommandQueue Slot Action Memory) : Slot → Memory :=
  execute act queue.memory queue.pending

/-! ### Commands and slots -/

section OnSlot

variable (slot : Slot) {other : Slot} (action : Action) (commands more : List (Slot × Action))

@[simp] theorem onSlot_nil : onSlot slot ([] : List (Slot × Action)) = [] := rfl

@[simp] theorem onSlot_append :
    onSlot slot (commands ++ more) = onSlot slot commands ++ onSlot slot more := by
  simp only [onSlot, List.filter_append, List.map_append]

@[simp] theorem onSlot_singleton_self : onSlot slot [(slot, action)] = [action] := by
  simp [onSlot]

theorem onSlot_singleton_of_ne (hne : other ≠ slot) : onSlot slot [(other, action)] = [] := by
  simp [onSlot, hne]

/-- The commands left on a slot are the last of those that were there. -/
theorem onSlot_drop_suffix (count : ℕ) :
    onSlot slot (commands.drop count) <:+ onSlot slot commands := by
  refine ⟨onSlot slot (commands.take count), ?_⟩
  rw [← onSlot_append, List.take_append_drop]

/-- A list of commands changes a slot's memory by the actions on that slot alone. -/
theorem execute_apply (memory : Slot → Memory) :
    execute act memory commands slot =
      (onSlot slot commands).foldl (fun memory action ↦ act action memory) (memory slot) := by
  induction commands generalizing memory with
  | nil => rfl
  | cons command rest ih =>
    rw [execute, List.foldl_cons]
    refine (ih _).trans ?_
    by_cases hslot : command.1 = slot
    · rw [onSlot, onSlot, List.filter_cons_of_pos (by simpa using hslot), List.map_cons,
        List.foldl_cons, ← hslot, Function.update_self]
    · rw [onSlot, onSlot, List.filter_cons_of_neg (by simpa using hslot),
        Function.update_of_ne (Ne.symm hslot)]

end OnSlot

/-! ### The memory once the queue has drained -/

section Settled

variable (queue : CommandQueue Slot Action Memory) {slot other : Slot}

theorem settled_apply (slot : Slot) :
    queue.settled act slot =
      (onSlot slot queue.pending).foldl (fun memory action ↦ act action memory)
      (queue.memory slot) :=
  execute_apply act slot queue.pending queue.memory

@[simp] theorem pending_writeHost (slot : Slot) (write : Memory → Memory) :
    (queue.writeHost slot write).pending = queue.pending := rfl

theorem memory_writeHost_self (slot : Slot) (write : Memory → Memory) :
    (queue.writeHost slot write).memory slot = write (queue.memory slot) :=
  Function.update_self _ _ _

theorem memory_writeHost_of_ne (write : Memory → Memory) (hne : other ≠ slot) :
    (queue.writeHost other write).memory slot = queue.memory slot :=
  Function.update_of_ne (Ne.symm hne) _ _

/-- A slot with no command pending holds already what it will. -/
theorem settled_of_idle (hidle : onSlot slot queue.pending = []) :
    queue.settled act slot = queue.memory slot := by
  rw [settled_apply, hidle, List.foldl_nil]

/-- How far the queue has run does not change what is in place once all of it has run. -/
@[simp] theorem settled_advance (count : ℕ) :
    (queue.advance act count).settled act = queue.settled act := by
  show execute act (execute act queue.memory (queue.pending.take count))
    (queue.pending.drop count) =
    execute act queue.memory queue.pending
  rw [execute, execute, execute, ← List.foldl_append, List.take_append_drop]

@[simp] theorem settled_submit_self (slot : Slot) (action : Action) :
    (queue.submit slot action).settled act slot = act action (queue.settled act slot) := by
  rw [settled_apply, settled_apply, submit, onSlot_append, onSlot_singleton_self, List.foldl_append,
    List.foldl_cons, List.foldl_nil]

theorem settled_submit_of_ne (action : Action) (hne : other ≠ slot) :
    (queue.submit other action).settled act slot = queue.settled act slot := by
  rw [settled_apply, settled_apply, submit, onSlot_append, onSlot_singleton_of_ne _ _ hne,
    List.append_nil]

theorem settled_writeHost_of_ne (write : Memory → Memory) (hne : other ≠ slot) :
    (queue.writeHost other write).settled act slot = queue.settled act slot := by
  rw [settled_apply, settled_apply, pending_writeHost, memory_writeHost_of_ne queue write hne]

/-- The host writes a slot's memory as if the queue had drained, where no pending action of the slot
minds. -/
theorem settled_writeHost_self {write : Memory → Memory}
    (hcommute : ∀ action ∈ onSlot slot queue.pending, ∀ memory,
      act action (write memory) = write (act action memory)) :
    (queue.writeHost slot write).settled act slot = write (queue.settled act slot) := by
  have hfold : ∀ (actions : List Action) (memory : Memory),
      (∀ action ∈ actions, ∀ memory, act action (write memory) = write (act action memory)) →
        actions.foldl (fun memory action ↦ act action memory) (write memory) =
          write (actions.foldl (fun memory action ↦ act action memory) memory) := by
    intro actions
    induction actions with
    | nil =>
      intro memory _
      rfl
    | cons action rest ih =>
      intro memory hrest
      rw [List.foldl_cons, List.foldl_cons, hrest action List.mem_cons_self]
      exact ih _ fun action hmem ↦ hrest action (List.mem_cons_of_mem _ hmem)
  rw [settled_apply, settled_apply, pending_writeHost, memory_writeHost_self]
  exact hfold _ _ hcommute

@[simp] theorem pending_finish : (queue.finish act).pending = [] := List.drop_length

/-- A finished device holds what the queue led to. -/
theorem memory_finish : (queue.finish act).memory = queue.settled act := by
  show execute act queue.memory (queue.pending.take queue.pending.length) = _
  rw [List.take_length]
  rfl

end Settled

/-! ### Events -/

section Events

variable (queue : CommandQueue Slot Action Memory) {slot other : Slot} {event : ℕ}

/-- Every command on the slot that is still pending came before the event. -/
def Covers (event : ℕ) (slot : Slot) : Prop :=
  onSlot slot (queue.pending.drop (event - queue.executed)) = []

/-- The event of everything submitted so far covers every slot. -/
theorem covers_event (slot : Slot) : queue.Covers queue.event slot := by
  unfold Covers CommandQueue.event
  rw [Nat.add_sub_cancel_left, List.drop_length, onSlot_nil]

variable {queue}

/-- An event that covers a slot goes on covering it while the queue runs. -/
theorem Covers.advance (hcovers : queue.Covers event slot) (count : ℕ) :
    (queue.advance act count).Covers event slot := by
  have hsuffix := onSlot_drop_suffix slot (queue.pending.drop (event - queue.executed))
    (count + (event - (queue.executed + min count queue.pending.length)) - (event - queue.executed))
  rw [hcovers, List.suffix_nil, List.drop_drop] at hsuffix
  show onSlot slot ((queue.pending.drop count).drop
    (event - (queue.executed + min count queue.pending.length))) = []
  rw [List.drop_drop]
  by_cases hall : queue.pending.length ≤ count
  · rw [List.drop_eq_nil_of_le (by omega), onSlot_nil]
  · have hindex : event - queue.executed +
        (count + (event - (queue.executed + min count queue.pending.length)) -
          (event - queue.executed)) =
        count + (event - (queue.executed + min count queue.pending.length)) := by
      omega
    rw [← hindex]
    exact hsuffix

/-- A command submitted for another slot takes nothing from what an event covers. -/
theorem Covers.submit_of_ne (hcovers : queue.Covers event slot) (action : Action)
    (hne : other ≠ slot) :
    (queue.submit other action).Covers event slot := by
  show onSlot slot ((queue.pending ++ [(other, action)]).drop (event - queue.executed)) = []
  rw [List.drop_append, onSlot_append, hcovers, List.nil_append]
  have hnone := onSlot_singleton_of_ne slot action hne
  have hsuffix := onSlot_drop_suffix slot [(other, action)]
    (event - queue.executed - queue.pending.length)
  rw [hnone, List.suffix_nil] at hsuffix
  exact hsuffix

/-- After waiting for an event, no command that it covers is pending. -/
theorem Covers.idle_waitFor (hcovers : queue.Covers event slot) (further : ℕ) :
    onSlot slot (queue.waitFor act event further).pending = [] := by
  have hsuffix := onSlot_drop_suffix slot (queue.pending.drop (event - queue.executed)) further
  rw [hcovers, List.suffix_nil, List.drop_drop] at hsuffix
  exact hsuffix

end Events

end CommandQueue

/-! ### Slots taken in turn -/

section Ring

variable {size : ℕ} [NeZero size]

/-- Each slot of the list follows the one before it, around the ring. -/
abbrev InTurn (slots : List (Fin size)) : Prop :=
    slots.IsChain fun first second ↦ first + 1 = second

/-- The slot at each place, counted from the first one. -/
theorem InTurn.getElem {first : Fin size} {rest : List (Fin size)} (hturn : InTurn (first :: rest))
    {index : ℕ} (hindex : index < (first :: rest).length) :
    (first :: rest)[index] = first + Fin.ofNat size index := by
  induction index with
  | zero =>
    rw [List.getElem_cons_zero]
    simp
  | succ index ih =>
    have hnext := List.isChain_iff_getElem.mp hturn index hindex
    rw [← hnext, ih (by omega), add_assoc]
    congr 1
    ext
    simp [Fin.val_add, Fin.ofNat]

/-- No more slots in turn than the ring has are all different. -/
theorem InTurn.nodup {slots : List (Fin size)} (hturn : InTurn slots)
    (hlength : slots.length ≤ size) :
    slots.Nodup := by
  cases slots with
  | nil => exact List.nodup_nil
  | cons first rest =>
    rw [List.nodup_iff_injective_get]
    intro i j hij
    have hvalue : first + Fin.ofNat size i = first + Fin.ofNat size j := by
      rw [← hturn.getElem i.isLt, ← hturn.getElem j.isLt]
      exact hij
    have hofNat := congrArg Fin.val (add_left_cancel hvalue)
    simp only [Fin.ofNat] at hofNat
    rw [Nat.mod_eq_of_lt (by omega), Nat.mod_eq_of_lt (by omega)] at hofNat
    exact Fin.ext hofNat

/-- One more slot, taken where the list ends. -/
theorem InTurn.concat {slots : List (Fin size)} {next : Fin size}
    (hturn : InTurn (slots ++ [next])) :
    InTurn (slots ++ [next] ++ [next + 1]) := by
  refine List.isChain_append.mpr ⟨hturn, List.isChain_singleton _, ?_⟩
  intro last hlast following hfollowing
  rw [List.getLast?_append, List.getLast?_singleton, Option.some_or, Option.mem_some] at hlast
  rw [List.head?_cons, Option.mem_some] at hfollowing
  rw [← hlast, ← hfollowing]

end Ring

end Bc3Miner.Foundations
