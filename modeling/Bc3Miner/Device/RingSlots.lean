import Bc3Miner.Device.LaunchRing

/-!
# Filling a slot of the launch ring

What the calls of the driver inside one `enqueue` do to the slot that the launch takes, and that
they do nothing to the others (`Aside`). The facts about the slot's memory are facts about what it
will be once the queue has drained, so the device may work on between any two calls; where a call
fails, what the host takes the buffers to hold is still right (`Cached`).

`Filling` is a slot on its way: what is known of its memory, what the host takes it to hold, and
which actions may be pending on it. `Spoilt` is the same with nothing known, as a failed call leaves
it.
-/

set_option autoImplicit false
set_option relaxedAutoImplicit false

namespace Bc3Miner.Device

open Consensus Foundations Kernel Mining CommandQueue

namespace LaunchRing

variable {Program : Type} (digest : Program → Header76 → UInt32 → Bytes32)

/-- A slot's memory once the queue has drained. -/
def settled (ring : LaunchRing Program) : Fin queueDepth → SlotMemory :=
    ring.device.settled (act digest)

/-- The commands of a slot that the device has not executed. -/
def waiting (ring : LaunchRing Program) (i : Fin queueDepth) : List (SlotAction Program) :=
  onSlot i ring.device.pending

/-- What the host takes the input buffers to hold is what they will hold. -/
structure Holds (slot : Slot) (memory : SlotMemory) : Prop where
  header : ∀ header76, slot.headerOf = some header76 → memory.header = header76
  target : ∀ limbs, slot.targetOf = some limbs → memory.target = limbs

/-- The skipped copies of slot `i` would change nothing. -/
def Cached (ring : LaunchRing Program) (i : Fin queueDepth) : Prop :=
  Holds (ring.slot i) (ring.settled digest i)

/-- Apart from slot `i`, all that has happened since `before` is that the device has worked on. -/
structure Aside (before : LaunchRing Program) (i : Fin queueDepth)
    (ring : LaunchRing Program) : Prop where
  queued : ring.queued = before.queued
  nextSlot : ring.nextSlot = before.nextSlot
  bc3 : ring.bc3 = before.bc3
  slot : ∀ j, j ≠ i → ring.slot j = before.slot j
  settled : ∀ j, j ≠ i → ring.settled digest j = before.settled digest j
  waiting : ∀ j, j ≠ i → ring.waiting j <:+ before.waiting j
  covers : ∀ j, j ≠ i → ∀ event, before.device.Covers event j → ring.device.Covers event j

/-! ### The steps on a ring -/

section Steps

variable {before ring : LaunchRing Program} {i : Fin queueDepth}

theorem Aside.refl (before : LaunchRing Program)
    (i : Fin queueDepth) : Aside digest before i before :=
  ⟨rfl, rfl, rfl, fun _ _ ↦ rfl, fun _ _ ↦ rfl, fun _ _ ↦ List.suffix_refl _, fun _ _ _ ↦ id⟩

@[simp] theorem settled_progress (count : ℕ) :
    (ring.progress digest count).settled digest = ring.settled digest :=
  settled_advance (act digest) ring.device count

theorem waiting_progress (count : ℕ) (j : Fin queueDepth) :
    (ring.progress digest count).waiting j <:+ ring.waiting j :=
  onSlot_drop_suffix j ring.device.pending count

@[simp] theorem settled_push_self (action : SlotAction Program) :
    (ring.push i action).settled digest i = act digest action (ring.settled digest i) :=
  settled_submit_self (act digest) ring.device i action

@[simp] theorem settled_updateSlot (change : Slot → Slot) :
    (ring.updateSlot i change).settled digest = ring.settled digest := rfl

@[simp] theorem slot_updateSlot_self (change : Slot → Slot) :
    (ring.updateSlot i change).slot i = change (ring.slot i) := Function.update_self _ _ _

@[simp] theorem slot_progress (count : ℕ) : (ring.progress digest count).slot = ring.slot := rfl

@[simp] theorem slot_push (action : SlotAction Program) :
    (ring.push i action).slot = ring.slot := rfl

@[simp] theorem slot_stage (write : SlotMemory → SlotMemory) :
    (ring.stage i write).slot = ring.slot := rfl

/-- The running of the queue keeps what lies aside of a slot. -/
theorem Aside.progress {digest} (haside : Aside digest before i ring) (count : ℕ) :
    Aside digest before i (ring.progress digest count) where
  queued := haside.queued
  nextSlot := haside.nextSlot
  bc3 := haside.bc3
  slot := haside.slot
  settled := by
    intro j hne
    rw [settled_progress]
    exact haside.settled j hne
  waiting := fun j hne ↦ (waiting_progress digest count j).trans (haside.waiting j hne)
  covers := fun j hne event hcovers ↦ (haside.covers j hne event hcovers).advance (act digest) count

/-- A command for a slot keeps what lies aside of it. -/
theorem Aside.push {digest} (haside : Aside digest before i ring) (action : SlotAction Program) :
    Aside digest before i (ring.push i action) where
  queued := haside.queued
  nextSlot := haside.nextSlot
  bc3 := haside.bc3
  slot := haside.slot
  settled := by
    intro j hne
    rw [← haside.settled j hne]
    exact settled_submit_of_ne (act digest) ring.device action hne.symm
  waiting := by
    intro j hne
    have hnone := onSlot_singleton_of_ne j action hne.symm
    show onSlot j (ring.device.pending ++ [(i, action)]) <:+ before.waiting j
    rw [onSlot_append, hnone, List.append_nil]
    exact haside.waiting j hne
  covers := fun j hne event hcovers ↦
    (haside.covers j hne event hcovers).submit_of_ne action hne.symm

/-- Writing the host memory of a slot keeps what lies aside of it. -/
theorem Aside.stage {digest} (haside : Aside digest before i ring)
    (write : SlotMemory → SlotMemory) :
    Aside digest before i (ring.stage i write) where
  queued := haside.queued
  nextSlot := haside.nextSlot
  bc3 := haside.bc3
  slot := haside.slot
  settled := by
    intro j hne
    rw [← haside.settled j hne]
    exact settled_writeHost_of_ne (act digest) ring.device write hne.symm
  waiting := haside.waiting
  covers := haside.covers

/-- A change of a slot keeps what lies aside of it. -/
theorem Aside.updateSlot {digest} (haside : Aside digest before i ring) (change : Slot → Slot) :
    Aside digest before i (ring.updateSlot i change) where
  queued := haside.queued
  nextSlot := haside.nextSlot
  bc3 := haside.bc3
  slot := by
    intro j hne
    rw [← haside.slot j hne]
    exact Function.update_of_ne hne _ _
  settled := haside.settled
  waiting := haside.waiting
  covers := haside.covers

end Steps

/-! ### A slot that is being filled -/

/-- A state inside the `enqueue` that started in `before` and fills slot `i`: what is known of the
slot's memory, and which actions may be pending on it. -/
structure Filling (before : LaunchRing Program) (i : Fin queueDepth) (known : SlotMemory → Prop)
    (allowed : SlotAction Program → Prop) (ring : LaunchRing Program) : Prop where
  aside : Aside digest before i ring
  cached : Cached digest ring i
  known : known (ring.settled digest i)
  allowed : ∀ action ∈ ring.waiting i, allowed action

/-- Where a call has failed, that is all that is left. -/
abbrev Spoilt (before : LaunchRing Program) (i : Fin queueDepth) : LaunchRing Program → Prop :=
  Filling digest before i (fun _ ↦ True) fun _ ↦ True

section Filling

variable {digest} {before ring : LaunchRing Program} {i : Fin queueDepth}
  {known known' : SlotMemory → Prop}
  {allowed allowed' : SlotAction Program → Prop}

/-- What is known of a slot that is being filled may be weakened, and more commands allowed. -/
theorem Filling.weaken (hfilling : Filling digest before i known allowed ring)
    (hknown : ∀ memory, known memory → known' memory)
    (hallowed : ∀ action, allowed action → allowed' action) :
    Filling digest before i known' allowed' ring :=
  ⟨hfilling.aside, hfilling.cached, hknown _ hfilling.known,
    fun action hmem ↦ hallowed action (hfilling.allowed action hmem)⟩

theorem Filling.spoilt (hfilling : Filling digest before i known allowed ring) :
    Spoilt digest before i ring :=
  hfilling.weaken (fun _ _ ↦ trivial) fun _ _ ↦ trivial

/-- The running of the queue keeps what is known of a slot that is being filled. -/
theorem Filling.progress (hfilling : Filling digest before i known allowed ring) (count : ℕ) :
    Filling digest before i known allowed (ring.progress digest count) where
  aside := hfilling.aside.progress count
  cached := by
    unfold Cached
    rw [settled_progress]
    exact hfilling.cached
  known := by
    rw [settled_progress]
    exact hfilling.known
  allowed := fun action hmem ↦
    hfilling.allowed action ((waiting_progress digest count i).subset hmem)

/-- A command on a slot that is being filled: what was known of the memory leads to what is known
after it, the host's picture of the slot stays right, and the command is one of those allowed. Then
the slot is filled as far as the command goes, and the other slots are as before. -/
theorem Filling.push (hfilling : Filling digest before i known allowed ring)
    {action : SlotAction Program}
    (hknown : ∀ memory, known memory → known' (act digest action memory))
    (hholds : ∀ memory, Holds (ring.slot i) memory → Holds (ring.slot i) (act digest action memory))
    (hallowed : ∀ action, allowed action → allowed' action) (haction : allowed' action) :
    Filling digest before i known' allowed' (ring.push i action) where
  aside := hfilling.aside.push action
  cached := by
    unfold Cached
    rw [settled_push_self]
    exact hholds _ hfilling.cached
  known := by
    rw [settled_push_self]
    exact hknown _ hfilling.known
  allowed := by
    intro other hmem
    have hwaiting : (ring.push i action).waiting i = ring.waiting i ++ [action] := by
      show onSlot i (ring.device.pending ++ [(i, action)]) = _
      rw [onSlot_append, onSlot_singleton_self]
      rfl
    rw [hwaiting, List.mem_append, List.mem_singleton] at hmem
    rcases hmem with hmem | rfl
    · exact hallowed other (hfilling.allowed other hmem)
    · exact haction

/-- Host memory of the slot is written, where no pending action reads it. -/
theorem Filling.stage (hfilling : Filling digest before i known allowed ring)
    {write : SlotMemory → SlotMemory} (hknown : ∀ memory, known memory → known' (write memory))
    (hholds : ∀ slot memory, Holds slot memory → Holds slot (write memory))
    (hcommute : ∀ action, allowed action → ∀ memory,
      act digest action (write memory) = write (act digest action memory)) :
    Filling digest before i known' allowed (ring.stage i write) := by
  have hsettled : (ring.stage i write).settled digest i = write (ring.settled digest i) :=
    settled_writeHost_self (act digest) ring.device
      fun action hmem ↦ hcommute action (hfilling.allowed action hmem)
  refine ⟨hfilling.aside.stage write, ?_, ?_, hfilling.allowed⟩
  · unfold Cached
    rw [hsettled]
    exact hholds _ _ hfilling.cached
  · rw [hsettled]
    exact hknown _ hfilling.known

/-- The host's record of the slot is changed, to a picture that is right. -/
theorem Filling.updateSlot (hfilling : Filling digest before i known allowed ring)
    {change : Slot → Slot} (hholds : ∀ memory, known memory → Holds (ring.slot i) memory →
      Holds (change (ring.slot i)) memory) :
    Filling digest before i known allowed (ring.updateSlot i change) where
  aside := hfilling.aside.updateSlot change
  cached := by
    unfold Cached
    rw [settled_updateSlot, slot_updateSlot_self]
    exact hholds _ hfilling.known hfilling.cached
  known := hfilling.known
  allowed := hfilling.allowed

theorem Holds.forget {slot : Slot} {memory : SlotMemory} : Holds slot.forget memory :=
  ⟨fun _ hnone ↦ (Option.some_ne_none _ hnone.symm).elim,
    fun _ hnone ↦ (Option.some_ne_none _ hnone.symm).elim⟩

end Filling

end LaunchRing

end Bc3Miner.Device
