import Bc3Miner.Device.RingEnqueue

/-!
# The launch ring keeps its launches in order

The invariant of the ring between two calls that went well (`Sound`): the launches in flight sit in
successive slots, each fully submitted, every other slot is idle, and every cached input is right.
`enqueue` appends to the launches, `collect` takes the oldest with its own result, `abandon` and
`prepare_bc3hash` leave none. A call that fails leaves what the next `abandon` needs (`Failed`).

The rules are for either backend (`GpuApi.enqueue_ensures`, `GpuApi.collect_ensures`,
`GpuApi.abandon_sound`), and the self-test of `prepare_bc3hash` is an ordinary user of them. A
`collect` of a launch in flight, with a driver that accepts every call, brings a result
(`GpuApi.collect_accepted`).
-/

set_option autoImplicit false
set_option relaxedAutoImplicit false

namespace Bc3Miner.Device

open Consensus Foundations Kernel Mining CommandQueue Attempt

namespace LaunchRing

variable {Program : Type} (digest : Program → Header76 → UInt32 → Bytes32)

/-- The launches in flight, oldest first, each with the kernel it was submitted to. -/
structure Sound (launches : List (Program × Launch)) (ring : LaunchRing Program) : Prop where
  inTurn : InTurn (ring.queued ++ [ring.nextSlot])
  depth : ring.queued.length ≤ queueDepth
  cached : ∀ i, Cached digest ring i
  idle : ∀ i, i ∉ ring.queued → ring.waiting i = []
  flight : List.Forall₂ (fun i launch ↦ InFlight digest launch.1 launch.2 i ring)
    ring.queued launches

/-- What is left where a call has failed. -/
structure Failed (before ring : LaunchRing Program) : Prop where
  depth : ring.queued.length ≤ queueDepth
  cached : ∀ i, Cached digest ring i
  bc3 : ring.bc3 = before.bc3

/-- The slot is as it was: the host's record and the memory it will have, with no command added. -/
structure Untouched (before ring : LaunchRing Program) (i : Fin queueDepth) : Prop where
  slot : ring.slot i = before.slot i
  settled : ring.settled digest i = before.settled digest i
  waiting : ring.waiting i <:+ before.waiting i

section Sound

variable {digest} {launches : List (Program × Launch)} {before ring : LaunchRing Program}
  {i : Fin queueDepth}

theorem Sound.nodup (hsound : Sound digest launches ring) : ring.queued.Nodup :=
  InTurn.nodup hsound.inTurn.left_of_append hsound.depth

/-- With room for a launch, the slot it takes is not in flight. -/
theorem Sound.nextSlot_notMem (hsound : Sound digest launches ring)
    (hroom : ring.queued.length < queueDepth) : ring.nextSlot ∉ ring.queued := by
  have hnodup := hsound.inTurn.nodup (by rw [List.length_append, List.length_singleton]; omega)
  rw [List.nodup_append] at hnodup
  intro hmem
  exact hnodup.2.2 _ hmem _ (List.mem_singleton_self _) rfl

/-- What keeps each launch in flight keeps them all. -/
theorem flight_mono {slots : List (Fin queueDepth)}
    (hflight : List.Forall₂ (fun i launch ↦ InFlight digest launch.1 launch.2 i before)
      slots launches)
    (hkeep : ∀ j ∈ slots, ∀ program launch, InFlight digest program launch j before →
      InFlight digest program launch j ring) :
    List.Forall₂ (fun i launch ↦ InFlight digest launch.1 launch.2 i ring) slots launches := by
  refine ((List.forall₂_and_left slots launches).mpr ⟨hkeep, hflight⟩).imp ?_
  rintro j launch ⟨hone, hbefore⟩
  exact hone _ _ hbefore

theorem Aside.untouched (haside : Aside digest before i ring) {j : Fin queueDepth} (hne : j ≠ i) :
    Untouched digest before ring j :=
  ⟨haside.slot j hne, haside.settled j hne, haside.waiting j hne⟩

/-- A launch in flight stays so while another slot is worked on. -/
theorem InFlight.aside {program : Program} {launch : Launch} {j : Fin queueDepth}
    (hflight : InFlight digest program launch j before) (haside : Aside digest before i ring)
    (hne : j ≠ i) : InFlight digest program launch j ring := by
  obtain ⟨event, hdone, hcovers⟩ := hflight.done
  refine ⟨⟨event, ?_, haside.covers j hne event hcovers⟩, ?_⟩
  · rw [haside.slot j hne]
    exact hdone
  · rw [haside.settled j hne]
    exact hflight.readBack

/-- Spoiling a slot leaves every slot with a cache that is right, or with none. -/
theorem Spoilt.cached (hspoilt : Spoilt digest before i ring)
    (hcached : ∀ j, Cached digest before j)
    (j : Fin queueDepth) : Cached digest ring j := by
  by_cases hsame : j = i
  · rw [hsame]
    exact Filling.cached hspoilt
  · unfold Cached
    rw [hspoilt.aside.slot j hsame, hspoilt.aside.settled j hsame]
    exact hcached j

/-- A refused enqueue is a failure that loses nothing. -/
theorem Sound.failed_of_refused (hsound : Sound digest launches before)
    (hrefused : Refused digest before ring) : Failed digest before ring := by
  rcases hrefused with rfl | ⟨-, hspoilt⟩
  · exact ⟨hsound.depth, hsound.cached, rfl⟩
  · refine ⟨?_, Spoilt.cached hspoilt hsound.cached, hspoilt.aside.bc3⟩
    rw [hspoilt.aside.queued]
    exact hsound.depth

/-! ### `enqueue` -/

/-- A launch that was taken is the youngest in flight. -/
theorem Sound.enqueued {launch : Launch} (hsound : Sound digest launches before)
    (henqueued : Enqueued digest before launch ring) :
    ∃ program, before.bc3 = some program ∧ ring.bc3 = before.bc3 ∧ launches.length < queueDepth ∧
      Sound digest (launches ++ [(program, launch)]) ring := by
  obtain ⟨hroom, program, filled, hloaded, rfl, hspoilt, hnew⟩ := henqueued
  have hfree := hsound.nextSlot_notMem hroom
  have haside := hspoilt.aside
  have hlength := hsound.flight.length_eq
  refine ⟨program, hloaded, haside.bc3, hlength ▸ hroom, ?_⟩
  have hqueued : (filled.takeSlot before.nextSlot).queued = before.queued ++ [before.nextSlot] := by
    show filled.queued ++ [before.nextSlot] = _
    rw [haside.queued]
  have hcached := Spoilt.cached hspoilt hsound.cached
  constructor
  · rw [hqueued]
    exact hsound.inTurn.concat
  · rw [hqueued, List.length_append, List.length_singleton]
    exact hroom
  · exact hcached
  · intro j hother
    rw [hqueued, List.mem_append, List.mem_singleton, not_or] at hother
    have hsuffix := haside.waiting j hother.2
    rw [hsound.idle j hother.1, List.suffix_nil] at hsuffix
    exact hsuffix
  · rw [hqueued]
    refine List.rel_append (flight_mono hsound.flight ?_)
      (List.Forall₂.cons ⟨hnew.done, hnew.readBack⟩ List.Forall₂.nil)
    intro j hmem program launch hflight
    have hne : j ≠ before.nextSlot := by
      rintro rfl
      exact hfree hmem
    have hkept := hflight.aside haside hne
    exact ⟨hkept.done, hkept.readBack⟩

/-! ### The device works on, and the oldest launch leaves -/

/-- Where a slot is queued, a launch is in flight. -/
theorem Sound.exists_oldest {first : Fin queueDepth} {rest : List (Fin queueDepth)}
    (hsound : Sound digest launches ring) (hqueued : ring.queued = first :: rest) :
    ∃ oldest others, launches = oldest :: others := by
  have hflight := hsound.flight
  rw [hqueued] at hflight
  obtain ⟨oldest, others, -, -, heq⟩ := List.forall₂_cons_left_iff.mp hflight
  exact ⟨oldest, others, heq⟩

/-- The oldest launch in flight, and the others. -/
theorem Sound.rest {first : Fin queueDepth} {rest : List (Fin queueDepth)}
    {oldest : Program × Launch}
    {others : List (Program × Launch)} (hsound : Sound digest (oldest :: others) ring)
    (hqueued : ring.queued = first :: rest) :
    first ∉ rest ∧ InFlight digest oldest.1 oldest.2 first ring ∧
      List.Forall₂ (fun i launch ↦ InFlight digest launch.1 launch.2 i ring) rest others := by
  have hnodup := hsound.nodup
  have hflight := hsound.flight
  rw [hqueued] at hnodup hflight
  exact ⟨(List.nodup_cons.mp hnodup).1, (List.forall₂_cons.mp hflight).1,
    (List.forall₂_cons.mp hflight).2⟩

/-- Let the ring hold the launches it should, and the device have come to the event of the oldest.
The launch leaves: the others are in flight as before, its slot has no command waiting, and the
readback in it is what its scan reports. -/
theorem Sound.pop {first : Fin queueDepth} {rest : List (Fin queueDepth)}
    {oldest : Program × Launch}
    {others : List (Program × Launch)} (hsound : Sound digest (oldest :: others) ring)
    (hqueued : ring.queued = first :: rest) {event further : ℕ}
    (hdone : (ring.slot first).done = some event) {after : LaunchRing Program}
    (hdevice : after.device = ring.device.waitFor (act digest) event further)
    (hslot : after.slot = ring.slot) (hnext : after.nextSlot = ring.nextSlot)
    (hrest : after.queued = rest) :
    Sound digest others after ∧ after.waiting first = [] ∧
      ReadBack digest oldest.1 oldest.2 (after.settled digest first) := by
  obtain ⟨hfresh, hfirst, hothers⟩ := hsound.rest hqueued
  obtain ⟨event', hdone', hcovers⟩ := hfirst.done
  obtain rfl : event = event' := Option.some.inj (hdone.symm.trans hdone')
  have hsettled : after.settled digest = ring.settled digest := by
    unfold settled
    rw [hdevice]
    exact settled_advance (act digest) ring.device _
  have hidle : after.waiting first = [] := by
    unfold waiting
    rw [hdevice]
    exact hcovers.idle_waitFor (act digest) further
  refine ⟨?_, hidle, ?_⟩
  · constructor
    · rw [hrest, hnext]
      have hturn := hsound.inTurn
      rw [hqueued] at hturn
      exact hturn.tail
    · have hdepth := hsound.depth
      rw [hqueued, List.length_cons] at hdepth
      rw [hrest]
      omega
    · intro j
      unfold Cached
      rw [hslot, hsettled]
      exact hsound.cached j
    · intro j hother
      rw [hrest] at hother
      by_cases hsame : j = first
      · rw [hsame]
        exact hidle
      · have hbefore : ring.waiting j = [] := by
          refine hsound.idle j ?_
          rw [hqueued, List.mem_cons, not_or]
          exact ⟨hsame, hother⟩
        have hsuffix : after.waiting j <:+ ring.waiting j := by
          unfold waiting
          rw [hdevice]
          exact onSlot_drop_suffix j ring.device.pending _
        rwa [hbefore, List.suffix_nil] at hsuffix
    · rw [hrest]
      refine flight_mono hothers fun j _ program launch hflight ↦ ?_
      obtain ⟨event', hdone', hcovers'⟩ := hflight.done
      refine ⟨⟨event', ?_, ?_⟩, ?_⟩
      · rw [hslot]
        exact hdone'
      · rw [hdevice]
        exact hcovers'.advance (act digest) _
      · rw [hsettled]
        exact hflight.readBack
  · rw [hsettled]
    exact hfirst.readBack

/-- A ring stays sound while its queue runs. -/
theorem Sound.progress (hsound : Sound digest launches ring) (count : ℕ) :
    Sound digest launches (ring.progress digest count) where
  inTurn := hsound.inTurn
  depth := hsound.depth
  cached := by
    intro j
    unfold Cached
    rw [settled_progress]
    exact hsound.cached j
  idle := by
    intro j hother
    have hsuffix : (ring.progress digest count).waiting j <:+ ring.waiting j :=
      waiting_progress digest count j
    rwa [hsound.idle j hother, List.suffix_nil] at hsuffix
  flight := flight_mono hsound.flight fun _ _ _ _ hflight ↦ hflight.progress count

/-- The host's record of a slot that is not in flight is changed, to a picture that is right. -/
theorem Sound.updateSlot (hsound : Sound digest launches ring) (hother : i ∉ ring.queued)
    {change : Slot → Slot} (hholds : ∀ memory, Holds (ring.slot i) memory →
      Holds (change (ring.slot i)) memory) :
    Sound digest launches (ring.updateSlot i change) where
  inTurn := hsound.inTurn
  depth := hsound.depth
  cached := by
    intro j
    unfold Cached
    by_cases hsame : j = i
    · rw [hsame, slot_updateSlot_self]
      exact hholds _ (hsound.cached i)
    · have hkept : (ring.updateSlot i change).slot j = ring.slot j :=
        Function.update_of_ne hsame _ _
      rw [hkept]
      exact hsound.cached j
  idle := hsound.idle
  flight := by
    refine flight_mono hsound.flight fun j hmem program launch hflight ↦ ?_
    have hne : j ≠ i := by
      rintro rfl
      exact hother hmem
    have hkept : (ring.updateSlot i change).slot j = ring.slot j := Function.update_of_ne hne _ _
    refine ⟨?_, hflight.readBack⟩
    rw [hkept]
    exact hflight.done

/-! ### `collect` -/

/-- What a `collect` that returns has done: it took the oldest launch, and its result is that
launch's. -/
def Collected (digest : Program → Header76 → UInt32 → Bytes32) (launches : List (Program × Launch))
    (before : LaunchRing Program) (scan : Scan) (ring : LaunchRing Program) : Prop :=
  ∃ program launch others, launches = (program, launch) :: others ∧
    IsResult digest program launch scan ∧ Sound digest others ring ∧ ring.bc3 = before.bc3

/-- The oldest launch has left, its slot is idle and holds its result. -/
structure Popped (digest : Program → Header76 → UInt32 → Bytes32) (before : LaunchRing Program)
    (first : Fin queueDepth) (oldest : Program × Launch) (others : List (Program × Launch))
    (ring : LaunchRing Program) : Prop where
  sound : Sound digest others ring
  fresh : first ∉ ring.queued
  idle : ring.waiting first = []
  readBack : ReadBack digest oldest.1 oldest.2 (ring.settled digest first)
  bc3 : ring.bc3 = before.bc3

theorem Popped.failed {first : Fin queueDepth} {oldest : Program × Launch}
    {others : List (Program × Launch)} (hpopped : Popped digest before first oldest others ring) :
    Failed digest before ring :=
  ⟨hpopped.sound.depth, hpopped.sound.cached, hpopped.bc3⟩

/-- A ring whose oldest launch has been taken stays so while its queue runs. -/
theorem Popped.progress {first : Fin queueDepth} {oldest : Program × Launch}
    {others : List (Program × Launch)} (hpopped : Popped digest before first oldest others ring)
    (count : ℕ) : Popped digest before first oldest others (ring.progress digest count) where
  sound := hpopped.sound.progress count
  fresh := hpopped.fresh
  idle := by
    have hsuffix : (ring.progress digest count).waiting first <:+ ring.waiting first :=
      waiting_progress digest count first
    rwa [hpopped.idle, List.suffix_nil] at hsuffix
  readBack := by
    rw [settled_progress]
    exact hpopped.readBack
  bc3 := hpopped.bc3

/-- The events of the launch that left are released. -/
theorem Popped.releaseEvents {first : Fin queueDepth} {oldest : Program × Launch}
    {others : List (Program × Launch)} (hpopped : Popped digest before first oldest others ring) :
    Popped digest before first oldest others (ring.updateSlot first LaunchRing.releaseEvents) where
  sound := hpopped.sound.updateSlot hpopped.fresh fun _ hholds ↦ ⟨hholds.header, hholds.target⟩
  fresh := hpopped.fresh
  idle := hpopped.idle
  readBack := hpopped.readBack
  bc3 := hpopped.bc3

/-- The host's record of a slot is changed, to a picture that is right. -/
theorem Failed.releaseEvents (hfailed : Failed digest before ring) (i : Fin queueDepth) :
    Failed digest before (ring.updateSlot i LaunchRing.releaseEvents) where
  depth := hfailed.depth
  cached := by
    intro j
    unfold Cached
    by_cases hsame : j = i
    · rw [hsame, slot_updateSlot_self]
      exact ⟨(hfailed.cached i).header, (hfailed.cached i).target⟩
    · have hkept : (ring.updateSlot i LaunchRing.releaseEvents).slot j = ring.slot j :=
        Function.update_of_ne hsame _ _
      rw [hkept]
      exact hfailed.cached j
  bc3 := hfailed.bc3

/-- What the host reads from the slot of the launch that left. -/
theorem Popped.collected {first : Fin queueDepth} {oldest : Program × Launch}
    {others : List (Program × Launch)} (hpopped : Popped digest before first oldest others ring)
    (busy : Option ℕ) :
    Collected digest (oldest :: others) before
      (readScan busy (ring.device.memory first).hitsHost) ring := by
  have hmemory : ring.settled digest first = ring.device.memory first :=
    settled_of_idle (act digest) ring.device hpopped.idle
  obtain ⟨nonces, hperm, hhits, hreported⟩ := hpopped.readBack
  rw [hmemory] at hhits hreported
  exact ⟨oldest.1, oldest.2, others, rfl, ⟨nonces, hperm, hhits, hreported⟩,
    hpopped.sound, hpopped.bc3⟩

/-- The host waits for the oldest launch, which leaves. -/
theorem Sound.waited {first : Fin queueDepth} {rest : List (Fin queueDepth)}
    {oldest : Program × Launch}
    {others : List (Program × Launch)} (hsound : Sound digest (oldest :: others) before)
    (hqueued : before.queued = first :: rest) (fate : Fate) :
    Popped digest before first oldest others
      (waitDone digest fate (before.slot first).done { before with queued := rest }) := by
  obtain ⟨hfresh, hflight, -⟩ := hsound.rest hqueued
  obtain ⟨event, hdone, -⟩ := hflight.done
  rw [hdone]
  set after := waitDone digest fate (some event) { before with queued := rest }
  have hdevice : after.device = before.device.waitFor (act digest) event fate.progress := rfl
  obtain ⟨hothers, hidle, hread⟩ := hsound.pop hqueued hdone hdevice rfl rfl rfl
  exact ⟨hothers, hfresh, hidle, hread, rfl⟩

/-- A launch leaves the queue without its result. -/
theorem Sound.dropped {first : Fin queueDepth} {rest : List (Fin queueDepth)}
    (hsound : Sound digest launches before) (hqueued : before.queued = first :: rest) (count : ℕ) :
    Failed digest before (({ before with queued := rest } : LaunchRing Program).progress
      digest count) := by
  have hdepth := hsound.depth
  rw [hqueued, List.length_cons] at hdepth
  refine ⟨by show rest.length ≤ queueDepth; omega, ?_, rfl⟩
  intro j
  unfold Cached
  rw [settled_progress]
  exact hsound.cached j

/-- `collect` of the CUDA backend. -/
theorem cudaCollect_ensures (hsound : Sound digest launches before) (fates : Fates) :
    Ensures (fun ring ↦ ring = before) (cudaCollect digest fates) (Collected digest launches before)
      (Failed digest before) := by
  refine Ensures.get fun seen hseen ↦ ?_
  rw [hseen]
  cases hqueued : before.queued with
  | nil =>
    refine Ensures.throw fun ring hring ↦ ?_
    rw [hring]
    exact ⟨hsound.depth, hsound.cached, rfl⟩
  | cons first rest =>
    obtain ⟨oldest, others, rfl⟩ := hsound.exists_oldest hqueued
    have hpop : Ensures (fun ring ↦ ring = before)
        (modify fun ring ↦ { ring with queued := rest } : Attempt String (LaunchRing Program) Unit)
        (fun _ ring ↦ ring = { before with queued := rest }) (Failed digest before) := by
      refine Ensures.modify fun ring hring ↦ ?_
      rw [hring]
    refine Ensures.bind hpop fun _ ↦ ?_
    cases (fates.call .wait).reply with
    | refused error submitted =>
      have hwork : Ensures (fun ring ↦ ring = { before with queued := rest })
          (modify (progress digest (fates.call .wait).progress) :
            Attempt String (LaunchRing Program) Unit)
          (fun _ ↦ Failed digest before) (Failed digest before) := by
        refine Ensures.modify fun ring hring ↦ ?_
        rw [hring]
        exact hsound.dropped hqueued _
      exact Ensures.bind hwork fun _ ↦ Ensures.throw fun _ ↦ id
    | accepted =>
      have hwait : Ensures (fun ring ↦ ring = { before with queued := rest })
          (modify (waitDone digest (fates.call .wait) (before.slot first).done) :
            Attempt String (LaunchRing Program) Unit)
          (fun _ ↦ Popped digest before first oldest others) (Failed digest before) := by
        refine Ensures.modify fun ring hring ↦ ?_
        rw [hring]
        exact hsound.waited hqueued (fates.call .wait)
      have hslice : Ensures (Popped digest before first oldest others)
          (callDriver digest (fates.call .slice) "read hits")
          (fun _ ↦ Popped digest before first oldest others) (Failed digest before) :=
        callDriver_ensures (fun _ count hpopped ↦ hpopped.progress count) fun _ ↦ Popped.failed
      refine Ensures.bind hwait fun _ ↦ Ensures.bind hslice fun _ ↦
        Ensures.get fun seen hpopped ↦ Ensures.pure fun ring hring ↦ ?_
      rw [hring]
      exact hpopped.collected fates.busy

/-- `collect` of the OpenCL backend. The slot of a launch in flight has its event, so there is
always one to wait for. -/
theorem openClCollect_ensures (hsound : Sound digest launches before) (fates : Fates) :
    Ensures (fun ring ↦ ring = before) (openClCollect digest fates)
    (Collected digest launches before)
      (Failed digest before) := by
  refine Ensures.get fun seen hseen ↦ ?_
  rw [hseen]
  cases hqueued : before.queued with
  | nil =>
    refine Ensures.throw fun ring hring ↦ ?_
    rw [hring]
    exact ⟨hsound.depth, hsound.cached, rfl⟩
  | cons first rest =>
    obtain ⟨oldest, others, rfl⟩ := hsound.exists_oldest hqueued
    have hpop : Ensures (fun ring ↦ ring = before)
        (modify fun ring ↦ { ring with queued := rest } : Attempt String (LaunchRing Program) Unit)
        (fun _ ring ↦ ring = { before with queued := rest }) (Failed digest before) := by
      refine Ensures.modify fun ring hring ↦ ?_
      rw [hring]
    have hrelease : Ensures (Failed digest before)
        (modify (updateSlot first LaunchRing.releaseEvents) :
          Attempt String (LaunchRing Program) Unit)
        (fun _ ↦ Failed digest before) (Failed digest before) :=
      Ensures.modify fun ring hfailed ↦ hfailed.releaseEvents first
    refine Ensures.bind hpop fun _ ↦ ?_
    cases (fates.call .wait).reply with
    | refused error submitted =>
      have hwork : Ensures (fun ring ↦ ring = { before with queued := rest })
          (modify (progress digest (fates.call .wait).progress) :
            Attempt String (LaunchRing Program) Unit)
          (fun _ ↦ Failed digest before) (Failed digest before) := by
        refine Ensures.modify fun ring hring ↦ ?_
        rw [hring]
        exact hsound.dropped hqueued _
      exact Ensures.bind hwork fun _ ↦ Ensures.bind hrelease fun _ ↦ Ensures.throw fun _ ↦ id
    | accepted =>
      obtain ⟨event, hdone, -⟩ := (hsound.rest hqueued).2.1.done
      have hwait : Ensures (fun ring ↦ ring = { before with queued := rest })
          (modify (waitDone digest (fates.call .wait) (some event)) :
            Attempt String (LaunchRing Program) Unit)
          (fun _ ↦ Popped digest before first oldest others) (Failed digest before) := by
        refine Ensures.modify fun ring hring ↦ ?_
        rw [hring, ← hdone]
        exact hsound.waited hqueued (fates.call .wait)
      have hreleased : Ensures (Popped digest before first oldest others)
          (modify (updateSlot first LaunchRing.releaseEvents) :
            Attempt String (LaunchRing Program) Unit)
          (fun _ ↦ Popped digest before first oldest others) (Failed digest before) :=
        Ensures.modify fun ring hpopped ↦ hpopped.releaseEvents
      rw [hdone]
      refine Ensures.bind hwait fun _ ↦ Ensures.bind hreleased fun _ ↦
        Ensures.get fun seen hpopped ↦ Ensures.pure fun ring hring ↦ ?_
      rw [hring]
      exact hpopped.collected fates.busy

/-! ### `abandon` -/

/-- With the queue finished and every slot forgotten, nothing is in flight, whatever was before. -/
theorem sound_of_finished {ring : LaunchRing Program} (hqueued : ring.queued = [])
    (hpending : ring.device.pending = []) (hslot : ∀ i, ∃ slot, ring.slot i = Slot.forget slot) :
    Sound digest [] ring where
  inTurn := by
    rw [hqueued]
    exact List.isChain_singleton _
  depth := by
    rw [hqueued]
    exact Nat.zero_le _
  cached := by
    intro i
    obtain ⟨slot, hforgot⟩ := hslot i
    unfold Cached
    rw [hforgot]
    exact Holds.forget
  idle := by
    intro i _
    unfold waiting
    rw [hpending, onSlot_nil]
  flight := by
    rw [hqueued]
    exact List.Forall₂.nil

theorem cudaAbandon_sound (ring : LaunchRing Program) : Sound digest [] (cudaAbandon digest ring) :=
  sound_of_finished rfl (pending_finish (act digest) ring.device) fun i ↦ ⟨ring.slot i, rfl⟩

theorem openClAbandon_sound (ring : LaunchRing Program) : Sound digest []
    (openClAbandon digest ring) :=
  sound_of_finished rfl (pending_finish (act digest) ring.device)
    fun i ↦ ⟨LaunchRing.releaseEvents (ring.slot i), rfl⟩

end Sound

end LaunchRing

/-! ### Either backend -/

namespace GpuApi

open LaunchRing

variable {Program : Type} {digest : Program → Header76 → UInt32 → Bytes32} (api : GpuApi)

section Calls

variable {launches : List (Program × Launch)} {before ring : LaunchRing Program}

/-- An enqueue on a sound ring: on success the launch is behind the others, and on failure the ring
is as it was but for one idle slot. -/
theorem enqueue_ensures (hsound : Sound digest launches before) (fates : Fates) (launch : Launch) :
    Ensures (fun ring ↦ ring = before) (api.enqueue digest fates launch)
      (fun _ ↦ Enqueued digest before launch) (Refused digest before) := by
  cases api with
  | cuda => exact cudaEnqueue_ensures fates (hsound.cached _)
  | openCl =>
    exact openClEnqueue_ensures fates (hsound.cached _)
      fun hroom ↦ hsound.idle _ (hsound.nextSlot_notMem hroom)

/-- A collect on a sound ring: on success the digest is that of the oldest launch, which is gone
from the ring, and a failure is one of those that `Failed` lists. -/
theorem collect_ensures (hsound : Sound digest launches before) (fates : Fates) :
    Ensures (fun ring ↦ ring = before) (api.collect digest fates) (Collected digest launches before)
      (Failed digest before) := by
  cases api with
  | cuda => exact cudaCollect_ensures hsound fates
  | openCl => exact openClCollect_ensures hsound fates

/-- A `collect` that nothing stands in the way of: with a launch in flight, where the driver accepts
every call, either backend returns a result. -/
theorem collect_accepted (hsound : Sound digest launches before) {fates : Fates}
    (haccepted : ∀ call, (fates.call call).reply = .accepted) (hqueued : before.queued ≠ []) :
    ∃ scan next, (api.collect digest fates).run before = .ok scan next := by
  obtain ⟨first, rest, hfirst⟩ := List.exists_cons_of_ne_nil hqueued
  have hdone : ∃ event, (before.slot first).done = some event := by
    obtain ⟨oldest, others, rfl⟩ := hsound.exists_oldest hfirst
    obtain ⟨-, hflight, -⟩ := hsound.rest hfirst
    obtain ⟨event, hevent, -⟩ := hflight.done
    exact ⟨event, hevent⟩
  obtain ⟨event, hevent⟩ := hdone
  have hchange : ∀ (known : LaunchRing Program → Prop)
      (change : LaunchRing Program → LaunchRing Program),
      Ensures known (modify change : Attempt String (LaunchRing Program) Unit) (fun _ _ ↦ True)
        fun _ ↦ False := fun _ _ ↦ Ensures.modify fun _ _ ↦ trivial
  have hensures : Ensures (fun ring ↦ ring = before) (api.collect digest fates)
      (fun _ _ ↦ True) fun _ ↦ False := by
    cases api with
    | cuda =>
      refine Ensures.get fun seen hseen ↦ ?_
      rw [hseen, hfirst]
      refine Ensures.bind (hchange _ _) fun _ ↦ ?_
      rw [haccepted .wait]
      have hslice : Ensures (fun _ ↦ True)
          (callDriver digest (fates.call .slice) "read hits" :
            Attempt String (LaunchRing Program) Unit) (fun _ _ ↦ True) fun _ ↦ False := by
        intro ring _
        unfold callDriver
        rw [haccepted .slice]
        trivial
      exact Ensures.bind (hchange _ _) fun _ ↦ Ensures.bind hslice fun _ ↦
        Ensures.get fun _ _ ↦ Ensures.pure fun _ _ ↦ trivial
    | openCl =>
      refine Ensures.get fun seen hseen ↦ ?_
      rw [hseen, hfirst]
      refine Ensures.bind (hchange _ _) fun _ ↦ ?_
      rw [haccepted .wait, hevent]
      exact Ensures.bind (hchange _ _) fun _ ↦ Ensures.bind (hchange _ _) fun _ ↦
        Ensures.get fun _ _ ↦ Ensures.pure fun _ _ ↦ trivial
  cases hrun : (api.collect digest fates).run before with
  | ok scan next => exact ⟨scan, next, rfl⟩
  | error error next => exact (hensures.error rfl hrun).elim

theorem abandon_sound (ring : LaunchRing Program) : Sound digest [] (api.abandon digest ring) := by
  cases api with
  | cuda => exact cudaAbandon_sound ring
  | openCl => exact openClAbandon_sound ring

theorem abandon_bc3 (ring : LaunchRing Program) : (api.abandon digest ring).bc3 = ring.bc3 := by
  cases api <;> rfl

/-- Another kernel changes nothing about the slots. -/
theorem sound_of_bc3 (hsound : Sound digest launches ring) (bc3 : Option Program) :
    Sound digest launches { ring with bc3 := bc3 } where
  inTurn := hsound.inTurn
  depth := hsound.depth
  cached := hsound.cached
  idle := hsound.idle
  flight := flight_mono hsound.flight fun _ _ _ _ hflight ↦ ⟨hflight.done, hflight.readBack⟩

end Calls

/-! ### The self-test and `prepare_bc3hash` -/

section Prepare

/-- Between two calls that went well, with a given kernel. -/
def Running (digest : Program → Header76 → UInt32 → Bytes32) (bc3 : Option Program)
    (ring : LaunchRing Program) : Prop :=
  (∃ launches, Sound digest launches ring) ∧ ring.bc3 = bc3

/-- Nothing is in flight, with a given kernel. -/
def AtRest (digest : Program → Header76 → UInt32 → Bytes32) (bc3 : Option Program)
    (ring : LaunchRing Program) : Prop :=
  Sound digest [] ring ∧ ring.bc3 = bc3

variable {bc3 : Option Program}

/-- An enqueue that succeeds keeps the ring running the program it has. -/
theorem enqueue_running (fates : Fates) (launch : Launch) :
    Ensures (Running digest bc3) (api.enqueue digest fates launch) (fun _ ↦ Running digest bc3)
      fun _ ↦ True := by
  refine Ensures.ofState fun before hbefore ↦ ?_
  obtain ⟨⟨launches, hsound⟩, hbc3⟩ := hbefore
  refine (api.enqueue_ensures hsound fates launch).weaken (fun _ ↦ id) ?_ fun _ _ ↦ trivial
  intro _ ring henqueued
  obtain ⟨program, -, hkept, -, hnext⟩ := hsound.enqueued henqueued
  exact ⟨⟨_, hnext⟩, hkept.trans hbc3⟩

/-- A `collect` of the self-test, with at most one launch more in flight than `length`: if it
succeeds at most `length` are left, and the program of the ring is the same. -/
theorem collectHits_ensures {length : ℕ} (fates : Fates) :
    Ensures (fun ring ↦ (∃ launches, Sound digest launches ring ∧ launches.length ≤ length + 1) ∧
        ring.bc3 = bc3)
      (api.collectHits digest fates)
      (fun _ ring ↦ (∃ launches, Sound digest launches ring ∧ launches.length ≤ length) ∧
        ring.bc3 = bc3)
      fun _ ↦ True := by
  refine Ensures.ofState fun before hbefore ↦ ?_
  obtain ⟨⟨launches, hsound, hlength⟩, hbc3⟩ := hbefore
  have hcollect : Ensures (fun ring ↦ ring = before) (api.collect digest fates)
      (Collected digest launches before) fun _ ↦ True :=
    (api.collect_ensures hsound fates).weaken (fun _ ↦ id) (fun _ _ ↦ id) fun _ _ ↦ trivial
  refine Ensures.bind hcollect fun scan ↦ Ensures.pure fun ring hcollected ↦ ?_
  obtain ⟨program, launch, others, rfl, -, hothers, hkept⟩ := hcollected
  rw [List.length_cons] at hlength
  exact ⟨⟨others, hothers, by omega⟩, hkept.trans hbc3⟩

/-- The loop over what is in flight leaves nothing, with turns enough. -/
theorem drainQueue_ensures (fates : ℕ → Fates) (turns : ℕ) :
    Ensures (fun ring ↦ (∃ launches, Sound digest launches ring ∧ launches.length ≤ turns) ∧
        ring.bc3 = bc3)
      (api.drainQueue digest fates turns) (fun _ ↦ AtRest digest bc3) fun _ ↦ True := by
  induction turns with
  | zero =>
    refine Ensures.pure fun ring hring ↦ ?_
    obtain ⟨⟨launches, hsound, hlength⟩, hbc3⟩ := hring
    obtain rfl : launches = [] := List.length_eq_zero_iff.mp (Nat.le_zero.mp hlength)
    exact ⟨hsound, hbc3⟩
  | succ turns ih =>
    refine Ensures.get fun seen hseen ↦ Ensures.ite (fun hempty ↦ ?_) fun _ ↦ ?_
    · refine Ensures.pure fun ring hring ↦ ?_
      rw [hring]
      obtain ⟨⟨launches, hsound, -⟩, hbc3⟩ := hseen
      obtain rfl : launches = [] := by
        rw [← List.length_eq_zero_iff, ← hsound.flight.length_eq]
        exact hempty
      exact ⟨hsound, hbc3⟩
    · have hloop : Ensures
          (fun ring ↦ (∃ launches, Sound digest launches ring ∧ launches.length ≤ turns + 1) ∧
            ring.bc3 = bc3)
          (do
            let hits ← api.collectHits digest (fates turns)
            let others ← api.drainQueue digest fates turns
            pure (hits :: others))
          (fun _ ↦ AtRest digest bc3) fun _ ↦ True :=
        Ensures.bind (api.collectHits_ensures (fates turns)) fun _ ↦
          Ensures.bind ih fun _ ↦ Ensures.pure fun _ ↦ id
      refine hloop.weaken (fun ring hring ↦ ?_) (fun _ _ ↦ id) fun _ ↦ id
      rw [hring]
      exact hseen

/-- The scans of the self-test, if they all succeed, leave the ring at rest with the program it has.
-/
theorem queuedScans_ensures (drain : ℕ → Fates) (tests : List TestLaunch) :
    Ensures (Running digest bc3) (api.queuedScans digest drain tests) (fun _ ↦ AtRest digest bc3)
      fun _ ↦ True := by
  induction tests with
  | nil =>
    refine (api.drainQueue_ensures drain queueDepth).weaken ?_ (fun _ _ ↦ id) fun _ ↦ id
    rintro ring ⟨⟨launches, hsound⟩, hbc3⟩
    exact ⟨⟨launches, hsound, hsound.flight.length_eq ▸ hsound.depth⟩, hbc3⟩
  | cons test rest ih =>
    refine Ensures.bind (api.enqueue_running test.enqueue test.launch) fun _ ↦
      Ensures.get fun seen hseen ↦ Ensures.ite (fun _ ↦ ?_) fun _ ↦ ?_
    · obtain ⟨⟨launches, hsound⟩, hbc3⟩ := hseen
      have hcollect : Ensures (fun ring ↦ ring = seen) (api.collectHits digest test.collect)
          (fun _ ↦ Running digest bc3) fun _ ↦ True := by
        have hcollected : Ensures
            (fun ring ↦ (∃ others, Sound digest others ring ∧ others.length ≤ launches.length + 1) ∧
              ring.bc3 = bc3)
            (api.collectHits digest test.collect)
            (fun _ ring ↦ (∃ others, Sound digest others ring ∧ others.length ≤ launches.length) ∧
              ring.bc3 = bc3)
            fun _ ↦ True := api.collectHits_ensures test.collect
        refine hcollected.weaken ?_ ?_ fun _ ↦ id
        · intro ring hring
          rw [hring]
          exact ⟨⟨launches, hsound, Nat.le_succ _⟩, hbc3⟩
        · intro _ ring hcollect
          obtain ⟨⟨others, hothers, -⟩, hkept⟩ := hcollect
          exact ⟨⟨others, hothers⟩, hkept⟩
      exact Ensures.bind hcollect fun _ ↦ Ensures.bind ih fun _ ↦ Ensures.pure fun _ ↦ id
    · refine ih.weaken (fun ring hring ↦ ?_) (fun _ _ ↦ id) fun _ ↦ id
      rw [hring]
      exact hseen

/-- A call that only may fail changes nothing. -/
theorem failing_ensures {known failed : LaunchRing Program → Prop} (failure : Option String)
    (hfailed : ∀ ring, known ring → failed ring) :
    Ensures known (failing failure) (fun _ ↦ known) failed := by
  cases failure with
  | none => exact Ensures.pure fun _ ↦ id
  | some error => exact Ensures.throw hfailed

/-- The self-test leaves nothing in flight, and the kernel in place where it passes. -/
theorem selfTest_ensures (test : SelfTest) :
    Ensures (AtRest digest bc3) (api.selfTest digest test) (fun _ ↦ AtRest digest bc3)
      (Sound digest []) := by
  have hscans : Ensures (AtRest digest bc3)
      ((api.queuedScans digest test.drain test.launches).onError (api.abandon digest))
      (fun _ ↦ AtRest digest bc3) (Sound digest []) := by
    have hqueued : Ensures (AtRest digest bc3) (api.queuedScans digest test.drain test.launches)
        (fun _ ↦ AtRest digest bc3) fun _ ↦ True :=
      (api.queuedScans_ensures test.drain test.launches).weaken
        (fun ring hrest ↦ ⟨⟨[], hrest.1⟩, hrest.2⟩) (fun _ _ ↦ id) fun _ ↦ id
    exact hqueued.onError fun ring _ ↦ api.abandon_sound ring
  exact Ensures.bind (failing_ensures test.batch fun _ hrest ↦ hrest.1) fun _ ↦
    Ensures.bind hscans fun scans ↦ failing_ensures (test.differs scans) fun _ hrest ↦ hrest.1

/-- `prepare_bc3hash` leaves nothing in flight: the new kernel where it returns, and none where it
fails. -/
theorem prepareBc3hash_ensures (load : Except String Program) (test : SelfTest) :
    Ensures (fun _ ↦ True) (api.prepareBc3hash digest load test)
      (fun _ ring ↦ ∃ program, load = .ok program ∧ AtRest digest (some program) ring)
      (AtRest digest none) := by
  have hunload : ∀ ring, Sound digest [] ring → AtRest digest none (unload ring) :=
    fun ring hsound ↦ ⟨sound_of_bc3 hsound none, rfl⟩
  have habandon : Ensures (fun _ ↦ True)
      (modify (api.abandon digest) : Attempt String (LaunchRing Program) Unit)
      (fun _ ↦ Sound digest []) (AtRest digest none) :=
    Ensures.modify fun ring _ ↦ api.abandon_sound ring
  have hempty : Ensures (Sound digest []) (modify unload : Attempt String (LaunchRing Program) Unit)
      (fun _ ↦ AtRest digest none) (AtRest digest none) :=
    Ensures.modify hunload
  refine Ensures.bind habandon fun _ ↦ Ensures.bind hempty fun _ ↦ ?_
  cases load with
  | error error => exact Ensures.throw fun _ ↦ id
  | ok program =>
    have hload : Ensures (AtRest digest none)
        (modify fun ring ↦ { ring with bc3 := some program } :
          Attempt String (LaunchRing Program) Unit)
        (fun _ ↦ AtRest digest (some program)) (AtRest digest none) :=
      Ensures.modify fun ring hrest ↦ ⟨sound_of_bc3 hrest.1 (some program), rfl⟩
    have htest : Ensures (AtRest digest (some program))
        (((api.selfTest digest test).onError unload).mapError
          fun error ↦ "self-test failed: " ++ error)
        (fun _ ↦ AtRest digest (some program)) (AtRest digest none) :=
      ((api.selfTest_ensures test).onError hunload).mapError
    refine Ensures.bind hload fun _ ↦ htest.weaken (fun _ ↦ id) ?_ fun _ ↦ id
    exact fun _ ring hrest ↦ ⟨program, rfl, hrest⟩

end Prepare

end GpuApi

end Bc3Miner.Device
