import Bc3Miner.Device.RingSlots

/-!
# One launch into the ring

What `enqueue` of either backend does to the ring, over every way its calls of the driver can go:
where it returns, the slot it took is in flight and its readback will be the launch's result; where
it fails, nothing but that slot has been touched. Both backends fill the slot through the same
rules, one for each kind of call.

A driver that refuses a call may have taken the command all the same, so the rules for a call have
both outcomes in their conclusion. The last section is about a driver that accepts every call
(`KeepsBooks`): neither backend refuses a launch of its own accord, unless it is one of no nonces,
for another proof of work, without a kernel, or one too many (`GpuApi.enqueue_accepted`).
-/

set_option autoImplicit false
set_option relaxedAutoImplicit false

namespace Bc3Miner.Device

open Consensus Foundations Kernel Mining CommandQueue Attempt

/-! ### The result of a launch -/

section Result

variable {Program : Type} (digest : Program → Header76 → UInt32 → Bytes32)

/-- What a launch on its own reports: how many of its nonces are accepted, and the first of them, in
some order. -/
def IsResult (program : Program) (launch : Launch) (scan : Scan) : Prop :=
  ∃ nonces : List UInt32,
    nonces.Perm (acceptedNonces digest program launch.header76 (targetLimbs launch.target)
      launch.start launch.count) ∧
    scan.hits = nonces.take maxHits ∧ scan.reported = nonces.length

theorem length_acceptedNonces_le (program : Program) (header76 : Header76) (limbs : U256)
    (start count : UInt32) :
    (acceptedNonces digest program header76 limbs start count).length ≤ count.toNat := by
  refine (List.length_filter_le _ _).trans ?_
  rw [List.length_map, List.length_range]

/-- The threads of a launch fill a hit buffer whose count is zero. -/
theorem readScan_foldl_report {hits : Hits} (hclear : hits.count = 0) (busy : Option ℕ)
    {nonces : List UInt32} (hlength : nonces.length < 2 ^ 32) :
    (readScan busy (nonces.foldl Hits.report hits)).reported = nonces.length ∧
      (readScan busy (nonces.foldl Hits.report hits)).hits = nonces.take maxHits := by
  induction nonces using List.reverseRecOn with
  | nil =>
    rw [List.foldl_nil]
    unfold readScan
    rw [hclear]
    exact ⟨rfl, by simp⟩
  | append_singleton nonces nonce ih =>
    rw [List.length_append, List.length_singleton] at hlength ⊢
    obtain ⟨hcount, hfound⟩ := ih (by omega)
    rw [List.foldl_append, List.foldl_cons, List.foldl_nil]
    set reported := nonces.foldl Hits.report hits
    replace hcount : reported.count.toNat = nonces.length := hcount
    have hnext : (reported.report nonce).count.toNat = nonces.length + 1 := by
      show (reported.count + 1).toNat = nonces.length + 1
      rw [UInt32.toNat_add, hcount]
      exact Nat.mod_eq_of_lt hlength
    refine ⟨hnext, ?_⟩
    replace hfound : reported.found.toList.take (min reported.count.toNat maxHits) =
      nonces.take maxHits := hfound
    show (reported.report nonce).found.toList.take
      (min (reported.report nonce).count.toNat maxHits) = _
    rw [hnext]
    unfold Hits.report
    by_cases hroom : reported.count.toNat < maxHits
    · have hall : (nonces ++ [nonce]).take maxHits = nonces ++ [nonce] :=
        List.take_of_length_le (by rw [List.length_append, List.length_singleton]; omega)
      have hsome : nonces.take maxHits = nonces := List.take_of_length_le (by omega)
      have hplace : nonces.length < (reported.found.toList.set nonces.length nonce).length := by
        rw [List.length_set, Vector.length_toList]
        omega
      rw [min_eq_left (by omega), hcount, hsome] at hfound
      rw [dif_pos hroom, min_eq_left (by omega), Vector.toList_set, hall]
      simp only [hcount]
      rw [List.take_succ_eq_append_getElem hplace, List.getElem_set_self,
        List.take_set_of_le (le_refl _), hfound]
    · rw [min_eq_right (by omega)] at hfound
      rw [dif_neg hroom, min_eq_right (by omega), hfound, List.take_append_of_le_length (by omega)]

end Result

namespace LaunchRing

variable {Program : Type} {digest : Program → Header76 → UInt32 → Bytes32}

/-! ### One rule for each kind of call -/

section Rules

variable {before : LaunchRing Program} {i : Fin queueDepth} {known known' : SlotMemory → Prop}
  {allowed allowed' : SlotAction Program → Prop}

/-- A call that submits a command, between two descriptions of the ring: the first has to survive
the work of the device, the command has to lead from it to the second, and a failure may come before
or after the command went in. -/
theorem submit_ensures {before after failed : LaunchRing Program → Prop} {fate : Fate}
    {what : String}
    {action : SlotAction Program}
    (hprogress : ∀ ring count, before ring → before (ring.progress digest count))
    (hpush : ∀ ring, before ring → after (ring.push i action))
    (hbefore : ∀ ring, before ring → failed ring) (hafter : ∀ ring, after ring → failed ring) :
    Ensures before (submit digest fate what i action) (fun _ ↦ after) failed := by
  intro ring hring
  have hwork := hprogress ring fate.progress hring
  unfold submit
  cases fate.reply with
  | accepted => exact hpush _ hwork
  | refused error submitted =>
    cases submitted with
    | true => exact hafter _ (hpush _ hwork)
    | false => exact hbefore _ hwork

/-- A command on a slot that is being filled, if it leaves the header and the target in the slot's
memory alone: on success the memory is known to be what the command makes of it, and a failure
spoils only this slot. -/
theorem Filling.submit_ensures {fate : Fate} {what : String} {action : SlotAction Program}
    (hknown : ∀ memory, known memory → known' (act digest action memory))
    (hheader : ∀ memory, (act digest action memory).header = memory.header)
    (htarget : ∀ memory, (act digest action memory).target = memory.target)
    (hallowed : ∀ action, allowed action → allowed' action) (haction : allowed' action) :
    Ensures (Filling digest before i known allowed) (submit digest fate what i action)
      (fun _ ↦ Filling digest before i known' allowed') (Spoilt digest before i) := by
  refine LaunchRing.submit_ensures (fun ring count hring ↦ hring.progress count) ?_
    (fun ring hring ↦ hring.spoilt) fun ring hring ↦ hring.spoilt
  intro ring hring
  refine hring.push hknown ?_ hallowed haction
  intro memory hholds
  constructor
  · intro header76 hof
    rw [hheader]
    exact hholds.header header76 hof
  · intro limbs hof
    rw [htarget]
    exact hholds.target limbs hof

/-- A call that submits nothing. -/
theorem callDriver_ensures {before failed : LaunchRing Program → Prop} {fate : Fate} {what : String}
    (hprogress : ∀ ring count, before ring → before (ring.progress digest count))
    (hfailed : ∀ ring, before ring → failed ring) :
    Ensures before (callDriver digest fate what) (fun _ ↦ before) failed := by
  intro ring hring
  have hwork := hprogress ring fate.progress hring
  unfold callDriver
  cases fate.reply with
  | accepted => exact hwork
  | refused error submitted => exact hfailed _ hwork

/-- The header of a slot that is being filled. It is sent if the host does not hold it to be there,
and else skipped, which is right because what the host holds to be there will be there; afterwards
the memory has the header of the launch. -/
theorem Filling.refreshHeader_ensures {header76 : Header76}
    {upload : Attempt String (LaunchRing Program) Unit}
    (hupload : Ensures
      (fun ring ↦ Filling digest before i known allowed ring ∧ (ring.slot i).headerOf = none) upload
      (fun _ ↦ Filling digest before i known' allowed') (Spoilt digest before i))
    (hheader : ∀ memory, known' memory → memory.header = header76)
    (hskip : ∀ memory, known memory → memory.header = header76 → known' memory)
    (hallowed : ∀ action, allowed action → allowed' action) :
    Ensures (Filling digest before i known allowed) (refreshHeader i header76 upload)
      (fun _ ↦ Filling digest before i known' allowed') (Spoilt digest before i) := by
  refine Ensures.get fun seen hseen ↦ Ensures.ite (fun _ ↦ ?_) fun hsame ↦ ?_
  · refine Ensures.bind (Ensures.modify fun ring hring ↦ ?_)
      fun _ ↦ Ensures.bind hupload fun _ ↦ Ensures.modify fun ring hring ↦ ?_
    · rw [hring]
      refine ⟨hseen.updateSlot fun memory _ hholds ↦ ?_, ?_⟩
      · exact ⟨fun _ hnone ↦ (Option.some_ne_none _ hnone.symm).elim, hholds.target⟩
      · rw [slot_updateSlot_self]
    · refine hring.updateSlot fun memory hmemory hholds ↦ ⟨?_, hholds.target⟩
      intro other hother
      rw [hheader memory hmemory]
      exact Option.some.inj hother
  · refine Ensures.pure fun ring hring ↦ ?_
    rw [hring]
    have hknown := hskip _ hseen.known (hseen.cached.header header76 (not_not.mp hsame))
    exact ⟨hseen.aside, hseen.cached,
      hknown, fun action hmem ↦ hallowed action (hseen.allowed action hmem)⟩

/-- The target of a slot that is being filled. It is sent if the host does not hold it to be there,
and else skipped, which is right because what the host holds to be there will be there; afterwards
the memory has the target of the launch. -/
theorem Filling.refreshTarget_ensures {limbs : U256}
    {upload : Attempt String (LaunchRing Program) Unit}
    (hupload : Ensures
      (fun ring ↦ Filling digest before i known allowed ring ∧ (ring.slot i).targetOf = none) upload
      (fun _ ↦ Filling digest before i known' allowed') (Spoilt digest before i))
    (htarget : ∀ memory, known' memory → memory.target = limbs)
    (hskip : ∀ memory, known memory → memory.target = limbs → known' memory)
    (hallowed : ∀ action, allowed action → allowed' action) :
    Ensures (Filling digest before i known allowed) (refreshTarget i limbs upload)
      (fun _ ↦ Filling digest before i known' allowed') (Spoilt digest before i) := by
  refine Ensures.get fun seen hseen ↦ Ensures.ite (fun _ ↦ ?_) fun hsame ↦ ?_
  · refine Ensures.bind (Ensures.modify fun ring hring ↦ ?_)
      fun _ ↦ Ensures.bind hupload fun _ ↦ Ensures.modify fun ring hring ↦ ?_
    · rw [hring]
      refine ⟨hseen.updateSlot fun memory _ hholds ↦ ?_, ?_⟩
      · exact ⟨hholds.header, fun _ hnone ↦ (Option.some_ne_none _ hnone.symm).elim⟩
      · rw [slot_updateSlot_self]
    · refine hring.updateSlot fun memory hmemory hholds ↦ ⟨hholds.header, ?_⟩
      intro other hother
      rw [htarget memory hmemory]
      exact Option.some.inj hother
  · refine Ensures.pure fun ring hring ↦ ?_
    rw [hring]
    have hknown := hskip _ hseen.known (hseen.cached.target limbs (not_not.mp hsame))
    exact ⟨hseen.aside, hseen.cached,
      hknown, fun action hmem ↦ hallowed action (hseen.allowed action hmem)⟩

end Rules

/-! ### What is known of the slot along the way -/

section Known

variable (digest) (program : Program) (launch : Launch)

/-- The header is in place. -/
def HeaderIn (memory : SlotMemory) : Prop := memory.header = launch.header76

/-- The header and the target are in place. -/
structure InputsIn (memory : SlotMemory) : Prop where
  header : memory.header = launch.header76
  target : memory.target = targetLimbs launch.target

/-- The inputs are in place, and the hit buffer is clear. -/
structure Ready (memory : SlotMemory) : Prop extends InputsIn launch memory where
  clear : memory.hits.count = 0

/-- The hit buffer holds the launch's result. -/
def Scanned (memory : SlotMemory) : Prop :=
    IsResult digest program launch (readScan none memory.hits)

/-- The host has the launch's result. -/
def ReadBack (memory : SlotMemory) : Prop :=
  IsResult digest program launch (readScan none memory.hitsHost)

/-- The kernel over a slot that is ready leaves the launch's result in its hit buffer. -/
theorem Ready.scanned {memory : SlotMemory} (hready : Ready launch memory) (schedule : Schedule) :
    Scanned digest program launch
      (act digest (.scan program launch.start launch.count schedule) memory) := by
  have hperm := schedule.perm (acceptedNonces digest program memory.header memory.target
    launch.start launch.count)
  have hlength : (schedule.order (acceptedNonces digest program memory.header memory.target
      launch.start launch.count)).length < 2 ^ 32 := by
    rw [hperm.length_eq]
    exact (length_acceptedNonces_le _ _ _ _ _ _).trans_lt launch.count.toNat_lt
  obtain ⟨hreported, hhits⟩ := readScan_foldl_report hready.clear none hlength
  refine ⟨_, ?_, hhits, hreported⟩
  rw [← hready.header, ← hready.target]
  exact hperm

end Known

/-! ### The slot in flight -/

/-- The launch of slot `i` has been submitted whole: its event covers what is pending on the slot,
and what the host reads once it has come is the launch's result. -/
structure InFlight (digest : Program → Header76 → UInt32 → Bytes32) (program : Program)
    (launch : Launch) (i : Fin queueDepth) (ring : LaunchRing Program) : Prop where
  done : ∃ event, (ring.slot i).done = some event ∧ ring.device.Covers event i
  readBack : ReadBack digest program launch (ring.settled digest i)

/-- What an `enqueue` that returns has done: it filled the next slot and took it. -/
def Enqueued (digest : Program → Header76 → UInt32 → Bytes32) (before : LaunchRing Program)
    (launch : Launch) (ring : LaunchRing Program) : Prop :=
  before.queued.length < queueDepth ∧
    ∃ program filled, before.bc3 = some program ∧ ring = filled.takeSlot before.nextSlot ∧
      Spoilt digest before before.nextSlot filled ∧
      InFlight digest program launch before.nextSlot filled

/-- What an `enqueue` that fails has done: nothing, or it spoilt the slot it would have taken. -/
def Refused (digest : Program → Header76 → UInt32 → Bytes32)
    (before ring : LaunchRing Program) : Prop :=
  ring = before ∨ before.queued.length < queueDepth ∧ Spoilt digest before before.nextSlot ring

/-- The readback of a slot that is being filled, and its event. -/
theorem Filling.recordDone {before ring : LaunchRing Program} {program : Program} {launch : Launch}
    {i : Fin queueDepth} {allowed : SlotAction Program → Prop}
    (hfilling : Filling digest before i (ReadBack digest program launch) allowed ring) :
    Filling digest before i (ReadBack digest program launch) allowed (ring.recordDone i) ∧
      InFlight digest program launch i (ring.recordDone i) := by
  have hnext : Filling digest before i (ReadBack digest program launch) allowed
    (ring.recordDone i) :=
    hfilling.updateSlot fun _ _ hholds ↦ ⟨hholds.header, hholds.target⟩
  refine ⟨hnext, ⟨ring.device.event, ?_, ring.device.covers_event i⟩, hnext.known⟩
  unfold LaunchRing.recordDone
  rw [slot_updateSlot_self]

/-- A launch stays in flight while the queue runs. -/
theorem InFlight.progress {ring : LaunchRing Program} {program : Program} {launch : Launch}
    {i : Fin queueDepth} (hflight : InFlight digest program launch i ring) (count : ℕ) :
    InFlight digest program launch i (ring.progress digest count) := by
  obtain ⟨event, hdone, hcovers⟩ := hflight.done
  refine ⟨⟨event, hdone, hcovers.advance (act digest) count⟩, ?_⟩
  rw [settled_progress]
  exact hflight.readBack

/-! ### The CUDA backend -/

section Cuda

variable {before : LaunchRing Program} {i : Fin queueDepth} {program : Program} {launch : Launch}
  (fates : Fates)

/-- Nothing is asked of the actions that are pending: a copy carries its data. -/
abbrev AnyAction : SlotAction Program → Prop := fun _ ↦ True

/-- Queueing the scan of a slot whose header and target are cached: on success the slot is filled
with what the scan of the launch needs, and on failure only this slot is spoilt. -/
theorem queueBc3_ensures (hcached : Cached digest before i) :
    Ensures (fun ring ↦ ring = before) (queueBc3 digest fates i launch)
      (fun _ ring ↦ ∃ program, before.bc3 = some program ∧
        Filling digest before i (Scanned digest program launch) AnyAction ring)
      (Spoilt digest before i) := by
  have hstart : Spoilt digest before i before :=
    ⟨Aside.refl digest before i, hcached, trivial, fun _ _ ↦ trivial⟩
  refine Ensures.get fun seen hseen ↦ ?_
  rw [hseen]
  cases hkernel : before.bc3 with
  | none =>
    refine Ensures.throw fun ring hring ↦ ?_
    rw [hring]
    exact hstart
  | some kernel =>
    have hheader : Ensures (Spoilt digest before i)
        (refreshHeader i launch.header76
          (submit digest (fates.call .header) "htod header" i (.copyHeader launch.header76)))
        (fun _ ↦ Filling digest before i (HeaderIn launch) AnyAction) (Spoilt digest before i) := by
      refine Filling.refreshHeader_ensures ?_ (fun _ ↦ id) (fun _ _ ↦ id) fun _ ↦ id
      refine submit_ensures (fun ring count hring ↦ ⟨hring.1.progress count, hring.2⟩) ?_
        (fun ring hring ↦ hring.1.spoilt) fun ring hring ↦ hring.spoilt
      rintro ring ⟨hring, hnone⟩
      refine hring.push (fun _ _ ↦ rfl) ?_ (fun _ ↦ id) trivial
      intro memory hholds
      exact ⟨fun other hother ↦ (Option.some_ne_none _ (hother.symm.trans hnone)).elim,
        hholds.target⟩
    have htarget : Ensures (Filling digest before i (HeaderIn launch) AnyAction)
        (refreshTarget i (targetLimbs launch.target)
          (submit digest (fates.call .target) "htod target" i
            (.copyTarget (targetLimbs launch.target))))
        (fun _ ↦ Filling digest before i (InputsIn launch) AnyAction) (Spoilt digest before i) := by
      refine Filling.refreshTarget_ensures ?_ (fun _ hinputs ↦ hinputs.target)
        (fun _ hmemory hsame ↦ ⟨hmemory, hsame⟩) fun _ ↦ id
      refine submit_ensures (fun ring count hring ↦ ⟨hring.1.progress count, hring.2⟩) ?_
        (fun ring hring ↦ hring.1.spoilt) fun ring hring ↦ hring.spoilt
      rintro ring ⟨hring, hnone⟩
      refine hring.push (fun _ hmemory ↦ ⟨hmemory, rfl⟩) ?_ (fun _ ↦ id) trivial
      intro memory hholds
      exact ⟨hholds.header, fun other hother ↦
        (Option.some_ne_none _ (hother.symm.trans hnone)).elim⟩
    have hclear : Ensures (Filling digest before i (InputsIn launch) AnyAction)
        (submit digest (fates.call .clear) "reset hits" i .clearHits)
        (fun _ ↦ Filling digest before i (Ready launch) AnyAction) (Spoilt digest before i) :=
      Filling.submit_ensures (fun _ hinputs ↦ ⟨⟨hinputs.header, hinputs.target⟩, rfl⟩) (fun _ ↦ rfl)
        (fun _ ↦ rfl) (fun _ ↦ id) trivial
    have hrecord : Ensures (Filling digest before i (Ready launch) AnyAction)
        (submit digest (fates.call .start) "record" i .record)
        (fun _ ↦ Filling digest before i (Ready launch) AnyAction) (Spoilt digest before i) :=
      Filling.submit_ensures (fun _ ↦ id) (fun _ ↦ rfl) (fun _ ↦ rfl) (fun _ ↦ id) trivial
    have hscan : Ensures (Filling digest before i (Ready launch) AnyAction)
        (submit digest (fates.call .launch) "bc3hash_scan launch" i
          (.scan kernel launch.start launch.count fates.schedule))
        (fun _ ↦ Filling digest before i (Scanned digest kernel launch) AnyAction)
        (Spoilt digest before i) :=
      Filling.submit_ensures (fun _ hready ↦ hready.scanned digest kernel launch fates.schedule)
        (fun _ ↦ rfl) (fun _ ↦ rfl) (fun _ ↦ id) trivial
    have hall := Ensures.bind hheader fun _ ↦ Ensures.bind htarget fun _ ↦
      Ensures.bind hclear fun _ ↦ Ensures.bind hrecord fun _ ↦ hscan
    refine hall.weaken (fun ring hring ↦ ?_) (fun _ ring hring ↦ ?_) fun _ ↦ id
    · rw [hring]
      exact hstart
    · exact ⟨kernel, rfl, hring⟩

/-- Queueing the kernel has the same outcome for both back ends: the slot is filled on success, and
only this slot is spoilt on failure. -/
theorem queueKernel_ensures (hcached : Cached digest before i) :
    Ensures (fun ring ↦ ring = before) (queueKernel digest fates i launch)
      (fun _ ring ↦ ∃ program, before.bc3 = some program ∧
        Filling digest before i (Scanned digest program launch) AnyAction ring)
      (Spoilt digest before i) := by
  have hother : ∀ error : String, Ensures (fun ring ↦ ring = before)
      (throw error : Attempt String (LaunchRing Program) Unit)
      (fun _ ring ↦ ∃ program, before.bc3 = some program ∧
        Filling digest before i (Scanned digest program launch) AnyAction ring)
      (Spoilt digest before i) := by
    refine fun error ↦ Ensures.throw fun ring hring ↦ ?_
    rw [hring]
    exact ⟨Aside.refl digest before i, hcached, trivial, fun _ _ ↦ trivial⟩
  unfold queueKernel
  cases launch.algo with
  | bc3Hash => exact queueBc3_ensures fates hcached
  | sha256d => exact hother _
  | sha3t => exact hother _

/-- `enqueue` of the CUDA backend fills the next slot and takes it, or at worst spoils it. -/
theorem cudaEnqueue_ensures (hcached : Cached digest before before.nextSlot) :
    Ensures (fun ring ↦ ring = before) (cudaEnqueue digest fates launch)
      (fun _ ↦ Enqueued digest before launch) (Refused digest before) := by
  have hrefused : ∀ error : String, Ensures (fun ring ↦ ring = before)
      (throw error : Attempt String (LaunchRing Program) Unit)
        (fun _ ↦ Enqueued digest before launch)
      (Refused digest before) :=
    fun error ↦ Ensures.throw fun ring hring ↦ Or.inl hring
  refine Ensures.get fun seen hseen ↦ ?_
  rw [hseen]
  refine Ensures.ite (fun _ ↦ hrefused _) fun _ ↦ Ensures.ite (fun _ ↦ hrefused _) fun hroom ↦ ?_
  have hkernel : Ensures (fun ring ↦ ring = before)
      ((queueKernel digest fates before.nextSlot launch).onError
        (updateSlot before.nextSlot Slot.forget))
      (fun _ ring ↦ ∃ program, before.bc3 = some program ∧
        Filling digest before before.nextSlot (Scanned digest program launch) AnyAction ring)
      (Spoilt digest before before.nextSlot) :=
    (queueKernel_ensures fates hcached).onError fun ring hring ↦
      hring.updateSlot fun _ _ _ ↦ Holds.forget
  refine Ensures.weaken (Ensures.bind hkernel fun _ ↦ Ensures.ofExists fun kernel ↦
    Ensures.ofAnd fun hloaded ↦ ?_) (fun _ ↦ id) (fun _ _ ↦ id)
    fun ring hspoilt ↦ Or.inr ⟨not_le.mp hroom, hspoilt⟩
  have hread : Ensures
      (Filling digest before before.nextSlot (Scanned digest kernel launch) AnyAction)
      (submit digest (fates.call .read) "dtoh hits" before.nextSlot .readHits)
      (fun _ ↦ Filling digest before before.nextSlot (ReadBack digest kernel launch) AnyAction)
      (Spoilt digest before before.nextSlot) :=
    Filling.submit_ensures (fun _ ↦ id) (fun _ ↦ rfl) (fun _ ↦ rfl) (fun _ ↦ id) trivial
  have hevent : Ensures
      (Filling digest before before.nextSlot (ReadBack digest kernel launch) AnyAction)
      (submit digest (fates.call .done) "record" before.nextSlot .record)
      (fun _ ↦ Filling digest before before.nextSlot (ReadBack digest kernel launch) AnyAction)
      (Spoilt digest before before.nextSlot) :=
    Filling.submit_ensures (fun _ ↦ id) (fun _ ↦ rfl) (fun _ ↦ rfl) (fun _ ↦ id) trivial
  have hdone : Ensures
      (Filling digest before before.nextSlot (ReadBack digest kernel launch) AnyAction)
      (modify (LaunchRing.recordDone before.nextSlot) : Attempt String (LaunchRing Program) Unit)
      (fun _ ring ↦ Filling digest before before.nextSlot
        (ReadBack digest kernel launch) AnyAction ring ∧
        InFlight digest kernel launch before.nextSlot ring)
      (Spoilt digest before before.nextSlot) :=
    Ensures.modify fun ring hring ↦ hring.recordDone
  refine Ensures.bind hread fun _ ↦ Ensures.bind hevent fun _ ↦ Ensures.bind hdone fun _ ↦
    Ensures.modify fun ring hring ↦ ?_
  exact ⟨not_le.mp hroom, kernel, ring, hloaded, rfl, hring.1.spoilt, hring.2⟩

end Cuda

/-! ### The OpenCL backend -/

section OpenCl

variable {before : LaunchRing Program} {i : Fin queueDepth} {launch : Launch} (fates : Fates)

/-- The actions that may be pending while the staged target is written. -/
abbrev HeaderWrite (action : SlotAction Program) : Prop := action = .writeHeader

/-- The actions that may be pending while the zero is written. -/
abbrev InputWrite (action : SlotAction Program) : Prop :=
    action = .writeHeader ∨ action = .writeTarget

/-- The inputs of an idle slot: each is staged before anything that is pending could read it. -/
theorem bc3Inputs_ensures (hcached : Cached digest before i) (hidle : before.waiting i = []) :
    Ensures (fun ring ↦ ring = before) (bc3Inputs digest fates i launch)
      (fun program ring ↦ before.bc3 = some program ∧
        Filling digest before i (InputsIn launch) InputWrite ring)
      (Spoilt digest before i) := by
  have hstart : Filling digest before i (fun _ ↦ True) (fun _ ↦ False) before := by
    refine ⟨Aside.refl digest before i, hcached, trivial, fun action hmem ↦ ?_⟩
    rw [hidle] at hmem
    exact List.not_mem_nil hmem
  refine Ensures.get fun seen hseen ↦ ?_
  rw [hseen]
  cases hkernel : before.bc3 with
  | none =>
    refine Ensures.throw fun ring hring ↦ ?_
    rw [hring]
    exact hstart.spoilt
  | some kernel =>
    have hheader : Ensures (Filling digest before i (fun _ ↦ True) fun _ ↦ False)
        (refreshHeader i launch.header76 do
          modify (stage i fun memory ↦ { memory with hostHeader := launch.header76 })
          submit digest (fates.call .header) "write header" i .writeHeader)
        (fun _ ↦ Filling digest before i (HeaderIn launch) HeaderWrite)
          (Spoilt digest before i) := by
      refine Filling.refreshHeader_ensures ?_ (fun _ ↦ id) (fun _ _ ↦ id) fun _ ↦ False.elim
      have hstage : Ensures
          (fun ring ↦ Filling digest before i (fun _ ↦ True) (fun _ ↦ False) ring ∧
            (ring.slot i).headerOf = none)
          (modify (stage i fun memory ↦ { memory with hostHeader := launch.header76 }) :
            Attempt String (LaunchRing Program) Unit)
          (fun _ ring ↦ Filling digest before i (fun memory ↦ memory.hostHeader = launch.header76)
            (fun _ ↦ False) ring ∧ (ring.slot i).headerOf = none)
          (Spoilt digest before i) := by
        refine Ensures.modify fun ring hring ↦ ⟨?_, hring.2⟩
        exact hring.1.stage (fun _ _ ↦ rfl) (fun _ _ hholds ↦ ⟨hholds.header, hholds.target⟩)
          fun _ ↦ False.elim
      refine Ensures.bind hstage fun _ ↦ ?_
      refine submit_ensures (fun ring count hring ↦ ⟨hring.1.progress count, hring.2⟩) ?_
        (fun ring hring ↦ hring.1.spoilt) fun ring hring ↦ hring.spoilt
      rintro ring ⟨hring, hnone⟩
      refine hring.push (fun _ ↦ id) ?_ (fun _ ↦ False.elim) rfl
      intro memory hholds
      exact ⟨fun other hother ↦ (Option.some_ne_none _ (hother.symm.trans hnone)).elim,
        hholds.target⟩
    have htarget : Ensures (Filling digest before i (HeaderIn launch) HeaderWrite)
        (refreshTarget i (targetLimbs launch.target) do
          modify (stage i fun memory ↦ { memory with hostTarget := targetLimbs launch.target })
          submit digest (fates.call .target) "write target" i .writeTarget)
        (fun _ ↦ Filling digest before i (InputsIn launch) InputWrite)
          (Spoilt digest before i) := by
      refine Filling.refreshTarget_ensures ?_ (fun _ hinputs ↦ hinputs.target)
        (fun _ hmemory hsame ↦ ⟨hmemory, hsame⟩) fun _ ↦ Or.inl
      have hstage : Ensures
          (fun ring ↦ Filling digest before i (HeaderIn launch) HeaderWrite ring ∧
            (ring.slot i).targetOf = none)
          (modify (stage i fun memory ↦ { memory with hostTarget := targetLimbs launch.target }) :
            Attempt String (LaunchRing Program) Unit)
          (fun _ ring ↦ Filling digest before i
            (fun memory ↦ HeaderIn launch memory ∧ memory.hostTarget = targetLimbs launch.target)
            HeaderWrite ring ∧ (ring.slot i).targetOf = none)
          (Spoilt digest before i) := by
        refine Ensures.modify fun ring hring ↦ ⟨?_, hring.2⟩
        refine hring.1.stage (fun _ hmemory ↦ ⟨hmemory, rfl⟩)
          (fun _ _ hholds ↦ ⟨hholds.header, hholds.target⟩) ?_
        rintro action rfl memory
        rfl
      refine Ensures.bind hstage fun _ ↦ ?_
      refine submit_ensures (fun ring count hring ↦ ⟨hring.1.progress count, hring.2⟩) ?_
        (fun ring hring ↦ hring.1.spoilt) fun ring hring ↦ hring.spoilt
      rintro ring ⟨hring, hnone⟩
      refine hring.push (fun _ hmemory ↦ ⟨hmemory.1, hmemory.2⟩) ?_ (fun _ ↦ Or.inl) (Or.inr rfl)
      intro memory hholds
      exact ⟨hholds.header, fun other hother ↦
        (Option.some_ne_none _ (hother.symm.trans hnone)).elim⟩
    have hkept : Ensures (Filling digest before i (InputsIn launch) InputWrite)
        (pure kernel : Attempt String (LaunchRing Program) Program)
        (fun program ring ↦ some kernel = some program ∧
          Filling digest before i (InputsIn launch) InputWrite ring)
        (Spoilt digest before i) :=
      Ensures.pure fun ring hring ↦ ⟨rfl, hring⟩
    have hall := Ensures.bind hheader fun _ ↦ Ensures.bind htarget fun _ ↦ hkept
    refine hall.weaken (fun ring hring ↦ ?_) (fun _ _ ↦ id) fun _ ↦ id
    rw [hring]
    exact hstart

/-- Setting arguments one after the other keeps whatever the running of the queue keeps. -/
theorem setArgs_ensures {known : LaunchRing Program → Prop} {failed : LaunchRing Program → Prop}
    (hprogress : ∀ ring count, known ring → known (ring.progress digest count))
    (hfailed : ∀ ring, known ring → failed ring) (indices : List ℕ) :
    Ensures known (setArgs digest fates indices) (fun _ ↦ known) failed := by
  induction indices with
  | nil => exact Ensures.pure fun _ ↦ id
  | cons index rest ih => exact Ensures.bind (callDriver_ensures hprogress hfailed) fun _ ↦ ih

/-- Queueing a launch into an idle slot: on success it is in flight there, and on failure only this
slot is spoilt. -/
theorem queueLaunch_ensures (hcached : Cached digest before i) (hidle : before.waiting i = []) :
    Ensures (fun ring ↦ ring = before) (queueLaunch digest fates i launch)
      (fun _ ring ↦ ∃ program, before.bc3 = some program ∧ Spoilt digest before i ring ∧
        InFlight digest program launch i ring)
      (Spoilt digest before i) := by
  have hother : ∀ error : String, Ensures (fun ring ↦ ring = before)
      (throw error : Attempt String (LaunchRing Program) Unit)
      (fun _ ring ↦ ∃ program, before.bc3 = some program ∧ Spoilt digest before i ring ∧
        InFlight digest program launch i ring)
      (Spoilt digest before i) := by
    refine fun error ↦ Ensures.throw fun ring hring ↦ ?_
    rw [hring]
    exact ⟨Aside.refl digest before i, hcached, trivial, fun _ _ ↦ trivial⟩
  unfold queueLaunch
  cases launch.algo with
  | sha256d => exact hother _
  | sha3t => exact hother _
  | bc3Hash =>
    refine Ensures.bind (bc3Inputs_ensures fates hcached hidle) fun kernel ↦
      Ensures.ofAnd fun hloaded ↦ ?_
    have hstage : Ensures (Filling digest before i (InputsIn launch) InputWrite)
        (modify (stage i fun memory ↦ { memory with hostZero := 0 }) :
          Attempt String (LaunchRing Program) Unit)
        (fun _ ↦ Filling digest before i
          (fun memory ↦ InputsIn launch memory ∧ memory.hostZero = 0) InputWrite)
        (Spoilt digest before i) := by
      refine Ensures.modify fun ring hring ↦ hring.stage
        (fun _ hinputs ↦ ⟨⟨hinputs.header, hinputs.target⟩, rfl⟩)
        (fun _ _ hholds ↦ ⟨hholds.header, hholds.target⟩) ?_
      rintro action (rfl | rfl) memory <;> rfl
    have hclear : Ensures
        (Filling digest before i (fun memory ↦ InputsIn launch memory ∧
          memory.hostZero = 0) InputWrite)
        (submit digest (fates.call .clear) "write hit count" i .writeZero)
        (fun _ ↦ Filling digest before i (Ready launch) AnyAction) (Spoilt digest before i) :=
      Filling.submit_ensures (fun _ hmemory ↦ ⟨⟨hmemory.1.header, hmemory.1.target⟩, hmemory.2⟩)
        (fun _ ↦ rfl) (fun _ ↦ rfl) (fun _ _ ↦ trivial) trivial
    have harguments : Ensures (Filling digest before i (Ready launch) AnyAction)
        (setArgs digest fates (List.range 7))
        (fun _ ↦ Filling digest before i (Ready launch) AnyAction) (Spoilt digest before i) :=
      setArgs_ensures fates (fun _ count hring ↦ hring.progress count)
        (fun _ hring ↦ hring.spoilt) _
    have hscan : Ensures (Filling digest before i (Ready launch) AnyAction)
        (submit digest (fates.call .launch) "clEnqueueNDRangeKernel" i
          (.scan kernel launch.start launch.count fates.schedule))
        (fun _ ↦ Filling digest before i (Scanned digest kernel launch) AnyAction)
        (Spoilt digest before i) :=
      Filling.submit_ensures (fun _ hready ↦ hready.scanned digest kernel launch fates.schedule)
        (fun _ ↦ rfl) (fun _ ↦ rfl) (fun _ ↦ id) trivial
    have hread : Ensures (Filling digest before i (Scanned digest kernel launch) AnyAction)
        (submit digest (fates.call .read) "read hits" i .readHits)
        (fun _ ↦ Filling digest before i (ReadBack digest kernel launch) AnyAction)
        (Spoilt digest before i) :=
      Filling.submit_ensures (fun _ ↦ id) (fun _ ↦ rfl) (fun _ ↦ rfl) (fun _ ↦ id) trivial
    have hdone : Ensures (Filling digest before i (ReadBack digest kernel launch) AnyAction)
        (modify (LaunchRing.recordDone i) : Attempt String (LaunchRing Program) Unit)
        (fun _ ring ↦ Filling digest before i (ReadBack digest kernel launch) AnyAction ring ∧
          InFlight digest kernel launch i ring)
        (Spoilt digest before i) :=
      Ensures.modify fun ring hring ↦ hring.recordDone
    have hflush : Ensures
        (fun ring ↦ Filling digest before i (ReadBack digest kernel launch) AnyAction ring ∧
          InFlight digest kernel launch i ring)
        (callDriver digest (fates.call .flush) "clFlush")
        (fun _ ring ↦ Filling digest before i (ReadBack digest kernel launch) AnyAction ring ∧
          InFlight digest kernel launch i ring)
        (Spoilt digest before i) :=
      callDriver_ensures (fun _ count hring ↦ ⟨hring.1.progress count, hring.2.progress count⟩)
        fun _ hring ↦ hring.1.spoilt
    have hall := Ensures.bind hstage fun _ ↦ Ensures.bind hclear fun _ ↦
      Ensures.bind harguments fun _ ↦ Ensures.bind hscan fun _ ↦ Ensures.bind hread fun _ ↦
        Ensures.bind hdone fun _ ↦ hflush
    refine hall.weaken (fun _ ↦ id) ?_ fun _ ↦ id
    intro _ ring hring
    exact ⟨kernel, hloaded, hring.1.spoilt, hring.2⟩

/-- `enqueue` of the OpenCL backend fills the next slot and takes it, or at worst spoils it. -/
theorem openClEnqueue_ensures (hcached : Cached digest before before.nextSlot)
    (hidle : before.queued.length < queueDepth → before.waiting before.nextSlot = []) :
    Ensures (fun ring ↦ ring = before) (openClEnqueue digest fates launch)
      (fun _ ↦ Enqueued digest before launch) (Refused digest before) := by
  have hrefused : ∀ error : String, Ensures (fun ring ↦ ring = before)
      (throw error : Attempt String (LaunchRing Program) Unit)
        (fun _ ↦ Enqueued digest before launch)
      (Refused digest before) :=
    fun error ↦ Ensures.throw fun ring hring ↦ Or.inl hring
  refine Ensures.get fun seen hseen ↦ ?_
  rw [hseen]
  refine Ensures.ite (fun _ ↦ hrefused _) fun _ ↦ Ensures.ite (fun _ ↦ hrefused _) fun hroom ↦ ?_
  have hlaunch : Ensures (fun ring ↦ ring = before)
      ((queueLaunch digest fates before.nextSlot launch).onError
        (updateSlot before.nextSlot fun slot ↦ (releaseEvents slot).forget))
      (fun _ ring ↦ ∃ program, before.bc3 = some program ∧
        Spoilt digest before before.nextSlot ring ∧
          InFlight digest program launch before.nextSlot ring)
      (Spoilt digest before before.nextSlot) :=
    (queueLaunch_ensures fates hcached (hidle (not_le.mp hroom))).onError fun ring hring ↦
      hring.updateSlot fun _ _ _ ↦ Holds.forget
  refine Ensures.weaken (Ensures.bind hlaunch fun _ ↦ Ensures.modify fun ring hring ↦ ?_)
    (fun _ ↦ id) (fun _ _ ↦ id) fun ring hspoilt ↦ Or.inr ⟨not_le.mp hroom, hspoilt⟩
  obtain ⟨kernel, hloaded, hspoilt, hflight⟩ := hring
  exact ⟨not_le.mp hroom, kernel, ring, hloaded, rfl, hspoilt, hflight⟩

end OpenCl

/-! ### A launch that nothing refuses -/

section Accepted

variable {fates : Fates} {launch : Launch} {queued : List (Fin queueDepth)}
  {nextSlot : Fin queueDepth} {program : Program}

/-- A loaded ring with these slots in flight and this one next: what the calls of the driver leave
alone. -/
structure Bookkeeping (queued : List (Fin queueDepth)) (nextSlot : Fin queueDepth)
    (program : Program) (ring : LaunchRing Program) : Prop where
  queued : ring.queued = queued
  nextSlot : ring.nextSlot = nextSlot
  bc3 : ring.bc3 = some program

/-- From a loaded ring with these books the attempt returns, and the books are the same. -/
def KeepsBooks {Value : Type} (queued : List (Fin queueDepth)) (nextSlot : Fin queueDepth)
    (program : Program) (attempt : Attempt String (LaunchRing Program) Value) : Prop :=
  Ensures (Bookkeeping queued nextSlot program) attempt
    (fun _ ↦ Bookkeeping queued nextSlot program) fun _ ↦ False

namespace KeepsBooks

theorem pure {Value : Type} (value : Value) :
    KeepsBooks queued nextSlot program
      (Pure.pure value : Attempt String (LaunchRing Program) Value) :=
  Ensures.pure fun _ ↦ id

/-- Two calls in a row keep the books if each of them does. -/
theorem bind {Value Other : Type} {attempt : Attempt String (LaunchRing Program) Value}
    {rest : Value → Attempt String (LaunchRing Program) Other}
    (hfirst : KeepsBooks queued nextSlot program attempt)
    (hrest : ∀ value, KeepsBooks queued nextSlot program (rest value)) :
    KeepsBooks queued nextSlot program (attempt >>= rest) :=
  Ensures.bind hfirst hrest

/-- A change keeps the books if it leaves the count, the next slot and the program alone. -/
theorem modify {change : LaunchRing Program → LaunchRing Program}
    (hqueued : ∀ ring, (change ring).queued = ring.queued)
    (hnextSlot : ∀ ring, (change ring).nextSlot = ring.nextSlot)
    (hbc3 : ∀ ring, (change ring).bc3 = ring.bc3) :
    KeepsBooks queued nextSlot program
      (modify change : Attempt String (LaunchRing Program) Unit) := by
  refine Ensures.modify fun ring hring ↦ ⟨?_, ?_, ?_⟩
  · exact (hqueued ring).trans hring.queued
  · exact (hnextSlot ring).trans hring.nextSlot
  · exact (hbc3 ring).trans hring.bc3

/-- A call that submits a command, accepted. -/
theorem submit {fate : Fate} (hfate : fate.reply = .accepted) (what : String)
    (i : Fin queueDepth) (action : SlotAction Program) :
    KeepsBooks queued nextSlot program (LaunchRing.submit digest fate what i action) := by
  intro ring hring
  unfold LaunchRing.submit
  rw [hfate]
  exact ⟨hring.queued, hring.nextSlot, hring.bc3⟩

/-- A call that submits nothing, accepted. -/
theorem callDriver {fate : Fate} (hfate : fate.reply = .accepted) (what : String) :
    KeepsBooks queued nextSlot program
      (LaunchRing.callDriver digest fate what : Attempt String (LaunchRing Program) Unit) := by
  intro ring hring
  unfold LaunchRing.callDriver
  rw [hfate]
  exact ⟨hring.queued, hring.nextSlot, hring.bc3⟩

/-- The ring is looked at, and what is done next goes by a ring with the same books. -/
theorem get {Value : Type} {rest : LaunchRing Program → Attempt String (LaunchRing Program) Value}
    (hrest : ∀ seen, Bookkeeping queued nextSlot program seen →
      KeepsBooks queued nextSlot program (rest seen)) :
    KeepsBooks queued nextSlot program (MonadState.get >>= rest) := by
  refine Ensures.get fun seen hseen ↦ ?_
  exact Ensures.weaken (hrest seen hseen) (fun _ hring ↦ hring ▸ hseen) (fun _ _ ↦ id) fun _ ↦ id

/-- Refreshing the header keeps the books if its upload does. -/
theorem refreshHeader {i : Fin queueDepth} {header76 : Header76}
    {upload : Attempt String (LaunchRing Program) Unit}
    (hupload : KeepsBooks queued nextSlot program upload) :
    KeepsBooks queued nextSlot program (LaunchRing.refreshHeader i header76 upload) := by
  refine get fun seen _ ↦ Ensures.ite (fun _ ↦ ?_) fun _ ↦ pure ()
  exact bind (modify (fun _ ↦ rfl) (fun _ ↦ rfl) fun _ ↦ rfl) fun _ ↦
    bind hupload fun _ ↦ modify (fun _ ↦ rfl) (fun _ ↦ rfl) fun _ ↦ rfl

/-- Refreshing the target keeps the books if its upload does. -/
theorem refreshTarget {i : Fin queueDepth} {limbs : U256}
    {upload : Attempt String (LaunchRing Program) Unit}
    (hupload : KeepsBooks queued nextSlot program upload) :
    KeepsBooks queued nextSlot program (LaunchRing.refreshTarget i limbs upload) := by
  refine get fun seen _ ↦ Ensures.ite (fun _ ↦ ?_) fun _ ↦ pure ()
  exact bind (modify (fun _ ↦ rfl) (fun _ ↦ rfl) fun _ ↦ rfl) fun _ ↦
    bind hupload fun _ ↦ modify (fun _ ↦ rfl) (fun _ ↦ rfl) fun _ ↦ rfl

/-- If every driver call is accepted, setting the arguments succeeds and keeps the books. -/
theorem setArgs (haccepted : ∀ call, (fates.call call).reply = .accepted) (arguments : List ℕ) :
    KeepsBooks queued nextSlot program
      (LaunchRing.setArgs digest fates arguments : Attempt String (LaunchRing Program) Unit) := by
  induction arguments with
  | nil => exact pure ()
  | cons index rest ih => exact bind (callDriver (haccepted _) _) fun _ ↦ ih

/-- The CUDA backend's calls for a launch. -/
theorem queueBc3 (haccepted : ∀ call, (fates.call call).reply = .accepted) (i : Fin queueDepth) :
    KeepsBooks queued nextSlot program (LaunchRing.queueBc3 digest fates i launch) := by
  refine get fun seen hseen ↦ ?_
  rw [hseen.bc3]
  exact bind (refreshHeader (submit (haccepted _) _ _ _)) fun _ ↦
    bind (refreshTarget (submit (haccepted _) _ _ _)) fun _ ↦
      bind (submit (haccepted _) _ _ _) fun _ ↦
        bind (submit (haccepted _) _ _ _) fun _ ↦ submit (haccepted _) _ _ _

/-- If every driver call is accepted, the inputs of a launch are uploaded and the books are kept. -/
theorem bc3Inputs (haccepted : ∀ call, (fates.call call).reply = .accepted) (i : Fin queueDepth) :
    KeepsBooks queued nextSlot program (LaunchRing.bc3Inputs digest fates i launch) := by
  refine get fun seen hseen ↦ ?_
  rw [hseen.bc3]
  refine bind (refreshHeader ?_) fun _ ↦ bind (refreshTarget ?_) fun _ ↦ pure _
  · exact bind (modify (fun _ ↦ rfl) (fun _ ↦ rfl) fun _ ↦ rfl) fun _ ↦
      submit (haccepted _) _ _ _
  · exact bind (modify (fun _ ↦ rfl) (fun _ ↦ rfl) fun _ ↦ rfl) fun _ ↦
      submit (haccepted _) _ _ _

/-- The OpenCL backend's calls for a launch. -/
theorem queueLaunch (haccepted : ∀ call, (fates.call call).reply = .accepted)
    (halgo : launch.algo = .bc3Hash) (i : Fin queueDepth) :
    KeepsBooks queued nextSlot program (LaunchRing.queueLaunch digest fates i launch) := by
  unfold LaunchRing.queueLaunch
  rw [halgo]
  exact bind (bc3Inputs haccepted i) fun kernel ↦
    bind (modify (fun _ ↦ rfl) (fun _ ↦ rfl) fun _ ↦ rfl) fun _ ↦
      bind (submit (haccepted _) _ _ _) fun _ ↦ bind (setArgs haccepted _) fun _ ↦
        bind (submit (haccepted _) _ _ _) fun _ ↦ bind (submit (haccepted _) _ _ _) fun _ ↦
          bind (modify (fun _ ↦ rfl) (fun _ ↦ rfl) fun _ ↦ rfl) fun _ ↦
            callDriver (haccepted _) _

end KeepsBooks

end Accepted

end LaunchRing

open LaunchRing in
/-- An `enqueue` that nothing stands in the way of. For a launch of at least one nonce on a loaded
ring with room, where the driver accepts every call, either backend returns without an error, and
the slot that was next is the newest in flight. -/
theorem GpuApi.enqueue_accepted {Program : Type} {digest : Program → Header76 → UInt32 → Bytes32}
    (api : GpuApi) {fates : Fates} (haccepted : ∀ call, (fates.call call).reply = .accepted)
    {launch : Launch} (hcount : launch.count ≠ 0) (halgo : launch.algo = .bc3Hash)
    {ring : LaunchRing Program} (hroom : ring.queued.length < queueDepth) {program : Program}
    (hloaded : ring.bc3 = some program) :
    ∃ next, (api.enqueue digest fates launch).run ring = .ok () next ∧
      next.queued = ring.queued ++ [ring.nextSlot] := by
  have htake : Ensures (Bookkeeping ring.queued ring.nextSlot program)
      (modify (takeSlot ring.nextSlot) : Attempt String (LaunchRing Program) Unit)
      (fun _ next ↦ next.queued = ring.queued ++ [ring.nextSlot]) fun _ ↦ False :=
    Ensures.modify fun seen hseen ↦ congrArg (· ++ [ring.nextSlot]) hseen.queued
  have hbooks : ∀ seen, seen = ring → Bookkeeping ring.queued ring.nextSlot program seen := by
    rintro _ rfl
    exact ⟨rfl, rfl, hloaded⟩
  have hensures : Ensures (fun seen ↦ seen = ring) (api.enqueue digest fates launch)
      (fun _ next ↦ next.queued = ring.queued ++ [ring.nextSlot]) fun _ ↦ False := by
    cases api with
    | cuda =>
      refine Ensures.get fun seen hseen ↦ ?_
      rw [hseen]
      refine Ensures.ite (fun hzero ↦ (hcount hzero).elim) fun _ ↦
        Ensures.ite (fun hfull ↦ (not_le.mpr hroom hfull).elim) fun _ ↦ ?_
      have hkernel : KeepsBooks ring.queued ring.nextSlot program
          (queueKernel digest fates ring.nextSlot launch) := by
        unfold queueKernel
        rw [halgo]
        exact KeepsBooks.queueBc3 haccepted _
      refine Ensures.weaken ?_ hbooks (fun _ _ ↦ id) fun _ ↦ id
      exact Ensures.bind (Ensures.onError hkernel fun _ ↦ False.elim) fun _ ↦
        Ensures.bind (KeepsBooks.submit (haccepted .read) _ _ _) fun _ ↦
          Ensures.bind (KeepsBooks.submit (haccepted .done) _ _ _) fun _ ↦
            Ensures.bind (KeepsBooks.modify (fun _ ↦ rfl) (fun _ ↦ rfl) fun _ ↦ rfl) fun _ ↦ htake
    | openCl =>
      refine Ensures.get fun seen hseen ↦ ?_
      rw [hseen]
      refine Ensures.ite (fun hzero ↦ (hcount hzero).elim) fun _ ↦
        Ensures.ite (fun hfull ↦ (not_le.mpr hroom hfull).elim) fun _ ↦ ?_
      have hlaunch : KeepsBooks ring.queued ring.nextSlot program
          (queueLaunch digest fates ring.nextSlot launch) :=
        KeepsBooks.queueLaunch haccepted halgo _
      refine Ensures.weaken ?_ hbooks (fun _ _ ↦ id) fun _ ↦ id
      exact Ensures.bind (Ensures.onError hlaunch fun _ ↦ False.elim) fun _ ↦ htake
  cases hrun : (api.enqueue digest fates launch).run ring with
  | ok value next => exact ⟨next, rfl, hensures.ok rfl hrun⟩
  | error error next => exact (hensures.error rfl hrun).elim

end Bc3Miner.Device
