import Bc3Miner.Device.RingQueue
import Bc3Miner.Foundations.PartialMachine

/-!
# The launch ring is a plain queue

What the callers of a backend may rely on: a bounded queue of launches, in which `enqueue` appends,
`collect` takes the oldest with the result that launch has on its own, and `abandon` and
`prepare_bc3hash` empty it (`PlainQueue`). Every run of calls on a ring, by a caller that abandons
after every failure, looks like a history of that queue, whatever the driver refuses and however far
the device is behind.

The result is `run_isPlainQueue`. Its last part says that the ring does work: where the driver
accepts every call, an `enqueue` with room goes in and a `collect` with a launch in flight brings a
result. `run_isPlainQueue_sample` is one run on either backend.
-/

set_option autoImplicit false
set_option relaxedAutoImplicit false

namespace Bc3Miner.Device

open Consensus Foundations Kernel Mining LaunchRing

/-! ### What a caller sees, and the plain queue -/

/-- What a caller sees of a call. -/
inductive Observation (Program : Type)
  | enqueued (launch : Launch)
  | collected (scan : Scan)
  | failed (error : String)
  | abandoned
  | prepared (kernel : Option Program)
  | unprepared (error : String)

/-- A queue of launches, oldest first, each with the kernel it is for; after a failure it has to be
abandoned. -/
structure PlainQueue (Program : Type) where
  program : Option Program
  launches : List (Program × Launch)
  broken : Bool

/-- The histories of the plain queue, over a given hash of the kernels. -/
inductive PlainQueue.History {Program : Type} (digest : Program → Header76 → UInt32 → Bytes32) :
    List (Observation Program) → PlainQueue Program → Prop
  | start : History digest [] ⟨none, [], false⟩
  | enqueued {seen : List (Observation Program)} {queue : PlainQueue Program} {program : Program}
      {launch : Launch} (history : History digest seen queue) (whole : queue.broken = false)
      (loaded : queue.program = some program) (room : queue.launches.length < queueDepth) :
      History digest (seen ++ [.enqueued launch])
        { queue with launches := queue.launches ++ [(program, launch)] }
  | collected {seen : List (Observation Program)} {queue : PlainQueue Program} {program : Program}
      {launch : Launch} {others : List (Program × Launch)} {scan : Scan}
      (history : History digest seen queue) (whole : queue.broken = false)
      (oldest : queue.launches = (program, launch) :: others)
      (result : IsResult digest program launch scan) :
      History digest (seen ++ [.collected scan]) { queue with launches := others }
  | failed {seen : List (Observation Program)} {queue : PlainQueue Program} {error : String}
      (history : History digest seen queue) (whole : queue.broken = false) :
      History digest (seen ++ [.failed error]) { queue with broken := true }
  | abandoned {seen : List (Observation Program)} {queue : PlainQueue Program}
      (history : History digest seen queue) :
      History digest (seen ++ [.abandoned]) ⟨queue.program, [], false⟩
  | prepared {seen : List (Observation Program)} {queue : PlainQueue Program} {program : Program}
      (history : History digest seen queue) :
      History digest (seen ++ [.prepared (some program)]) ⟨some program, [], false⟩
  | unprepared {seen : List (Observation Program)} {queue : PlainQueue Program} {error : String}
      (history : History digest seen queue) :
      History digest (seen ++ [.unprepared error]) ⟨none, [], false⟩

/-! ### Runs of calls -/

/-- A call of the backend, with how the driver takes it. -/
inductive Call (Program : Type)
  | enqueue (fates : Fates) (launch : Launch)
  | collect (fates : Fates)
  | abandon
  | prepareBc3hash (load : Except String Program) (test : SelfTest)

/-- A backend with a caller that abandons after every failure, and what the caller has seen. -/
structure CallerState (Program : Type) where
  ring : LaunchRing Program
  mustAbandon : Bool
  seen : List (Observation Program)

namespace CallerState

variable {Program : Type} (digest : Program → Header76 → UInt32 → Bytes32) (api : GpuApi)

/-- A backend as it is opened, over whatever its buffers hold. -/
def opened (memory : Fin queueDepth → SlotMemory) : CallerState Program where
  ring := {
    device := ⟨memory, [], 0⟩
    slot := fun _ ↦ ⟨none, none, none⟩
    queued := []
    nextSlot := 0
    bc3 := none }
  mustAbandon := false
  seen := []

/-- One call: after a failure of `enqueue` or `collect`, only those that abandon. -/
def step (state : CallerState Program) : Call Program → Option (CallerState Program)
  | .enqueue fates launch =>
      if state.mustAbandon then none
      else match (api.enqueue digest fates launch).run state.ring with
        | .ok () ring => some ⟨ring, false, state.seen ++ [.enqueued launch]⟩
        | .error error ring => some ⟨ring, true, state.seen ++ [.failed error]⟩
  | .collect fates =>
      if state.mustAbandon then none
      else match (api.collect digest fates).run state.ring with
        | .ok scan ring => some ⟨ring, false, state.seen ++ [.collected scan]⟩
        | .error error ring => some ⟨ring, true, state.seen ++ [.failed error]⟩
  | .abandon => some ⟨api.abandon digest state.ring, false, state.seen ++ [.abandoned]⟩
  | .prepareBc3hash load test =>
      match (api.prepareBc3hash digest load test).run state.ring with
        | .ok () ring => some ⟨ring, false, state.seen ++ [.prepared ring.bc3]⟩
        | .error error ring => some ⟨ring, false, state.seen ++ [.unprepared error]⟩

/-- The caller has seen a history of a plain queue, whose launches are those in flight. -/
def Explained (state : CallerState Program) : Prop :=
  ∃ queue : PlainQueue Program, queue.History digest state.seen ∧
    queue.broken = state.mustAbandon ∧ state.ring.bc3 = queue.program ∧
    if state.mustAbandon then Failed digest state.ring state.ring
    else Sound digest queue.launches state.ring

section Runs

variable {digest} {api} {state next : CallerState Program}

/-- What a caller that need not abandon may rely on. -/
theorem Explained.sound (hexplained : state.Explained digest) (hwhole : state.mustAbandon = false) :
    ∃ queue : PlainQueue Program, queue.History digest state.seen ∧ queue.broken = false ∧
      state.ring.bc3 = queue.program ∧ Sound digest queue.launches state.ring := by
  obtain ⟨queue, hhistory, hbroken, hprogram, hring⟩ := hexplained
  rw [hwhole, if_neg Bool.false_ne_true] at hring
  exact ⟨queue, hhistory, hbroken.trans hwhole, hprogram, hring⟩

theorem explained_opened (memory : Fin queueDepth → SlotMemory) :
    (opened memory : CallerState Program).Explained digest := by
  refine ⟨⟨none, [], false⟩, .start, rfl, rfl, ?_⟩
  exact sound_of_finished rfl rfl fun _ ↦ ⟨⟨none, none, none⟩, rfl⟩

/-- An enqueue keeps the ring explained by the launches of the caller, whether it succeeds or fails.
-/
theorem explained_enqueue {fates : Fates} {launch : Launch} (hexplained : state.Explained digest)
    (hstep : state.step digest api (.enqueue fates launch) = some next) :
      next.Explained digest := by
  rw [step] at hstep
  by_cases hmust : state.mustAbandon = true
  · rw [if_pos hmust] at hstep
    exact (Option.some_ne_none _ hstep.symm).elim
  · rw [if_neg hmust] at hstep
    obtain ⟨queue, hhistory, hwhole, hprogram, hsound⟩ :=
      hexplained.sound (Bool.eq_false_of_not_eq_true hmust)
    have hensures := api.enqueue_ensures hsound fates launch
    cases hcall : (api.enqueue digest fates launch).run state.ring with
    | ok value ring =>
      rw [hcall] at hstep
      obtain rfl := Option.some.inj hstep
      obtain ⟨program, hloaded, hkept, hroom, hnext⟩ := hsound.enqueued (hensures.ok rfl hcall)
      refine ⟨_, .enqueued hhistory hwhole (hprogram.symm.trans hloaded) hroom, hwhole, ?_, hnext⟩
      exact hkept.trans hprogram
    | error error ring =>
      rw [hcall] at hstep
      obtain rfl := Option.some.inj hstep
      have hfailed := hsound.failed_of_refused (hensures.error rfl hcall)
      refine ⟨_, .failed hhistory hwhole, rfl, hfailed.bc3.trans hprogram, ?_⟩
      exact ⟨hfailed.depth, hfailed.cached, rfl⟩

/-- A collect keeps the ring explained by the launches of the caller, whether it succeeds or fails.
-/
theorem explained_collect {fates : Fates} (hexplained : state.Explained digest)
    (hstep : state.step digest api (.collect fates) = some next) : next.Explained digest := by
  rw [step] at hstep
  by_cases hmust : state.mustAbandon = true
  · rw [if_pos hmust] at hstep
    exact (Option.some_ne_none _ hstep.symm).elim
  · rw [if_neg hmust] at hstep
    obtain ⟨queue, hhistory, hwhole, hprogram, hsound⟩ :=
      hexplained.sound (Bool.eq_false_of_not_eq_true hmust)
    have hensures := api.collect_ensures hsound fates
    cases hcall : (api.collect digest fates).run state.ring with
    | ok scan ring =>
      rw [hcall] at hstep
      obtain rfl := Option.some.inj hstep
      obtain ⟨program, launch, others, holdest, hresult, hnext, hkept⟩ := hensures.ok rfl hcall
      refine ⟨_, .collected hhistory hwhole holdest hresult, hwhole, hkept.trans hprogram, hnext⟩
    | error error ring =>
      rw [hcall] at hstep
      obtain rfl := Option.some.inj hstep
      have hfailed := hensures.error rfl hcall
      refine ⟨_, .failed hhistory hwhole, rfl, hfailed.bc3.trans hprogram, ?_⟩
      exact ⟨hfailed.depth, hfailed.cached, rfl⟩

/-- Abandoning leaves a ring with nothing queued, and the queue of the caller is empty too. -/
theorem explained_abandon (hexplained : state.Explained digest)
    (hstep : state.step digest api .abandon = some next) : next.Explained digest := by
  obtain rfl := Option.some.inj hstep
  obtain ⟨queue, hhistory, -, hprogram, -⟩ := hexplained
  refine ⟨_, .abandoned hhistory, rfl, ?_, api.abandon_sound state.ring⟩
  exact (api.abandon_bc3 state.ring).trans hprogram

/-- Preparing the kernel leaves the ring at rest, with the new program or, after a failure, with
none. -/
theorem explained_prepareBc3hash {load : Except String Program} {test : SelfTest}
    (hexplained : state.Explained digest)
    (hstep : state.step digest api (.prepareBc3hash load test) = some next) :
    next.Explained digest := by
  rw [step] at hstep
  obtain ⟨queue, hhistory, -⟩ := hexplained
  have hensures : Attempt.Ensures (fun _ ↦ True) (api.prepareBc3hash digest load test)
      (fun _ ring ↦ ∃ program, load = .ok program ∧ GpuApi.AtRest digest (some program) ring)
      (GpuApi.AtRest digest none) := api.prepareBc3hash_ensures load test
  cases hcall : (api.prepareBc3hash digest load test).run state.ring with
  | ok value ring =>
    rw [hcall] at hstep
    obtain rfl := Option.some.inj hstep
    obtain ⟨program, -, hsound, hbc3⟩ := hensures.ok trivial hcall
    refine ⟨⟨some program, [], false⟩, ?_, rfl, hbc3, hsound⟩
    show PlainQueue.History digest (state.seen ++ [.prepared ring.bc3]) _
    rw [hbc3]
    exact .prepared hhistory
  | error error ring =>
    rw [hcall] at hstep
    obtain rfl := Option.some.inj hstep
    obtain ⟨hsound, hbc3⟩ := hensures.error trivial hcall
    exact ⟨_, .unprepared hhistory, rfl, hbc3, hsound⟩

/-- Every call keeps what the caller sees a history of a plain queue. -/
theorem Explained.step (call : Call Program) (hstep : state.step digest api call = some next)
    (hexplained : state.Explained digest) : next.Explained digest := by
  cases call with
  | enqueue fates launch => exact explained_enqueue hexplained hstep
  | collect fates => exact explained_collect hexplained hstep
  | abandon => exact explained_abandon hexplained hstep
  | prepareBc3hash load test => exact explained_prepareBc3hash hexplained hstep

/-- An explained ring is one that a failed call may leave: nothing has happened to it. -/
theorem Explained.failed (hexplained : state.Explained digest) :
    Failed digest state.ring state.ring := by
  obtain ⟨queue, -, -, -, hring⟩ := hexplained
  by_cases hmust : state.mustAbandon = true
  · rw [if_pos hmust] at hring
    exact hring
  · rw [if_neg hmust] at hring
    exact ⟨hring.depth, hring.cached, rfl⟩

/-- Let the ring hold what some launches need. However an `enqueue` on it ends, with success or with
an error, the slot of every launch in flight is as it was, the memory it will hold is the same, and
no command has come to those that wait for it. -/
theorem untouched_of_enqueue {launches : List (Program × Launch)} {before ring : LaunchRing Program}
    (hsound : Sound digest launches before) {fates : Fates} {launch : Launch}
    (hcall : (api.enqueue digest fates launch).run before = .ok () ring ∨
      ∃ error, (api.enqueue digest fates launch).run before = .error error ring)
    {i : Fin queueDepth} (hflight : i ∈ before.queued) : Untouched digest before ring i := by
  have hensures := api.enqueue_ensures hsound fates launch
  have hother : before.queued.length < queueDepth → i ≠ before.nextSlot := by
    rintro hroom rfl
    exact hsound.nextSlot_notMem hroom hflight
  rcases hcall with hok | ⟨error, herror⟩
  · obtain ⟨hroom, program, filled, -, rfl, hspoilt, -⟩ := hensures.ok rfl hok
    have huntouched := hspoilt.aside.untouched (hother hroom)
    exact ⟨huntouched.slot, huntouched.settled, huntouched.waiting⟩
  · rcases hensures.error rfl herror with rfl | ⟨hroom, hspoilt⟩
    · exact ⟨rfl, rfl, List.suffix_refl _⟩
    · exact hspoilt.aside.untouched (hother hroom)

/-- An `enqueue` that nothing stands in the way of, as the caller sees it. -/
theorem step_enqueue_accepted (hwhole : state.mustAbandon = false) {fates : Fates}
    (haccepted : ∀ call, (fates.call call).reply = .accepted) {launch : Launch}
    (hcount : launch.count ≠ 0) (halgo : launch.algo = .bc3Hash)
    (hroom : state.ring.queued.length < queueDepth) {program : Program}
    (hloaded : state.ring.bc3 = some program) :
    ∃ ring, state.step digest api (.enqueue fates launch) =
      some ⟨ring, false, state.seen ++ [.enqueued launch]⟩ := by
  obtain ⟨ring, hrun, -⟩ :=
    api.enqueue_accepted haccepted hcount halgo hroom hloaded
  refine ⟨ring, ?_⟩
  rw [step, hwhole, if_neg Bool.false_ne_true, hrun]

/-- A `collect` that nothing stands in the way of, as the caller sees it. -/
theorem step_collect_accepted (hwhole : state.mustAbandon = false)
    {launches : List (Program × Launch)} (hsound : Sound digest launches state.ring) {fates : Fates}
    (haccepted : ∀ call, (fates.call call).reply = .accepted) (hqueued : state.ring.queued ≠ []) :
    ∃ ring scan, state.step digest api (.collect fates) =
      some ⟨ring, false, state.seen ++ [.collected scan]⟩ := by
  obtain ⟨scan, ring, hrun⟩ := api.collect_accepted hsound haccepted hqueued
  refine ⟨ring, scan, ?_⟩
  rw [step, hwhole, if_neg Bool.false_ne_true, hrun]

variable (digest) in
/-- Every run of calls on a ring is one of a plain queue. What the caller sees is a history of it,
and at any time as many launches are in flight as it holds, never more than the depth. What the host
takes the buffers to hold they will hold when the device has finished, so a skipped copy changes
nothing. An `enqueue`, however it ends, touches no slot of a launch in flight. And where the driver
accepts every call, an `enqueue` of a launch of the loaded kernel with room for it goes in, and a
`collect` with a launch in flight brings a result. -/
theorem run_isPlainQueue (api : GpuApi) (memory : Fin queueDepth → SlotMemory)
    (calls : List (Call Program)) (state : CallerState Program)
    (hrun : PartialMachine.run (CallerState.step digest api) (opened memory) calls = some state) :
    (∃ queue : PlainQueue Program, queue.History digest state.seen ∧
      queue.broken = state.mustAbandon ∧
      (state.mustAbandon = false → state.ring.queued.length = queue.launches.length)) ∧
    state.ring.queued.length ≤ queueDepth ∧
    (∀ i header76, (state.ring.slot i).headerOf = some header76 →
      ((state.ring.device.finish (act digest)).memory i).header = header76) ∧
    (∀ i limbs, (state.ring.slot i).targetOf = some limbs →
      ((state.ring.device.finish (act digest)).memory i).target = limbs) ∧
    (state.mustAbandon = false → ∀ fates launch ring,
      ((api.enqueue digest fates launch).run state.ring = .ok () ring ∨
        ∃ error, (api.enqueue digest fates launch).run state.ring = .error error ring) →
      ∀ i ∈ state.ring.queued, Untouched digest state.ring ring i) ∧
    (state.mustAbandon = false → ∀ fates, (∀ call, (fates.call call).reply = .accepted) →
      (∀ launch program, launch.count ≠ 0 → launch.algo = .bc3Hash →
        state.ring.queued.length < queueDepth → state.ring.bc3 = some program →
        ∃ ring, state.step digest api (.enqueue fates launch) =
          some ⟨ring, false, state.seen ++ [.enqueued launch]⟩) ∧
      (state.ring.queued ≠ [] → ∃ ring scan, state.step digest api (.collect fates) =
        some ⟨ring, false, state.seen ++ [.collected scan]⟩)) := by
  have hexplained : state.Explained digest :=
    PartialMachine.invariant_of_run (fun _ call _ hstep ↦ Explained.step call hstep) hrun
      (explained_opened memory)
  have hfailed := hexplained.failed
  have hfinished : ∀ i, (state.ring.device.finish (act digest)).memory i =
    state.ring.settled digest i :=
    fun i ↦ congrFun (CommandQueue.memory_finish (act digest) state.ring.device) i
  refine ⟨?_, hfailed.depth, ?_, ?_, ?_, ?_⟩
  · obtain ⟨queue, hhistory, hbroken, hprogram, hring⟩ := hexplained
    refine ⟨queue, hhistory, hbroken, fun hwhole ↦ ?_⟩
    rw [hwhole, if_neg Bool.false_ne_true] at hring
    exact hring.flight.length_eq
  · intro i header76 hof
    rw [hfinished]
    exact (hfailed.cached i).header header76 hof
  · intro i limbs hof
    rw [hfinished]
    exact (hfailed.cached i).target limbs hof
  · intro hwhole fates launch ring hcall i hflight
    obtain ⟨queue, -, -, -, hsound⟩ := hexplained.sound hwhole
    exact untouched_of_enqueue hsound hcall hflight
  · intro hwhole fates haccepted
    refine ⟨fun launch program hcount halgo hroom hloaded ↦ ?_, fun hqueued ↦ ?_⟩
    · exact step_enqueue_accepted hwhole haccepted hcount halgo hroom hloaded
    · obtain ⟨queue, -, -, -, hsound⟩ := hexplained.sound hwhole
      exact step_collect_accepted hwhole hsound haccepted hqueued

/-- A launch of three nonces, with every hash accepted. -/
def threeNonces : Launch where
  algo := .bc3Hash
  header76 := Vector.replicate 76 0
  start := 7
  count := 3
  target := Vector.replicate 32 0xff

/-- Buffers of zeros. -/
def zeroMemory : Fin queueDepth → SlotMemory := fun _ ↦
  ⟨Vector.replicate 76 0, Limbs.ofFn fun _ ↦ 0, ⟨0, Vector.replicate maxHits 0⟩,
    ⟨0, Vector.replicate maxHits 0⟩, Vector.replicate 76 0, Limbs.ofFn fun _ ↦ 0, 0⟩

/-- The kernel comes in, two launches go out, one comes back, a third takes its slot without a copy,
and a fourth finds the queue full. -/
def sampleCalls : List (Call Unit) :=
  [.prepareBc3hash (.ok ()) ⟨none, [], fun _ ↦ .smooth, fun _ ↦ none⟩,
    .enqueue .smooth threeNonces, .enqueue .smooth threeNonces, .collect .smooth,
    .enqueue .smooth threeNonces, .enqueue .smooth threeNonces, .abandon]

/-- Those calls on either backend: the first launch comes back with its three nonces, and the queue
is never longer than the depth. -/
def SampleRun (api : GpuApi) : Prop :=
  ∃ state, PartialMachine.run
      (CallerState.step (fun (_ : Unit) _ _ ↦ Vector.replicate 32 0) api) (opened zeroMemory)
      sampleCalls = some state ∧
    state.seen[3]? = some (.collected ⟨[7, 8, 9], 3, none⟩) ∧ state.seen.length = 7 ∧
    state.ring.queued.length ≤ queueDepth

/-- A run of enqueues and collects whose driver calls are all accepted, for each of the two back
ends. -/
theorem run_isPlainQueue_sample : SampleRun .cuda ∧ SampleRun .openCl := by
  constructor
  · exact ⟨_, rfl, rfl, rfl, (run_isPlainQueue
      (fun (_ : Unit) _ _ ↦ Vector.replicate 32 0) .cuda zeroMemory sampleCalls _ rfl).2.1⟩
  · exact ⟨_, rfl, rfl, rfl, (run_isPlainQueue
      (fun (_ : Unit) _ _ ↦ Vector.replicate 32 0) .openCl zeroMemory sampleCalls _ rfl).2.1⟩

end Runs

end CallerState

end Bc3Miner.Device
