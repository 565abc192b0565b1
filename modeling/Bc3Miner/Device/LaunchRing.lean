import Bc3Miner.Foundations.Attempts
import Bc3Miner.Foundations.CommandQueue
import Bc3Miner.Kernel.TargetCompare
import Bc3Miner.Mining.GpuWorker

/-!
# The launch ring of the GPU backends

`enqueue`, `collect`, `abandon` and `prepare_bc3hash` of `src/backend/cuda.rs` and
`src/backend/opencl.rs`, over a device that executes its queue in order. Each launch in flight owns
a slot: device buffers for the header, the target and the hits, host memory for the readback, and on
the host what the two input buffers are taken to hold, so that a copy that would change nothing is
skipped.

The driver decides how each of its calls goes (`Fate`): how far the device has come by then, and
whether the call is refused; a refused call may have left its command in the queue all the same. The
hash of the kernel is a parameter, and the tables that it works with are the loaded program.

Every access of the driver is a step of the two programs, under the name it has in the errors of the
source, and every error carries the text of the source. The self-test that runs when a kernel is
loaded launches through the same ring, so it is here as well (`selfTest`, `prepareBc3hash`).

Not modelled here: the sizes of the buffers in the driver, which are fixed, and the time a launch
takes; `busy` is passed through.
-/

set_option autoImplicit false
set_option relaxedAutoImplicit false

namespace Bc3Miner.Device

open Consensus Foundations Kernel Mining

/-! ### The memory of a slot and the commands on it -/

instance : NeZero queueDepth := ⟨by decide⟩

/-- The first 76 bytes of a header, all but the nonce. -/
abbrev Header76 := Vector UInt8 76

/-- One launch: `count` nonces from `start` on. -/
structure Launch where
  algo : PowAlgo
  header76 : Header76
  start : UInt32
  count : UInt32
  target : Target
  deriving DecidableEq

/-- A hit buffer: how many hits the kernel counted, and room for the first of them. -/
structure Hits where
  count : UInt32
  found : Vector UInt32 maxHits
  deriving DecidableEq

/-- A thread that found a hit: the count goes up, and the nonce is stored where there is room. -/
def Hits.report (hits : Hits) (nonce : UInt32) : Hits where
  count := hits.count + 1
  found :=
    if hroom : hits.count.toNat < maxHits then hits.found.set hits.count.toNat nonce hroom
    else hits.found

/-- What one launch in flight owns, on the device and in host memory. The staged inputs and the zero
are those of the OpenCL backend, whose writes read them when they are executed. -/
structure SlotMemory where
  header : Header76
  target : U256
  hits : Hits
  hitsHost : Hits
  hostHeader : Header76
  hostTarget : U256
  hostZero : UInt32
  deriving DecidableEq

/-- The order in which the threads of a launch report: any. -/
structure Schedule where
  order : List UInt32 → List UInt32
  perm : ∀ nonces, (order nonces).Perm nonces

/-- The threads report in the order of their nonces. -/
def Schedule.ascending : Schedule := ⟨id, fun nonces ↦ List.Perm.refl nonces⟩

/-- What the backends submit for a slot. A copy carries its data, a write reads it from the slot's
host memory. -/
inductive SlotAction (Program : Type)
  | copyHeader (header76 : Header76)
  | copyTarget (limbs : U256)
  | clearHits
  | writeHeader
  | writeTarget
  | writeZero
  | scan (program : Program) (start count : UInt32) (schedule : Schedule)
  | readHits
  | record

section Kernel

variable {Program : Type} (digest : Program → Header76 → UInt32 → Bytes32)

/-- The nonces of a launch whose hash the kernel accepts. -/
def acceptedNonces (program : Program) (header76 : Header76) (limbs : U256) (start count : UInt32) :
    List UInt32 :=
  ((List.range count.toNat).map fun gid ↦ start + UInt32.ofNat gid).filter fun nonce ↦
    scanAccepts (digest program header76 nonce) limbs

/-- What a command does to the memory of its slot. -/
def act : SlotAction Program → SlotMemory → SlotMemory
  | .copyHeader header76, memory => { memory with header := header76 }
  | .copyTarget limbs, memory => { memory with target := limbs }
  | .clearHits, memory => { memory with hits := { memory.hits with count := 0 } }
  | .writeHeader, memory => { memory with header := memory.hostHeader }
  | .writeTarget, memory => { memory with target := memory.hostTarget }
  | .writeZero, memory => { memory with hits := { memory.hits with count := memory.hostZero } }
  | .scan program start count schedule, memory =>
      { memory with
        hits := (schedule.order
          (acceptedNonces digest program memory.header memory.target start count)).foldl
            Hits.report memory.hits }
  | .readHits, memory => { memory with hitsHost := memory.hits }
  | .record, memory => memory

end Kernel

/-! ### The host's side -/

/-- What the host keeps for a slot: what the input buffers are taken to hold, and the event of the
readback. -/
structure Slot where
  headerOf : Option Header76
  targetOf : Option U256
  done : Option ℕ
  deriving DecidableEq

/-- After a failed or abandoned launch nobody knows what the buffers hold. -/
def Slot.forget (slot : Slot) : Slot := { slot with headerOf := none, targetOf := none }

/-- A backend with its device. -/
structure LaunchRing (Program : Type) where
  device : CommandQueue (Fin queueDepth) (SlotAction Program) SlotMemory
  slot : Fin queueDepth → Slot
  /-- Slots of the launches in flight, oldest first. -/
  queued : List (Fin queueDepth)
  /-- The slot the next launch takes. -/
  nextSlot : Fin queueDepth
  /-- The kernel in use, with its tables. -/
  bc3 : Option Program

/-- How the driver answers a call: a refused one may have reached the queue. -/
inductive Reply
  | accepted
  | refused (error : String) (submitted : Bool)

/-- One call of the driver: how many more commands the device has executed when it is made, and the
answer. -/
structure Fate where
  progress : ℕ
  reply : Reply

/-- The calls of the driver in `enqueue` and `collect` that can fail. -/
inductive SubStep
  | header
  | target
  | clear
  | argument (index : ℕ)
  | start
  | launch
  | read
  | done
  | flush
  | wait
  | slice
  deriving DecidableEq

/-- How the calls of one `enqueue` or `collect` go, in which order the threads report, and what the
events say about the time on the device. -/
structure Fates where
  call : SubStep → Fate
  schedule : Schedule
  busy : Option ℕ

/-- Every call is accepted, and the device does nothing that it is not waited for. -/
def Fates.smooth : Fates := ⟨fun _ ↦ ⟨0, .accepted⟩, .ascending, none⟩

/-- What a readback says: the nonces stored, and how many hits the kernel counted. -/
def readScan (busy : Option ℕ) (hits : Hits) : Scan where
  hits := hits.found.toList.take (min hits.count.toNat maxHits)
  reported := hits.count.toNat
  busy := busy

namespace LaunchRing

variable {Program : Type} (digest : Program → Header76 → UInt32 → Bytes32)

/-- The slot's record is changed. -/
def updateSlot (i : Fin queueDepth) (change : Slot → Slot)
    (ring : LaunchRing Program) : LaunchRing Program :=
  { ring with slot := Function.update ring.slot i (change (ring.slot i)) }

/-- The device works on. -/
def progress (count : ℕ) (ring : LaunchRing Program) : LaunchRing Program :=
  { ring with device := ring.device.advance (act digest) count }

/-- A command on a slot's memory. -/
def push (i : Fin queueDepth) (action : SlotAction Program)
    (ring : LaunchRing Program) : LaunchRing Program :=
  { ring with device := ring.device.submit i action }

/-- Host memory of a slot is written. -/
def stage (i : Fin queueDepth) (write : SlotMemory → SlotMemory)
    (ring : LaunchRing Program) : LaunchRing Program :=
  { ring with device := ring.device.writeHost i write }

/-- The event of everything submitted so far becomes the slot's. -/
def recordDone (i : Fin queueDepth) (ring : LaunchRing Program) : LaunchRing Program :=
  ring.updateSlot i fun slot ↦ { slot with done := some ring.device.event }

/-- A call of the driver that submits nothing. -/
def callDriver (fate : Fate)
    (what : String) : Attempt String (LaunchRing Program) Unit := fun ring ↦
  match fate.reply with
  | .accepted => .ok () (ring.progress digest fate.progress)
  | .refused error _ => .error (what ++ ": " ++ error) (ring.progress digest fate.progress)

/-- A call of the driver that submits a command on slot `i`. -/
def submit (fate : Fate) (what : String) (i : Fin queueDepth) (action : SlotAction Program) :
    Attempt String (LaunchRing Program) Unit := fun ring ↦
  match fate.reply with
  | .accepted => .ok () ((ring.progress digest fate.progress).push i action)
  | .refused error true =>
      .error (what ++ ": " ++ error) ((ring.progress digest fate.progress).push i action)
  | .refused error false => .error (what ++ ": " ++ error) (ring.progress digest fate.progress)

/-- The header goes into slot `i`, unless it is there. -/
def refreshHeader (i : Fin queueDepth) (header76 : Header76)
    (upload : Attempt String (LaunchRing Program) Unit) :
      Attempt String (LaunchRing Program) Unit := do
  let ring ← get
  if (ring.slot i).headerOf ≠ some header76 then
    modify (updateSlot i fun slot ↦ { slot with headerOf := none })
    upload
    modify (updateSlot i fun slot ↦ { slot with headerOf := some header76 })
  else pure ()

/-- The target goes into slot `i`, unless it is there. -/
def refreshTarget (i : Fin queueDepth) (limbs : U256)
    (upload : Attempt String (LaunchRing Program) Unit) :
      Attempt String (LaunchRing Program) Unit := do
  let ring ← get
  if (ring.slot i).targetOf ≠ some limbs then
    modify (updateSlot i fun slot ↦ { slot with targetOf := none })
    upload
    modify (updateSlot i fun slot ↦ { slot with targetOf := some limbs })
  else pure ()

/-- The launch of slot `i` is in flight, and the next one takes the slot after it. -/
def takeSlot (i : Fin queueDepth) (ring : LaunchRing Program) : LaunchRing Program :=
  { ring with queued := ring.queued ++ [i], nextSlot := i + 1 }

/-! ### The CUDA backend -/

/-- `CudaBackend::queue_bc3`: the copies and the kernel of one launch on slot `i`. -/
def queueBc3 (fates : Fates) (i : Fin queueDepth) (launch : Launch) :
    Attempt String (LaunchRing Program) Unit := do
  let ring ← get
  match ring.bc3 with
  | none => throw "BC3Hash kernel not loaded"
  | some kernel => do
    refreshHeader i launch.header76
      (submit digest (fates.call .header) "htod header" i (.copyHeader launch.header76))
    refreshTarget i (targetLimbs launch.target)
      (submit digest (fates.call .target) "htod target" i (.copyTarget (targetLimbs launch.target)))
    submit digest (fates.call .clear) "reset hits" i .clearHits
    submit digest (fates.call .start) "record" i .record
    submit digest (fates.call .launch) "bc3hash_scan launch" i
      (.scan kernel launch.start launch.count fates.schedule)

/-- `CudaBackend::queue_kernel`. -/
def queueKernel (fates : Fates) (i : Fin queueDepth) (launch : Launch) :
    Attempt String (LaunchRing Program) Unit :=
  match launch.algo with
  | .bc3Hash => queueBc3 digest fates i launch
  | .sha256d | .sha3t => throw ("no kernel for " ++ launch.algo.name)

/-- `enqueue` of the CUDA backend. A copy of the hits or an event that fails leaves what the slot is
taken to hold as it is. -/
def cudaEnqueue (fates : Fates) (launch : Launch) : Attempt String (LaunchRing Program) Unit := do
  let ring ← get
  if launch.count = 0 then throw "a launch of 0 nonces"
  else if queueDepth ≤ ring.queued.length then throw "too many launches in flight"
  else do
    (queueKernel digest fates ring.nextSlot launch).onError (updateSlot ring.nextSlot Slot.forget)
    submit digest (fates.call .read) "dtoh hits" ring.nextSlot .readHits
    submit digest (fates.call .done) "record" ring.nextSlot .record
    modify (recordDone ring.nextSlot)
    modify (takeSlot ring.nextSlot)

/-- The host waits until the event has come; an event never recorded is there at once. -/
def waitDone (fate : Fate) (event : Option ℕ) (ring : LaunchRing Program) : LaunchRing Program :=
  match event with
  | none => ring.progress digest fate.progress
  | some event => { ring with device := ring.device.waitFor (act digest) event fate.progress }

/-- `collect` of the CUDA backend. -/
def cudaCollect (fates : Fates) : Attempt String (LaunchRing Program) Scan := do
  let ring ← get
  match ring.queued with
  | [] => throw "no launch in flight"
  | i :: rest => do
    modify fun ring ↦ { ring with queued := rest }
    match (fates.call .wait).reply with
    | .refused error _ => do
      modify (progress digest (fates.call .wait).progress)
      throw ("synchronize: " ++ error)
    | .accepted => do
      modify (waitDone digest (fates.call .wait) (ring.slot i).done)
      callDriver digest (fates.call .slice) "read hits"
      let ring ← get
      pure (readScan fates.busy (ring.device.memory i).hitsHost)

/-- `abandon` of the CUDA backend. -/
def cudaAbandon (ring : LaunchRing Program) : LaunchRing Program :=
  { ring with
    device := ring.device.finish (act digest)
    queued := []
    slot := fun i ↦ (ring.slot i).forget }

/-! ### The OpenCL backend -/

/-- The events of the slot's launch are given up. -/
def releaseEvents (slot : Slot) : Slot := { slot with done := none }

/-- `OpenClBackend::bc3_inputs`: the header and the target into slot `i`, from the slot's host
memory. -/
def bc3Inputs (fates : Fates) (i : Fin queueDepth) (launch : Launch) :
    Attempt String (LaunchRing Program) Program := do
  let ring ← get
  match ring.bc3 with
  | none => throw "BC3Hash program not built"
  | some program => do
    refreshHeader i launch.header76 do
      modify (stage i fun memory ↦ { memory with hostHeader := launch.header76 })
      submit digest (fates.call .header) "write header" i .writeHeader
    refreshTarget i (targetLimbs launch.target) do
      modify (stage i fun memory ↦ { memory with hostTarget := targetLimbs launch.target })
      submit digest (fates.call .target) "write target" i .writeTarget
    pure program

/-- `set_args`: the kernel's arguments, in order. -/
def setArgs (fates : Fates) : List ℕ → Attempt String (LaunchRing Program) Unit
  | [] => pure ()
  | index :: rest => do
    callDriver digest (fates.call (.argument index)) ("set arg " ++ toString index)
    setArgs fates rest

/-- `OpenClBackend::queue_launch`: the writes, the kernel and the readback of one launch on slot
`i`. -/
def queueLaunch (fates : Fates) (i : Fin queueDepth) (launch : Launch) :
    Attempt String (LaunchRing Program) Unit :=
  match launch.algo with
  | .bc3Hash => do
    let program ← bc3Inputs digest fates i launch
    modify (stage i fun memory ↦ { memory with hostZero := 0 })
    submit digest (fates.call .clear) "write hit count" i .writeZero
    setArgs digest fates (List.range 7)
    submit digest (fates.call .launch) "clEnqueueNDRangeKernel" i
      (.scan program launch.start launch.count fates.schedule)
    submit digest (fates.call .read) "read hits" i .readHits
    modify (recordDone i)
    callDriver digest (fates.call .flush) "clFlush"
  | .sha256d | .sha3t => throw ("no kernel for " ++ launch.algo.name)

/-- `enqueue` of the OpenCL backend. -/
def openClEnqueue (fates : Fates) (launch : Launch) : Attempt String (LaunchRing Program) Unit := do
  let ring ← get
  if launch.count = 0 then throw "a launch of 0 nonces"
  else if queueDepth ≤ ring.queued.length then throw "too many launches in flight"
  else do
    (queueLaunch digest fates ring.nextSlot launch).onError
      (updateSlot ring.nextSlot fun slot ↦ (releaseEvents slot).forget)
    modify (takeSlot ring.nextSlot)

/-- `collect` of the OpenCL backend: a wait without an event is refused. -/
def openClCollect (fates : Fates) : Attempt String (LaunchRing Program) Scan := do
  let ring ← get
  match ring.queued with
  | [] => throw "no launch in flight"
  | i :: rest => do
    modify fun ring ↦ { ring with queued := rest }
    match (fates.call .wait).reply, (ring.slot i).done with
    | .accepted, some event => do
      modify (waitDone digest (fates.call .wait) (some event))
      modify (updateSlot i releaseEvents)
      let ring ← get
      pure (readScan fates.busy (ring.device.memory i).hitsHost)
    | .accepted, none => do
      modify (updateSlot i releaseEvents)
      throw "clWaitForEvents: CL_ERROR (-58)"
    | .refused error _, _ => do
      modify (progress digest (fates.call .wait).progress)
      modify (updateSlot i releaseEvents)
      throw ("clWaitForEvents: " ++ error)

/-- `abandon` of the OpenCL backend. -/
def openClAbandon (ring : LaunchRing Program) : LaunchRing Program :=
  { ring with
    device := ring.device.finish (act digest)
    queued := []
    slot := fun i ↦ (releaseEvents (ring.slot i)).forget }

end LaunchRing

/-! ### The ring of either backend, and the kernel's self-test -/

/-- The GPU backends. -/
inductive GpuApi
  | cuda
  | openCl
  deriving DecidableEq

/-- A launch of the self-test, and how its `enqueue`, and the `collect` after it, go. -/
structure TestLaunch where
  header76 : Header76
  start : UInt32
  enqueue : Fates
  collect : Fates

/-- What the self-test of a loaded kernel comes across: the failure of the batch of whole headers,
or of the comparison of its digests; the launches it makes up; how the collects after the last of
them go; and what the comparison of the hits with the CPU's own says. -/
structure SelfTest where
  batch : Option String
  launches : List TestLaunch
  drain : ℕ → Fates
  differs : List (List UInt32) → Option String

/-- The target of the self-test: about one hash in eight is a hit. -/
def selfTestTarget : Target := (Vector.replicate 32 0xff).set 0 0x1f

/-- A launch of the self-test, of 128 nonces. -/
def TestLaunch.launch (test : TestLaunch) : Launch where
  algo := .bc3Hash
  header76 := test.header76
  start := test.start
  count := 128
  target := selfTestTarget

namespace GpuApi

variable {Program : Type} (digest : Program → Header76 → UInt32 → Bytes32)

def enqueue (fates : Fates) (launch : Launch) : GpuApi → Attempt String (LaunchRing Program) Unit
  | cuda => LaunchRing.cudaEnqueue digest fates launch
  | openCl => LaunchRing.openClEnqueue digest fates launch

def collect (fates : Fates) : GpuApi → Attempt String (LaunchRing Program) Scan
  | cuda => LaunchRing.cudaCollect digest fates
  | openCl => LaunchRing.openClCollect digest fates

def abandon : GpuApi → LaunchRing Program → LaunchRing Program
  | cuda => LaunchRing.cudaAbandon digest
  | openCl => LaunchRing.openClAbandon digest

/-- A `collect` of the self-test, for its hits, sorted. -/
def collectHits (api : GpuApi) (fates : Fates) : Attempt String (LaunchRing Program)
    (List UInt32) := do
  let scan ← api.collect digest fates
  pure scan.hits.mergeSort

/-- The loop at the end of `queued_scans`: while a launch is in flight, it is collected. Each
`collect` takes one off, so as many turns as there are launches are enough. -/
def drainQueue (api : GpuApi) (fates : ℕ → Fates) :
    ℕ → Attempt String (LaunchRing Program) (List (List UInt32))
  | 0 => pure []
  | turns + 1 => do
    let ring ← get
    if ring.queued.length = 0 then pure []
    else do
      let hits ← api.collectHits digest (fates turns)
      let others ← drainQueue api fates turns
      pure (hits :: others)

/-- `queued_scans`: the hits of each launch, the launches queued as deep as the worker queues
them. -/
def queuedScans (api : GpuApi) (drain : ℕ → Fates) :
    List TestLaunch → Attempt String (LaunchRing Program) (List (List UInt32))
  | [] => api.drainQueue digest drain queueDepth
  | test :: rest => do
    api.enqueue digest test.enqueue test.launch
    let ring ← get
    if ring.queued.length = queueDepth then do
      let hits ← api.collectHits digest test.collect
      let others ← queuedScans api drain rest
      pure (hits :: others)
    else queuedScans api drain rest

/-- Nothing, or the failure that was found. -/
def failing : Option String → Attempt String (LaunchRing Program) Unit
  | none => pure ()
  | some error => throw error

/-- `self_test`, which leaves nothing in flight. -/
def selfTest (api : GpuApi) (test : SelfTest) : Attempt String (LaunchRing Program) Unit := do
  failing test.batch
  let scans ← (api.queuedScans digest test.drain test.launches).onError (api.abandon digest)
  failing (test.differs scans)

/-- The kernel is taken out. -/
def unload (ring : LaunchRing Program) : LaunchRing Program := { ring with bc3 := none }

/-- `prepare_bc3hash`: everything in flight is given up, the old kernel leaves, and the new one
comes, if it loads and passes its test. -/
def prepareBc3hash (api : GpuApi) (load : Except String Program) (test : SelfTest) :
    Attempt String (LaunchRing Program) Unit := do
  modify (api.abandon digest)
  modify unload
  match load with
  | .error error => throw error
  | .ok program => do
    modify fun ring ↦ { ring with bc3 := some program }
    ((api.selfTest digest test).onError unload).mapError fun error ↦ "self-test failed: " ++ error

end GpuApi

end Bc3Miner.Device
