import Bc3Miner.Sharing.HandOverAccounts
import Mathlib.Algebra.Order.Ring.Int

/-!
# The watchdog and the workers it counts

The watchdog of `src/main.rs` ends the process when every GPU worker has stopped and no CPU thread
mines in their place. It goes by `gpu_workers_alive`, which main sets before the workers start and
each worker lowers once, by the drop of the guard that it takes first (`GpuWorkerAlive` of
`src/shared.rs`). The claims of a worker are a second guard, taken after the first and dropped
before it, so a worker that is no longer counted claims nothing.

`Rig` runs the workers of `run_gpu_worker` of `src/gpu_worker.rs` over the `HandOver` of their
claims: a worker opens its card or fails to, claims and releases, returns from between any two
calls, releases every proof of work in turn, and is counted down. The watchdog reads one variable a
step, as do the stall check and the stand-ins, and everybody else may move in between. What a
worker mines is left out. The count is an integer, so that a fall below zero would show.

`watchdog_exits_only_where_nothing_mines` is over every run with any number of cards and threads. It
speaks of the proof of work that was current when the watchdog asked for it: with a job that comes
between that read and the exit, the process can end although a thread would take the new job
(`jobBeforeTheExit_is_untaken`). `closedCard_exits` is a card that claims, releases and is counted
down before the process ends.
-/

set_option autoImplicit false
set_option relaxedAutoImplicit false

namespace Bc3Miner.Sharing

open Foundations Consensus Mining

/-! ### The plan -/

/-- Which threads were started for what. -/
structure MiningPlan where
  gpus : ℕ
  cpuThreads : ℕ
  cpuFallbackThreads : ℕ
  deriving DecidableEq, Repr

/-- A CPU thread mines every job that the CPU can hash, or only what no GPU takes. -/
inductive CpuRole
  | all
  | gpuFallback
  deriving DecidableEq, Repr

/-- Does a thread in this role take a job, given whether the GPUs take its proof of work? -/
def CpuRole.takes (gpusMine : Bool) : CpuRole → Bool
  | .all => true
  | .gpuFallback => !gpusMine

/-- What the CPU build of BC3Hash came to: nothing yet, a failure with its text, or ready. -/
abbrev Readiness := Option (Except String Unit)

/-- Why the CPU cannot hash a proof of work, once that is known. A build without the `bc3hash`
feature has no function for it. -/
def cpuUnavailable (bc3hash : Option PowFn) (ready : Readiness) : PowAlgo → Option String
  | .sha256d | .sha3t => some
      ("the job's version lacks bit 11 (0x800), and BC3Hash is the only proof of work " ++
        "this miner mines")
  | .bc3Hash =>
    if bc3hash.isSome then
      match ready with
      | some (.error why) => some why
      | some (.ok _) | none => none
    else some "this build of the miner has no BC3Hash - update the miner"

/-- Can the CPU hash the proof of work, as far as anyone knows? It never waits: a build that is
still under way counts as able. -/
def cpuMaySupport (bc3hash : Option PowFn) (ready : Readiness) (algo : PowAlgo) : Bool :=
  (algo.hashFn bc3hash).isSome && (cpuUnavailable bc3hash ready algo).isNone

/-- Where the jobs of one proof of work are hashed. -/
structure PowDevices where
  gpu : Bool
  cpu : Bool
  deriving DecidableEq, Repr

namespace MiningPlan

/-- The CPU threads, by role. -/
def roles (plan : MiningPlan) : List CpuRole :=
  List.replicate plan.cpuThreads .all ++ List.replicate plan.cpuFallbackThreads .gpuFallback

/-- Where jobs are hashed, given whether the CPU may and whether the GPUs take them. -/
def devicesFor (plan : MiningPlan) (maySupport gpu : Bool) : PowDevices where
  gpu := gpu
  cpu := maySupport &&
    (decide (0 < plan.cpuThreads) || (decide (0 < plan.cpuFallbackThreads) && !gpu))

/-- The plan counts on the CPU exactly where a thread of it takes the job. -/
theorem devicesFor_cpu_iff (plan : MiningPlan) (maySupport gpu : Bool) :
    (plan.devicesFor maySupport gpu).cpu = true ↔
      maySupport = true ∧ ∃ role ∈ plan.roles, role.takes gpu = true := by
  have hroles : (∃ role ∈ plan.roles, role.takes gpu = true) ↔
      0 < plan.cpuThreads ∨ (0 < plan.cpuFallbackThreads ∧ gpu = false) := by
    unfold roles
    simp only [List.mem_append, List.mem_replicate, Nat.pos_iff_ne_zero]
    constructor
    · rintro ⟨role, ⟨hthreads, rfl⟩ | ⟨hthreads, rfl⟩, htakes⟩
      · exact .inl hthreads
      · exact .inr ⟨hthreads, Bool.not_eq_true' gpu ▸ htakes⟩
    · rintro (hthreads | ⟨hthreads, rfl⟩)
      · exact ⟨.all, .inl ⟨hthreads, rfl⟩, rfl⟩
      · exact ⟨.gpuFallback, .inr ⟨hthreads, rfl⟩, rfl⟩
  rw [hroles]
  simp only [devicesFor, Bool.and_eq_true, Bool.or_eq_true, decide_eq_true_eq, Bool.not_eq_true']

end MiningPlan

/-! ### The rig -/

/-- Where a GPU worker is in `run_gpu_worker`: not scheduled yet, opening its card, working with its
claims in hand, releasing them in turn, about to be counted down, or gone. -/
inductive WorkerPlace
  | starting
  | opening
  | working
  | dropping (rest : List PowAlgo)
  | closing
  | gone
  deriving DecidableEq, Repr

/-- A worker in one of these places has a capability, and with it may claim. -/
def WorkerPlace.mayClaim : WorkerPlace → Bool
  | .working | .dropping _ => true
  | _ => false

/-- Where the watchdog is in its loop, with what it has read so far. -/
inductive WatchdogState
  | sleeping
  | readingAlgo
  | readingCapable (algo : PowAlgo)
  | readingStalled (algo : PowAlgo) (capable slot stalledClaims : ℕ)
  | readingClaims (algo : PowAlgo) (capable slot stalledClaims : ℕ)
  | readingSupport (algo : PowAlgo) (gpu : Bool)
  | exiting (algo : Option PowAlgo)
  | exited (algo : Option PowAlgo)
  deriving DecidableEq, Repr

/-- The current proof of work as the watchdog has read it, if it has. -/
def WatchdogState.asked : WatchdogState → Option (Option PowAlgo)
  | .sleeping | .readingAlgo => none
  | .readingCapable algo | .readingStalled algo _ _ _ | .readingClaims algo _ _ _
  | .readingSupport algo _ => some (some algo)
  | .exiting algo | .exited algo => some algo

/-- The process is over. -/
def WatchdogState.isExited : WatchdogState → Bool
  | .exited _ => true
  | _ => false

/-- The GPU workers with their claims, their count, the CPU build and the watchdog. -/
structure Rig (plan : MiningPlan) where
  handOver : HandOver plan.gpus (Fin plan.cpuFallbackThreads)
  places : Fin plan.gpus → WorkerPlace
  alive : ℤ
  ready : Readiness
  watchdog : WatchdogState

/-- A step of a party. -/
inductive RigEvent (plan : MiningPlan)
  | party (event : HandOverEvent plan.gpus (Fin plan.cpuFallbackThreads))
  | schedule (slot : Fin plan.gpus)
  | opened (slot : Fin plan.gpus)
  | failed (slot : Fin plan.gpus)
  | leave (slot : Fin plan.gpus)
  | release (slot : Fin plan.gpus)
  | countDown (slot : Fin plan.gpus)
  | built (result : Except String Unit)
  | watch

namespace HandOver

variable {gpus : ℕ} {StandIn : Type*}

/-- The claims on a proof of work held by cards set aside. -/
def stalledClaims (state : HandOver gpus StandIn) (algo : PowAlgo) : ℕ :=
  (Finset.univ.filter fun slot ↦ state.stalled slot ≠ 0 ∧ state.claims slot algo = true).card

/-- Do GPUs take jobs of this proof of work? -/
def gpusMine (state : HandOver gpus StandIn) (algo : PowAlgo) : Bool :=
  decide (state.stalledClaims algo < state.capable algo)

end HandOver

namespace Rig

variable {plan : MiningPlan}

/-- Every worker is counted before the first one is scheduled. -/
def start : Rig plan where
  handOver := HandOver.start
  places := fun _ ↦ .starting
  alive := plan.gpus
  ready := none
  watchdog := .sleeping

/-- Does a CPU thread, stand-ins included, take jobs of this proof of work? -/
def CpuTakes (bc3hash : Option PowFn) (rig : Rig plan) (algo : PowAlgo) : Prop :=
  cpuMaySupport bc3hash rig.ready algo = true ∧
    ∃ role ∈ plan.roles, role.takes (rig.handOver.gpusMine algo) = true

/-- Is a step of the hand-over open to the party that takes it? Only a worker with a capability in
hand claims and releases by itself. -/
def Open (rig : Rig plan) : HandOverEvent plan.gpus (Fin plan.cpuFallbackThreads) → Prop
  | .set slot _ _ => rig.places slot = .working
  | _ => True

instance (rig : Rig plan) (event : HandOverEvent plan.gpus (Fin plan.cpuFallbackThreads)) :
    Decidable (rig.Open event) := by
  cases event <;> unfold Open <;> infer_instance

/-- A worker goes from one place to the next. -/
def move (rig : Rig plan) (slot : Fin plan.gpus) (place : WorkerPlace) : Rig plan :=
  { rig with places := Function.update rig.places slot place }

/-- The drop of a `GpuCapability`: the next proof of work is released, until none is left. -/
def release (rig : Rig plan) (slot : Fin plan.gpus) : Option (Rig plan) :=
  match rig.places slot with
  | .dropping (algo :: rest) =>
    (rig.handOver.set slot algo false).map fun handOver ↦
      { rig with
        handOver := handOver
        places := Function.update rig.places slot (.dropping rest) }
  | .dropping [] =>
    if rig.handOver.claim slot = .idle then some (rig.move slot .closing) else none
  | _ => none

/-- The next read of the watchdog, or its verdict. -/
def watch (bc3hash : Option PowFn) (rig : Rig plan) : Option WatchdogState :=
  match rig.watchdog with
  | .sleeping =>
    if plan.gpus = 0 then none
    else if 0 < rig.alive then some .sleeping
    else some .readingAlgo
  | .readingAlgo =>
    match rig.handOver.currentAlgo with
    | some algo => some (.readingCapable algo)
    | none =>
      if 0 < plan.cpuThreads + plan.cpuFallbackThreads then some .sleeping
      else some (.exiting none)
  | .readingCapable algo => some (.readingStalled algo (rig.handOver.capable algo) 0 0)
  | .readingStalled algo capable slot stalledClaims =>
    if hslot : slot < plan.gpus then
      if rig.handOver.stalled ⟨slot, hslot⟩ ≠ 0 then
        some (.readingClaims algo capable slot stalledClaims)
      else some (.readingStalled algo capable (slot + 1) stalledClaims)
    else some (.readingSupport algo (decide (stalledClaims < capable)))
  | .readingClaims algo capable slot stalledClaims =>
    if hslot : slot < plan.gpus then
      let counted := if rig.handOver.claims ⟨slot, hslot⟩ algo then stalledClaims + 1
      else stalledClaims
      some (.readingStalled algo capable (slot + 1) counted)
    else none
  | .readingSupport algo gpu =>
    if (plan.devicesFor (cpuMaySupport bc3hash rig.ready algo) gpu).cpu then some .sleeping
    else some (.exiting (some algo))
  | .exiting algo => some (.exited algo)
  | .exited _ => none

/-- One step of one party. -/
def act (bc3hash : Option PowFn) (rig : Rig plan) : RigEvent plan → Option (Rig plan)
  | .party event =>
    if rig.Open event then
      (rig.handOver.step event).map fun handOver ↦ { rig with handOver := handOver }
    else none
  | .schedule slot =>
    if rig.places slot = .starting then some (rig.move slot .opening) else none
  | .opened slot =>
    if rig.places slot = .opening then some (rig.move slot .working) else none
  | .failed slot =>
    if rig.places slot = .opening then some (rig.move slot .closing) else none
  | .leave slot =>
    if rig.places slot = .working ∧ rig.handOver.claim slot = .idle then
      some (rig.move slot (.dropping PowAlgo.all))
    else none
  | .release slot => rig.release slot
  | .countDown slot =>
    if rig.places slot = .closing then
      some { rig.move slot .gone with alive := rig.alive - 1 }
    else none
  | .built result => if rig.ready = none then some { rig with ready := some result } else none
  | .watch => (rig.watch bc3hash).map fun watchdog ↦ { rig with watchdog := watchdog }

/-- One step of one party, while the process lasts. -/
def step (bc3hash : Option PowFn) (rig : Rig plan) (event : RigEvent plan) : Option (Rig plan) :=
  if rig.watchdog.isExited then none else rig.act bc3hash event

end Rig

/-! ### What a step of the hand-over does to the claims -/

namespace HandOver

variable {gpus : ℕ} {StandIn : Type*} [DecidableEq StandIn]

/-- A step of the hand-over that is neither a call of `set` nor a step of one under way leaves what
the workers hold, where they are in such calls, and the counts of all proofs of work as they were.
-/
theorem frame_of_step {state next : HandOver gpus StandIn} {event : HandOverEvent gpus StandIn}
    (hstep : state.step event = some next)
    (hset : ∀ slot algo capable, event ≠ .set slot algo capable)
    (hclaim : ∀ slot now, event ≠ .claim slot now) :
    next.held = state.held ∧ next.claim = state.claim ∧ next.capable = state.capable := by
  have hsame : ∀ {reached : HandOver gpus StandIn}, some reached = some next →
      reached.held = state.held → reached.claim = state.claim → reached.capable = state.capable →
        next.held = state.held ∧ next.claim = state.claim ∧ next.capable = state.capable := by
    intro reached hreached hheld hwhere hcapable
    rw [← Option.some.inj hreached]
    exact ⟨hheld, hwhere, hcapable⟩
  cases event with
  | set slot algo capable => exact absurd rfl (hset slot algo capable)
  | claim slot now => exact absurd rfl (hclaim slot now)
  | launched slot now => exact hsame hstep rfl rfl rfl
  | check now limit =>
    simp only [HandOver.step] at hstep
    split_ifs at hstep
    exact hsame hstep rfl rfl rfl
  | stall =>
    simp only [HandOver.step] at hstep
    unfold HandOver.stallStep at hstep
    split at hstep
    · cases hstep
    · exact hsame hstep rfl rfl rfl
    · exact hsame hstep rfl rfl rfl
    · split_ifs at hstep
      · exact hsame hstep rfl rfl rfl
      · exact hsame hstep rfl rfl rfl
    · split_ifs at hstep
      exact hsame hstep rfl rfl rfl
    · split_ifs at hstep
      exact hsame hstep rfl rfl rfl
    · split at hstep
      · exact hsame hstep rfl rfl rfl
      · cases hstep
    · split at hstep
      · exact hsame hstep rfl rfl rfl
      · cases hstep
    · split at hstep
      · exact hsame hstep rfl rfl rfl
      · cases hstep
    · exact hsame hstep rfl rfl rfl
    · obtain ⟨board, -, rfl⟩ := Option.map_eq_some_iff.mp hstep
      exact ⟨rfl, rfl, rfl⟩
  | publish job =>
    simp only [HandOver.step] at hstep
    split_ifs at hstep
    exact hsame hstep rfl rfl rfl
  | notePow =>
    simp only [HandOver.step, HandOver.notePow] at hstep
    split at hstep
    · exact hsame hstep rfl rfl rfl
    · cases hstep
  | post now =>
    simp only [HandOver.step, HandOver.post] at hstep
    split at hstep
    · obtain ⟨board, -, rfl⟩ := Option.map_eq_some_iff.mp hstep
      exact ⟨rfl, rfl, rfl⟩
    · cases hstep
  | clear =>
    simp only [HandOver.step] at hstep
    split_ifs at hstep
    obtain ⟨board, -, rfl⟩ := Option.map_eq_some_iff.mp hstep
    exact ⟨rfl, rfl, rfl⟩
  | call thread =>
    simp only [HandOver.step] at hstep
    split at hstep
    · obtain ⟨board, -, rfl⟩ := Option.map_eq_some_iff.mp hstep
      exact ⟨rfl, rfl, rfl⟩
    · cases hstep
  | look thread =>
    simp only [HandOver.step, HandOver.lookStep] at hstep
    split at hstep
    · obtain ⟨board, -, rfl⟩ := Option.map_eq_some_iff.mp hstep
      exact ⟨rfl, rfl, rfl⟩
    · cases hstep
  | leave thread exhausted =>
    simp only [HandOver.step] at hstep
    split at hstep
    · split_ifs at hstep
      · exact hsame hstep rfl rfl rfl
      · exact hsame hstep rfl rfl rfl
    · cases hstep
  | _ =>
    obtain ⟨moved, -, rfl⟩ := Option.map_eq_some_iff.mp hstep
    exact ⟨rfl, rfl, rfl⟩

/-- A step of a call of `set` under way, from a state with its accounts in order: what the workers
hold is the same, a worker that is in no call stays in none, and only the count of BC3Hash moves. -/
theorem frame_of_claimStep {state next : HandOver gpus StandIn} (haccounted : state.Accounted)
    {slot : Fin gpus} {now : ℕ} (hstep : state.claimStep slot now = some next) :
    next.held = state.held ∧ (∀ other, state.claim other = .idle → next.claim other = .idle) ∧
      ∀ algo, algo ≠ .bc3Hash → next.capable algo = state.capable algo := by
  have hmoved : state.claim slot ≠ .idle → ∀ (place : ClaimState) (other : Fin gpus),
      state.claim other = .idle → Function.update state.claim slot place other = .idle := by
    intro hbusy place other hidle
    have hother : other ≠ slot := by
      rintro rfl
      exact hbusy hidle
    rwa [Function.update_of_ne hother]
  have hstaged := (haccounted.slots slot).staged
  unfold HandOver.claimStep at hstep
  split at hstep
  · cases hstep
  · rename_i algo hclaim
    obtain rfl := Option.some.inj hstep
    exact ⟨rfl, hmoved (by rw [hclaim]; simp) _, fun _ _ ↦ rfl⟩
  · rename_i algo capable hclaim
    obtain rfl := Option.some.inj hstep
    exact ⟨rfl, hmoved (by rw [hclaim]; simp) _, fun _ _ ↦ rfl⟩
  · rename_i algo capable hclaim
    obtain rfl := Option.some.inj hstep
    rw [hclaim] at hstaged
    refine ⟨rfl, hmoved (by rw [hclaim]; simp) _, fun other hother ↦ ?_⟩
    exact Function.update_of_ne (hstaged.1 ▸ hother) _ _
  · rename_i algo hclaim
    obtain rfl := Option.some.inj hstep
    exact ⟨rfl, hmoved (by rw [hclaim]; simp) _, fun _ _ ↦ rfl⟩
  · rename_i hclaim
    obtain ⟨board, -, rfl⟩ := Option.map_eq_some_iff.mp hstep
    exact ⟨rfl, hmoved (by rw [hclaim]; simp) _, fun _ _ ↦ rfl⟩

omit [DecidableEq StandIn] in
/-- A call of `set` is about one card: what the other workers hold and where they are is the same,
and no count is changed by the call itself. For its own card what is held changes at that one proof
of work only. -/
theorem frame_of_set {state next : HandOver gpus StandIn} {slot : Fin gpus} {algo : PowAlgo}
    {capable : Bool} (hstep : state.set slot algo capable = some next) :
    (∀ other, other ≠ slot → next.held other = state.held other ∧
      next.claim other = state.claim other) ∧ next.capable = state.capable ∧
        next.held slot = Function.update (state.held slot) algo capable := by
  unfold HandOver.set at hstep
  rw [Option.ite_none_right_eq_some] at hstep
  obtain ⟨-, hstep⟩ := hstep
  by_cases hheld : state.held slot algo = capable
  · rw [if_pos hheld] at hstep
    obtain rfl := Option.some.inj hstep
    refine ⟨fun _ _ ↦ ⟨rfl, rfl⟩, rfl, ?_⟩
    rw [← hheld, Function.update_eq_self]
  · rw [if_neg hheld] at hstep
    obtain rfl := Option.some.inj hstep
    refine ⟨fun other hother ↦ ⟨?_, ?_⟩, rfl, Function.update_self ..⟩
    · exact Function.update_of_ne hother _ _
    · exact Function.update_of_ne hother _ _

end HandOver

namespace Rig

variable {plan : MiningPlan}

/-! ### What every step keeps -/

/-- The workers that are still counted. -/
def counted (rig : Rig plan) : Finset (Fin plan.gpus) :=
  Finset.univ.filter fun slot ↦ rig.places slot ≠ .gone

@[simp] theorem mem_counted (rig : Rig plan) (slot : Fin plan.gpus) :
    slot ∈ rig.counted ↔ rig.places slot ≠ .gone := by
  simp only [counted, Finset.mem_filter, Finset.mem_univ, true_and]

/-- What every step keeps of the workers and their count: one that has no capability in hand holds
nothing and is in no call of `set`, and one that is dropping its capability holds no more than it
has yet to release. Once the watchdog has found the count at zero it stays there. -/
structure Manned (rig : Rig plan) : Prop where
  accounted : rig.handOver.Accounted
  others : ∀ algo, algo ≠ .bc3Hash → rig.handOver.capable algo = 0
  alive : rig.alive = rig.counted.card
  bare : ∀ slot, (rig.places slot).mayClaim = false →
    rig.handOver.claim slot = .idle ∧ ∀ algo, rig.handOver.held slot algo = false
  dropped : ∀ slot rest, rig.places slot = .dropping rest →
    ∀ algo, algo ∉ rest → rig.handOver.held slot algo = false
  stopped : rig.watchdog ≠ .sleeping → rig.alive = 0

/-- At the start no worker has claimed anything, and the watchdog sleeps. -/
theorem Manned.start : (Rig.start : Rig plan).Manned where
  accounted := .start
  others := fun _ _ ↦ rfl
  alive := by simp [Rig.start, counted]
  bare := fun _ _ ↦ ⟨rfl, fun _ ↦ rfl⟩
  dropped := fun _ _ hplace ↦ nomatch hplace
  stopped := fun hawake ↦ absurd rfl hawake

namespace Manned

variable {rig : Rig plan}

/-- With none counted, every worker is gone. -/
theorem all_gone (hmanned : rig.Manned) (hzero : rig.alive = 0) (slot : Fin plan.gpus) :
    rig.places slot = .gone := by
  have hempty : rig.counted = ∅ := by
    rw [← Finset.card_eq_zero, ← Nat.cast_inj (R := ℤ), ← hmanned.alive, hzero, Nat.cast_zero]
  by_contra hplace
  have hmem : slot ∈ rig.counted := (rig.mem_counted slot).mpr hplace
  rw [hempty] at hmem
  exact absurd hmem (Finset.notMem_empty slot)

/-- A worker that is gone claims nothing: it holds nothing, its card's mask is empty, and nothing of
it is in the count. -/
theorem of_gone (hmanned : rig.Manned) {slot : Fin plan.gpus} (hgone : rig.places slot = .gone)
    (algo : PowAlgo) : rig.handOver.held slot algo = false ∧
      rig.handOver.claims slot algo = false ∧
      counts (rig.handOver.claims slot) (rig.handOver.claim slot) = false := by
  obtain ⟨hidle, hheld⟩ := hmanned.bare slot (by rw [hgone]; rfl)
  obtain ⟨-, hclaimsOnly, hstaged⟩ := hmanned.accounted.slots slot
  rw [hidle] at hstaged
  have hbc3 : rig.handOver.claims slot .bc3Hash = false := hstaged.trans (hheld .bc3Hash)
  refine ⟨hheld algo, ?_, ?_⟩
  · by_contra hclaims
    have halgo := hclaimsOnly algo (Bool.eq_true_of_not_eq_false hclaims)
    exact hclaims (halgo ▸ hbc3)
  · rw [hidle]
    exact hbc3

/-- Whoever claims is counted. -/
theorem card_le_alive (hmanned : rig.Manned) {claiming : Fin plan.gpus → Prop}
    [DecidablePred claiming] (hgone : ∀ slot, rig.places slot = .gone → ¬claiming slot) :
    ((Finset.univ.filter claiming).card : ℤ) ≤ rig.alive := by
  rw [hmanned.alive]
  have hsub : Finset.univ.filter claiming ⊆ rig.counted := by
    intro slot hslot
    refine (rig.mem_counted slot).mpr fun hplace ↦ ?_
    exact hgone slot hplace (Finset.mem_filter.mp hslot).2
  exact Nat.cast_le.mpr (Finset.card_le_card hsub)

/-- The counts are of workers that are counted. -/
theorem capable_le_alive (hmanned : rig.Manned) (algo : PowAlgo) :
    (rig.handOver.capable algo : ℤ) ≤ rig.alive := by
  by_cases hbc3 : algo = .bc3Hash
  · rw [hbc3, hmanned.accounted.counted]
    refine hmanned.card_le_alive fun slot hgone ↦ ?_
    rw [(hmanned.of_gone hgone algo).2.2]
    exact Bool.false_ne_true
  · rw [hmanned.others algo hbc3, hmanned.alive]
    exact Nat.cast_nonneg _

theorem capable_eq_zero (hmanned : rig.Manned) (hzero : rig.alive = 0) (algo : PowAlgo) :
    rig.handOver.capable algo = 0 := by
  have hle := hmanned.capable_le_alive algo
  rw [hzero] at hle
  exact Nat.cast_eq_zero.mp (le_antisymm hle (Nat.cast_nonneg _))

/-- A worker that goes from one place to another, and is counted at both, keeps the claims with
workers that are there: where it may not claim it holds nothing and is in no call, and while it
drops its capability it holds only what it has yet to release. -/
theorem move (hmanned : rig.Manned) {slot : Fin plan.gpus} {place : WorkerPlace}
    (hbefore : rig.places slot ≠ .gone) (hafter : place ≠ .gone)
    (hbare : place.mayClaim = false →
      rig.handOver.claim slot = .idle ∧ ∀ algo, rig.handOver.held slot algo = false)
    (hdropped : ∀ rest, place = .dropping rest →
      ∀ algo, algo ∉ rest → rig.handOver.held slot algo = false) :
    (rig.move slot place).Manned := by
  refine ⟨hmanned.accounted, hmanned.others, ?_, ?_, ?_, hmanned.stopped⟩
  · have hsame : (rig.move slot place).counted = rig.counted := by
      ext other
      rw [mem_counted, mem_counted]
      by_cases hother : other = slot
      · subst hother
        simp only [Rig.move, Function.update_self]
        exact iff_of_true hafter hbefore
      · simp only [Rig.move, Function.update_of_ne hother]
    rw [hsame]
    exact hmanned.alive
  · intro other hother
    by_cases hslot : other = slot
    · subst hslot
      refine hbare ?_
      simpa only [Rig.move, Function.update_self] using hother
    · refine hmanned.bare other ?_
      simpa only [Rig.move, Function.update_of_ne hslot] using hother
  · intro other rest hother
    by_cases hslot : other = slot
    · subst hslot
      refine hdropped rest ?_
      simpa only [Rig.move, Function.update_self] using hother
    · refine hmanned.dropped other rest ?_
      simpa only [Rig.move, Function.update_of_ne hslot] using hother

/-- A worker is counted down: one less is counted, and the count was not at zero. -/
theorem countDown (hmanned : rig.Manned) {slot : Fin plan.gpus}
    (hplace : rig.places slot = .closing) :
    ({ rig.move slot .gone with alive := rig.alive - 1 } : Rig plan).Manned := by
  have hmem : slot ∈ rig.counted := by
    rw [mem_counted, hplace]
    intro hgone
    cases hgone
  have herase : ({ rig.move slot .gone with alive := rig.alive - 1 } : Rig plan).counted =
      rig.counted.erase slot := by
    ext other
    rw [Finset.mem_erase, mem_counted, mem_counted]
    by_cases hother : other = slot
    · subst hother
      simp only [Rig.move, Function.update_self, ne_eq, not_true_eq_false, false_and]
    · simp only [Rig.move, Function.update_of_ne hother, ne_eq, hother, not_false_eq_true, true_and]
  refine ⟨hmanned.accounted, hmanned.others, ?_, ?_, ?_, ?_⟩
  · rw [herase, Finset.card_erase_of_mem hmem]
    have hpos : 0 < rig.counted.card := Finset.card_pos.mpr ⟨slot, hmem⟩
    have halive := hmanned.alive
    show rig.alive - 1 = _
    omega
  · intro other hother
    by_cases hslot : other = slot
    · subst hslot
      exact hmanned.bare other (by rw [hplace]; rfl)
    · refine hmanned.bare other ?_
      simpa only [Rig.move, Function.update_of_ne hslot] using hother
  · intro other rest hother
    by_cases hslot : other = slot
    · subst hslot
      simp only [Rig.move, Function.update_self] at hother
      cases hother
    · refine hmanned.dropped other rest ?_
      simpa only [Rig.move, Function.update_of_ne hslot] using hother
  · intro hawake
    have hgone := hmanned.all_gone (hmanned.stopped hawake) slot
    rw [hplace] at hgone
    cases hgone

/-- A worker that may claim calls `set`, with a release unless it is working. The claims stay with
workers that are there, since the one that calls is counted as long as it may claim. -/
theorem set (hmanned : rig.Manned) {slot : Fin plan.gpus} {algo : PowAlgo} {capable : Bool}
    {handOver : HandOver plan.gpus (Fin plan.cpuFallbackThreads)}
    (hset : rig.handOver.set slot algo capable = some handOver)
    (hplace : (rig.places slot).mayClaim = true)
    (hrelease : rig.places slot ≠ .working → capable = false) :
    ({ rig with handOver := handOver } : Rig plan).Manned := by
  obtain ⟨hothers, hcapable, hheld⟩ := HandOver.frame_of_set hset
  refine ⟨hmanned.accounted.set hset, ?_, hmanned.alive, ?_, ?_, hmanned.stopped⟩
  · rw [hcapable]
    exact hmanned.others
  · intro other hbare
    have hother : other ≠ slot := by
      rintro rfl
      exact Bool.false_ne_true (hbare.symm.trans hplace)
    obtain ⟨hheldOther, hwhere⟩ := hothers other hother
    rw [hheldOther, hwhere]
    exact hmanned.bare other hbare
  · intro other rest hrest released hreleased
    by_cases hother : other = slot
    · subst hother
      rw [hheld]
      by_cases hsame : released = algo
      · rw [hsame, Function.update_self]
        refine hrelease fun hworking ↦ ?_
        rw [hworking] at hrest
        cases hrest
      · rw [Function.update_of_ne hsame]
        exact hmanned.dropped other rest hrest released hreleased
    · rw [(hothers other hother).1]
      exact hmanned.dropped other rest hrest released hreleased

/-- A step of the hand-over that is open to its party. -/
theorem party (hmanned : rig.Manned) {event : HandOverEvent plan.gpus (Fin plan.cpuFallbackThreads)}
    (hopen : rig.Open event) {handOver : HandOver plan.gpus (Fin plan.cpuFallbackThreads)}
    (hstep : rig.handOver.step event = some handOver) :
    ({ rig with handOver := handOver } : Rig plan).Manned := by
  by_cases hset : ∃ slot algo capable, event = .set slot algo capable
  · obtain ⟨slot, algo, capable, rfl⟩ := hset
    have hworking : rig.places slot = .working := hopen
    exact hmanned.set hstep (by rw [hworking]; rfl) (fun hother ↦ absurd hworking hother)
  have haccounted := hmanned.accounted.step hstep
  by_cases hclaim : ∃ slot now, event = .claim slot now
  · obtain ⟨slot, now, rfl⟩ := hclaim
    obtain ⟨hheld, hidle, hcapable⟩ := HandOver.frame_of_claimStep hmanned.accounted hstep
    refine ⟨haccounted, ?_, hmanned.alive, ?_, ?_, hmanned.stopped⟩
    · intro algo halgo
      rw [hcapable algo halgo]
      exact hmanned.others algo halgo
    · intro other hbare
      rw [hheld]
      exact ⟨hidle other (hmanned.bare other hbare).1, (hmanned.bare other hbare).2⟩
    · rw [hheld]
      exact hmanned.dropped
  · obtain ⟨hheld, hwhere, hcapable⟩ := HandOver.frame_of_step hstep
      (fun slot algo capable hevent ↦ hset ⟨slot, algo, capable, hevent⟩)
      (fun slot now hevent ↦ hclaim ⟨slot, now, hevent⟩)
    refine ⟨haccounted, ?_, hmanned.alive, ?_, ?_, hmanned.stopped⟩
    · rw [hcapable]
      exact hmanned.others
    · rw [hheld, hwhere]
      exact hmanned.bare
    · rw [hheld]
      exact hmanned.dropped

/-- The next proof of work is released, or the capability is gone. -/
theorem release (hmanned : rig.Manned) {slot : Fin plan.gpus} {next : Rig plan}
    (hstep : rig.release slot = some next) : next.Manned := by
  unfold Rig.release at hstep
  split at hstep
  · rename_i algo rest hplace
    obtain ⟨handOver, hset, rfl⟩ := Option.map_eq_some_iff.mp hstep
    have hclaims : (rig.places slot).mayClaim = true := by
      rw [hplace]
      rfl
    have hreleased := hmanned.set hset hclaims fun _ ↦ rfl
    refine hreleased.move (by simp [hplace]) (by simp) (fun hbare ↦ nomatch hbare) ?_
    intro left hleft other hother
    rw [← WorkerPlace.dropping.inj hleft] at hother
    by_cases hsame : other = algo
    · show handOver.held slot other = false
      rw [(HandOver.frame_of_set hset).2.2, hsame, Function.update_self]
    · exact hreleased.dropped slot (algo :: rest) hplace other (by simp [hsame, hother])
  · rename_i hplace
    rw [Option.ite_none_right_eq_some] at hstep
    obtain ⟨hidle, hstep⟩ := hstep
    obtain rfl := Option.some.inj hstep
    refine hmanned.move (by rw [hplace]; simp) (by simp) (fun _ ↦ ⟨hidle, fun algo ↦ ?_⟩)
      (fun _ hother ↦ nomatch hother)
    exact hmanned.dropped slot [] hplace algo List.not_mem_nil
  · cases hstep

/-- The watchdog goes on from its sleep only where the count is at zero. -/
theorem watch (hmanned : rig.Manned) {bc3hash : Option PowFn} {watchdog : WatchdogState}
    (hstep : rig.watch bc3hash = some watchdog) :
    ({ rig with watchdog := watchdog } : Rig plan).Manned := by
  refine ⟨hmanned.accounted, hmanned.others, hmanned.alive, hmanned.bare, hmanned.dropped, ?_⟩
  intro hawake
  by_cases hsleeping : rig.watchdog = .sleeping
  · unfold Rig.watch at hstep
    rw [hsleeping] at hstep
    simp only at hstep
    split_ifs at hstep with hgpus hpos
    · exact absurd (Option.some.inj hstep).symm hawake
    · have halive := hmanned.alive
      show rig.alive = 0
      omega
  · exact hmanned.stopped hsleeping

/-- Every event leaves claims only with workers that may make them. -/
theorem step (hmanned : rig.Manned) {bc3hash : Option PowFn} {event : RigEvent plan}
    {next : Rig plan} (hstep : rig.step bc3hash event = some next) : next.Manned := by
  unfold Rig.step at hstep
  split_ifs at hstep
  cases event with
  | party event =>
    simp only [Rig.act] at hstep
    split_ifs at hstep with hopen
    obtain ⟨handOver, hparty, rfl⟩ := Option.map_eq_some_iff.mp hstep
    exact hmanned.party hopen hparty
  | schedule slot =>
    simp only [Rig.act] at hstep
    split_ifs at hstep with hplace
    obtain rfl := Option.some.inj hstep
    exact hmanned.move (by rw [hplace]; simp) (by simp)
      (fun _ ↦ hmanned.bare slot (by rw [hplace]; rfl)) (fun _ hother ↦ nomatch hother)
  | opened slot =>
    simp only [Rig.act] at hstep
    split_ifs at hstep with hplace
    obtain rfl := Option.some.inj hstep
    exact hmanned.move (by rw [hplace]; simp) (by simp) (fun hbare ↦ nomatch hbare)
      (fun _ hother ↦ nomatch hother)
  | failed slot =>
    simp only [Rig.act] at hstep
    split_ifs at hstep with hplace
    obtain rfl := Option.some.inj hstep
    exact hmanned.move (by rw [hplace]; simp) (by simp)
      (fun _ ↦ hmanned.bare slot (by rw [hplace]; rfl)) (fun _ hother ↦ nomatch hother)
  | leave slot =>
    simp only [Rig.act] at hstep
    split_ifs at hstep with hplace
    obtain rfl := Option.some.inj hstep
    refine hmanned.move (by rw [hplace.1]; simp) (by simp) (fun hbare ↦ nomatch hbare)
      (fun rest hrest algo halgo ↦ ?_)
    rw [← WorkerPlace.dropping.inj hrest] at halgo
    exact absurd (List.mem_of_getElem? (PowAlgo.all_index algo)) halgo
  | release slot => exact hmanned.release hstep
  | countDown slot =>
    simp only [Rig.act] at hstep
    split_ifs at hstep with hplace
    obtain rfl := Option.some.inj hstep
    exact hmanned.countDown hplace
  | built result =>
    simp only [Rig.act] at hstep
    split_ifs at hstep
    obtain rfl := Option.some.inj hstep
    exact ⟨hmanned.accounted, hmanned.others, hmanned.alive, hmanned.bare, hmanned.dropped,
      hmanned.stopped⟩
  | watch =>
    obtain ⟨watchdog, hwatch, rfl⟩ := Option.map_eq_some_iff.mp hstep
    exact hmanned.watch hwatch

end Manned

/-! ### What the watchdog has found -/

/-- What is so wherever the watchdog has got to: no claim was counted when it read the counts, so it
takes the GPUs not to mine, and it gives up only on a proof of work that the CPU does not take
either, or for want of any CPU thread. -/
def Found (plan : MiningPlan) (bc3hash : Option PowFn) (ready : Readiness) : WatchdogState → Prop
  | .sleeping | .readingAlgo | .readingCapable _ => True
  | .readingStalled _ capable _ _ | .readingClaims _ capable _ _ => capable = 0
  | .readingSupport _ gpu => gpu = false
  | .exiting (some algo) | .exited (some algo) =>
    (plan.devicesFor (cpuMaySupport bc3hash ready algo) false).cpu = false
  | .exiting none | .exited none => plan.cpuThreads + plan.cpuFallbackThreads = 0

/-- The CPU is not found able once it was not. -/
theorem cpuMaySupport_built (bc3hash : Option PowFn) (result : Except String Unit)
    (algo : PowAlgo) (hcannot : cpuMaySupport bc3hash none algo = false) :
    cpuMaySupport bc3hash (some result) algo = false := by
  cases algo with
  | sha256d => rfl
  | sha3t => rfl
  | bc3Hash =>
    cases bc3hash with
    | none => rfl
    | some pow => cases hcannot

/-- What the watchdog has found stays true when the result of the build comes. -/
theorem Found.built {bc3hash : Option PowFn} {state : WatchdogState}
    (hfound : Found plan bc3hash none state) (result : Except String Unit) :
    Found plan bc3hash (some result) state := by
  have hcpu : ∀ algo, (plan.devicesFor (cpuMaySupport bc3hash none algo) false).cpu = false →
      (plan.devicesFor (cpuMaySupport bc3hash (some result) algo) false).cpu = false := by
    intro algo hnone
    by_contra htakes
    obtain ⟨hmay, hrole⟩ := (plan.devicesFor_cpu_iff _ _).mp (Bool.eq_true_of_not_eq_false htakes)
    by_cases hbefore : cpuMaySupport bc3hash none algo = true
    · rw [(plan.devicesFor_cpu_iff _ _).mpr ⟨hbefore, hrole⟩] at hnone
      cases hnone
    · rw [cpuMaySupport_built bc3hash result algo (Bool.eq_false_of_not_eq_true hbefore)] at hmay
      cases hmay
  cases state with
  | exiting algo =>
    cases algo with
    | none => exact hfound
    | some algo => exact hcpu algo hfound
  | exited algo =>
    cases algo with
    | none => exact hfound
    | some algo => exact hcpu algo hfound
  | _ => exact hfound

/-- A read of the watchdog: with nobody counted, the counts of the claims are zero. -/
theorem Found.watch {rig : Rig plan} {bc3hash : Option PowFn} {next : WatchdogState}
    (hfound : Found plan bc3hash rig.ready rig.watchdog) (hmanned : rig.Manned)
    (hstep : rig.watch bc3hash = some next) : Found plan bc3hash rig.ready next := by
  unfold Rig.watch at hstep
  split at hstep
  · split_ifs at hstep
    · obtain rfl := Option.some.inj hstep
      trivial
    · obtain rfl := Option.some.inj hstep
      trivial
  · split at hstep
    · obtain rfl := Option.some.inj hstep
      trivial
    · split_ifs at hstep with hthreads
      · obtain rfl := Option.some.inj hstep
        trivial
      · obtain rfl := Option.some.inj hstep
        exact Nat.eq_zero_of_not_pos hthreads
  · rename_i algo hstate
    obtain rfl := Option.some.inj hstep
    exact hmanned.capable_eq_zero (hmanned.stopped (by rw [hstate]; simp)) algo
  · rename_i algo capable slot stalledClaims hstate
    rw [hstate] at hfound
    split_ifs at hstep
    · obtain rfl := Option.some.inj hstep
      exact hfound
    · obtain rfl := Option.some.inj hstep
      exact hfound
    · obtain rfl := Option.some.inj hstep
      show decide (stalledClaims < capable) = false
      rw [show capable = 0 from hfound]
      exact decide_eq_false (Nat.not_lt_zero _)
  · rename_i algo capable slot stalledClaims hstate
    rw [hstate] at hfound
    split at hstep
    · obtain rfl := Option.some.inj hstep
      exact hfound
    · cases hstep
  · rename_i algo gpu hstate
    rw [hstate] at hfound
    obtain rfl : gpu = false := hfound
    split_ifs at hstep with hcpu
    · obtain rfl := Option.some.inj hstep
      trivial
    · obtain rfl := Option.some.inj hstep
      exact Bool.eq_false_of_not_eq_true hcpu
  · rename_i algo hstate
    rw [hstate] at hfound
    obtain rfl := Option.some.inj hstep
    cases algo with
    | none => exact hfound
    | some algo => exact hfound
  · cases hstep

/-- Every step but a read of the watchdog leaves the watchdog where it is; only the end of the CPU
build changes what is known of it. -/
theorem act_frame {rig next : Rig plan} {bc3hash : Option PowFn} {event : RigEvent plan}
    (hstep : rig.act bc3hash event = some next) (hwatch : event ≠ .watch) :
    next.watchdog = rig.watchdog ∧
      (next.ready = rig.ready ∨ rig.ready = none ∧ ∃ result, next.ready = some result) := by
  cases event with
  | watch => exact absurd rfl hwatch
  | built result =>
    simp only [act] at hstep
    split_ifs at hstep with hready
    obtain rfl := Option.some.inj hstep
    exact ⟨rfl, .inr ⟨hready, result, rfl⟩⟩
  | party event =>
    simp only [act] at hstep
    split_ifs at hstep
    obtain ⟨handOver, -, rfl⟩ := Option.map_eq_some_iff.mp hstep
    exact ⟨rfl, .inl rfl⟩
  | release slot =>
    simp only [act, release] at hstep
    split at hstep
    · obtain ⟨handOver, -, rfl⟩ := Option.map_eq_some_iff.mp hstep
      exact ⟨rfl, .inl rfl⟩
    · rw [Option.ite_none_right_eq_some] at hstep
      obtain rfl := Option.some.inj hstep.2
      exact ⟨rfl, .inl rfl⟩
    · cases hstep
  | _ =>
    simp only [act] at hstep
    split_ifs at hstep
    obtain rfl := Option.some.inj hstep
    exact ⟨rfl, .inl rfl⟩

/-- What the watchdog has found stays true while the rig goes on. -/
theorem Found.act {rig next : Rig plan} {bc3hash : Option PowFn} {event : RigEvent plan}
    (hfound : Found plan bc3hash rig.ready rig.watchdog) (hmanned : rig.Manned)
    (hstep : rig.act bc3hash event = some next) : Found plan bc3hash next.ready next.watchdog := by
  by_cases hwatch : event = .watch
  · subst hwatch
    obtain ⟨watchdog, hread, rfl⟩ := Option.map_eq_some_iff.mp hstep
    exact hfound.watch hmanned hread
  · obtain ⟨hwatchdog, hsame | ⟨hnone, result, hresult⟩⟩ := act_frame hstep hwatch
    · rw [hwatchdog, hsame]
      exact hfound
    · rw [hwatchdog, hresult]
      rw [hnone] at hfound
      exact hfound.built result

/-- The state in which the watchdog read the current proof of work, on the way to this one. -/
def AskedIn (bc3hash : Option PowFn) (algo : Option PowAlgo) (rig : Rig plan) : Prop :=
  ∃ asked : Rig plan, PartialMachine.Reachable (step bc3hash) Rig.start asked ∧
    PartialMachine.Reachable (step bc3hash) asked rig ∧ asked.watchdog = .readingAlgo ∧
    asked.handOver.currentAlgo = algo

/-- What the watchdog goes by, it has read in this pass or goes on with from the last state. -/
theorem asked_of_watch {rig : Rig plan} {bc3hash : Option PowFn} {next : WatchdogState}
    (hstep : rig.watch bc3hash = some next) {algo : Option PowAlgo}
    (hasked : next.asked = some algo) :
    rig.watchdog.asked = some algo ∨
      (rig.watchdog = .readingAlgo ∧ rig.handOver.currentAlgo = algo) := by
  unfold Rig.watch at hstep
  split at hstep
  · split_ifs at hstep
    · obtain rfl := Option.some.inj hstep
      cases hasked
    · obtain rfl := Option.some.inj hstep
      cases hasked
  · rename_i hstate
    split at hstep
    · rename_i current hcurrent
      obtain rfl := Option.some.inj hstep
      exact .inr ⟨hstate, hcurrent.trans (Option.some.inj hasked)⟩
    · rename_i hcurrent
      split_ifs at hstep
      · obtain rfl := Option.some.inj hstep
        cases hasked
      · obtain rfl := Option.some.inj hstep
        exact .inr ⟨hstate, hcurrent.trans (Option.some.inj hasked)⟩
  · rename_i current hstate
    obtain rfl := Option.some.inj hstep
    exact .inl (hstate ▸ hasked)
  · rename_i current capable slot stalledClaims hstate
    rw [hstate]
    split_ifs at hstep
    · obtain rfl := Option.some.inj hstep
      exact .inl hasked
    · obtain rfl := Option.some.inj hstep
      exact .inl hasked
    · obtain rfl := Option.some.inj hstep
      exact .inl hasked
  · rename_i current capable slot stalledClaims hstate
    rw [hstate]
    split at hstep
    · obtain rfl := Option.some.inj hstep
      exact .inl hasked
    · cases hstep
  · rename_i current gpu hstate
    rw [hstate]
    split_ifs at hstep
    · obtain rfl := Option.some.inj hstep
      cases hasked
    · obtain rfl := Option.some.inj hstep
      exact .inl hasked
  · rename_i current hstate
    obtain rfl := Option.some.inj hstep
    exact .inl (hstate ▸ hasked)
  · cases hstep

/-- What holds in every reachable state. -/
structure Sound (bc3hash : Option PowFn) (rig : Rig plan) : Prop where
  reachable : PartialMachine.Reachable (step bc3hash) Rig.start rig
  manned : rig.Manned
  found : Found plan bc3hash rig.ready rig.watchdog
  asked : ∀ algo, rig.watchdog.asked = some algo → AskedIn bc3hash algo rig

/-- Every event keeps the rig sound. -/
theorem Sound.step {rig next : Rig plan} {bc3hash : Option PowFn} {event : RigEvent plan}
    (hsound : Sound bc3hash rig) (hstep : rig.step bc3hash event = some next) :
    Sound bc3hash next := by
  have hact := hstep
  unfold Rig.step at hact
  split_ifs at hact
  refine ⟨hsound.reachable.next _ hstep, hsound.manned.step hstep,
    hsound.found.act hsound.manned hact, ?_⟩
  intro algo hasked
  have hlater : AskedIn bc3hash algo rig → AskedIn bc3hash algo next := by
    rintro ⟨asked, hreach, hrig, hreading, hcurrent⟩
    exact ⟨asked, hreach, hrig.next _ hstep, hreading, hcurrent⟩
  by_cases hwatch : event = .watch
  · subst hwatch
    obtain ⟨watchdog, hread, rfl⟩ := Option.map_eq_some_iff.mp hact
    rcases asked_of_watch hread hasked with hbefore | ⟨hreading, hcurrent⟩
    · exact hlater (hsound.asked algo hbefore)
    · exact hlater ⟨rig, hsound.reachable, .refl _ rig, hreading, hcurrent⟩
  · rw [(act_frame hact hwatch).1] at hasked
    exact hlater (hsound.asked algo hasked)

theorem Sound.of_reachable {rig : Rig plan} {bc3hash : Option PowFn}
    (hreach : PartialMachine.Reachable (Rig.step bc3hash) Rig.start rig) : Sound bc3hash rig := by
  refine PartialMachine.invariant_of_reachable
    (fun _ _ _ hstep hsound ↦ hsound.step hstep) hreach ?_
  exact ⟨.refl _ _, .start, trivial, fun _ hasked ↦ nomatch hasked⟩

/-- Where nobody is counted the GPUs mine nothing. -/
theorem gpusMine_eq_false {rig : Rig plan} (hmanned : rig.Manned) (hzero : rig.alive = 0)
    (algo : PowAlgo) : rig.handOver.gpusMine algo = false := by
  unfold HandOver.gpusMine
  rw [hmanned.capable_eq_zero hzero algo]
  exact decide_eq_false (Nat.not_lt_zero _)

/-- In every state that any run of the workers reaches, no more of them claim a proof of work than
are counted, by what they hold, by the masks of their cards and by the count of the claims, and the
count of the workers is not below zero. Wherever it is zero, and so wherever the watchdog has read
it as zero, no claim is left. The process ends only where no CPU thread, stand-ins included, takes
the proof of work that was current when the watchdog asked for it; where there was none yet, only
without any CPU thread. -/
theorem watchdog_exits_only_where_nothing_mines (bc3hash : Option PowFn) {rig : Rig plan}
    (hreach : PartialMachine.Reachable (Rig.step bc3hash) Rig.start rig) :
    0 ≤ rig.alive ∧
    (∀ algo,
      ((Finset.univ.filter fun slot ↦ rig.handOver.held slot algo = true).card : ℤ) ≤ rig.alive ∧
      ((Finset.univ.filter fun slot ↦ rig.handOver.claims slot algo = true).card : ℤ) ≤ rig.alive ∧
      (rig.handOver.capable algo : ℤ) ≤ rig.alive) ∧
    (rig.watchdog ≠ .sleeping → rig.alive = 0) ∧
    (rig.alive = 0 → ∀ algo, rig.handOver.capable algo = 0 ∧
      ∀ slot, rig.handOver.held slot algo = false ∧ rig.handOver.claims slot algo = false) ∧
    (∀ algo, rig.watchdog = .exited (some algo) →
      AskedIn bc3hash (some algo) rig ∧ ¬CpuTakes bc3hash rig algo) ∧
    (rig.watchdog = .exited none → AskedIn bc3hash none rig ∧ plan.roles = []) := by
  obtain ⟨-, hmanned, hfound, hasked⟩ := Sound.of_reachable hreach
  refine ⟨?_, fun algo ↦ ⟨?_, ?_, hmanned.capable_le_alive algo⟩, hmanned.stopped, ?_, ?_, ?_⟩
  · rw [hmanned.alive]
    exact Nat.cast_nonneg _
  · refine hmanned.card_le_alive fun slot hgone ↦ ?_
    rw [(hmanned.of_gone hgone algo).1]
    exact Bool.false_ne_true
  · refine hmanned.card_le_alive fun slot hgone ↦ ?_
    rw [(hmanned.of_gone hgone algo).2.1]
    exact Bool.false_ne_true
  · intro hzero algo
    refine ⟨hmanned.capable_eq_zero hzero algo, fun slot ↦ ?_⟩
    have hgone := hmanned.of_gone (hmanned.all_gone hzero slot) algo
    exact ⟨hgone.1, hgone.2.1⟩
  · intro algo hexited
    refine ⟨hasked (some algo) (by rw [hexited]; rfl), ?_⟩
    rintro ⟨hmay, hrole⟩
    have hzero : rig.alive = 0 := hmanned.stopped (by rw [hexited]; simp)
    rw [gpusMine_eq_false hmanned hzero algo] at hrole
    rw [hexited] at hfound
    have hcpu := (plan.devicesFor_cpu_iff _ false).mpr ⟨hmay, hrole⟩
    exact Bool.false_ne_true ((show _ = false from hfound).symm.trans hcpu)
  · intro hexited
    refine ⟨hasked none (by rw [hexited]; rfl), ?_⟩
    rw [hexited] at hfound
    obtain ⟨hthreads, hfallback⟩ := Nat.add_eq_zero_iff.mp (show _ = 0 from hfound)
    unfold MiningPlan.roles
    rw [hthreads, hfallback]
    rfl

/-- One GPU, and one CPU thread for every job. -/
def smallPlan : MiningPlan := ⟨1, 1, 0⟩

/-- There is a card. -/
local instance neZeroSmallPlan : NeZero smallPlan.gpus := ⟨Nat.one_ne_zero⟩

/-- The only card cannot be opened and the CPU build is ready; the watchdog finds that nobody mines
the pool's SHA3-256t job. -/
def unopenedCard (old : MinerJob) : List (RigEvent smallPlan) :=
  [.schedule 0, .failed 0, .countDown 0, .built (.ok ()),
    .party (.publish old), .party .notePow, .party (.post 1), .party .notify,
    .watch, .watch, .watch, .watch, .watch, .watch]

/-- The only card is opened and claims BC3Hash. -/
def cardClaims : List (RigEvent smallPlan) :=
  [.schedule 0, .opened 0, .party (.set 0 .bc3Hash true), .party (.claim 0 1),
    .party (.claim 0 1), .party (.claim 0 1), .party (.claim 0 1)]

/-- The worker of that card returns: every proof of work is released, and the worker counted down.
With the CPU build ready the watchdog finds that nobody mines the pool's SHA3-256t job. -/
def cardCloses (old : MinerJob) : List (RigEvent smallPlan) :=
  [.leave 0, .release 0, .release 0, .release 0, .party (.claim 0 2), .party (.claim 0 2),
    .party (.claim 0 2), .release 0, .countDown 0, .built (.ok ()), .party (.publish old),
    .party .notePow, .party (.post 1), .party .notify] ++ List.replicate 7 .watch

/-- A BC3Hash job arrives before the watchdog ends the process. -/
def jobBeforeTheExit (old new : MinerJob) : List (RigEvent smallPlan) :=
  unopenedCard old ++
    [.party (.publish new), .party .notePow, .party (.post 2), .party .notify, .watch]

/-- A job of the given proof of work. -/
private def jobOf (algo : PowAlgo) : MinerJob :=
  { bareJob 0 (Vector.replicate 32 0) with algo := algo }

/-- A card opens and claims, is counted as one that is capable, releases its claim again and ends.
Only after that the watchdog finds nobody mining and the process ends: when it does, no worker is
left and no claim with it, as the general result has it. -/
theorem closedCard_exits : ∃ mining rig : Rig smallPlan,
    PartialMachine.Reachable (Rig.step (some fun _ ↦ Vector.replicate 32 0)) Rig.start mining ∧
      mining.handOver.capable .bc3Hash = 1 ∧ ((1 : ℕ) : ℤ) ≤ mining.alive ∧
      PartialMachine.Reachable (Rig.step (some fun _ ↦ Vector.replicate 32 0)) mining rig ∧
      rig.watchdog = .exited (some .sha3t) ∧ 0 ≤ rig.alive ∧ rig.handOver.capable .bc3Hash = 0 ∧
      ¬CpuTakes (some fun _ ↦ Vector.replicate 32 0) rig .sha3t := by
  obtain ⟨mining, hmining⟩ : ∃ mining, PartialMachine.run
      (Rig.step (some fun _ ↦ Vector.replicate 32 0)) Rig.start cardClaims = some mining := ⟨_, rfl⟩
  obtain ⟨rig, hrun⟩ : ∃ rig, PartialMachine.run
      (Rig.step (some fun _ ↦ Vector.replicate 32 0)) mining
        (cardCloses (jobOf .sha3t)) = some rig := by
    rw [← Option.some.inj hmining]
    exact ⟨_, rfl⟩
  have hclaimed : mining.handOver.capable .bc3Hash = 1 := by
    rw [← Option.some.inj hmining]
    rfl
  have hexited : rig.watchdog = .exited (some .sha3t) := by
    rw [← Option.some.inj hmining] at hrun
    rw [← Option.some.inj hrun]
    rfl
  have hwhole : PartialMachine.run (Rig.step (some fun _ ↦ Vector.replicate 32 0)) Rig.start
      (cardClaims ++ cardCloses (jobOf .sha3t)) = some rig :=
    (PartialMachine.run_append_eq_some _).mpr ⟨mining, hmining, hrun⟩
  obtain ⟨-, hcounted, -⟩ := watchdog_exits_only_where_nothing_mines _ ⟨_, hmining⟩
  obtain ⟨halive, -, hstopped, hzero, htakes, -⟩ :=
    watchdog_exits_only_where_nothing_mines _ ⟨_, hwhole⟩
  have hnone := hzero (hstopped (by rw [hexited]; simp)) .bc3Hash
  refine ⟨mining, rig, ⟨_, hmining⟩, hclaimed, ?_, ⟨_, hrun⟩, hexited, halive, hnone.1,
    (htakes .sha3t hexited).2⟩
  rw [← hclaimed]
  exact (hcounted .bc3Hash).2.2

/-- The only card cannot be opened, and the watchdog finds that nobody mines the SHA3-256t job. A
BC3Hash job, which the CPU thread takes, comes before it ends the process, and the process ends all
the same: the watchdog acts on what it has read. -/
theorem jobBeforeTheExit_is_untaken : ∃ rig : Rig smallPlan,
    PartialMachine.run (Rig.step (some fun _ ↦ Vector.replicate 32 0)) Rig.start
      (jobBeforeTheExit (jobOf .sha3t) (jobOf .bc3Hash)) = some rig ∧
      rig.watchdog = .exited (some .sha3t) ∧ rig.handOver.currentAlgo = some .bc3Hash ∧
      CpuTakes (some fun _ ↦ Vector.replicate 32 0) rig .bc3Hash := by
  obtain ⟨rig, hrun⟩ : ∃ rig, PartialMachine.run
      (Rig.step (some fun _ ↦ Vector.replicate 32 0)) Rig.start
        (jobBeforeTheExit (jobOf .sha3t) (jobOf .bc3Hash)) = some rig := ⟨_, rfl⟩
  have hrig := Option.some.inj hrun
  refine ⟨rig, hrun, ?_, ?_, ?_, .all, ?_, rfl⟩
  · rw [← hrig]
    rfl
  · rw [← hrig]
    rfl
  · rw [← hrig]
    rfl
  · exact List.mem_singleton_self _

end Rig

end Bc3Miner.Sharing
