import Bc3Miner.Consensus.ProofOfWork
import Bc3Miner.Device.WindowTuning

/-!
# The job loop of a GPU worker

`run_gpu_worker` of `src/gpu_worker.rs`, from one job to the next: the switches its tuning asks for
(`Card.makeSwitches`), the kernel made ready (`Card.prepareBc3`), the tuning begun, the job mined or
sat out, and the device opened again when it is gone. What mining does is left to the launches that
come back from it; how much of the search space they cover is not looked at here.

Whether a kernel loads is the environment's: `Env.loads` answers every attempt. The two paths that
load one treat a failure differently. A switch that fails takes the card back to 16, while
`prepareBc3` leaves it without a kernel.

The loop is a partial machine over `Met`, what the worker meets in one turn: a job, what happens
around its kernel, and how its mining went. Its outcomes, one for each job, are recorded in order.

Not modelled here: the search itself, the shares, and the texts that are printed.
-/

set_option autoImplicit false
set_option relaxedAutoImplicit false

namespace Bc3Miner.Device

open Foundations Consensus

/-! ### The card and what it answers -/

/-- What a worker cannot decide: whether the CPU reference can be used, the CPU's hash, and whether
the kernel of a window loads and passes its self-test at an attempt. -/
structure Env where
  cpuUnavailable : Option String
  bc3hash : PowFn
  loads : (attempt window : ℕ) → Bool

/-- What became of a job: the window of the card's kernel once it was handled, and whether it is
mined. -/
structure Outcome where
  algo : PowAlgo
  window : Option ℕ
  mined : Bool
  deriving DecidableEq, Repr

/-- `gpu_slot_bc3` after a failure. -/
def bc3SlotFailed : ℕ := 1

/-- Reopenings in a row without a launch that came back. -/
def maxReopens : ℕ := 5

/-- A worker's card between two jobs: its tuning, the window of its kernel, the slot as others read
it, the window that last failed, whether it claims BC3Hash, the loads so far and the jobs so far. -/
structure Card where
  tune : Tune
  window : Option ℕ
  slotBc3 : ℕ
  failed : Option ℕ
  claims : Bool
  attempts : ℕ
  reopens : ℕ
  stopped : Bool
  outcomes : List Outcome
  deriving DecidableEq, Repr

namespace Card

variable (env : Env)

/-- A card that was just opened. -/
def opened (slot : ℕ) : Card where
  tune := Tune.new slot
  window := none
  slotBc3 := 0
  failed := none
  claims := kernelSupports .bc3Hash
  attempts := 0
  reopens := 0
  stopped := false
  outcomes := []

/-- The backend's `prepare_bc3hash`: the old kernel goes before the new one is loaded. -/
def load (card : Card) (window : ℕ) : Bool × Card :=
  let ok := env.loads card.attempts window
  (ok, { card with window := if ok then some window else none, attempts := card.attempts + 1 })

/-- Switch the card to a window for its tuning. -/
def switchBc3 (card : Card) (window : ℕ) : Bool × Card :=
  if card.window = some window then (true, card)
  else
    let (ok, card) := card.load env window
    (ok, { card with slotBc3 := if ok then window else 0 })

/-- One round of the main loop's `while let`: make the switch it took, and tell the tuning. -/
def switchOnce (card : Card) (window : ℕ) : Card :=
  let (ok, switched) := switchBc3 env
    { card with tune := { card.tune with switchTo := none } } window
  { switched with tune := (switched.tune.switched window ok).1 }

/-- Make the switches the tuning asks for, one after the other, for at most `fuel` rounds. -/
def makeSwitches : ℕ → Card → Card
  | 0, card => card
  | fuel + 1, card =>
    match card.tune.switchTo with
    | none => card
    | some window => makeSwitches fuel (card.switchOnce env window)

/-- Rounds that are always enough: a switch that fails makes way at most once for every smaller
window the tuner has left. -/
def rounds (card : Card) : ℕ :=
  match card.tune.tuner with
  | none => 1
  | some tuner => tuner.fallback.length + 1

/-- Have the kernel at the window wanted before a BC3Hash job, or know that the card cannot. -/
def prepareBc3 (card : Card) (want : ℕ) : Card :=
  if card.window = some want then { card with slotBc3 := want }
  else if card.failed = some want then { card with slotBc3 := bc3SlotFailed }
  else
    let (ok, card) := if env.cpuUnavailable.isSome then (false, card) else card.load env want
    if ok then { card with failed := none, slotBc3 := want, claims := true }
    else { card with failed := some want, slotBc3 := bc3SlotFailed, claims := false }

/-- The card can hash the algorithm right now. -/
def supports (card : Card) (algo : PowAlgo) : Bool :=
  kernelSupports algo && card.window.isSome && (algo.hashFn (some env.bc3hash)).isSome

/-- The part of the loop before the job is taken up. -/
def prepare (card : Card) (algo : PowAlgo) (around : Surroundings) : Card :=
  if algo = .bc3Hash ∧ kernelSupports .bc3Hash = true then
    let card := card.makeSwitches env card.rounds
    let card := card.prepareBc3 env (card.tune.wanted none)
    { card with
      tune := (card.tune.begin { around with byHand := false, cardWindow := card.window }).1 }
  else card

/-- A launch that came back: whether the compile ahead was still running, its hashes, its time. -/
structure Returned where
  compiling : Bool
  hashes : ℕ
  busy : ℕ
  deriving DecidableEq, Repr

/-- The launches of a job come back, and the tuning hears of each. -/
def launched (card : Card) (returned : List Returned) : Card :=
  match card.window with
  | none => card
  | some window =>
    let hear (tune : Tune) (launch : Returned) : Tune :=
      (tune.launched launch.compiling window launch.hashes launch.busy).1
    { card with tune := returned.foldl hear card.tune }

/-- How a job ended: a new job, every extranonce2 searched, or the device gone and opened again or
not. -/
inductive Ending
  | changed
  | exhausted
  | gone (opensAgain : Bool)
  deriving DecidableEq, Repr

/-- The device stopped answering. Its kernel went with it; what is known of its windows stays. -/
def reopen (card : Card) (opensAgain : Bool) : Card :=
  let card := { card with reopens := card.reopens + 1 }
  if maxReopens < card.reopens then { card with stopped := true }
  else if opensAgain then
    { card with
      window := none
      failed := none
      slotBc3 := 0
      claims := kernelSupports .bc3Hash && env.cpuUnavailable.isNone }
  else { card with window := none, claims := false, stopped := true }

def finish (card : Card) : Ending → Card
  | .changed | .exhausted => card
  | .gone opensAgain => card.reopen env opensAgain

/-- What a worker meets: a job, what there is to read when its tuning begins, the launches that come
back from the job, and how it ends. -/
structure Met where
  algo : PowAlgo
  around : Surroundings
  returned : List Returned
  ending : Ending

/-- The job is prepared, and with it decided whether this card mines it. -/
def handle (card : Card) (met : Met) : Card :=
  let card := card.prepare env met.algo met.around
  { card with outcomes := ⟨met.algo, card.window, card.supports env met.algo⟩ :: card.outcomes }

/-- The job is mined until it ends. Launches that came back give the card its reopenings back. -/
def mineJob (card : Card) (met : Met) : Card :=
  let card := card.launched met.returned
  let reopens := if met.returned = [] then card.reopens else 0
  { card with reopens := reopens }.finish env met.ending

/-- One turn of the job loop. -/
def step (card : Card) (met : Met) : Option Card :=
  if card.stopped then none
  else
    let card := card.handle env met
    some (if card.supports env met.algo then card.mineJob env met else card)

end Card

/-! ### Where a switch leads -/

/-- A tuner that goes somewhere: no window it has in mind is the start window. -/
structure Tuner.Aims (tuner : Tuner) : Prop where
  target : tuner.target ≠ startWindow
  fallback : startWindow ∉ tuner.fallback
  recalled : ∀ window, tuner.phase = .recalled window → window ≠ startWindow

namespace Tuner

/-- A launch does not change what a tuner aims for. -/
theorem Aims.launched {tuner : Tuner} (haims : tuner.Aims) (window hashes busy : ℕ) :
    (tuner.launched window hashes busy).1.Aims := by
  rcases tuner.launched_cases window hashes busy with
    ⟨phase, hanswer, hadvances⟩ | ⟨-, -, before, hanswer⟩ |
    ⟨-, -, -, before, tried, -, hanswer⟩ | ⟨-, -, -, choice, remember, hjudged⟩
  · rw [hanswer]
    refine ⟨haims.target, haims.fallback, fun remembered hphase ↦ ?_⟩
    obtain rfl : phase = .recalled remembered := hphase
    exact haims.recalled remembered (hadvances.straight rfl).symm
  · rw [hanswer]
    exact ⟨haims.target, haims.fallback, fun _ hphase ↦ nomatch hphase⟩
  · rw [hanswer]
    exact ⟨haims.target, haims.fallback, fun _ hphase ↦ nomatch hphase⟩
  · rcases hjudged with ⟨-, hanswer⟩ | ⟨-, hanswer⟩
    · rw [hanswer]
      exact ⟨haims.target, haims.fallback, fun _ hphase ↦ nomatch hphase⟩
    · rw [hanswer]
      exact ⟨haims.target, haims.fallback, fun _ hphase ↦ nomatch hphase⟩

theorem Aims.readied {tuner : Tuner} (haims : tuner.Aims) : tuner.readied.1.Aims :=
  ⟨haims.target, haims.fallback, haims.recalled⟩

/-- The step after a launch does not change what a tuner aims for, whether the compile is over or
not. -/
theorem Aims.afterLaunch {tuner : Tuner} (haims : tuner.Aims) (isOver : Bool)
    (window hashes busy : ℕ) : (tuner.afterLaunch isOver window hashes busy).1.Aims := by
  unfold Tuner.afterLaunch
  split_ifs
  · exact haims.readied.launched window hashes busy
  · exact haims.readied
  · exact haims.launched window hashes busy

/-- Whatever switch is reported, in whatever phase, one of three things happens: the tuner waits and
is as before; it is done with some choice; or the switch failed, a smaller window is left, and that
becomes the target and is switched to. -/
theorem switched_shape (tuner : Tuner) (window : ℕ) (ok : Bool) :
    tuner.switched window ok = (tuner, .wait) ∨
    (∃ choice remember,
      tuner.switched window ok = ({ tuner with phase := .finished }, .done choice remember)) ∨
    (ok = false ∧ ∃ before next rest, tuner.fallback = next :: rest ∧ tuner.switched window ok =
      ({ tuner with target := next, fallback := rest, phase := .settle before 0 },
        .switch next)) := by
  have hgivenUp : ∃ choice remember,
      tuner.giveUp window = ({ tuner with phase := .finished }, .done choice remember) := by
    obtain ⟨choice, remember, -, hanswer⟩ := tuner.giveUp_eq window
    exact ⟨choice, remember, hanswer⟩
  unfold switched
  split
  · split_ifs
    · exact .inr (.inl ⟨_, _, rfl⟩)
    · exact .inl rfl
  · exact .inr (.inl ⟨_, _, rfl⟩)
  · exact .inl rfl
  · split
    · rename_i hfallback
      split_ifs
      · exact .inr (.inr ⟨rfl, _, _, _, hfallback, rfl⟩)
      · exact .inr (.inl hgivenUp)
    · exact .inr (.inl hgivenUp)
  · exact .inr (.inl hgivenUp)

/-- The outcome of a switch does not change what a tuner aims for. -/
theorem Aims.switched {tuner : Tuner} (haims : tuner.Aims) (window : ℕ) (ok : Bool) :
    (tuner.switched window ok).1.Aims := by
  rcases tuner.switched_shape window ok with
    hanswer | ⟨choice, remember, hanswer⟩ | ⟨-, before, next, rest, hfallback, hanswer⟩
  · rw [hanswer]
    exact haims
  · rw [hanswer]
    exact ⟨haims.target, haims.fallback, fun _ hphase ↦ nomatch hphase⟩
  · have hnot := haims.fallback
    rw [hfallback, List.mem_cons, not_or] at hnot
    rw [hanswer]
    exact ⟨fun hnext ↦ hnot.1 hnext.symm, hnot.2, fun _ hphase ↦ nomatch hphase⟩

/-- A switch that fails makes way only by taking a smaller window from those left. -/
theorem switched_switch {tuner : Tuner} {window next : ℕ} {ok : Bool}
    (hswitch : (tuner.switched window ok).2 = .switch next) :
    ok = false ∧ (tuner.switched window ok).1.fallback.length + 1 = tuner.fallback.length := by
  rcases tuner.switched_shape window ok with
    hanswer | ⟨choice, remember, hanswer⟩ | ⟨hok, before, smaller, rest, hfallback, hanswer⟩
  · rw [hanswer] at hswitch
    cases hswitch
  · rw [hanswer] at hswitch
    cases hswitch
  · rw [hanswer, hfallback]
    exact ⟨hok, rfl⟩

/-- A launch never asks for a switch to the window it came from. -/
theorem Aims.switch_ne {tuner : Tuner} (haims : tuner.Aims) {window hashes busy next : ℕ}
    (hswitch : (tuner.launched window hashes busy).2 = .switch next) : next ≠ window := by
  rcases tuner.launched_cases window hashes busy with
    ⟨phase, hanswer, hadvances⟩ | ⟨-, hwindow, before, hanswer⟩ |
    ⟨-, hwindow, -, before, tried, -, hanswer⟩ | ⟨-, hwindow, -, choice, remember, hjudged⟩
  · rw [hanswer] at hswitch
    cases hswitch
  · rw [hanswer] at hswitch
    obtain rfl := Action.switch.inj hswitch
    exact hwindow ▸ haims.target
  · rw [hanswer] at hswitch
    obtain rfl := Action.switch.inj hswitch
    exact hwindow ▸ haims.target.symm
  · rcases hjudged with ⟨-, hanswer⟩ | ⟨-, hanswer⟩
    · rw [hanswer] at hswitch
      obtain rfl := Action.switch.inj hswitch
      exact hwindow ▸ haims.target
    · rw [hanswer] at hswitch
      cases hswitch

end Tuner

namespace Tune

/-- What an action changes of the window wanted and the switch to be made. -/
theorem act_cases (tune : Tune) (action : Action) :
    ((tune.act action).1.want = tune.want ∧ (tune.act action).1.switchTo = tune.switchTo ∧
      ∀ window, action ≠ .switch window) ∨
    ∃ window, action = .switch window ∧ (tune.act action).1.want = window ∧
      (tune.act action).1.switchTo = some window := by
  cases action with
  | switch window => exact .inr ⟨window, rfl, rfl, rfl⟩
  | wait => exact .inl ⟨rfl, rfl, fun _ hswitch ↦ nomatch hswitch⟩
  | build window => exact .inl ⟨rfl, rfl, fun _ hswitch ↦ nomatch hswitch⟩
  | done choice remember => exact .inl ⟨rfl, rfl, fun _ hswitch ↦ nomatch hswitch⟩

/-- Whatever tuner is left after an action was there before it. -/
theorem act_tuner {tune : Tune} {action : Action} {tuner : Tuner}
    (htuner : (tune.act action).1.tuner = some tuner) : tune.tuner = some tuner := by
  cases action with
  | done choice remember => cases htuner
  | _ => exact htuner

/-- A launch is heard, and then the answer handled. -/
theorem launched_eq_act {tune : Tune} {tuner : Tuner} (htuner : tune.tuner = some tuner)
    (compiling : Bool) (window hashes busy : ℕ) :
    ∃ heard : Tune, heard.want = tune.want ∧ heard.switchTo = tune.switchTo ∧
      tune.launched compiling window hashes busy =
        heard.act (tuner.afterLaunch (tune.isReady compiling) window hashes busy).2 := by
  refine ⟨{ tune with
      tuner := some (tuner.afterLaunch (tune.isReady compiling) window hashes busy).1
      preparing := tune.preparing && !tune.isReady compiling
      jit := tune.jit && !tune.isReady compiling }, rfl, rfl, ?_⟩
  simp only [launched, htuner]

/-- A switch is heard, a failed one as a return to the start window, and then the answer handled. -/
theorem switched_eq_act {tune : Tune} {tuner : Tuner} (htuner : tune.tuner = some tuner)
    (window : ℕ) (ok : Bool) :
    ∃ heard : Tune, heard.want = (if ok then tune.want else startWindow) ∧
      heard.switchTo = tune.switchTo ∧
      tune.switched window ok = heard.act (tuner.switched window ok).2 := by
  refine ⟨{ tune with
      want := if ok then tune.want else startWindow
      tuner := some (tuner.switched window ok).1 }, rfl, rfl, ?_⟩
  simp only [switched, htuner]

/-- Every tuner of this card goes somewhere. -/
def Aims (tune : Tune) : Prop := ∀ tuner, tune.tuner = some tuner → tuner.Aims

/-- A launch told to the worker keeps what its tuner aims for. -/
theorem Aims.launched {tune : Tune} (haims : tune.Aims) (compiling : Bool)
    (window hashes busy : ℕ) : (tune.launched compiling window hashes busy).1.Aims := by
  unfold Tune.launched
  split
  · exact haims
  · rename_i tuner htuner
    intro next hnext
    obtain rfl := Option.some.inj (act_tuner hnext)
    exact (haims tuner htuner).afterLaunch _ window hashes busy

/-- The outcome of a switch told to the worker keeps what its tuner aims for. -/
theorem Aims.switched {tune : Tune} (haims : tune.Aims) (window : ℕ) (ok : Bool) :
    (tune.switched window ok).1.Aims := by
  unfold Tune.switched
  split
  · exact haims
  · rename_i tuner htuner
    intro next hnext
    obtain rfl := Option.some.inj (act_tuner hnext)
    exact (haims tuner htuner).switched window ok

/-- A tuner aims for a fitting window from its start. -/
theorem aims_of_start {freeVram : ℕ} {recalled : Option Choice} {tuner : Tuner} {first : Action}
    (hstart : Tuner.start (largestFitting freeVram) recalled = some (tuner, first)) :
    tuner.Aims := by
  have hknown : ∀ window ∈ bigger, window ≠ startWindow := by decide
  generalize hfitting : largestFitting freeVram = fitting at hstart
  unfold Tuner.start at hstart
  split at hstart
  · cases hstart
  · split_ifs at hstart with hrange
    cases hstart
    exact ⟨hrange.1.ne', List.not_mem_nil, fun window hphase ↦ by cases hphase; exact hrange.1.ne'⟩
  · cases hstart
    rename_i fitting
    have hfallback : startWindow ∉ bigger.filter (· < fitting) :=
      fun hmem ↦ hknown _ (List.mem_of_mem_filter hmem) rfl
    exact ⟨hknown _ (largestFitting_mem hfitting), hfallback, fun _ hphase ↦ nomatch hphase⟩

/-- Taking up a tuner asks for no window yet. -/
theorem takeUp_cases (tune : Tune) (fitting : Option ℕ) (recalled : Option Choice)
    (compilesAhead : Bool) :
    (tune.takeUp fitting recalled compilesAhead).1.want = tune.want ∧
      (tune.takeUp fitting recalled compilesAhead).1.switchTo = tune.switchTo ∧
      ((tune.takeUp fitting recalled compilesAhead).1.tuner = tune.tuner ∨
        ∃ tuner first, Tuner.start fitting recalled = some (tuner, first) ∧
          (tune.takeUp fitting recalled compilesAhead).1.tuner = some tuner) := by
  unfold takeUp
  split
  · exact ⟨rfl, rfl, .inl rfl⟩
  · rename_i tuner first hstart
    rw [Tuning.start_builds hstart]
    exact ⟨rfl, rfl, .inr ⟨tuner, _, hstart, rfl⟩⟩

/-- What beginning does: the window wanted and the pending switch stay, and the tuner is the old one
or one started on the memory that is free. -/
theorem begin_cases (tune : Tune) (around : Surroundings) :
    (tune.begin around).1.want = tune.want ∧ (tune.begin around).1.switchTo = tune.switchTo ∧
      ((tune.begin around).1.tuner = tune.tuner ∨
        ∃ freeVram recalled tuner first,
          Tuner.start (largestFitting freeVram) recalled = some (tuner, first) ∧
            (tune.begin around).1.tuner = some tuner) := by
  simp only [Tune.begin]
  split_ifs
  · exact ⟨rfl, rfl, .inl rfl⟩
  · split
    · exact ⟨rfl, rfl, .inl rfl⟩
    · rename_i free total hmemory
      obtain ⟨hwant, hswitch, htuner⟩ := takeUp_cases
        { tune with
          begun := true
          name := around.name
          key := Device.key around.name total around.driver }
        (largestFitting (free + tableBytes startWindow))
        (around.recallChoice (Device.key around.name total around.driver)) around.compilesAhead
      refine ⟨hwant, hswitch, htuner.imp_right ?_⟩
      rintro ⟨tuner, first, hstart, htaken⟩
      exact ⟨_, _, tuner, first, hstart, htaken⟩

/-- Beginning keeps what the tuner aims for, and a new tuner aims for a fitting window. -/
theorem Aims.begin {tune : Tune} (haims : tune.Aims) (around : Surroundings) :
    (tune.begin around).1.Aims := by
  intro tuner htuner
  obtain ⟨-, -, hsame | ⟨freeVram, recalled, started, first, hstart, htaken⟩⟩ :=
    tune.begin_cases around
  · exact haims tuner (hsame.symm.trans htuner)
  · obtain rfl := Option.some.inj (htaken.symm.trans htuner)
    exact aims_of_start hstart

end Tune

/-! ### The tuning and the card's kernel -/

/-- A tuning that suits a card with a kernel at `window`, or with none: what it wants is what the
card has, or a switch to it is still to be made. -/
structure Suits (tune : Tune) (window : Option ℕ) : Prop where
  driven : ∃ told, Tuning.Untuned ⟨tune, told⟩ ∨ ∃ drive, Tuning.Tuned ⟨tune, told⟩ drive
  aims : tune.Aims
  apart : ∀ next, tune.switchTo = some next → window ≠ some next
  coherent : ∀ next, tune.switchTo = some next → tune.want = next
  there : tune.switchTo = none → window = some tune.want ∨ window = none

namespace Suits

variable {tune : Tune} {window : Option ℕ}

/-- A new card suits its tuning. -/
theorem new (slot : ℕ) : Suits (Tune.new slot) none where
  driven := ⟨[], .inl ⟨rfl, rfl, rfl, rfl⟩⟩
  aims := fun _ htuner ↦ nomatch htuner
  apart := fun _ _ hnone ↦ nomatch hnone
  coherent := fun _ hswitch ↦ nomatch hswitch
  there := fun _ ↦ .inr rfl

/-- Losing the kernel changes nothing of what is wanted. -/
theorem lost (hsuits : Suits tune window) : Suits tune none :=
  ⟨hsuits.driven, hsuits.aims, fun _ _ hnone ↦ (nomatch hnone), hsuits.coherent, fun _ ↦ .inr rfl⟩

/-- Loading the window wanted, with no switch to be made. -/
theorem loaded (hsuits : Suits tune window) (hswitch : tune.switchTo = none) :
    Suits tune (some tune.want) where
  driven := hsuits.driven
  aims := hsuits.aims
  apart := fun next hnext ↦ by
    rw [hswitch] at hnext
    cases hnext
  coherent := hsuits.coherent
  there := fun _ ↦ .inl rfl

/-- A switch to be made has a tuner behind it. -/
theorem tuner_of_pending (hsuits : Suits tune window) {next : ℕ}
    (hswitch : tune.switchTo = some next) : ∃ tuner, tune.tuner = some tuner := by
  obtain ⟨told, huntuned | ⟨drive, htuned⟩⟩ := hsuits.driven
  · rw [huntuned.switchTo] at hswitch
    cases hswitch
  · rcases htuned.follows.tuner with ⟨htuner, -⟩ | ⟨-, hnone⟩
    · exact ⟨_, htuner⟩
    · rw [show tune.switchTo = none from hnone] at hswitch
      cases hswitch

/-- Before the target is ready the card should be at the start window. -/
theorem want_of_preparing (hsuits : Suits tune window) {tuner : Tuner}
    (htuner : tune.tuner = some tuner) (hpreparing : tune.preparing = true) :
    tune.want = startWindow ∧ tune.switchTo = none := by
  obtain ⟨told, huntuned | ⟨drive, htuned⟩⟩ := hsuits.driven
  · rw [show tune.tuner = none from huntuned.tuner] at htuner
    cases htuner
  · rcases htuned.follows.tuner with ⟨-, hagrees⟩ | ⟨hnone, -⟩
    · obtain ⟨hunready, hpending⟩ := hagrees.unready hpreparing
      have hwanted : drive.wanted = startWindow := by
        rcases hunready with ⟨-, mined, hphase⟩ | ⟨remembered, hphase⟩
        · simp [Drive.wanted, hphase, Phase.leg]
        · simp [Drive.wanted, hphase, Phase.leg, hpending]
      exact ⟨hagrees.want.trans hwanted, hagrees.pending.trans hpending⟩
    · rw [show tune.tuner = none from hnone] at htuner
      cases htuner

/-- One event of the tuning keeps it driven. -/
theorem driven_step (hsuits : Suits tune window) (event : TuningEvent) {tune' : Tune}
    (hstep : ∀ told, ∃ told', Tuning.step ⟨tune, told⟩ event = some ⟨tune', told'⟩) :
    ∃ told, Tuning.Untuned ⟨tune', told⟩ ∨ ∃ drive, Tuning.Tuned ⟨tune', told⟩ drive := by
  obtain ⟨told, htold⟩ := hsuits.driven
  obtain ⟨told', hnext⟩ := hstep told
  refine ⟨told', ?_⟩
  rcases htold with huntuned | ⟨drive, htuned⟩
  · exact huntuned.step hnext
  · exact .inr (htuned.step hnext)

/-- Beginning keeps the tuning one that suits the card. -/
theorem begin (hsuits : Suits tune window) (around : Surroundings) :
    Suits (tune.begin around).1 window := by
  obtain ⟨hwant, hswitch, -⟩ := tune.begin_cases around
  refine ⟨?_, hsuits.aims.begin around, ?_, ?_, ?_⟩
  · exact hsuits.driven_step (.begin around) fun told ↦ ⟨_, rfl⟩
  · rw [hswitch]
    exact hsuits.apart
  · rw [hswitch, hwant]
    exact hsuits.coherent
  · rw [hswitch, hwant]
    exact hsuits.there

/-- A launch that came back asks for no switch to where the card is. -/
theorem answer_ne {here : ℕ} (hsuits : Suits tune (some here)) {tuner : Tuner}
    (htuner : tune.tuner = some tuner) {compiling : Bool} {hashes busy next : ℕ}
    (hanswer : (tuner.afterLaunch (tune.isReady compiling) here hashes busy).2 = .switch next) :
    next ≠ here := by
  have haims := hsuits.aims tuner htuner
  unfold Tuner.afterLaunch at hanswer
  split_ifs at hanswer with hready hwait
  · exact haims.readied.switch_ne hanswer
  · rcases tuner.readied_cases with ⟨remembered, hphase, hreadied⟩ | hreadied
    · rw [hreadied] at hanswer
      obtain rfl := Action.switch.inj hanswer
      have hpreparing : tune.preparing = true := by
        unfold Tune.isReady at hready
        exact (Bool.and_eq_true_iff.mp hready).1
      obtain ⟨hwant, hswitch⟩ := hsuits.want_of_preparing htuner hpreparing
      rcases hsuits.there hswitch with hhere | hnone
      · rw [Option.some.inj hhere, hwant]
        exact haims.recalled remembered hphase
      · cases hnone
    · rw [hreadied] at hwait
      exact absurd rfl hwait
  · exact haims.switch_ne hanswer

/-- A launch at the window of the kernel keeps the tuning one that suits the card. -/
theorem launched {here : ℕ} (hsuits : Suits tune (some here)) (compiling : Bool)
    (hashes busy : ℕ) : Suits (tune.launched compiling here hashes busy).1 (some here) := by
  have hyet : tune.switchTo ≠ some here := fun hswitch ↦ hsuits.apart here hswitch rfl
  have hdriven : ∃ told, Tuning.Untuned ⟨(tune.launched compiling here hashes busy).1, told⟩ ∨
      ∃ drive, Tuning.Tuned ⟨(tune.launched compiling here hashes busy).1, told⟩ drive := by
    refine hsuits.driven_step (.launched compiling here hashes busy) fun told ↦ ?_
    simp only [Tuning.step, if_neg hyet]
    exact ⟨_, rfl⟩
  have haims := hsuits.aims.launched compiling here hashes busy
  cases htuner : tune.tuner with
  | none =>
    have hsame : tune.launched compiling here hashes busy = (tune, []) := by
      simp only [Tune.launched, htuner]
    rw [hsame]
    exact hsuits
  | some tuner =>
    obtain ⟨heard, hheardWant, hheardSwitch, hact⟩ :=
      Tune.launched_eq_act htuner compiling here hashes busy
    rw [hact] at hdriven haims ⊢
    rcases heard.act_cases (tuner.afterLaunch (tune.isReady compiling) here hashes busy).2 with
      ⟨hwant, hswitch, -⟩ | ⟨next, hanswer, hwant, hswitch⟩
    · rw [hheardWant] at hwant
      rw [hheardSwitch] at hswitch
      refine ⟨hdriven, haims, ?_, ?_, ?_⟩
      · rw [hswitch]
        exact hsuits.apart
      · rw [hswitch, hwant]
        exact hsuits.coherent
      · rw [hswitch, hwant]
        exact hsuits.there
    · have hne := hsuits.answer_ne htuner hanswer
      refine ⟨hdriven, haims, ?_, ?_, ?_⟩
      · rw [hswitch]
        intro other hother hhere
        exact hne ((Option.some.inj hother).trans (Option.some.inj hhere).symm)
      · rw [hswitch, hwant]
        exact fun other hother ↦ Option.some.inj hother
      · rw [hswitch]
        intro hnone
        cases hnone

/-- Let a tuning suit a card and have a switch to make. Whether it is made or not, the tuning suits
the card afterwards, which is at the new window or without a kernel; and after a failure that no
further switch follows the card is wanted at 16. -/
theorem switched (hsuits : Suits tune window) {next : ℕ} (hswitch : tune.switchTo = some next)
    (ok : Bool) :
    Suits ({ tune with switchTo := none }.switched next ok).1 (if ok then some next else none) ∧
      (ok = false → ({ tune with switchTo := none }.switched next ok).1.switchTo = none →
        ({ tune with switchTo := none }.switched next ok).1.want = startWindow) := by
  have hdriven : ∃ told, Tuning.Untuned
    ⟨({ tune with switchTo := none }.switched next ok).1, told⟩ ∨
      ∃ drive, Tuning.Tuned ⟨({ tune with switchTo := none }.switched next ok).1, told⟩ drive := by
    refine hsuits.driven_step (.switched ok) fun told ↦ ?_
    simp only [Tuning.step, hswitch]
    exact ⟨_, rfl⟩
  have htaken : Tune.Aims { tune with switchTo := none } :=
    fun tuner htuner ↦ hsuits.aims tuner htuner
  have haims := htaken.switched next ok
  have hwant := hsuits.coherent next hswitch
  obtain ⟨tuner, htuner⟩ := hsuits.tuner_of_pending hswitch
  obtain ⟨heard, hheardWant, hheardSwitch, hact⟩ := Tune.switched_eq_act
    (show { tune with switchTo := none }.tuner = some tuner from htuner) next ok
  rw [hact] at hdriven haims ⊢
  rcases heard.act_cases (tuner.switched next ok).2 with
    ⟨hactWant, hactSwitch, -⟩ | ⟨smaller, hanswer, hactWant, hactSwitch⟩
  · rw [hheardWant] at hactWant
    rw [hheardSwitch] at hactSwitch
    refine ⟨⟨hdriven, haims, ?_, ?_, fun _ ↦ ?_⟩, fun hfailed _ ↦ ?_⟩
    · rw [hactSwitch]
      intro _ hnone
      cases hnone
    · rw [hactSwitch]
      intro _ hnone
      cases hnone
    · rw [hactWant]
      cases ok with
      | true => exact .inl (congrArg some hwant.symm)
      | false => exact .inr rfl
    · rw [hactWant, hfailed]
      rfl
  · obtain ⟨rfl, -⟩ := Tuner.switched_switch hanswer
    refine ⟨⟨hdriven, haims, ?_, ?_, ?_⟩, fun _ hnone ↦ ?_⟩
    · intro _ _ hnone
      cases hnone
    · rw [hactSwitch, hactWant]
      exact fun other hother ↦ Option.some.inj hother
    · rw [hactSwitch]
      intro hnone
      cases hnone
    · rw [hactSwitch] at hnone
      cases hnone

end Suits

end Bc3Miner.Device
