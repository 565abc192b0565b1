import Bc3Miner.Device.TuningRoad

/-!
# The tuning of a card

`Tune` of `src/gpu_worker.rs`: the worker's side of the tuning. It keeps its own copy of the window
the card should be at, reports the target ready when the compile ahead is over, and leaves a switch
for the main loop to make. `Tuning` runs it: it begins, launches come back, and the main loop makes
the switch it finds. A `Tune` is a driver of its tuner (`Tuning.drives_tuner`), so all that is true
of a `Drive` is true of it, and when it handles the end of the tuning its own copy is the window
that was chosen.

The surroundings of a tuning, the card's memory, its driver and what was remembered for it, are
given when it begins (`Surroundings`), and so is whether a window was set by hand, in which case
there is none.
-/

set_option autoImplicit false
set_option relaxedAutoImplicit false

namespace Bc3Miner.Device

open Foundations

/-! ### The worker's side -/

/-- What a choice is remembered by. -/
def key (gpu : String) (totalVram : ℕ) (driver : Option String) : String :=
  gpu ++ " | " ++ toString (totalVram / 2 ^ 20) ++ " MiB | driver " ++ driver.getD "unknown" ++
    " | bc3-miner 2.3.0"

/-- What the tuning leaves behind: the tables a card mines with, for the GUI, and remembered
choices. -/
inductive TuneReport
  | tables (slot window mib : ℕ) (tuning : Bool) (measured : Option (ℕ × Binary64))
  | remember (key : String) (choice : Choice)
  deriving DecidableEq, Repr

/-- This card's window tuning, as the worker drives it. `jit` says that a compile ahead was
begun. -/
structure Tune where
  want : ℕ
  tuner : Option Tuner
  begun : Bool
  key : String
  name : String
  slot : ℕ
  preparing : Bool
  jit : Bool
  switchTo : Option ℕ
  deriving DecidableEq, Repr

/-- What `begin` reads of the card and its surroundings. -/
structure Surroundings where
  byHand : Bool
  cardWindow : Option ℕ
  name : String
  memory : Option (ℕ × ℕ)
  driver : Option String
  recallChoice : String → Option Choice
  compilesAhead : Bool

namespace Tune

/-- A card that was just opened, with no window set by hand. -/
def new (slot : ℕ) : Tune where
  want := startWindow
  tuner := none
  begun := false
  key := ""
  name := ""
  slot := slot
  preparing := false
  jit := false
  switchTo := none

/-- The window the card should be at: its tuning's, or one set by hand. -/
def wanted (tune : Tune) (byHand : Option ℕ) : ℕ := byHand.getD tune.want

/-- Tell the GUI the window this card mines at. -/
def emit (tune : Tune) (tuning : Bool) (measured : Option (ℕ × Binary64)) : TuneReport :=
  .tables tune.slot tune.want (tableBytes tune.want / 2 ^ 20) tuning measured

/-- Take up the tuner for what fits, or what was chosen before; none when there is nothing to
tune. -/
def takeUp (tune : Tune) (fitting : Option ℕ) (recalled : Option Choice) (compilesAhead : Bool) :
    Tune × List TuneReport :=
  match Tuner.start fitting recalled with
  | none => (tune, [tune.emit false none])
  | some (tuner, first) =>
    let report := tune.emit recalled.isNone none
    match first with
    | .build _ =>
      ({ tune with tuner := some tuner, jit := compilesAhead, preparing := true }, [report])
    | _ => ({ tune with tuner := some tuner }, [report])

/-- Once the card mines at the start window: decide what to try, from its free memory, or recall
what was chosen before. -/
def begin (tune : Tune) (around : Surroundings) : Tune × List TuneReport :=
  if tune.begun = true ∨ around.byHand = true ∨ around.cardWindow ≠ some startWindow then (tune, [])
  else
    match around.memory with
    | none =>
      let tune := { tune with begun := true, name := around.name }
      (tune, [tune.emit false none])
    | some (free, total) =>
      let tuned := Device.key around.name total around.driver
      { tune with begun := true, name := around.name, key := tuned }.takeUp
        (largestFitting (free + tableBytes startWindow))
          (around.recallChoice tuned) around.compilesAhead

/-- The tuning is over: what it found, as the GUI shows it. -/
def measured (choice : Choice) : Option (ℕ × Binary64) :=
  if (Binary64.finite 0).lt choice.startRate ∧ (Binary64.finite 0).lt choice.triedRate then
    some (choice.tried,
      ((choice.triedRate.div choice.startRate).sub (.ofNat 1)).mul (.ofNat 100))
  else none

def act (tune : Tune) : Action → Tune × List TuneReport
  | .wait | .build _ => (tune, [])
  | .switch window => ({ tune with want := window, switchTo := some window }, [])
  | .done choice remember =>
    let tune := { tune with tuner := none, preparing := false, jit := false }
    (tune, (if remember then [.remember tune.key choice] else []) ++
      [tune.emit false (measured choice)])

end Tune

/-- Ready first, when the compile ahead is over; the launch only if that is answered by `wait`. -/
def Tuner.afterLaunch (tuner : Tuner) (isOver : Bool) (window hashes busy : ℕ) : Tuner × Action :=
  if isOver then
    if tuner.readied.2 = .wait then tuner.readied.1.launched window hashes busy else tuner.readied
  else tuner.launched window hashes busy

namespace Tune

/-- The compile ahead is over, or none was begun, and the tuner has yet to hear of it. -/
def isReady (tune : Tune) (compiling : Bool) : Bool := tune.preparing && !(tune.jit && compiling)

/-- A launch came back; `compiling` says that the compile ahead has not come back yet. -/
def launched (tune : Tune) (compiling : Bool) (window hashes busy : ℕ) : Tune × List TuneReport :=
  match tune.tuner with
  | none => (tune, [])
  | some tuner =>
    let isOver := tune.isReady compiling
    let answer := tuner.afterLaunch isOver window hashes busy
    { tune with
      tuner := some answer.1
      preparing := tune.preparing && !isOver
      jit := tune.jit && !isOver }.act answer.2

/-- The card switched to `window`, or could not. -/
def switched (tune : Tune) (window : ℕ) (ok : Bool) : Tune × List TuneReport :=
  match tune.tuner with
  | none => (tune, [])
  | some tuner =>
    let answer := tuner.switched window ok
    { tune with
      want := if ok then tune.want else startWindow
      tuner := some answer.1 }.act answer.2

end Tune

/-! ### A run of it -/

/-- What happens to a card's tuning. -/
inductive TuningEvent
  | begin (around : Surroundings)
  | launched (compiling : Bool) (window hashes busy : ℕ)
  | switched (ok : Bool)

/-- The tuning of a card, and what the tuner told it to do, the newest first. -/
structure Tuning where
  tune : Tune
  told : List Action

namespace Tuning

def start (slot : ℕ) : Tuning := ⟨Tune.new slot, []⟩

/-- What the tuner answers to an event. -/
def answer (tuning : Tuning) : TuningEvent → Option Action
  | .begin _ => none
  | .launched compiling window hashes busy => tuning.tune.tuner.map fun tuner ↦
      (tuner.afterLaunch (tuning.tune.isReady compiling) window hashes busy).2
  | .switched ok => do
      let tuner ← tuning.tune.tuner
      let window ← tuning.tune.switchTo
      return (tuner.switched window ok).2

/-- One event. The main loop takes the switch it finds, and no launch comes back at a window that
the card has yet to switch to. -/
def step (tuning : Tuning) (event : TuningEvent) : Option Tuning :=
  let told := (tuning.answer event).toList.filter (· ≠ .wait) ++ tuning.told
  match event with
  | .begin around => some ⟨(tuning.tune.begin around).1, told⟩
  | .launched compiling window hashes busy =>
    if tuning.tune.switchTo = some window then none
    else some ⟨(tuning.tune.launched compiling window hashes busy).1, told⟩
  | .switched ok =>
    match tuning.tune.switchTo with
    | none => none
    | some window => some ⟨({ tuning.tune with switchTo := none }.switched window ok).1, told⟩

end Tuning

/-! ### The worker's side drives the tuner -/

/-- What the tuner told its driver to do, the newest first. -/
def History.told (history : History) : List Action :=
  (history.map Prod.snd).filter (· ≠ .wait)

/-- The end was not told before it was said. -/
theorem History.Undone.not_mem_told {history : History} (hundone : history.Undone) (choice : Choice)
    (remember : Bool) : .done choice remember ∉ history.told := by
  intro hmem
  obtain ⟨entry, hentry, heq⟩ := List.mem_map.mp (List.mem_filter.mp hmem).1
  have hnot := hundone entry hentry
  rw [heq] at hnot
  cases hnot

/-- A tuner that was not told that its target is ready: launches move it nowhere. -/
def Tuner.Unready (tuner : Tuner) : Prop :=
  (tuner.ready = false ∧ ∃ mined, tuner.phase = .warmUp mined) ∨
    ∃ window, tuner.phase = .recalled window

theorem Tuner.Unready.launched {tuner : Tuner} (hunready : tuner.Unready) (window hashes busy : ℕ) :
    tuner.launched window hashes busy = (tuner, .wait) := by
  rcases hunready with ⟨hready, mined, hphase⟩ | ⟨remembered, hphase⟩
  · simp [Tuner.launched, hphase, hready]
  · simp [Tuner.launched, hphase]

namespace Drive

/-- The window the road wants the card at. -/
def wanted (drive : Drive) : ℕ :=
  match drive.tuner.phase.leg with
  | .out | .kept => drive.tuner.target
  | .straight => drive.pending.getD startWindow
  | .home | .back | .ended => startWindow

/-- The window of a pending switch is the one wanted. -/
theorem OnTheRoad.wanted_of_pending {fallback : List ℕ} {drive : Drive}
    (hroad : drive.OnTheRoad fallback) {window : ℕ} (hpending : drive.pending = some window) :
    drive.wanted = window := by
  have hheading := hroad.heading_of_pending hpending
  unfold wanted
  cases hphase : drive.tuner.phase <;> simp_all [Phase.leg, Phase.heading]

end Drive

/-- The worker's side and a drive that is not over say the same. -/
structure Agrees (tune : Tune) (told : List Action) (drive : Drive) : Prop where
  going : drive.tuner.phase.leg ≠ .ended
  pending : tune.switchTo = drive.pending
  want : tune.want = drive.wanted
  told : told = drive.history.told
  unready : tune.preparing = true → drive.tuner.Unready ∧ drive.pending = none

/-- The worker's side follows a drive to its end. -/
structure Follows (tuning : Tuning) (drive : Drive) : Prop where
  tuner : tuning.tune.tuner = some drive.tuner ∧ Agrees tuning.tune tuning.told drive ∨
    tuning.tune.tuner = none ∧ tuning.tune.switchTo = none
  told : tuning.told = drive.history.told
  ended : ∀ choice remember, .done choice remember ∈ tuning.told →
    tuning.tune.want = choice.window ∧ tuning.tune.switchTo = none

/-- A worker that agrees with a drive on its road, and holds its tuner, follows it. -/
theorem Agrees.follows {tune : Tune} {told : List Action} {drive : Drive} {fallback : List ℕ}
    (hagrees : Agrees tune told drive) (hroad : drive.OnTheRoad fallback)
    (htuner : tune.tuner = some drive.tuner) : Follows ⟨tune, told⟩ drive where
  tuner := .inl ⟨htuner, hagrees⟩
  told := hagrees.told
  ended := fun choice remember hmem ↦ by
    rw [hagrees.told] at hmem
    exact absurd hmem ((hroad.undone hagrees.going).not_mem_told choice remember)

/-- Following a drive to its end: the worker's own copy is the window that was chosen. -/
theorem Agrees.follows_over {tune tune' : Tune} {told : List Action} {drive : Drive}
    {fallback : List ℕ} (hagrees : Agrees tune told drive) (hroad : drive.OnTheRoad fallback)
    (event : Event) {choice : Choice} {remember : Bool} (htuner : tune'.tuner = none)
    (hwant : tune'.want = choice.window) (hswitch : tune'.switchTo = none) :
    Follows ⟨tune', .done choice remember :: told⟩
      ⟨{ drive.tuner with phase := .finished }, none,
        (event, .done choice remember) :: drive.history⟩ where
  tuner := .inr ⟨htuner, hswitch⟩
  told := by
    rw [hagrees.told]
    simp [History.told]
  ended := fun choice' remember' hmem ↦ by
    rcases List.mem_cons.mp hmem with heq | hearlier
    · obtain ⟨rfl, -⟩ := Action.done.inj heq
      exact ⟨hwant, hswitch⟩
    · rw [hagrees.told] at hearlier
      exact absurd hearlier ((hroad.undone hagrees.going).not_mem_told choice' remember')

/-- An answer `wait` that leaves the leg and the target. -/
theorem Agrees.wait {tune : Tune} {told : List Action} {drive : Drive}
    (hagrees : Agrees tune told drive)
    (event : Event) {tune' : Tune} {tuner : Tuner} {pending : Option ℕ}
    (hleg : tuner.phase.leg = drive.tuner.phase.leg) (htarget : tuner.target = drive.tuner.target)
    (hstraight : tuner.phase.leg = .straight → pending = drive.pending)
    (hwant : tune'.want = tune.want) (hpending : tune'.switchTo = pending)
    (hunready : tune'.preparing = true → tuner.Unready ∧ pending = none) :
    Agrees tune' told ⟨tuner, pending, (event, .wait) :: drive.history⟩ where
  going := by
    rw [hleg]
    exact hagrees.going
  pending := hpending
  want := by
    rw [hwant, hagrees.want]
    unfold Drive.wanted
    rw [hleg, htarget]
    cases hcase : drive.tuner.phase.leg with
    | straight => rw [hstraight (hleg.trans hcase)]
    | _ => rfl
  told := by
    rw [hagrees.told]
    simp [History.told]
  unready := hunready

/-- A switch the tuner asks for, on a leg that wants the card there. -/
theorem Agrees.switch {tune : Tune} {told : List Action} {drive : Drive}
    (hagrees : Agrees tune told drive) (event : Event) {tune' : Tune} {tuner : Tuner} {window : ℕ}
    (hgoing : tuner.phase.leg ≠ .ended)
    (hwanted : Drive.wanted ⟨tuner, some window, (event, .switch window) :: drive.history⟩ = window)
    (hwant : tune'.want = window) (hpending : tune'.switchTo = some window)
    (hpreparing : tune'.preparing = false) :
    Agrees tune' (.switch window :: told)
      ⟨tuner, some window, (event, .switch window) :: drive.history⟩ where
  going := hgoing
  pending := hpending
  want := hwant.trans hwanted.symm
  told := by
    rw [hagrees.told]
    simp [History.told]
  unready := fun hpreparing' ↦ by
    rw [hpreparing] at hpreparing'
    cases hpreparing'

/-- While the target is not ready, a launch is answered by `wait`. -/
theorem Agrees.launched_of_preparing {tune : Tune} {told : List Action} {drive : Drive}
    (hagrees : Agrees tune told drive) (hpreparing : tune.preparing = true)
    (window hashes busy : ℕ) :
    drive.tuner.launched window hashes busy = (drive.tuner, .wait) :=
  (hagrees.unready hpreparing).1.launched window hashes busy

/-- The answer to a launch, handled. -/
theorem Agrees.launched {tune : Tune} {told : List Action} {drive next : Drive} {fallback : List ℕ}
    (hagrees : Agrees tune told drive) (hroad : drive.OnTheRoad fallback) {window hashes busy : ℕ}
    (hstep : drive.step (.launched window hashes busy) = some next) :
    Follows ⟨({ tune with tuner := some (drive.tuner.launched window hashes busy).1 }.act
        (drive.tuner.launched window hashes busy).2).1,
      [(drive.tuner.launched window hashes busy).2].filter (· ≠ .wait) ++ told⟩ next := by
  have hnext := hroad.step hstep
  simp only [Drive.step] at hstep
  split_ifs at hstep with hyet
  obtain rfl := Option.some.inj hstep
  have hready : ∀ {action}, (drive.tuner.launched window hashes busy).2 = action → action ≠ .wait →
      tune.preparing = false := by
    intro action haction hnot
    rw [Bool.eq_false_iff]
    intro hpreparing
    rw [hagrees.launched_of_preparing hpreparing] at haction
    exact hnot haction.symm
  rcases drive.tuner.launched_cases window hashes busy with
    ⟨phase, hanswer, hadvances⟩ | ⟨hleg, -, before, hanswer⟩ |
    ⟨hleg, -, hheading, before, tried, -, hanswer⟩ | ⟨hleg, -, hheading, choice, remember, hjudged⟩
  · rw [Drive.take, hanswer] at hnext ⊢
    refine Agrees.follows (hagrees.wait _ hadvances.leg rfl (fun _ ↦ rfl) rfl hagrees.pending ?_)
      hnext rfl
    intro hpreparing
    have hsame := hanswer.symm.trans (hagrees.launched_of_preparing hpreparing window hashes busy)
    rw [(Prod.mk.inj hsame).1]
    exact hagrees.unready hpreparing
  · have hnot := hready (congrArg Prod.snd hanswer) (by simp)
    rw [Drive.take, hanswer] at hnext ⊢
    refine Agrees.follows (hagrees.switch _ ?_ rfl rfl rfl hnot) hnext rfl
    simp [Phase.leg]
  · have hnot := hready (congrArg Prod.snd hanswer) (by simp)
    rw [Drive.take, hanswer] at hnext ⊢
    refine Agrees.follows (hagrees.switch _ ?_ rfl rfl rfl hnot) hnext rfl
    simp [Phase.leg]
  · have hnone : drive.pending = none := by
      rcases hroad.pending with hpending | hpending
      · exact hpending
      · exact hpending.trans hheading
    rcases hjudged with ⟨hwindow, hanswer⟩ | ⟨hwindow, hanswer⟩
    · have hnot := hready (congrArg Prod.snd hanswer) (by simp)
      rw [Drive.take, hanswer] at hnext ⊢
      refine Agrees.follows (hagrees.switch _ ?_ rfl rfl rfl hnot) hnext rfl
      simp [Phase.leg]
    · rw [Drive.take, hanswer, hnone]
      refine hagrees.follows_over hroad _ rfl ?_ (hagrees.pending.trans hnone)
      have hwanted : drive.wanted = startWindow := by simp [Drive.wanted, hleg]
      exact hagrees.want.trans (hwanted.trans hwindow.symm)

/-- The worker handles the answer to a switch: a switch that failed takes the card back to 16 first,
and what the tuner says next is taken up after that. A worker that agreed with a drive follows the
drive as the switch has moved it. -/
theorem Agrees.switched {tune : Tune} {told : List Action} {drive next : Drive} {fallback : List ℕ}
    (hagrees : Agrees tune told drive) (hroad : drive.OnTheRoad fallback) {window : ℕ} {ok : Bool}
    (hstep : drive.step (.switched window ok) = some next) :
    Follows ⟨({ tune with
          switchTo := none
          want := if ok then tune.want else startWindow
          tuner := some (drive.tuner.switched window ok).1 }.act
        (drive.tuner.switched window ok).2).1,
      [(drive.tuner.switched window ok).2].filter (· ≠ .wait) ++ told⟩ next := by
  have hnext := hroad.step hstep
  simp only [Drive.step] at hstep
  split_ifs at hstep with hpending
  obtain rfl := Option.some.inj hstep
  have hready : tune.preparing = false := by
    rw [Bool.eq_false_iff]
    intro hpreparing
    rw [(hagrees.unready hpreparing).2] at hpending
    cases hpending
  have hwant : tune.want = window := hagrees.want.trans (hroad.wanted_of_pending hpending)
  rcases Tuner.switched_cases ok (hroad.heading_of_pending hpending) hroad.keeps with
    ⟨rfl, hleg, hanswer⟩ | ⟨choice, remember, hchosen, hanswer⟩ |
    ⟨rfl, -, before, mined, smaller, rest, hphase, hfallback, hanswer⟩
  · rw [Drive.take, hanswer] at hnext ⊢
    refine Agrees.follows (hagrees.wait _ rfl rfl (fun hstraight ↦ ?_) rfl rfl ?_) hnext rfl
    · rcases hleg with hout | hback
      · rw [hout] at hstraight
        cases hstraight
      · rw [hback] at hstraight
        cases hstraight
    · intro hpreparing
      rw [show tune.preparing = true from hpreparing] at hready
      cases hready
  · rw [Drive.take, hanswer]
    refine hagrees.follows_over hroad _ rfl ?_ rfl
    cases ok with
    | true => exact hwant.trans hchosen.symm
    | false => exact hchosen.symm
  · rw [Drive.take, hanswer] at hnext ⊢
    refine Agrees.follows (hagrees.switch _ ?_ rfl rfl rfl hready) hnext rfl
    simp [Phase.leg]

/-- A launch with the report that the target is ready before it: one event of the drive or two. -/
theorem Agrees.afterLaunch {tune : Tune} {told : List Action} {drive : Drive} {fallback : List ℕ}
    (hagrees : Agrees tune told drive) (hroad : drive.OnTheRoad fallback) {window : ℕ}
    (hyet : tune.switchTo ≠ some window) (compiling : Bool) (hashes busy : ℕ) :
    let isOver := tune.isReady compiling
    let answer := drive.tuner.afterLaunch isOver window hashes busy
    ∃ events next, PartialMachine.run Drive.step drive events = some next ∧
      Follows ⟨({ tune with
            tuner := some answer.1
            preparing := tune.preparing && !isOver
            jit := tune.jit && !isOver }.act answer.2).1,
          [answer.2].filter (· ≠ .wait) ++ told⟩ next := by
  intro isOver answer
  have hpending : drive.pending ≠ some window := hagrees.pending ▸ hyet
  cases hover : isOver with
  | false =>
    have hstep : drive.step (.launched window hashes busy) = some (drive.take
        (.launched window hashes busy) (drive.tuner.launched window hashes busy)) := if_neg hpending
    refine ⟨[.launched window hashes busy], _, (PartialMachine.run_singleton _ _ _).trans hstep, ?_⟩
    have hanswer : answer = drive.tuner.launched window hashes busy := by
      simp [answer, hover, Tuner.afterLaunch]
    rw [hanswer]
    simpa using hagrees.launched hroad hstep
  | true =>
    have hpreparing : tune.preparing = true := by
      have hboth : (tune.preparing && !(tune.jit && compiling)) = true := hover
      exact (Bool.and_eq_true_iff.mp hboth).1
    obtain ⟨-, hnone⟩ := hagrees.unready hpreparing
    have hready : drive.step .ready = some (drive.take .ready drive.tuner.readied) := by
      simp [Drive.step, hnone]
    rcases drive.tuner.readied_cases with ⟨remembered, hphase, hreadied⟩ | hreadied
    · refine ⟨[.ready], _, (PartialMachine.run_singleton _ _ _).trans hready, ?_⟩
      have hanswer : answer = ({ drive.tuner with ready := true }, .switch remembered) := by
        simp [answer, hover, Tuner.afterLaunch, hreadied]
      have hnext := hroad.step hready
      rw [hanswer]
      rw [Drive.take, hreadied] at hnext ⊢
      refine Agrees.follows (hagrees.switch _ ?_ ?_ rfl rfl (by simp [Tune.act])) hnext rfl
      · simp [hphase, Phase.leg]
      · simp [Drive.wanted, hphase, Phase.leg]
    · have hanswer : answer = { drive.tuner with ready := true }.launched window hashes busy := by
        simp [answer, hover, Tuner.afterLaunch, hreadied]
      have hnext := hroad.step hready
      rw [Drive.take, hreadied] at hready hnext
      have hwait : Agrees { tune with preparing := false, jit := false } told
          ⟨{ drive.tuner with ready := true }, drive.pending,
            (.ready, .wait) :: drive.history⟩ := by
        refine hagrees.wait .ready rfl rfl (fun _ ↦ rfl) rfl hagrees.pending fun hnever ↦ ?_
        cases hnever
      have hstep : Drive.step
          ⟨{ drive.tuner with ready := true }, drive.pending, (.ready, .wait) :: drive.history⟩
          (.launched window hashes busy) = some (Drive.take _ (.launched window hashes busy)
            ({ drive.tuner with ready := true }.launched window hashes busy)) := if_neg hpending
      refine ⟨[.ready, .launched window hashes busy], _, (PartialMachine.run_cons_eq_some _).mpr
        ⟨_, hready, (PartialMachine.run_singleton _ _ _).trans hstep⟩, ?_⟩
      rw [hanswer]
      simpa using hwait.launched hnext hstep

namespace Tuning

/-- A drive of a tuner that was started. -/
def Driven (drive : Drive) : Prop :=
  ∃ fitting recalled tuner first events, Tuner.start fitting recalled = some (tuner, first) ∧
    PartialMachine.run Drive.step (Drive.start tuner) events = some drive

theorem Driven.onTheRoad {drive : Drive} (hdriven : Driven drive) :
    ∃ fallback, drive.OnTheRoad fallback := by
  obtain ⟨fitting, recalled, tuner, first, events, hstart, hrun⟩ := hdriven
  exact ⟨tuner.fallback, .of_run hstart hrun⟩

theorem Driven.run {drive next : Drive} (hdriven : Driven drive) {events : List Event}
    (hrun : PartialMachine.run Drive.step drive events = some next) : Driven next := by
  obtain ⟨fitting, recalled, tuner, first, earlier, hstart, hearlier⟩ := hdriven
  exact ⟨fitting, recalled, tuner, first, earlier ++ events, hstart,
    (PartialMachine.run_append_eq_some _).mpr ⟨drive, hearlier, hrun⟩⟩

/-- No tuner was started. -/
structure Untuned (tuning : Tuning) : Prop where
  tuner : tuning.tune.tuner = none
  switchTo : tuning.tune.switchTo = none
  want : tuning.tune.want = startWindow
  told : tuning.told = []

/-- A tuner was started, once, and the worker's side follows a drive of it. -/
structure Tuned (tuning : Tuning) (drive : Drive) : Prop where
  begun : tuning.tune.begun = true
  driven : Driven drive
  follows : Follows tuning drive

/-- A worker that holds a tuner just started, has no switch to make and is wanted at the start
window follows the drive of that tuner from its start. -/
theorem follows_start {fitting : Option ℕ} {recalled : Option Choice} {tuner : Tuner}
    {first : Action} (hstart : Tuner.start fitting recalled = some (tuner, first)) {tune : Tune}
    (htuner : tune.tuner = some tuner) (hswitch : tune.switchTo = none)
    (hwant : tune.want = startWindow) : Follows ⟨tune, []⟩ (Drive.start tuner) := by
  have hphase : tuner.phase = .warmUp 0 ∧ tuner.ready = false ∨
      ∃ window, tuner.phase = .recalled window := by
    unfold Tuner.start at hstart
    split at hstart
    · cases hstart
    · split_ifs at hstart
      cases hstart
      exact .inr ⟨_, rfl⟩
    · cases hstart
      exact .inl ⟨rfl, rfl⟩
  refine Agrees.follows ⟨?_, hswitch, ?_, rfl, fun _ ↦ ⟨?_, rfl⟩⟩ (.start hstart) htuner
  · rcases hphase with ⟨hwarm, -⟩ | ⟨window, hrecalled⟩
    · simp [Drive.start, hwarm, Phase.leg]
    · simp [Drive.start, hrecalled, Phase.leg]
  · rcases hphase with ⟨hwarm, -⟩ | ⟨window, hrecalled⟩
    · simp [Drive.start, Drive.wanted, hwarm, Phase.leg, hwant]
    · simp [Drive.start, Drive.wanted, hrecalled, Phase.leg, hwant]
  · rcases hphase with ⟨hwarm, hready⟩ | hrecalled
    · exact .inl ⟨hready, 0, hwarm⟩
    · exact .inr hrecalled

/-- The first action of a tuner is to build the window it aims for. -/
theorem start_builds {fitting : Option ℕ} {recalled : Option Choice} {tuner : Tuner}
    {first : Action} (hstart : Tuner.start fitting recalled = some (tuner, first)) :
    first = .build tuner.target := by
  unfold Tuner.start at hstart
  split at hstart
  · cases hstart
  · split_ifs at hstart
    cases hstart
    rfl
  · cases hstart
    rfl

/-- Taking up the tuning leaves the worker without a tuner, or starts a drive that it follows. -/
theorem Untuned.takeUp {tune : Tune} {told : List Action} (huntuned : Untuned ⟨tune, told⟩)
    (hbegun : tune.begun = true) (fitting : Option ℕ) (recalled : Option Choice)
    (compilesAhead : Bool) :
    Untuned ⟨(tune.takeUp fitting recalled compilesAhead).1, told⟩ ∨
      ∃ drive, Tuned ⟨(tune.takeUp fitting recalled compilesAhead).1, told⟩ drive := by
  obtain ⟨htuner, hswitch, hwant, htold⟩ := huntuned
  unfold Tune.takeUp
  split
  · exact .inl ⟨htuner, hswitch, hwant, htold⟩
  · rename_i tuner first hstart
    obtain rfl : told = [] := htold
    rw [start_builds hstart]
    exact .inr ⟨Drive.start tuner, hbegun, ⟨_, _, tuner, first, [], hstart, rfl⟩,
      follows_start hstart rfl hswitch hwant⟩

/-- Beginning leaves the worker without a tuner, or starts a drive that it follows. -/
theorem Untuned.begin {tuning next : Tuning} (huntuned : tuning.Untuned) {around : Surroundings}
    (hstep : tuning.step (.begin around) = some next) :
    next.Untuned ∨ ∃ drive, next.Tuned drive := by
  obtain rfl := Option.some.inj hstep
  simp only [answer, Option.toList_none, List.filter_nil, List.nil_append, Tune.begin]
  split_ifs with hruledOut
  · exact .inl huntuned
  · obtain ⟨htuner, hswitch, hwant, htold⟩ := huntuned
    split
    · exact .inl ⟨htuner, hswitch, hwant, htold⟩
    · apply Untuned.takeUp
      · exact ⟨htuner, hswitch, hwant, htold⟩
      · rfl

/-- Every event leaves an untuned worker untuned, or starts a drive that it follows. -/
theorem Untuned.step {tuning next : Tuning} (huntuned : tuning.Untuned) {event : TuningEvent}
    (hstep : tuning.step event = some next) : next.Untuned ∨ ∃ drive, next.Tuned drive := by
  cases event with
  | begin around => exact huntuned.begin hstep
  | launched compiling window hashes busy =>
    simp only [Tuning.step, answer, Tune.launched, huntuned.tuner, huntuned.switchTo] at hstep
    obtain rfl := Option.some.inj hstep
    exact .inl ⟨huntuned.tuner, huntuned.switchTo, huntuned.want, huntuned.told⟩
  | switched ok =>
    simp only [Tuning.step, huntuned.switchTo] at hstep
    cases hstep

theorem act_begun (tune : Tune) (action : Action) : (tune.act action).1.begun = tune.begun := by
  cases action <;> rfl

/-- A worker that follows a drive still follows one after every event: the same, moved on by the
event, or ended. -/
theorem Tuned.step {tuning next : Tuning} {drive : Drive} (htuned : tuning.Tuned drive)
    {event : TuningEvent} (hstep : tuning.step event = some next) :
    ∃ drive', next.Tuned drive' := by
  obtain ⟨fallback, hroad⟩ := htuned.driven.onTheRoad
  have hfollows := htuned.follows
  cases event with
  | begin around =>
    obtain rfl := Option.some.inj hstep
    have hsame : tuning.tune.begin around = (tuning.tune, []) := by
      simp [Tune.begin, htuned.begun]
    simp only [answer, hsame]
    exact ⟨drive, htuned⟩
  | launched compiling window hashes busy =>
    simp only [Tuning.step] at hstep
    split_ifs at hstep with hyet
    obtain rfl := Option.some.inj hstep
    rcases hfollows.tuner with ⟨htuner, hagrees⟩ | ⟨htuner, hnone⟩
    · obtain ⟨events, next, hrun, hnext⟩ :=
        hagrees.afterLaunch hroad hyet compiling hashes busy
      simp only [answer, Tune.launched, htuner]
      exact ⟨next, (act_begun _ _).trans htuned.begun, htuned.driven.run hrun, hnext⟩
    · simp only [answer, Tune.launched, htuner]
      exact ⟨drive, htuned⟩
  | switched ok =>
    simp only [Tuning.step] at hstep
    split at hstep
    · cases hstep
    · rename_i window hswitch
      obtain rfl := Option.some.inj hstep
      rcases hfollows.tuner with ⟨htuner, hagrees⟩ | ⟨htuner, hnone⟩
      · have hdrive : drive.step (.switched window ok) = some (Drive.take _ _ _) :=
          if_pos (hagrees.pending.symm.trans hswitch)
        simp only [answer, Tune.switched, htuner, hswitch]
        exact ⟨_, (act_begun _ _).trans htuned.begun,
          htuned.driven.run ((PartialMachine.run_singleton _ _ _).trans hdrive),
          hagrees.switched hroad hdrive⟩
      · rw [hnone] at hswitch
        cases hswitch

end Tuning

end Bc3Miner.Device
