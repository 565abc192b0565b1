import Bc3Miner.Device.WindowTuner

/-!
# The road of a tuning

The phases of a tuning lie on legs: at home with 16, out to the target, back to 16, and on to the
target for good; or straight to a remembered window. A launch moves the tuner within its leg or on
to the next (`Tuner.launched_cases`), a switch that failed moves it to a smaller target or ends it
(`Tuner.switched_cases`), and nothing moves it once it is over. `OnTheRoad` is what this keeps true
of a drive, and `OnTheRoad.of_run` carries it along every run.

The measurement that a window is compared with is made once and kept (`ComparesWith`): no step on
the road after it changes what is held, whatever the launches report.
-/

set_option autoImplicit false
set_option relaxedAutoImplicit false

namespace Bc3Miner.Device

open Foundations

/-! ### Legs -/

inductive Leg
  | home
  | out
  | back
  | kept
  | straight
  | ended
  deriving DecidableEq, Repr

namespace Phase

/-- The leg a phase is on. -/
def leg : Phase → Leg
  | .warmUp _ | .measureStart _ => .home
  | .settle .. | .measureTarget .. => .out
  | .settleBack .. | .measureBack .. => .back
  | .returning .. => .kept
  | .recalled _ => .straight
  | .finished => .ended

/-- The window the phase waits to be switched to, if it does. -/
def heading (target : ℕ) : Phase → Option ℕ
  | .settle .. | .returning .. => some target
  | .settleBack .. => some startWindow
  | .recalled window => some window
  | _ => none

/-- The first measurement of the start window, once it is made. -/
def before : Phase → Option Binary64
  | .settle before _ | .measureTarget before _ => some before
  | .settleBack before _ _ | .measureBack before _ _ => some before
  | _ => none

/-- A window that has won is the target. -/
def Keeps (target : ℕ) : Phase → Prop
  | .returning choice _ => choice.window = target
  | _ => True

/-- What a launch that is answered by `wait` may change of a phase: the leg and the measurement
stay, and a switch is only no longer waited for when a launch came back at its window. -/
structure Advances (target window : ℕ) (phase next : Phase) : Prop where
  leg : next.leg = phase.leg
  before : next.before = phase.before
  heading : next.heading target = phase.heading target ∨ phase.heading target = some window
  keeps : phase.Keeps target → next.Keeps target
  straight : next.leg = .straight → next = phase

theorem Advances.refl (target window : ℕ) (phase : Phase) : phase.Advances target window phase :=
  ⟨rfl, rfl, .inl rfl, id, fun _ ↦ rfl⟩

end Phase

/-! ### What the tuner answers -/

namespace Tuner

/-- The four ways a launch can be answered: by waiting in a phase that advances, by the switch out
to the target, by the switch back to the start window, or, once that is measured too, by the choice
between the two: a last switch to the target, or the end of the tuning. -/
theorem launched_cases (tuner : Tuner) (window hashes busy : ℕ) :
    (∃ phase, tuner.launched window hashes busy = ({ tuner with phase := phase }, .wait) ∧
      tuner.phase.Advances tuner.target window phase) ∨
    (tuner.phase.leg = .home ∧ window = startWindow ∧ ∃ before,
      tuner.launched window hashes busy =
        ({ tuner with phase := .settle before 0 }, .switch tuner.target)) ∨
    (tuner.phase.leg = .out ∧ window = tuner.target ∧ tuner.phase.heading tuner.target = none ∧
      ∃ before tried, tuner.phase.before = some before ∧ tuner.launched window hashes busy =
        ({ tuner with phase := .settleBack before tried 0 }, .switch startWindow)) ∨
    (tuner.phase.leg = .back ∧ window = startWindow ∧ tuner.phase.heading tuner.target = none ∧
      ∃ choice remember,
      (choice.window = tuner.target ∧ tuner.launched window hashes busy =
        ({ tuner with phase := .returning choice remember }, .switch tuner.target)) ∨
      (choice.window = startWindow ∧ tuner.launched window hashes busy =
        ({ tuner with phase := .finished }, .done choice remember))) := by
  obtain ⟨target, fallback, ready, phase⟩ := tuner
  cases phase with
  | warmUp mined =>
    refine .inl ?_
    simp only [launched]
    split_ifs with hstart hwarm
    · exact ⟨_, rfl, ⟨rfl, rfl, .inl rfl, id, by simp [Phase.leg]⟩⟩
    · exact ⟨_, rfl, ⟨rfl, rfl, .inl rfl, id, by simp [Phase.leg]⟩⟩
    · exact ⟨_, rfl, .refl ..⟩
  | measureStart rate =>
    simp only [launched]
    split_ifs with hstart hshort
    · exact .inl ⟨_, rfl, ⟨rfl, rfl, .inl rfl, id, by simp [Phase.leg]⟩⟩
    · exact .inr (.inl ⟨rfl, hstart, _, rfl⟩)
    · exact .inl ⟨_, rfl, .refl ..⟩
  | settle before mined =>
    refine .inl ?_
    simp only [launched]
    split_ifs with htarget hsettled
    · exact ⟨_, rfl, ⟨rfl, rfl, .inr (by simp [Phase.heading, htarget]), id, by simp [Phase.leg]⟩⟩
    · exact ⟨_, rfl, ⟨rfl, rfl, .inl rfl, id, by simp [Phase.leg]⟩⟩
    · exact ⟨_, rfl, .refl ..⟩
  | measureTarget before rate =>
    simp only [launched]
    split_ifs with htarget hshort
    · exact .inl ⟨_, rfl, ⟨rfl, rfl, .inl rfl, id, by simp [Phase.leg]⟩⟩
    · exact .inr (.inr (.inl ⟨rfl, htarget, rfl, _, _, rfl, rfl⟩))
    · exact .inl ⟨_, rfl, .refl ..⟩
  | settleBack before tried mined =>
    refine .inl ?_
    simp only [launched]
    split_ifs with hstart hsettled
    · exact ⟨_, rfl, ⟨rfl, rfl, .inr (by simp [Phase.heading, hstart]), id, by simp [Phase.leg]⟩⟩
    · exact ⟨_, rfl, ⟨rfl, rfl, .inl rfl, id, by simp [Phase.leg]⟩⟩
    · exact ⟨_, rfl, .refl ..⟩
  | measureBack before tried rate =>
    simp only [launched]
    split_ifs with hstart hshort hkeep
    · exact .inl ⟨_, rfl, ⟨rfl, rfl, .inl rfl, id, by simp [Phase.leg]⟩⟩
    · exact .inr (.inr (.inr ⟨rfl, hstart, rfl, _, _, .inl ⟨by simp [judge, hkeep], rfl⟩⟩))
    · exact .inr (.inr (.inr ⟨rfl, hstart, rfl, _, _, .inr ⟨by simp [judge, hkeep], rfl⟩⟩))
    · exact .inl ⟨_, rfl, .refl ..⟩
  | returning choice remember => exact .inl ⟨_, rfl, .refl ..⟩
  | recalled remembered => exact .inl ⟨_, rfl, .refl ..⟩
  | finished => exact .inl ⟨_, rfl, .refl ..⟩

/-- Ready means a switch to a remembered window, and nothing else. -/
theorem readied_cases (tuner : Tuner) :
    (∃ window, tuner.phase = .recalled window ∧
      tuner.readied = ({ tuner with ready := true }, .switch window)) ∨
    tuner.readied = ({ tuner with ready := true }, .wait) := by
  obtain ⟨target, fallback, ready, phase⟩ := tuner
  cases phase with
  | recalled window => exact .inl ⟨window, rfl, rfl⟩
  | _ => exact .inr rfl

/-- Giving up ends the tuning at the start window. -/
theorem giveUp_eq (tuner : Tuner) (window : ℕ) :
    ∃ choice remember, choice.window = startWindow ∧
      tuner.giveUp window = ({ tuner with phase := .finished }, .done choice remember) := by
  unfold giveUp
  split_ifs
  · exact ⟨_, _, rfl, rfl⟩
  · exact ⟨_, _, rfl, rfl⟩

/-- The three ways a switch that the tuner waits for can be answered: it worked and the tuner waits,
the tuning ends with the window switched to or with the start window after a failure, or a failure
on the way out gives way to the next smaller window. -/
theorem switched_cases {tuner : Tuner} {window : ℕ} (ok : Bool)
    (hheading : tuner.phase.heading tuner.target = some window)
    (hkeeps : tuner.phase.Keeps tuner.target) :
    (ok = true ∧ (tuner.phase.leg = .out ∨ tuner.phase.leg = .back) ∧
      tuner.switched window ok = (tuner, .wait)) ∨
    (∃ choice remember, choice.window = (if ok then window else startWindow) ∧
      tuner.switched window ok = ({ tuner with phase := .finished }, .done choice remember)) ∨
    (ok = false ∧ window = tuner.target ∧ ∃ before mined next rest,
      tuner.phase = .settle before mined ∧ tuner.fallback = next :: rest ∧
      tuner.switched window ok =
        ({ tuner with target := next, fallback := rest, phase := .settle before 0 },
          .switch next)) := by
  obtain ⟨target, fallback, ready, phase⟩ := tuner
  cases phase with
  | warmUp mined => cases hheading
  | measureStart rate => cases hheading
  | measureTarget before rate => cases hheading
  | measureBack before tried rate => cases hheading
  | finished => cases hheading
  | settle before mined =>
    obtain rfl : target = window := Option.some.inj hheading
    cases ok with
    | true => exact .inl ⟨rfl, .inl rfl, rfl⟩
    | false =>
      cases fallback with
      | nil => exact .inr (.inl (giveUp_eq _ _))
      | cons next rest =>
        exact .inr (.inr ⟨rfl, rfl, before, mined, next, rest, rfl, rfl, by simp [switched]⟩)
  | settleBack before tried mined =>
    cases ok with
    | true => exact .inl ⟨rfl, .inr rfl, rfl⟩
    | false => exact .inr (.inl (giveUp_eq _ _))
  | returning choice remember =>
    obtain rfl : target = window := Option.some.inj hheading
    cases ok with
    | true => exact .inr (.inl ⟨choice, remember, hkeeps, by simp [switched]⟩)
    | false => exact .inr (.inl (giveUp_eq _ _))
  | recalled remembered =>
    cases ok with
    | true => exact .inr (.inl ⟨_, _, rfl, rfl⟩)
    | false => exact .inr (.inl (giveUp_eq _ _))

end Tuner

/-! ### What was said -/

namespace Action

def isDone : Action → Bool
  | .done .. => true
  | _ => false

end Action

namespace History

@[simp] theorem switches_wait (event : Event) (history : History) :
    switches ((event, .wait) :: history) = switches history := by
  simp [switches]

@[simp] theorem switches_switch (event : Event) (window : ℕ) (history : History) :
    switches ((event, .switch window) :: history) = switches history + 1 := by
  simp [switches]

@[simp] theorem switches_done (event : Event) (choice : Choice) (remember : Bool)
    (history : History) :
    switches ((event, .done choice remember) :: history) = switches history := by
  simp [switches]

@[simp] theorem tried_wait (event : Event) (history : History) :
    tried ((event, .wait) :: history) = tried history := by
  rcases event with _ | _ | ⟨window, _ | _⟩ <;> rfl

@[simp] theorem tried_done (event : Event) (choice : Choice) (remember : Bool)
    (history : History) : tried ((event, .done choice remember) :: history) = tried history := by
  rcases event with _ | _ | ⟨window, _ | _⟩ <;> rfl

@[simp] theorem tried_ready (action : Action) (history : History) :
    tried ((.ready, action) :: history) = tried history := rfl

@[simp] theorem tried_launched (window hashes busy : ℕ) (action : Action) (history : History) :
    tried ((.launched window hashes busy, action) :: history) = tried history := rfl

@[simp] theorem tried_switched (window next : ℕ) (history : History) :
    tried ((.switched window false, .switch next) :: history) = next :: tried history := rfl

/-- Nobody was told yet that the tuning is over. -/
def Undone (history : History) : Prop := ∀ entry ∈ history, entry.2.isDone = false

/-- After the end nothing is asked for any more, and the end names 16 or the window of the last
switch that succeeded. -/
structure Sound (history : History) : Prop where
  once : history.Pairwise fun later earlier ↦ earlier.2.isDone = true → later.2 = .wait
  chosen : ∀ event choice remember earlier,
    (event, Action.done choice remember) :: earlier <:+ history →
      choice.window = startWindow ∨
        reached ((event, .done choice remember) :: earlier) = some choice.window

/-- An action that is not the last keeps a history undone. -/
theorem Undone.cons {history : History} (hundone : history.Undone) {event : Event}
    {action : Action} (haction : action.isDone = false) : Undone ((event, action) :: history) := by
  intro entry hentry
  rcases List.mem_cons.mp hentry with rfl | hearlier
  · exact haction
  · exact hundone entry hearlier

theorem Sound.nil : Sound [] :=
  ⟨List.Pairwise.nil, fun _ _ _ _ hsuffix ↦
    absurd (List.suffix_nil.mp hsuffix) (List.cons_ne_nil _ _)⟩

/-- Waiting says nothing. -/
theorem Sound.wait {history : History} (hsound : history.Sound) (event : Event) :
    Sound ((event, .wait) :: history) := by
  refine ⟨List.pairwise_cons.mpr ⟨fun _ _ _ ↦ rfl, hsound.once⟩, ?_⟩
  intro event' choice remember earlier hsuffix
  rcases List.suffix_cons_iff.mp hsuffix with heq | hearlier
  · cases heq
  · exact hsound.chosen event' choice remember earlier hearlier

/-- While the tuning is not over, anything may be said that is not the end. -/
theorem Sound.ask {history : History} (hsound : history.Sound) (hundone : history.Undone)
    (event : Event) {action : Action} (haction : action.isDone = false) :
    Sound ((event, action) :: history) := by
  refine ⟨List.pairwise_cons.mpr ⟨fun entry hentry hdone ↦ ?_, hsound.once⟩, ?_⟩
  · rw [hundone entry hentry] at hdone
    cases hdone
  · intro event' choice remember earlier hsuffix
    rcases List.suffix_cons_iff.mp hsuffix with heq | hearlier
    · obtain ⟨⟨-, rfl⟩, -⟩ := by simpa using heq
      cases haction
    · exact hsound.chosen event' choice remember earlier hearlier

/-- The end, when it is not reached yet, and with a window the card is at. -/
theorem Sound.finish {history : History} (hsound : history.Sound) (hundone : history.Undone)
    {event : Event} {choice : Choice} {remember : Bool}
    (hchosen : choice.window = startWindow ∨
      reached ((event, .done choice remember) :: history) = some choice.window) :
    Sound ((event, .done choice remember) :: history) := by
  refine ⟨List.pairwise_cons.mpr ⟨fun entry hentry hdone ↦ ?_, hsound.once⟩, ?_⟩
  · rw [hundone entry hentry] at hdone
    cases hdone
  · intro event' choice' remember' earlier hsuffix
    rcases List.suffix_cons_iff.mp hsuffix with heq | hearlier
    · cases heq
      exact hchosen
    · exact hsound.chosen event' choice' remember' earlier hearlier

end History

/-! ### The invariant of a drive -/

namespace Drive

/-- How many switches the legs so far have asked for, smaller windows not counted. -/
def begun (drive : Drive) : ℕ :=
  match drive.tuner.phase.leg with
  | .home => 0
  | .out => 1
  | .back => 2
  | .kept | .ended => 3
  | .straight => drive.pending.toList.length

/-- What every run of a drive keeps; `fallback` are the smaller windows the tuner started with. -/
structure OnTheRoad (fallback : List ℕ) (drive : Drive) : Prop where
  descends : fallback = drive.history.tried.reverse ++ drive.tuner.fallback
  counted : drive.history.switches ≤ drive.begun + drive.history.tried.length
  pending : drive.pending = none ∨ drive.pending = drive.tuner.phase.heading drive.tuner.target
  keeps : drive.tuner.phase.Keeps drive.tuner.target
  undone : drive.tuner.phase.leg ≠ .ended → drive.history.Undone
  sound : drive.history.Sound

theorem begun_le (drive : Drive) : drive.begun ≤ 3 := by
  unfold begun
  cases drive.pending <;> cases drive.tuner.phase.leg <;> simp

namespace OnTheRoad

variable {fallback : List ℕ} {drive : Drive}

/-- An answer `wait` keeps the drive on its road, if the tuner stays on the leg it was on with the
same windows left to try, and no switch is pending that the phase does not head for. -/
theorem wait (hroad : drive.OnTheRoad fallback) (event : Event) {tuner : Tuner} {pending : Option ℕ}
    (hfallback : tuner.fallback = drive.tuner.fallback)
    (hleg : tuner.phase.leg = drive.tuner.phase.leg)
    (hpending : pending = none ∨ pending = tuner.phase.heading tuner.target)
    (hstraight : tuner.phase.leg = .straight → pending = drive.pending)
    (hkeeps : tuner.phase.Keeps tuner.target) :
    OnTheRoad fallback ⟨tuner, pending, (event, .wait) :: drive.history⟩ where
  descends := by
    rw [History.tried_wait, hfallback]
    exact hroad.descends
  counted := by
    have hbegun : begun ⟨tuner, pending, (event, .wait) :: drive.history⟩ = drive.begun := by
      unfold begun
      rw [hleg]
      cases hcase : drive.tuner.phase.leg with
      | straight => rw [hstraight (hleg.trans hcase)]
      | _ => rfl
    rw [History.switches_wait, History.tried_wait, hbegun]
    exact hroad.counted
  pending := hpending
  keeps := hkeeps
  undone := fun hover ↦ (hroad.undone (hleg ▸ hover)).cons rfl
  sound := hroad.sound.wait event

/-- The end of the tuning keeps the drive on its road: it was not over before, and what is chosen is
the start window or the window that the switches had reached. -/
theorem finish (hroad : drive.OnTheRoad fallback) (hover : drive.tuner.phase.leg ≠ .ended)
    {event : Event} {choice : Choice} {remember : Bool}
    (hchosen : choice.window = startWindow ∨
      History.reached ((event, .done choice remember) :: drive.history) = some choice.window) :
    OnTheRoad fallback ⟨{ drive.tuner with phase := .finished }, none,
      (event, .done choice remember) :: drive.history⟩ where
  descends := by
    rw [History.tried_done]
    exact hroad.descends
  counted := by
    rw [History.switches_done, History.tried_done]
    exact hroad.counted.trans (Nat.add_le_add_right drive.begun_le _)
  pending := .inl rfl
  keeps := trivial
  undone := fun hnot ↦ absurd rfl hnot
  sound := hroad.sound.finish (hroad.undone hover) hchosen

/-- The next leg keeps the drive on its road. It begins with a switch to the window that its phase
heads for, and it counts as begun once: the windows tried so far are the same, and the legs begun
are one more. -/
theorem nextLeg (hroad : drive.OnTheRoad fallback) (hover : drive.tuner.phase.leg ≠ .ended)
    {event : Event} {tuner : Tuner} {window : ℕ}
    (hfallback : tuner.fallback = drive.tuner.fallback)
    (htried : History.tried ((event, .switch window) :: drive.history) = drive.history.tried)
    (hbegun : drive.begun + 1 =
      begun ⟨tuner, some window, (event, .switch window) :: drive.history⟩)
    (hheading : tuner.phase.heading tuner.target = some window)
    (hkeeps : tuner.phase.Keeps tuner.target) :
    OnTheRoad fallback ⟨tuner, some window, (event, .switch window) :: drive.history⟩ where
  descends := by
    rw [htried, hfallback]
    exact hroad.descends
  counted := by
    rw [History.switches_switch, htried, ← hbegun, Nat.add_right_comm]
    exact Nat.add_le_add_right hroad.counted 1
  pending := .inr hheading.symm
  keeps := hkeeps
  undone := fun _ ↦ (hroad.undone hover).cons rfl
  sound := hroad.sound.ask (hroad.undone hover) event rfl

/-- A switch out that failed keeps the drive on its road, if the windows left to try are not empty:
the first of them becomes the target, is switched to, and is recorded among those tried. -/
theorem giveWay (hroad : drive.OnTheRoad fallback) {before : Binary64} {mined next : ℕ}
    {rest : List ℕ} (hphase : drive.tuner.phase = .settle before mined)
    (hfallback : drive.tuner.fallback = next :: rest) (window : ℕ) :
    OnTheRoad fallback
      ⟨{ drive.tuner with target := next, fallback := rest, phase := .settle before 0 }, some next,
        (.switched window false, .switch next) :: drive.history⟩ where
  descends := by
    rw [hroad.descends, hfallback]
    simp
  counted := by
    have hbegun : drive.begun = 1 := by simp [begun, hphase, Phase.leg]
    have hcounted := hroad.counted
    rw [hbegun] at hcounted
    rw [History.switches_switch, History.tried_switched, List.length_cons]
    exact Nat.add_le_add_right hcounted 1
  pending := .inr rfl
  keeps := trivial
  undone := fun _ ↦ (hroad.undone (by simp [hphase, Phase.leg])).cons rfl
  sound := hroad.sound.ask (hroad.undone (by simp [hphase, Phase.leg])) _ rfl

/-- A pending switch is the one the phase waits for. -/
theorem heading_of_pending (hroad : drive.OnTheRoad fallback) {window : ℕ}
    (hpending : drive.pending = some window) :
    drive.tuner.phase.heading drive.tuner.target = some window := by
  rcases hroad.pending with hnone | hwaits
  · rw [hpending] at hnone
    cases hnone
  · exact hwaits.symm.trans hpending

/-- The report that a build is ready keeps the drive on its road. -/
theorem ready (hroad : drive.OnTheRoad fallback) {next : Drive}
    (hstep : drive.step .ready = some next) : next.OnTheRoad fallback := by
  simp only [Drive.step] at hstep
  split_ifs at hstep with hrepeated
  obtain rfl := Option.some.inj hstep
  rcases drive.tuner.readied_cases with ⟨window, hphase, hanswer⟩ | hanswer
  · have hnone : drive.pending = none := by
      simpa [goesStraight, hphase] using hrepeated
    rw [take, hanswer]
    refine hroad.nextLeg (by simp [hphase, Phase.leg]) rfl rfl ?_ ?_ ?_
    · simp [begun, hphase, Phase.leg, hnone]
    · simp [hphase, Phase.heading]
    · simp [hphase, Phase.Keeps]
  · rw [take, hanswer]
    exact hroad.wait .ready rfl rfl hroad.pending (fun _ ↦ rfl) hroad.keeps

/-- A launch keeps the drive on its road, whatever it measured. -/
theorem launched (hroad : drive.OnTheRoad fallback) {next : Drive} {window hashes busy : ℕ}
    (hstep : drive.step (.launched window hashes busy) = some next) : next.OnTheRoad fallback := by
  simp only [Drive.step] at hstep
  split_ifs at hstep with hyet
  obtain rfl := Option.some.inj hstep
  have hnone : drive.tuner.phase.heading drive.tuner.target = none → drive.pending = none := by
    intro hheading
    rcases hroad.pending with hpending | hpending
    · exact hpending
    · exact hpending.trans hheading
  rcases drive.tuner.launched_cases window hashes busy with
    ⟨phase, hanswer, hadvances⟩ | ⟨hleg, -, before, hanswer⟩ |
    ⟨hleg, -, hheading, before, tried, -, hanswer⟩ | ⟨hleg, -, hheading, choice, remember, hjudged⟩
  · rw [take, hanswer]
    refine hroad.wait _ rfl hadvances.leg ?_ (fun _ ↦ rfl) (hadvances.keeps hroad.keeps)
    rcases hroad.pending with hpending | hpending
    · exact .inl hpending
    · rcases hadvances.heading with hsame | harrived
      · exact .inr (hpending.trans hsame.symm)
      · exact absurd (hpending.trans harrived) hyet
  · rw [take, hanswer]
    exact hroad.nextLeg (by simp [hleg]) rfl rfl (by simp only [begun, hleg]; rfl) rfl trivial
  · rw [take, hanswer]
    exact hroad.nextLeg (by simp [hleg]) rfl rfl (by simp only [begun, hleg]; rfl) rfl trivial
  · rcases hjudged with ⟨hwindow, hanswer⟩ | ⟨hwindow, hanswer⟩
    · rw [take, hanswer]
      exact hroad.nextLeg (by simp [hleg]) rfl rfl (by simp only [begun, hleg]; rfl) rfl hwindow
    · rw [take, hanswer, hnone hheading]
      exact hroad.finish (by simp [hleg]) (.inl hwindow)

/-- The outcome of a switch keeps the drive on its road, whether it worked or not. -/
theorem switched (hroad : drive.OnTheRoad fallback) {next : Drive} {window : ℕ} {ok : Bool}
    (hstep : drive.step (.switched window ok) = some next) : next.OnTheRoad fallback := by
  simp only [Drive.step] at hstep
  split_ifs at hstep with hpending
  obtain rfl := Option.some.inj hstep
  have hheading := hroad.heading_of_pending hpending
  have hover : drive.tuner.phase.leg ≠ .ended := by
    intro hleg
    cases hphase : drive.tuner.phase <;>
      simp [hphase, Phase.leg, Phase.heading] at hleg hheading
  rcases Tuner.switched_cases ok hheading hroad.keeps with
    ⟨-, hleg, hanswer⟩ | ⟨choice, remember, hchosen, hanswer⟩ |
    ⟨rfl, -, before, mined, smaller, rest, hphase, hfallback, hanswer⟩
  · rw [take, hanswer]
    refine hroad.wait _ rfl rfl (.inl rfl) (fun hstraight ↦ ?_) hroad.keeps
    rcases hleg with hout | hback
    · rw [hout] at hstraight
      cases hstraight
    · rw [hback] at hstraight
      cases hstraight
  · rw [take, hanswer]
    refine hroad.finish hover ?_
    cases ok with
    | true => exact .inr (by rw [hchosen]; rfl)
    | false => exact .inl hchosen
  · rw [take, hanswer]
    exact hroad.giveWay hphase hfallback window

/-- Every event keeps the invariant. -/
theorem step (hroad : drive.OnTheRoad fallback) {event : Event} {next : Drive}
    (hstep : drive.step event = some next) : next.OnTheRoad fallback := by
  cases event with
  | ready => exact hroad.ready hstep
  | launched window hashes busy => exact hroad.launched hstep
  | switched window ok => exact hroad.switched hstep

/-- A tuner that was just started stands at its beginning. -/
theorem start {fitting : Option ℕ} {recalled : Option Choice} {tuner : Tuner} {first : Action}
    (hstart : Tuner.start fitting recalled = some (tuner, first)) :
    (Drive.start tuner).OnTheRoad tuner.fallback where
  descends := rfl
  counted := Nat.zero_le _
  pending := .inl rfl
  keeps := by
    unfold Tuner.start at hstart
    split at hstart
    · cases hstart
    · split_ifs at hstart
      cases hstart
      trivial
    · cases hstart
      trivial
  undone := fun _ _ hentry ↦ absurd hentry List.not_mem_nil
  sound := .nil

/-- The invariant holds at the end of every run of a tuner that was started. -/
theorem of_run {fitting : Option ℕ} {recalled : Option Choice} {tuner : Tuner} {first : Action}
    (hstart : Tuner.start fitting recalled = some (tuner, first)) {events : List Event}
    (hrun : PartialMachine.run Drive.step (Drive.start tuner) events = some drive) :
    drive.OnTheRoad tuner.fallback :=
  PartialMachine.invariant_of_run (fun _ _ _ hstep hroad ↦ hroad.step hstep) hrun (.start hstart)

end OnTheRoad

/-! ### One measurement to compare with -/

/-- The first measurement of the start window is the given one, or the tuning is past comparing. -/
def ComparesWith (before : Binary64) (phase : Phase) : Prop :=
  phase.before = some before ∨ phase.leg = .kept ∨ phase.leg = .ended

/-- A phase that advances goes on comparing with the same rate. -/
theorem ComparesWith.of_advances {before : Binary64} {target window : ℕ} {phase next : Phase}
    (hcompares : ComparesWith before phase) (hadvances : phase.Advances target window next) :
    ComparesWith before next := by
  unfold ComparesWith
  rw [hadvances.before, hadvances.leg]
  exact hcompares

/-- On the way out and back, comparing means holding the measurement. -/
theorem ComparesWith.eq_of_before {before held : Binary64} {phase : Phase}
    (hcompares : ComparesWith before phase) (hheld : phase.before = some held) : held = before := by
  rcases hcompares with hbefore | hleg
  · exact Option.some.inj (hheld.symm.trans hbefore)
  · cases phase <;> simp [Phase.before, Phase.leg] at hheld hleg

/-- No event replaces the measurement. -/
theorem ComparesWith.step {before : Binary64} {fallback : List ℕ} {drive next : Drive}
    {event : Event} (hroad : drive.OnTheRoad fallback)
    (hcompares : ComparesWith before drive.tuner.phase)
    (hstep : drive.step event = some next) : ComparesWith before next.tuner.phase := by
  cases event with
  | ready =>
    simp only [Drive.step] at hstep
    split_ifs at hstep
    obtain rfl := Option.some.inj hstep
    exact hcompares
  | launched window hashes busy =>
    simp only [Drive.step] at hstep
    split_ifs at hstep
    obtain rfl := Option.some.inj hstep
    rcases drive.tuner.launched_cases window hashes busy with
      ⟨phase, hanswer, hadvances⟩ | ⟨hleg, -, first, hanswer⟩ |
      ⟨hleg, -, -, held, tried, hheld, hanswer⟩ | ⟨hleg, -, -, choice, remember, hjudged⟩
    · rw [take, hanswer]
      exact hcompares.of_advances hadvances
    · rcases hcompares with hbefore | hlater
      · cases hphase : drive.tuner.phase <;> simp [hphase, Phase.before, Phase.leg] at hbefore hleg
      · simp [hleg] at hlater
    · rw [take, hanswer, ← hcompares.eq_of_before hheld]
      exact .inl rfl
    · rcases hjudged with ⟨-, hanswer⟩ | ⟨-, hanswer⟩
      · rw [take, hanswer]
        exact .inr (.inl rfl)
      · rw [take, hanswer]
        exact .inr (.inr rfl)
  | switched window ok =>
    simp only [Drive.step] at hstep
    split_ifs at hstep with hpending
    obtain rfl := Option.some.inj hstep
    rcases Tuner.switched_cases ok (hroad.heading_of_pending hpending) hroad.keeps with
      ⟨-, -, hanswer⟩ | ⟨choice, remember, -, hanswer⟩ |
      ⟨-, -, held, mined, smaller, rest, hphase, -, hanswer⟩
    · rw [take, hanswer]
      exact hcompares
    · rw [take, hanswer]
      exact .inr (.inr rfl)
    · have hheld : drive.tuner.phase.before = some held := by rw [hphase]; rfl
      rw [take, hanswer, ← hcompares.eq_of_before hheld]
      exact .inl rfl

/-- Along a run nothing replaces the measurement. -/
theorem ComparesWith.run {before : Binary64} {fallback : List ℕ} {drive final : Drive}
    {events : List Event} (hroad : drive.OnTheRoad fallback)
    (hcompares : ComparesWith before drive.tuner.phase)
    (hrun : PartialMachine.run Drive.step drive events = some final) :
    ComparesWith before final.tuner.phase := by
  have hkeep : ∀ state event next, Drive.step state event = some next →
      (state.OnTheRoad fallback ∧ ComparesWith before state.tuner.phase) →
      next.OnTheRoad fallback ∧ ComparesWith before next.tuner.phase :=
    fun state event next hstep hboth ↦ ⟨hboth.1.step hstep, hboth.2.step hboth.1 hstep⟩
  exact (PartialMachine.invariant_of_run hkeep hrun ⟨hroad, hcompares⟩).2

end Drive

end Bc3Miner.Device
