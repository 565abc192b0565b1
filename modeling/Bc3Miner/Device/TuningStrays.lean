import Bc3Miner.Foundations.Insertions
import Bc3Miner.Device.WindowTuner

/-!
# Launches from before a switch

A launch still in flight across a switch comes back at a window that the phase of the tuner does not
expect. `Tuner.expected` is the one window whose launches a phase counts; a launch at any other
window is a stray, answered with `wait` and forgotten. Two runs of the tuner, one with strays
inserted anywhere and one without, therefore go through the same phases, try the same windows and
end in the same choice.

The comparison is `Insertions.transcript_without_insertions`, and the tuner's part in it is that a
stray is not noticed (`handle_stray`). `strays_change_nothing_across_a_switch` is a switch with a
launch of the old window behind it.
-/

set_option autoImplicit false
set_option relaxedAutoImplicit false

namespace Bc3Miner.Device

open Foundations

namespace Tuner

/-- The window whose launches the phase measures or settles at. -/
def expected (tuner : Tuner) : Option ℕ :=
  match tuner.phase with
  | .warmUp _ => if tuner.ready then some startWindow else none
  | .measureStart _ | .settleBack .. | .measureBack .. => some startWindow
  | .settle .. | .measureTarget .. => some tuner.target
  | .returning .. | .recalled _ | .finished => none

/-- A launch that came back at a window the phase does not expect. -/
def Stray (tuner : Tuner) : Event → Prop
  | .launched window _ _ => tuner.expected ≠ some window
  | .ready | .switched .. => False

instance (tuner : Tuner) : (event : Event) → Decidable (tuner.Stray event)
  | .launched .. => inferInstanceAs (Decidable (_ ≠ _))
  | .ready | .switched .. => .isFalse id

/-- What the driver reports, and the tuner's answer. -/
def handle (tuner : Tuner) : Event → Tuner × Action
  | .ready => tuner.readied
  | .launched window hashes busy => tuner.launched window hashes busy
  | .switched window ok => tuner.switched window ok

/-- A launch at a window the phase does not expect counts for nothing. -/
theorem launched_of_unexpected (tuner : Tuner) {window : ℕ} (hashes busy : ℕ)
    (hwindow : tuner.expected ≠ some window) :
    tuner.launched window hashes busy = (tuner, .wait) := by
  rcases tuner with ⟨target, fallback, ready, phase⟩
  cases phase with
  | warmUp mined =>
    have hnot : ¬ (window = startWindow ∧ ready = true) := by
      rintro ⟨rfl, rfl⟩
      exact hwindow rfl
    exact if_neg hnot
  | measureStart rate => exact if_neg fun hsame ↦ hwindow (congrArg some hsame.symm)
  | settle before mined => exact if_neg fun hsame ↦ hwindow (congrArg some hsame.symm)
  | measureTarget before rate => exact if_neg fun hsame ↦ hwindow (congrArg some hsame.symm)
  | settleBack before tried mined => exact if_neg fun hsame ↦ hwindow (congrArg some hsame.symm)
  | measureBack before tried rate => exact if_neg fun hsame ↦ hwindow (congrArg some hsame.symm)
  | returning choice remember => rfl
  | recalled window => rfl
  | finished => rfl

/-- A stray is answered with `wait` and leaves the tuner as it was. -/
theorem handle_stray (tuner : Tuner) (event : Event) (hstray : tuner.Stray event) :
    tuner.handle event = (tuner, .wait) := by
  cases event with
  | ready => exact absurd hstray id
  | launched window hashes busy => exact launched_of_unexpected tuner hashes busy hstray
  | switched window ok => exact absurd hstray id

/-- No other launch is forgotten: one at the expected window that took any time moves the phase, or
what the phase has accumulated. -/
theorem launched_of_expected (tuner : Tuner) {window : ℕ} (hashes : ℕ) {busy : ℕ} (hbusy : 0 < busy)
    (hwindow : tuner.expected = some window) :
    (tuner.launched window hashes busy).1.phase ≠ tuner.phase := by
  rcases tuner with ⟨target, fallback, ready, phase⟩
  have hrate (rate : Rate) : rate.add hashes busy ≠ rate := by
    intro hsame
    have hbusySame : rate.busy + busy = rate.busy := congrArg Rate.busy hsame
    omega
  cases phase with
  | warmUp mined =>
    by_cases hready : ready = true
    · subst hready
      obtain rfl : startWindow = window := by simpa [expected] using hwindow
      simp only [launched, and_self, ↓reduceIte]
      split_ifs
      · exact Phase.noConfusion
      · intro hsame
        have := Phase.warmUp.inj hsame
        omega
    · simp [expected, hready] at hwindow
  | measureStart rate =>
    obtain rfl : startWindow = window := by simpa [expected] using hwindow
    simp only [launched, ↓reduceIte]
    split_ifs
    · intro hsame
      exact hrate rate (Phase.measureStart.inj hsame)
    · exact Phase.noConfusion
  | settle before mined =>
    obtain rfl : target = window := by simpa [expected] using hwindow
    simp only [launched, ↓reduceIte]
    split_ifs
    · exact Phase.noConfusion
    · intro hsame
      have := (Phase.settle.inj hsame).2
      omega
  | measureTarget before rate =>
    obtain rfl : target = window := by simpa [expected] using hwindow
    simp only [launched, ↓reduceIte]
    split_ifs
    · intro hsame
      exact hrate rate (Phase.measureTarget.inj hsame).2
    · exact Phase.noConfusion
  | settleBack before tried mined =>
    obtain rfl : startWindow = window := by simpa [expected] using hwindow
    simp only [launched, ↓reduceIte]
    split_ifs
    · exact Phase.noConfusion
    · intro hsame
      have := (Phase.settleBack.inj hsame).2.2
      omega
  | measureBack before tried rate =>
    obtain rfl : startWindow = window := by simpa [expected] using hwindow
    simp only [launched, ↓reduceIte]
    split_ifs
    · intro hsame
      exact hrate rate (Phase.measureBack.inj hsame).2.2
    · exact Phase.noConfusion
    · exact Phase.noConfusion
  | returning choice remember => simp [expected] at hwindow
  | recalled window => simp [expected] at hwindow
  | finished => simp [expected] at hwindow

open Insertions in
/-- Strays inserted anywhere into the events of a tuner change nothing: each is answered with
`wait`, and every other event is answered, and leaves the tuner with its phase, its target and the
windows it would fall back to, as it does without them. -/
theorem strays_change_nothing (tuner : Tuner) (events : List (Marked Event))
    (hstrays : InsertedAt handle Stray tuner events) :
    (∀ turn ∈ transcript (blind handle) tuner events,
      turn.event.inserted = true → turn.answer = .wait) ∧
    ownTurns (transcript (blind handle) tuner events) = transcript handle tuner (own events) ∧
    after (blind handle) tuner events = after handle tuner (own events) := by
  have hunnoticed : ∀ tuner event, Stray tuner event → (handle tuner event).1 = tuner := by
    intro tuner event hstray
    rw [handle_stray tuner event hstray]
  have hwaits : ∀ tuner event, Stray tuner event → (handle tuner event).2 = .wait := by
    intro tuner event hstray
    rw [handle_stray tuner event hstray]
  refine ⟨?_, ?_, ?_⟩
  · exact answer_of_inserted (· = .wait) hwaits tuner events hstrays
  · exact transcript_without_insertions hunnoticed tuner events hstrays
  · exact after_without_insertions hunnoticed tuner events hstrays

open Insertions in
/-- A launch before the target is ready, one at the target before the switch and one at the start
window after it. -/
theorem strays_change_nothing_across_a_switch :
    let tuner : Tuner := ⟨22, [20, 19, 18], false, .warmUp 0⟩
    let events : List (Marked Event) :=
      [⟨.launched 16 1000 (40 * 10 ^ 9), true⟩, ⟨.ready, false⟩,
        ⟨.launched 16 1000 (90 * 10 ^ 9), false⟩, ⟨.launched 22 5000 (70 * 10 ^ 9), true⟩,
        ⟨.launched 16 1000 (60 * 10 ^ 9), false⟩, ⟨.launched 16 1000 (60 * 10 ^ 9), true⟩,
        ⟨.switched 22 true, false⟩]
    (own events).length = 4 ∧
      (∀ turn ∈ transcript (blind handle) tuner events,
        turn.event.inserted = true → turn.answer = .wait) ∧
      ownTurns (transcript (blind handle) tuner events) = transcript handle tuner (own events) ∧
      after (blind handle) tuner events = after handle tuner (own events) := by
  intro tuner events
  have hstrays : InsertedAt handle Stray tuner events := by decide +kernel
  exact ⟨by decide, strays_change_nothing tuner events hstrays⟩

end Tuner

end Bc3Miner.Device
