import Bc3Miner.Foundations.PartialMachine
import Mathlib.Data.Set.Finite.Basic
import Mathlib.Order.Interval.Finset.Nat
import Mathlib.Order.WellFounded

/-!
# Endless runs

A run of a partial machine that never ends: a state and an accepted event for every number. What
every step keeps holds at every number (`EndlessRun.invariant`), and from any number on. A thing
that happens only while a potential sinks, and never again after a point of no return, happens
finitely often (`EndlessRun.finite_of_potential`).

The run is a function on the natural numbers, so there is no need of fairness or of a scheduler: a
statement about endless runs is one about every such function that the machine accepts.
-/

set_option autoImplicit false
set_option relaxedAutoImplicit false

namespace Bc3Miner.Foundations

variable {State Event : Type*} {step : State → Event → Option State} {start : State}

/-- A run that never ends, with an accepted event in every state. -/
structure EndlessRun (step : State → Event → Option State) (start : State) where
  state : ℕ → State
  event : ℕ → Event
  begins : state 0 = start
  steps : ∀ n, step (state n) (event n) = some (state (n + 1))

namespace EndlessRun

variable (run : EndlessRun step start)

/-- What every step keeps holds from any number on at which it holds. -/
theorem invariant_from {invariant : State → Prop}
    (hkeep : ∀ state event next, step state event = some next → invariant state → invariant next)
    {n : ℕ} (hn : invariant (run.state n)) {later : ℕ} (hlater : n ≤ later) :
    invariant (run.state later) := by
  induction later, hlater using Nat.le_induction with
  | base => exact hn
  | succ later _ ih => exact hkeep _ _ _ (run.steps later) ih

/-- What every step keeps holds at every number. -/
theorem invariant {invariant : State → Prop}
    (hkeep : ∀ state event next, step state event = some next → invariant state → invariant next)
    (hstart : invariant start) (n : ℕ) : invariant (run.state n) := by
  have hfirst : invariant (run.state 0) := by
    rw [run.begins]
    exact hstart
  exact run.invariant_from hkeep hfirst (Nat.zero_le n)

/-- While the run sinks, a potential never rises, and falls at every marked step; once it has
settled, it stays so and no step is marked. Then only finitely many steps are marked: from the
number with the least potential on, the potential cannot fall any more. -/
theorem finite_of_potential {sinking settled : State → Prop} {marked : State → Event → Prop}
    {potential : State → ℕ}
    (hsinks : ∀ state event next, step state event = some next → sinking state →
      sinking next ∧ potential next ≤ potential state ∧
        (marked state event → potential next < potential state) ∨ settled next)
    (hsettled : ∀ state event next, step state event = some next → settled state →
      settled next ∧ ¬ marked state event)
    (hstart : sinking start) : {n | marked (run.state n) (run.event n)}.Finite := by
  by_cases hever : ∃ n, settled (run.state n)
  · obtain ⟨n, hn⟩ := hever
    refine (Set.finite_Iio n).subset fun m hm ↦ ?_
    by_contra hlate
    rw [Set.mem_Iio, not_lt] at hlate
    have hm' : settled (run.state m) :=
      run.invariant_from (fun _ _ _ hstep hnow ↦ (hsettled _ _ _ hstep hnow).1) hn hlate
    exact (hsettled _ _ _ (run.steps m) hm').2 hm
  · rw [not_exists] at hever
    have hsinking (n : ℕ) : sinking (run.state n) := by
      induction n with
      | zero =>
        rw [run.begins]
        exact hstart
      | succ n ih =>
        rcases hsinks _ _ _ (run.steps n) ih with hnext | hnext
        · exact hnext.1
        · exact absurd hnext (hever _)
    have hnext (n : ℕ) : potential (run.state (n + 1)) ≤ potential (run.state n) ∧
        (marked (run.state n) (run.event n) →
          potential (run.state (n + 1)) < potential (run.state n)) := by
      rcases hsinks _ _ _ (run.steps n) (hsinking n) with hnext | hnext
      · exact hnext.2
      · exact absurd hnext (hever _)
    have hfalls : Antitone fun n ↦ potential (run.state n) :=
      antitone_nat_of_succ_le fun n ↦ (hnext n).1
    let least := Function.argmin (fun n ↦ potential (run.state n))
    have hleast (n : ℕ) : potential (run.state least) ≤ potential (run.state n) :=
      Function.argmin_le (fun n ↦ potential (run.state n)) n
    refine (Set.finite_Iio least).subset fun m hm ↦ ?_
    by_contra hlate
    rw [Set.mem_Iio, not_lt] at hlate
    exact absurd ((hleast (m + 1)).trans_lt ((hnext m).2 hm)) (not_lt.mpr (hfalls hlate))

end EndlessRun

end Bc3Miner.Foundations
