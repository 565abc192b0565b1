import Mathlib.Order.Iterate
import Mathlib.Order.Monotone.Basic
import Mathlib.Order.WellFounded

/-!
# Orbits that settle

A step on numbers that never turns: where it went up it does not go down next, and where it went
down it does not go up next. The orbit of such a step goes one way only, and if it stays below a
bound it comes to a fixed point.

`KeepsDirection` is a condition on two steps in a row, so it can be checked at each state alone.
From it the orbit is monotone or antitone (`orbit_monotone`, `orbit_antitone`), and a bound on one
side makes it settle (`orbit_settles`).
-/

set_option autoImplicit false
set_option relaxedAutoImplicit false

namespace Bc3Miner.Foundations

/-- The step does not turn at `value`: after going up it does not go down, after going down not
up. -/
structure KeepsDirection (step : ℕ → ℕ) (value : ℕ) : Prop where
  up : value < step value → step value ≤ step (step value)
  down : step value < value → step (step value) ≤ step value

section Orbit

variable {step : ℕ → ℕ} {start : ℕ}

/-- From a value that the step does not lower, the orbit never goes down. -/
theorem orbit_monotone (hkeeps : ∀ n, KeepsDirection step (step^[n] start))
    (hup : start ≤ step start) :
    Monotone fun n ↦ step^[n] start := by
  refine monotone_nat_of_le_succ fun n ↦ ?_
  induction n with
  | zero => exact hup
  | succ n ih =>
    rw [Function.iterate_succ_apply' step (n + 1), Function.iterate_succ_apply' step n] at *
    rcases ih.eq_or_lt with hfixed | hless
    · rw [← hfixed]
      exact hfixed.le
    · exact (hkeeps n).up hless

/-- From a value that the step does not raise, the orbit never goes up. -/
theorem orbit_antitone (hkeeps : ∀ n, KeepsDirection step (step^[n] start))
    (hdown : step start ≤ start) :
    Antitone fun n ↦ step^[n] start := by
  refine antitone_nat_of_succ_le fun n ↦ ?_
  induction n with
  | zero => exact hdown
  | succ n ih =>
    rw [Function.iterate_succ_apply' step (n + 1), Function.iterate_succ_apply' step n] at *
    rcases ih.eq_or_lt with hfixed | hless
    · rw [hfixed]
      exact hfixed.le
    · exact (hkeeps n).down hless

/-- An orbit that goes one way, below a bound, stands still somewhere. -/
theorem exists_fixed {bound : ℕ} (hbound : ∀ n, step^[n] start ≤ bound)
    (hway : Monotone (fun n ↦ step^[n] start) ∨ Antitone fun n ↦ step^[n] start) :
    ∃ n, step (step^[n] start) = step^[n] start := by
  by_contra hmoves
  rw [not_exists] at hmoves
  rcases hway with hup | hdown
  · have hstrict : StrictMono fun n ↦ step^[n] start := by
      refine strictMono_nat_of_lt_succ fun n ↦ ?_
      have hle : step^[n] start ≤ step^[n + 1] start := hup (Nat.le_succ n)
      rw [Function.iterate_succ_apply' step n] at *
      exact lt_of_le_of_ne hle (Ne.symm (hmoves n))
    exact absurd (hstrict.le_apply.trans (hbound (bound + 1))) (Nat.not_succ_le_self bound)
  · have hfall (n : ℕ) : step^[n] start + n ≤ start := by
      induction n with
      | zero => exact le_rfl
      | succ n ih =>
        have hle : step^[n + 1] start ≤ step^[n] start := hdown (Nat.le_succ n)
        rw [Function.iterate_succ_apply' step n] at *
        have hlt := lt_of_le_of_ne hle (hmoves n)
        omega
    have hend := hfall (start + 1)
    omega

/-- A bounded orbit of a step that never turns goes one way and is constant from some point on. -/
theorem orbit_settles {bound : ℕ} (hbound : ∀ n, step^[n] start ≤ bound)
    (hkeeps : ∀ n, KeepsDirection step (step^[n] start)) :
    ((Monotone fun n ↦ step^[n] start) ∨ (Antitone fun n ↦ step^[n] start)) ∧
      ∃ n, ∀ later, n ≤ later → step^[later] start = step^[n] start := by
  have hway : (Monotone fun n ↦ step^[n] start) ∨ (Antitone fun n ↦ step^[n] start) := by
    rcases le_total start (step start) with hup | hdown
    · exact Or.inl (orbit_monotone hkeeps hup)
    · exact Or.inr (orbit_antitone hkeeps hdown)
  refine ⟨hway, ?_⟩
  obtain ⟨n, hfixed⟩ := exists_fixed hbound hway
  refine ⟨n, fun later hlater ↦ ?_⟩
  obtain ⟨more, rfl⟩ := Nat.exists_eq_add_of_le' hlater
  rw [Function.iterate_add_apply]
  exact Function.iterate_fixed hfixed more

end Orbit

end Bc3Miner.Foundations
