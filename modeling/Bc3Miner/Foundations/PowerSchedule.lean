import Mathlib.Algebra.Group.Defs
import Mathlib.Algebra.Group.Basic
import Mathlib.Logic.Function.Iterate
import Mathlib.Tactic.Ring

/-!
# Powers by a schedule

A power with a fixed exponent as a table of odd powers and a schedule over it: an odd power to start
with, then steps of a number of squarings and a product with an odd power, and squarings at the end.

The products need not be those of a monoid: `Schedule.run_stands` is for any representation `Stands`
of a monoid's elements that the product and the square respect. A schedule that names no odd power
outside its table runs to the end, and its outcome stands for the power with the exponent that the
schedule evaluates to.

The table has the odd powers up to a bound, and a schedule is well formed where it names only these.
Nothing is said of how a schedule is found: `SlidingWindow` makes one from an exponent, and a
generated program has one written out.
-/

set_option autoImplicit false
set_option relaxedAutoImplicit false

namespace Bc3Miner.Foundations

/-- The number of odd powers, which of them is first, the squarings and the odd power of each step,
and the squarings at the end. -/
structure Schedule where
  odd : ℕ
  first : ℕ
  steps : List (ℕ × ℕ)
  tail : ℕ

namespace Schedule

/-- Odd power `i` is the one with the exponent `2 * i + 1`. -/
def exponent (schedule : Schedule) : ℕ :=
  schedule.steps.foldl (fun reached step ↦ reached * 2 ^ step.1 + (2 * step.2 + 1))
    (2 * schedule.first + 1) * 2 ^ schedule.tail

/-- The schedule stays within its table. -/
structure WellFormed (schedule : Schedule) : Prop where
  first : schedule.first < schedule.odd
  steps : ∀ step ∈ schedule.steps, step.2 < schedule.odd

section Run

variable {α : Type*} (mul : α → α → α) (sqr : α → α)

/-- The odd powers that follow `power`. -/
def oddPowers : ℕ → α → α → List α
  | 0, _, _ => []
  | count + 1, square, power => mul power square :: oddPowers count square (mul power square)

def table (schedule : Schedule) (x : α) : List α :=
  x :: if 1 < schedule.odd then oddPowers mul (schedule.odd - 1) (sqr x) x else []

def runStep (powers : List α) (reached : α) (step : ℕ × ℕ) : Option α := do
  let power ← powers[step.2]?
  some (mul (sqr^[step.1] reached) power)

def run (schedule : Schedule) (x : α) : Option α := do
  let powers := schedule.table mul sqr x
  let start ← powers[schedule.first]?
  let reached ← schedule.steps.foldlM (runStep mul sqr powers) start
  some (sqr^[schedule.tail] reached)

end Run

section Stands

variable {α M : Type*} [Monoid M] {Stands : α → M → Prop} {mul : α → α → α} {sqr : α → α}
  (hmul : ∀ {x y a b}, Stands x a → Stands y b → Stands (mul x y) (a * b))
  (hsqr : ∀ {x a}, Stands x a → Stands (sqr x) (a * a))

include hsqr in
/-- Squaring a number that stands for a power doubles the exponent, as often as it is done. -/
theorem iterate_stands {x : α} {a : M} {reached : ℕ} (hx : Stands x (a ^ reached)) (count : ℕ) :
    Stands (sqr^[count] x) (a ^ (reached * 2 ^ count)) := by
  induction count with
  | zero => simpa using hx
  | succ count ih =>
    have hsquare := hsqr ih
    have hdouble : reached * 2 ^ (count + 1) = reached * 2 ^ count + reached * 2 ^ count := by ring
    rwa [← pow_add, ← hdouble, ← Function.iterate_succ_apply' sqr] at hsquare

include hmul in
/-- Each odd power is the one before it times the square, so all of them stand for the powers with
odd exponents. -/
theorem oddPowers_stands {square power : α} {a : M} (hsquare : Stands square (a * a)) {i : ℕ}
    (hpower : Stands power (a ^ (2 * i + 1))) (count : ℕ) {j : ℕ} (hj : j < count) :
    ∃ y, (oddPowers mul count square power)[j]? = some y ∧
      Stands y (a ^ (2 * (i + 1 + j) + 1)) := by
  induction count generalizing power i j with
  | zero => exact absurd hj (Nat.not_lt_zero j)
  | succ count ih =>
    have hnext : Stands (mul power square) (a ^ (2 * (i + 1) + 1)) := by
      have hproduct := hmul hpower hsquare
      rwa [← pow_two, ← pow_add] at hproduct
    rcases j with _ | j
    · exact ⟨_, rfl, hnext⟩
    · obtain ⟨y, hget, hstands⟩ := ih hnext (Nat.lt_of_succ_lt_succ hj)
      refine ⟨y, hget, ?_⟩
      rwa [Nat.add_assoc (i + 1), Nat.add_comm 1 j] at hstands

include hmul hsqr in
/-- The table of a schedule holds the odd powers of the base in order, as many as the schedule asks
for. -/
theorem table_stands (schedule : Schedule) {x : α} {a : M} (hx : Stands x a) {i : ℕ}
    (hi : i < schedule.odd) :
    ∃ y, (schedule.table mul sqr x)[i]? = some y ∧ Stands y (a ^ (2 * i + 1)) := by
  rcases i with _ | i
  · exact ⟨x, rfl, by simpa using hx⟩
  · have hmore : 1 < schedule.odd := by omega
    have hfirst : Stands x (a ^ (2 * 0 + 1)) := by simpa using hx
    obtain ⟨y, hget, hstands⟩ := oddPowers_stands hmul (hsqr hx) hfirst (schedule.odd - 1)
      (by omega : i < schedule.odd - 1)
    refine ⟨y, ?_, ?_⟩
    · rw [table, if_pos hmore, List.getElem?_cons_succ, hget]
    · rwa [Nat.zero_add, Nat.add_comm 1 i] at hstands

include hmul hsqr in
/-- A step of the schedule is a step of the exponent. -/
theorem runStep_stands {schedule : Schedule} {x reached : α} {a : M} (hx : Stands x a) {e : ℕ}
    (hreached : Stands reached (a ^ e)) {step : ℕ × ℕ} (hstep : step.2 < schedule.odd) :
    ∃ y, runStep mul sqr (schedule.table mul sqr x) reached step = some y ∧
      Stands y (a ^ (e * 2 ^ step.1 + (2 * step.2 + 1))) := by
  obtain ⟨power, hget, hpower⟩ := table_stands hmul hsqr schedule hx hstep
  have hproduct := hmul (iterate_stands hsqr hreached step.1) hpower
  rw [← pow_add] at hproduct
  refine ⟨_, ?_, hproduct⟩
  rw [runStep, hget]
  rfl

include hmul hsqr in
/-- The steps of a schedule take the exponent reached to what the same steps on exponents give; no
look-up fails if every step asks for an entry of the table. -/
theorem foldlM_stands {schedule : Schedule} {x reached : α} {a : M} (hx : Stands x a) {e : ℕ}
    (hreached : Stands reached (a ^ e)) {steps : List (ℕ × ℕ)}
    (hsteps : ∀ step ∈ steps, step.2 < schedule.odd) :
    ∃ y, steps.foldlM (runStep mul sqr (schedule.table mul sqr x)) reached = some y ∧
      Stands y
        (a ^ steps.foldl (fun reached step ↦ reached * 2 ^ step.1 + (2 * step.2 + 1)) e) := by
  induction steps generalizing reached e with
  | nil => exact ⟨reached, rfl, hreached⟩
  | cons step steps ih =>
    obtain ⟨next, hnext, hstands⟩ := runStep_stands hmul hsqr hx hreached
      (hsteps step List.mem_cons_self)
    obtain ⟨y, hy, hlast⟩ := ih hstands
      fun other hmem ↦ hsteps other (List.mem_cons_of_mem _ hmem)
    refine ⟨y, ?_, hlast⟩
    rw [List.foldlM_cons, hnext, Option.bind_eq_bind, Option.bind_some, hy]

include hmul hsqr in
/-- A run of a schedule gives the power with the exponent that it evaluates to. -/
theorem run_stands {schedule : Schedule} (hformed : schedule.WellFormed) {x : α} {a : M}
    (hx : Stands x a) :
    ∃ y, schedule.run mul sqr x = some y ∧ Stands y (a ^ schedule.exponent) := by
  obtain ⟨start, hstart, hfirst⟩ := table_stands hmul hsqr schedule hx hformed.first
  obtain ⟨reached, hreached, hsteps⟩ := foldlM_stands hmul hsqr hx hfirst hformed.steps
  refine ⟨_, ?_, iterate_stands hsqr hsteps schedule.tail⟩
  simp only [run, hstart, hreached, Option.bind_eq_bind, Option.bind_some]

end Stands

end Schedule

end Bc3Miner.Foundations
