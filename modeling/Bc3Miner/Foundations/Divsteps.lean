import Mathlib.Algebra.Order.Ring.Abs
import Mathlib.Algebra.Ring.Int.Parity
import Mathlib.Logic.Function.Iterate
import Mathlib.RingTheory.Coprime.Basic
import Mathlib.Tactic.Linarith
import Mathlib.Tactic.Ring

/-!
# Divsteps

A division step replaces an odd `f` and a `g` by an odd number and half of a combination of the two,
so that what the two have in common stays and `g` becomes zero in the end. Which combination it is
depends on the parity of `g` and on the sign of a counter `zeta`.

A run of `n` steps is linear: `2 ^ n` times its outcome is a matrix of whole numbers times what it
started from, with rows of sum at most `2 ^ n` (`Transition.holds`, `Transition.row_le`). The matrix
depends on the numbers only through the parities met on the way.

Nothing is said here of how many steps it takes; that is in `DivstepBound`. What is here holds of
any number of steps: `f` stays odd, the common divisors stay (`isCoprime_iterate`), the numbers stay
within the bounds they begin with (`Within.iterate`), and the counter moves by at most one a step
(`abs_zeta_iterate`).
-/

set_option autoImplicit false
set_option relaxedAutoImplicit false

namespace Bc3Miner.Foundations.Divstep

/-- The counter and the two numbers. -/
@[ext]
structure State where
  zeta : ℤ
  f : ℤ
  g : ℤ
  deriving DecidableEq, Repr

/-- One step. An odd `g` is added to `f`, or takes its place where the counter is negative. -/
def step (s : State) : State :=
  if s.g % 2 = 0 then ⟨s.zeta - 1, s.f, s.g / 2⟩
  else if s.zeta < 0 then ⟨-s.zeta - 2, s.g, (s.g - s.f) / 2⟩
  else ⟨s.zeta - 1, s.f, (s.g + s.f) / 2⟩

theorem step_even {s : State} (heven : s.g % 2 = 0) : step s = ⟨s.zeta - 1, s.f, s.g / 2⟩ :=
  if_pos heven

theorem step_swap {s : State} (hodd : s.g % 2 = 1) (hneg : s.zeta < 0) :
    step s = ⟨-s.zeta - 2, s.g, (s.g - s.f) / 2⟩ := by
  rw [step, if_neg (by omega), if_pos hneg]

theorem step_add {s : State} (hodd : s.g % 2 = 1) (hpos : 0 ≤ s.zeta) :
    step s = ⟨s.zeta - 1, s.f, (s.g + s.f) / 2⟩ := by
  rw [step, if_neg (by omega), if_neg (by omega)]

/-- The three cases of a step from an odd `f`, with the half as a number of its own. -/
theorem step_cases {s : State} (hf : s.f % 2 = 1) :
    (∃ half, s.g = 2 * half ∧ step s = ⟨s.zeta - 1, s.f, half⟩) ∨
      (∃ half, s.g % 2 = 1 ∧ s.zeta < 0 ∧ s.g - s.f = 2 * half ∧
        step s = ⟨-s.zeta - 2, s.g, half⟩) ∨
      (∃ half, s.g % 2 = 1 ∧ 0 ≤ s.zeta ∧ s.g + s.f = 2 * half ∧
        step s = ⟨s.zeta - 1, s.f, half⟩) := by
  rcases Int.emod_two_eq_zero_or_one s.g with heven | hodd
  · exact .inl ⟨s.g / 2, by omega, step_even heven⟩
  · rcases lt_or_ge s.zeta 0 with hneg | hpos
    · exact .inr (.inl ⟨(s.g - s.f) / 2, hodd, hneg, by omega, step_swap hodd hneg⟩)
    · exact .inr (.inr ⟨(s.g + s.f) / 2, hodd, hpos, by omega, step_add hodd hpos⟩)

/-! ### What steps keep -/

/-- A divstep keeps the first number odd. -/
theorem odd_step {s : State} (hf : s.f % 2 = 1) : (step s).f % 2 = 1 := by
  rcases step_cases hf with ⟨half, -, hstep⟩ | ⟨half, hodd, -, -, hstep⟩ | ⟨half, -, -, -, hstep⟩
  · rw [hstep]
    exact hf
  · rw [hstep]
    exact hodd
  · rw [hstep]
    exact hf

/-- Any number of divsteps keeps the first number odd. -/
theorem odd_iterate {s : State} (hf : s.f % 2 = 1) (count : ℕ) : (step^[count] s).f % 2 = 1 := by
  induction count with
  | zero => exact hf
  | succ count ih =>
    rw [Function.iterate_succ_apply']
    exact odd_step ih

/-- What the two numbers have in common is kept. -/
theorem isCoprime_step {s : State} (hf : s.f % 2 = 1) (hcoprime : IsCoprime s.f s.g) :
    IsCoprime (step s).f (step s).g := by
  rcases step_cases hf with
    ⟨half, hg, hstep⟩ | ⟨half, -, -, hhalf, hstep⟩ | ⟨half, -, -, hhalf, hstep⟩
  · rw [hstep]
    rw [hg] at hcoprime
    exact hcoprime.of_mul_right_right
  · rw [hstep]
    have hdifference : IsCoprime s.g (2 * half) := by
      rw [← hhalf]
      have hneg : IsCoprime s.g (-s.f + s.g * 1) :=
        IsCoprime.add_mul_left_right_iff.mpr hcoprime.symm.neg_right
      have hsame : -s.f + s.g * 1 = s.g - s.f := by ring
      rwa [hsame] at hneg
    exact hdifference.of_mul_right_right
  · rw [hstep]
    have hsum : IsCoprime s.f (2 * half) := by
      rw [← hhalf]
      have hadd : IsCoprime s.f (s.g + s.f * 1) := IsCoprime.add_mul_left_right_iff.mpr hcoprime
      rwa [mul_one] at hadd
    exact hsum.of_mul_right_right

/-- Divsteps of a pair whose first number is odd keep it coprime. -/
theorem isCoprime_iterate {s : State} (hf : s.f % 2 = 1) (hcoprime : IsCoprime s.f s.g)
    (count : ℕ) : IsCoprime (step^[count] s).f (step^[count] s).g := by
  induction count with
  | zero => exact hcoprime
  | succ count ih =>
    rw [Function.iterate_succ_apply']
    exact isCoprime_step (odd_iterate hf count) ih

/-- Both numbers are above `-bound` and at most `bound`. -/
structure Within (bound : ℤ) (s : State) : Prop where
  f_gt : -bound < s.f
  f_le : s.f ≤ bound
  g_gt : -bound < s.g
  g_le : s.g ≤ bound

/-- A divstep takes a pair whose first number is odd to one within the same bound. -/
theorem Within.step {bound : ℤ} {s : State} (hf : s.f % 2 = 1) (hwithin : Within bound s) :
    Within bound (step s) := by
  obtain ⟨hfgt, hfle, hggt, hgle⟩ := hwithin
  rcases step_cases hf with
    ⟨half, hg, hstep⟩ | ⟨half, -, -, hhalf, hstep⟩ | ⟨half, -, -, hhalf, hstep⟩
  · rw [hstep]
    constructor <;> dsimp only <;> omega
  · rw [hstep]
    constructor <;> dsimp only <;> omega
  · rw [hstep]
    constructor <;> dsimp only <;> omega

/-- Any number of divsteps takes a pair whose first number is odd to one within the same bound. -/
theorem Within.iterate {bound : ℤ} {s : State} (hf : s.f % 2 = 1) (hwithin : Within bound s)
    (count : ℕ) : Within bound (Divstep.step^[count] s) := by
  induction count with
  | zero => exact hwithin
  | succ count ih =>
    rw [Function.iterate_succ_apply']
    exact ih.step (odd_iterate hf count)

/-- The counter moves away from zero by at most one a step. -/
theorem abs_zeta_step (s : State) : |(step s).zeta| ≤ |s.zeta| + 1 := by
  unfold step
  split_ifs with heven hneg
  · exact (abs_sub s.zeta 1).trans_eq (by rw [abs_one])
  · rw [abs_of_neg hneg, abs_le]
    constructor <;> dsimp only <;> omega
  · exact (abs_sub s.zeta 1).trans_eq (by rw [abs_one])

/-- The counter of the divsteps moves by at most one a step. -/
theorem abs_zeta_iterate (s : State) (count : ℕ) :
    |(step^[count] s).zeta| ≤ |s.zeta| + count := by
  induction count with
  | zero => simp
  | succ count ih =>
    rw [Function.iterate_succ_apply']
    have hstep := abs_zeta_step (step^[count] s)
    push_cast
    omega

/-- Once `g` is zero it stays so, and `f` stays as well. -/
theorem iterate_of_zero {s : State} (hzero : s.g = 0) (count : ℕ) :
    step^[count] s = ⟨s.zeta - count, s.f, 0⟩ := by
  induction count with
  | zero =>
    refine State.ext ?_ rfl hzero
    simp
  | succ count ih =>
    rw [Function.iterate_succ_apply', ih, step_even rfl]
    refine State.ext ?_ rfl rfl
    dsimp only
    push_cast
    ring

/-! ### The matrix of a run -/

/-- The entries of a matrix. -/
@[ext]
structure Transition where
  u : ℤ
  v : ℤ
  q : ℤ
  r : ℤ
  deriving DecidableEq, Repr

/-- No step at all. -/
def Transition.one : Transition := ⟨1, 0, 0, 1⟩

/-- The matrix with one more step from the state the run has reached, that step's half included. -/
def Transition.next (s : State) (t : Transition) : Transition :=
  if s.g % 2 = 0 then ⟨2 * t.u, 2 * t.v, t.q, t.r⟩
  else if s.zeta < 0 then ⟨2 * t.q, 2 * t.r, t.q - t.u, t.r - t.v⟩
  else ⟨2 * t.u, 2 * t.v, t.q + t.u, t.r + t.v⟩

/-- The matrix of a run of `count` steps. -/
def transition (s : State) : ℕ → Transition
  | 0 => .one
  | count + 1 => (transition s count).next (step^[count] s)

/-- `2 ^ count` times the outcome of a run is its matrix times what it started from. -/
theorem transition_holds {s : State} (hf : s.f % 2 = 1) (count : ℕ) :
    2 ^ count * (step^[count] s).f = (transition s count).u * s.f + (transition s count).v * s.g ∧
      2 ^ count * (step^[count] s).g =
        (transition s count).q * s.f + (transition s count).r * s.g := by
  induction count with
  | zero => simp [transition, Transition.one]
  | succ count ih =>
    obtain ⟨hrow, hrow'⟩ := ih
    rw [Function.iterate_succ_apply', transition, Transition.next, pow_succ]
    rcases step_cases (odd_iterate hf count) with
      ⟨half, hg, hstep⟩ | ⟨half, hodd, hneg, hhalf, hstep⟩ | ⟨half, hodd, hpos, hhalf, hstep⟩
    · rw [hstep, if_pos (by omega)]
      dsimp only
      rw [hg] at hrow'
      constructor <;> linarith
    · rw [hstep, if_neg (by omega), if_pos hneg]
      dsimp only
      have hscaled : 2 ^ count * ((step^[count] s).g - (step^[count] s).f) =
        2 ^ count * (2 * half) :=
        congrArg (2 ^ count * ·) hhalf
      constructor <;> linarith
    · rw [hstep, if_neg (by omega), if_neg (by omega)]
      dsimp only
      have hscaled : 2 ^ count * ((step^[count] s).g + (step^[count] s).f) =
        2 ^ count * (2 * half) :=
        congrArg (2 ^ count * ·) hhalf
      constructor <;> linarith

/-- The rows of a matrix sum to at most `bound`, signs aside. -/
def Transition.RowsLe (t : Transition) (bound : ℤ) : Prop :=
  |t.u| + |t.v| ≤ bound ∧ |t.q| + |t.r| ≤ bound

/-- A step at most doubles the bound on the rows of the transition matrix. -/
theorem Transition.RowsLe.next {t : Transition} {bound : ℤ} (hrows : t.RowsLe bound) (s : State) :
    (t.next s).RowsLe (2 * bound) := by
  obtain ⟨hrow, hrow'⟩ := hrows
  have hdouble (x : ℤ) : |2 * x| = 2 * |x| := by rw [abs_mul, abs_two]
  have hsub := abs_sub t.q t.u
  have hsub' := abs_sub t.r t.v
  have hadd := abs_add_le t.q t.u
  have hadd' := abs_add_le t.r t.v
  have hu := abs_nonneg t.u
  have hv := abs_nonneg t.v
  have hq := abs_nonneg t.q
  have hr := abs_nonneg t.r
  unfold Transition.next RowsLe
  split_ifs
  · dsimp only
    rw [hdouble, hdouble]
    constructor <;> linarith
  · dsimp only
    rw [hdouble, hdouble]
    constructor <;> linarith
  · dsimp only
    rw [hdouble, hdouble]
    constructor <;> linarith

/-- The rows of the matrix of `count` divsteps sum to at most `2 ^ count` in absolute value. -/
theorem transition_rowsLe (s : State) (count : ℕ) : (transition s count).RowsLe (2 ^ count) := by
  induction count with
  | zero =>
    unfold transition Transition.one Transition.RowsLe
    simp
  | succ count ih =>
    rw [transition, pow_succ, mul_comm]
    exact ih.next _

/-- From a `g` of zero every step halves. -/
theorem transition_of_zero {s : State} (hzero : s.g = 0) (count : ℕ) :
    transition s count = ⟨2 ^ count, 0, 0, 1⟩ := by
  induction count with
  | zero => rfl
  | succ count ih =>
    rw [transition, ih, iterate_of_zero hzero, Transition.next, if_pos (Int.zero_emod 2), pow_succ,
      mul_comm]
    rfl

end Bc3Miner.Foundations.Divstep
