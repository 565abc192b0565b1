import Bc3Miner.Foundations.Divsteps
import Mathlib.Algebra.Order.Field.Basic
import Mathlib.Algebra.Order.Field.Rat
import Mathlib.Algebra.Ring.Parity
import Mathlib.Data.Nat.Factorization.Basic
import Mathlib.Data.Rat.Cast.Order
import Mathlib.Tactic.FieldSimp
import Mathlib.Tactic.GCongr
import Mathlib.Tactic.LinearCombination
import Mathlib.Tactic.NormNum
import Mathlib.Tactic.Positivity

/-!
# How many divsteps bring `g` to zero

From a counter of `-1` the steps come in rounds that end at `-1` again: `j` halvings of `g`, one
step that swaps, and `j` steps that add or do not. A round is linear in `f` and `g` with a parameter
in between two extremes, so what it does to the size of the pair can be bounded in any norm of the
plane. The norm here is that of a polygon with 28 sides (`sides`), chosen such that a round of
`2 * j + 1` steps shrinks it at least by `(743 / 1000) ^ (2 * j + 1)`. That is a comparison of whole
numbers for each side and each extreme where `j` is small (`shrinks`), and holds with room to spare
where it is not.

A whole number that is not zero is not below one, so enough steps leave nothing of `g`:
`iterate_eq_zero` in general, and 600 steps for numbers up to `2 ^ 256`.

The norm and the factor 743/1000 are found by search and are data here: nothing depends on how. What
is proved of them is checked by evaluation, one comparison of integers for each side of the polygon,
each extreme and each `j` up to a bound (`shrinks`), and from the bound on by the triangle
inequality (`Bounded.beforeRound_long`). `iterate_600_eq_zero` is the one consequence that the
inversion uses.
-/

set_option autoImplicit false
set_option relaxedAutoImplicit false

namespace Bc3Miner.Foundations.Divstep

/-! ### Rounds -/

/-- Halving an even `g`. -/
theorem iterate_even (zeta f half : ℤ) (count : ℕ) :
    step^[count] ⟨zeta, f, 2 ^ count * half⟩ = ⟨zeta - count, f, half⟩ := by
  induction count generalizing zeta with
  | zero => simp
  | succ count ih =>
    have hnext : (2 : ℤ) ^ (count + 1) * half = 2 * (2 ^ count * half) := by ring
    rw [Function.iterate_succ_apply, hnext, step_even (by dsimp only; omega)]
    dsimp only
    rw [Int.mul_ediv_cancel_left _ (by norm_num), ih]
    push_cast
    congr 1
    ring

/-- While the counter is not negative `f` stays, and some of its multiples are added to `g`. -/
theorem iterate_add (f : ℤ) (hf : f % 2 = 1) (g : ℤ) (count : ℕ) :
    ∃ sum : ℤ, 0 ≤ sum ∧ sum < 2 ^ count ∧ ∃ last, 2 ^ count * last = g + sum * f ∧
      step^[count] ⟨count - 1, f, g⟩ = ⟨-1, f, last⟩ := by
  induction count generalizing g with
  | zero => exact ⟨0, le_rfl, by norm_num, g, by ring, by simp⟩
  | succ count ih =>
    have hzeta : ((count + 1 : ℕ) : ℤ) - 1 = (count : ℤ) := by
      push_cast
      ring
    rw [Function.iterate_succ_apply, hzeta]
    rcases Int.emod_two_eq_zero_or_one g with heven | hodd
    · obtain ⟨sum, hpos, hlt, last, hlast, hsteps⟩ := ih (g / 2)
      refine ⟨2 * sum, by omega, by rw [pow_succ]; omega, last, ?_, ?_⟩
      · have hhalf : 2 * (g / 2) = g := by omega
        rw [pow_succ]
        linear_combination 2 * hlast + hhalf
      · rw [step_even heven]
        exact hsteps
    · obtain ⟨sum, hpos, hlt, last, hlast, hsteps⟩ := ih ((g + f) / 2)
      refine ⟨2 * sum + 1, by omega, by rw [pow_succ]; omega, last, ?_, ?_⟩
      · have hhalf : 2 * ((g + f) / 2) = g + f := by omega
        rw [pow_succ]
        linear_combination 2 * hlast + hhalf
      · rw [step_add hodd (Int.natCast_nonneg count)]
        exact hsteps

/-- A round: `g` without its `count` halvings takes the place of `f`, and the new `g` is a
combination of the two with an odd parameter below `2 ^ (count + 1)`. -/
theorem round {f half : ℤ} (hf : f % 2 = 1) (hhalf : half % 2 = 1) (count : ℕ) :
    ∃ sum : ℤ, 0 ≤ sum ∧ sum < 2 ^ count ∧ ∃ last,
      2 ^ (count + 1) * last = (2 * sum + 1) * half - f ∧
        step^[2 * count + 1] ⟨-1, f, 2 ^ count * half⟩ = ⟨-1, half, last⟩ := by
  obtain ⟨sum, hpos, hlt, last, hlast, hsteps⟩ := iterate_add half hhalf ((half - f) / 2) count
  refine ⟨sum, hpos, hlt, last, ?_, ?_⟩
  · have hexact : 2 * ((half - f) / 2) = half - f := by omega
    rw [pow_succ]
    linear_combination 2 * hlast + hexact
  · have hsplit : 2 * count + 1 = count + (1 + count) := by ring
    have hswap : step ⟨-1 - count, f, half⟩ = ⟨count - 1, half, (half - f) / 2⟩ := by
      rw [step_swap hhalf (by dsimp only; omega)]
      congr 1
      ring
    rw [hsplit, Function.iterate_add_apply, Function.iterate_add_apply, iterate_even,
      Function.iterate_one, hswap, hsteps]

/-! ### The norm -/

/-- A linear form on pairs of numbers, by its coefficients. -/
abbrev Form := ℤ × ℤ

def Form.eval (form : Form) (f g : ℚ) : ℚ := form.1 * f + form.2 * g

def Form.det (first second : Form) : ℤ := first.1 * second.2 - first.2 * second.1

/-- The sides of the polygon, up to sign: it is where none of these forms is above a bound, or below
its opposite. -/
def sides : List Form := [
  (-623, -279), (-546, -430), (-516, -484), (-149, -851), (-76, -902), (264, -1065), (350, -1096),
  (474, -1023), (507, -984), (553, -922), (652, -655), (742, -298), (742, -222), (725, -112)]

/-- Neighbouring sides; the last one's neighbour is the opposite of the first. -/
def corners : List (Form × Form) := sides.zip (sides.tail ++ [(623, 279)])

/-- The pair of numbers is in the polygon of this size. -/
def Bounded (bound : ℚ) (f g : ℤ) : Prop := ∀ side ∈ sides, |Form.eval side f g| ≤ bound

/-- At some corner the form is a combination of the two sides with coefficients that sum to at most
`num / den`, signs aside. -/
def atMost (form : Form) (num den : ℕ) : Bool :=
  corners.any fun corner ↦
    decide (0 < corner.1.det corner.2) &&
      decide ((|form.det corner.2| + |corner.1.det form|) * den ≤ num * corner.1.det corner.2)

theorem mem_sides_of_corner {corner : Form × Form} (hcorner : corner ∈ corners) :
    (corner.1 ∈ sides) ∧ (corner.2 ∈ sides ∨ ∃ side ∈ sides, corner.2 = (-side.1, -side.2)) := by
  revert corner
  decide

/-- On a pair that is bounded, both forms of every corner are within the bound. -/
theorem Bounded.corner {bound : ℚ} {f g : ℤ} (hbounded : Bounded bound f g)
    {corner : Form × Form} (hcorner : corner ∈ corners) :
    |corner.1.eval f g| ≤ bound ∧ |corner.2.eval f g| ≤ bound := by
  obtain ⟨hfirst, hsecond | ⟨side, hside, hopposite⟩⟩ := mem_sides_of_corner hcorner
  · exact ⟨hbounded _ hfirst, hbounded _ hsecond⟩
  · refine ⟨hbounded _ hfirst, ?_⟩
    have hneg : corner.2.eval f g = -side.eval f g := by
      rw [hopposite]
      unfold Form.eval
      push_cast
      ring
    rw [hneg, abs_neg]
    exact hbounded _ hside

/-- A form that is at most `num / den` is at most that many times the size of the polygon on its
pairs: by Cramer's rule it is a combination of the two sides that it lies between. -/
theorem Bounded.of_atMost {bound : ℚ} {f g : ℤ} (hbounded : Bounded bound f g) {form : Form}
    {num den : ℕ} (hmost : atMost form num den = true) : |form.eval f g| * den ≤ num * bound := by
  unfold atMost at hmost
  obtain ⟨corner, hcorner, hcheck⟩ := List.any_eq_true.mp hmost
  rw [Bool.and_eq_true, decide_eq_true_eq, decide_eq_true_eq] at hcheck
  obtain ⟨hpos, hsum⟩ := hcheck
  obtain ⟨hfirst, hsecond⟩ := hbounded.corner hcorner
  have hdet : (0 : ℚ) < (corner.1.det corner.2 : ℤ) := Int.cast_pos.mpr hpos
  have hcombination : ((corner.1.det corner.2 : ℤ) : ℚ) * form.eval f g =
      (form.det corner.2 : ℤ) * corner.1.eval f g +
        (corner.1.det form : ℤ) * corner.2.eval f g := by
    unfold Form.eval Form.det
    push_cast
    ring
  have hsum' : ((|form.det corner.2| + |corner.1.det form| : ℤ) : ℚ) * den ≤
      num * (corner.1.det corner.2 : ℤ) := by exact_mod_cast hsum
  have hbound : 0 ≤ bound := (abs_nonneg _).trans hfirst
  have hscaled : (corner.1.det corner.2 : ℤ) * |form.eval f g| ≤
      ((|form.det corner.2| + |corner.1.det form| : ℤ) : ℚ) * bound := by
    rw [← abs_of_pos hdet, ← abs_mul, hcombination]
    push_cast
    calc |((form.det corner.2 : ℤ) : ℚ) * corner.1.eval f g +
          ((corner.1.det form : ℤ) : ℚ) * corner.2.eval f g|
        ≤ |((form.det corner.2 : ℤ) : ℚ) * corner.1.eval f g| +
            |((corner.1.det form : ℤ) : ℚ) * corner.2.eval f g| := abs_add_le _ _
      _ ≤ |((form.det corner.2 : ℤ) : ℚ)| * bound + |((corner.1.det form : ℤ) : ℚ)| * bound := by
          rw [abs_mul, abs_mul]
          gcongr
      _ = (|((form.det corner.2 : ℤ) : ℚ)| + |((corner.1.det form : ℤ) : ℚ)|) * bound := by ring
  refine le_of_mul_le_mul_left ?_ hdet
  calc ((corner.1.det corner.2 : ℤ) : ℚ) * (|form.eval f g| * den)
      = ((corner.1.det corner.2 : ℤ) * |form.eval f g|) * den := by ring
    _ ≤ (((|form.det corner.2| + |corner.1.det form| : ℤ) : ℚ) * bound) * den := by gcongr
    _ = (((|form.det corner.2| + |corner.1.det form| : ℤ) : ℚ) * den) * bound := by ring
    _ ≤ (num * (corner.1.det corner.2 : ℤ)) * bound := by gcongr
    _ = (corner.1.det corner.2 : ℤ) * (num * bound) := by ring

/-! ### A round shrinks the polygon -/

/-- What a side says of a pair after a round, as a form on the pair before it, scaled by
`2 ^ (2 * count + 1)`. -/
def Form.beforeRound (side : Form) (count : ℕ) (factor : ℤ) : Form :=
  (-side.2 * 2 ^ count, side.1 * 2 ^ (count + 1) + side.2 * factor)

/-- The form of a side after a long round, in terms of the numbers before it: the equation that the
last number meets is cleared of its power of two. -/
theorem Form.eval_beforeRound (side : Form) {count : ℕ} {f half sum last : ℤ}
    (hlast : 2 ^ (count + 1) * last = (2 * sum + 1) * half - f) :
    2 ^ (2 * count + 1) * side.eval half last =
      (side.beforeRound count (2 * sum + 1)).eval f (2 ^ count * half : ℤ) := by
  have hcast : (2 : ℚ) ^ (count + 1) * last = (2 * sum + 1) * half - f := by exact_mod_cast hlast
  unfold Form.eval Form.beforeRound
  push_cast
  rw [pow_succ] at hcast
  have hpow : (2 : ℚ) ^ (2 * count + 1) = 2 ^ count * 2 ^ count * 2 := by
    rw [pow_succ, two_mul, pow_add]
  rw [hpow, pow_succ]
  linear_combination (side.2 * 2 ^ count : ℚ) * hcast

/-- Both extremes of a round of this length shrink every side. -/
def shrinks (count : ℕ) : Bool :=
  sides.all fun side ↦
    atMost (side.beforeRound count 1) (743 ^ (2 * count + 1)) (500 ^ (2 * count + 1)) &&
      atMost (side.beforeRound count (2 ^ (count + 1) - 1)) (743 ^ (2 * count + 1))
        (500 ^ (2 * count + 1))

theorem shrinks_of_lt {count : ℕ} (hcount : count < 12) : shrinks count = true := by
  revert count
  decide +kernel

/-- A form that depends on a parameter in between two others is at most what they are. -/
theorem abs_between {start slope bound factor last : ℚ} (hone : 1 ≤ factor) (hlast : factor ≤ last)
    (hfirst : |start + slope| ≤ bound) (hsecond : |start + slope * last| ≤ bound) :
    |start + slope * factor| ≤ bound := by
  rw [abs_le] at hfirst hsecond ⊢
  rcases le_total 0 slope with hslope | hslope
  · have hlow : slope * 1 ≤ slope * factor := mul_le_mul_of_nonneg_left hone hslope
    have hhigh : slope * factor ≤ slope * last := mul_le_mul_of_nonneg_left hlast hslope
    constructor <;> linarith
  · have hlow : slope * factor ≤ slope * 1 := mul_le_mul_of_nonpos_left hone hslope
    have hhigh : slope * last ≤ slope * factor := mul_le_mul_of_nonpos_left hlast hslope
    constructor <;> linarith

/-- The form of a side before a round is affine in the factor of the round. -/
theorem Form.eval_beforeRound_eq (side : Form) (count : ℕ) (factor : ℤ) (f g : ℚ) :
    (side.beforeRound count factor).eval f g =
      (-side.2 * 2 ^ count * f + side.1 * 2 ^ (count + 1) * g) + side.2 * g * factor := by
  unfold Form.eval Form.beforeRound
  push_cast
  ring

/-- A round of fewer than twelve halvings keeps every side within the bound times `743 / 500` for
each of its steps, before the powers of two are divided out. The form is affine in the factor of the
round, so it is enough to check the least and the greatest factor. -/
theorem Bounded.beforeRound_short {bound : ℚ} {f g : ℤ} (hbounded : Bounded bound f g)
    {side : Form} (hside : side ∈ sides) {count : ℕ} (hcount : count < 12) {sum : ℤ}
    (hpos : 0 ≤ sum) (hlt : sum < 2 ^ count) :
    |(side.beforeRound count (2 * sum + 1)).eval f g| ≤ (743 / 500) ^ (2 * count + 1) * bound := by
  have hboth := List.all_eq_true.mp (shrinks_of_lt hcount) side hside
  rw [Bool.and_eq_true] at hboth
  have hscale : ∀ form : Form,
      atMost form (743 ^ (2 * count + 1)) (500 ^ (2 * count + 1)) = true →
        |form.eval f g| ≤ (743 / 500) ^ (2 * count + 1) * bound := by
    intro form hmost
    have hle := hbounded.of_atMost hmost
    push_cast at hle
    have hden : (0 : ℚ) < 500 ^ (2 * count + 1) := by positivity
    rw [div_pow, div_mul_eq_mul_div, le_div_iff₀ hden]
    exact hle
  have hfirst := hscale _ hboth.1
  have hsecond := hscale _ hboth.2
  rw [Form.eval_beforeRound_eq] at hfirst hsecond ⊢
  have hlast : 2 * sum + 1 ≤ 2 ^ (count + 1) - 1 := by
    rw [pow_succ]
    omega
  refine abs_between ?_ ?_ (by simpa using hfirst) hsecond
  · exact_mod_cast (by omega : 1 ≤ 2 * sum + 1)
  · exact_mod_cast hlast

/-- The numbers of a pair in the polygon. -/
theorem Bounded.abs_le {bound : ℚ} {f g : ℤ} (hbounded : Bounded bound f g) :
    |(f : ℚ)| * 695 ≤ bound ∧ |(g : ℚ)| * 938 ≤ bound := by
  have hf := hbounded.of_atMost (by decide +kernel : atMost (1, 0) 1 695 = true)
  have hg := hbounded.of_atMost (by decide +kernel : atMost (0, 1) 1 938 = true)
  unfold Form.eval at hf hg
  simpa using And.intro hf hg

/-- The coefficients of a side, each weighed with what the polygon leaves of its number. -/
theorem side_weight {side : Form} (hside : side ∈ sides) :
    10 * (|side.2| * 938 + 2 * (|side.1| + |side.2|) * 695) ≤ 47 * (695 * 938) := by
  revert side
  decide +kernel

/-- Long rounds gain more than any combination can lose. -/
theorem room_of_le {count : ℕ} (hcount : 12 ≤ count) :
    (47 / 10 : ℚ) * 2 ^ count ≤ (743 / 500) ^ (2 * count + 1) := by
  induction count, hcount using Nat.le_induction with
  | base => norm_num
  | succ count hcount ih =>
    have hsquare : (743 / 500 : ℚ) ^ (2 * (count + 1) + 1) =
        (743 / 500) ^ (2 * count + 1) * (743 / 500) ^ 2 := by ring
    rw [hsquare, pow_succ]
    have hpos : (0 : ℚ) ≤ (743 / 500) ^ (2 * count + 1) := by positivity
    calc (47 / 10 : ℚ) * (2 ^ count * 2) = (47 / 10 * 2 ^ count) * 2 := by ring
      _ ≤ (743 / 500) ^ (2 * count + 1) * 2 := by gcongr
      _ ≤ (743 / 500) ^ (2 * count + 1) * (743 / 500) ^ 2 :=
          mul_le_mul_of_nonneg_left (by norm_num) hpos

/-- A round of twelve halvings or more keeps every side within the bound times `743 / 500` for each
of its steps, before the powers of two are divided out and whatever its factor is. -/
theorem Bounded.beforeRound_long {bound : ℚ} {f g : ℤ} (hbounded : Bounded bound f g)
    {side : Form} (hside : side ∈ sides) {count : ℕ} (hcount : 12 ≤ count) {sum : ℤ}
    (hpos : 0 ≤ sum) (hlt : sum < 2 ^ count) :
    |(side.beforeRound count (2 * sum + 1)).eval f g| ≤ (743 / 500) ^ (2 * count + 1) * bound := by
  obtain ⟨hf, hg⟩ := hbounded.abs_le
  have hweight : (10 : ℚ) * (|(side.2 : ℚ)| * 938 + 2 * (|(side.1 : ℚ)| + |(side.2 : ℚ)|) * 695) ≤
      47 * (695 * 938) := by exact_mod_cast side_weight hside
  have hfactor : |((2 * sum + 1 : ℤ) : ℚ)| ≤ 2 ^ (count + 1) := by
    rw [abs_of_nonneg (by exact_mod_cast (by omega : (0 : ℤ) ≤ 2 * sum + 1))]
    exact_mod_cast (by rw [pow_succ]; omega : 2 * sum + 1 ≤ 2 ^ (count + 1))
  have hbound : 0 ≤ bound := (by positivity : (0 : ℚ) ≤ |(f : ℚ)| * 695).trans hf
  have hparts : |(side.beforeRound count (2 * sum + 1)).eval f g| ≤
      2 ^ count * (|(side.2 : ℚ)| * |(f : ℚ)| +
        2 * (|(side.1 : ℚ)| + |(side.2 : ℚ)|) * |(g : ℚ)|) := by
    rw [Form.eval_beforeRound_eq]
    have htwo : |(2 : ℚ) ^ count| = 2 ^ count := abs_of_pos (by positivity)
    calc |-(side.2 : ℚ) * 2 ^ count * f + side.1 * 2 ^ (count + 1) * g +
          side.2 * g * ((2 * sum + 1 : ℤ) : ℚ)|
        ≤ |-(side.2 : ℚ) * 2 ^ count * f| + |side.1 * 2 ^ (count + 1) * (g : ℚ)| +
            |side.2 * (g : ℚ) * ((2 * sum + 1 : ℤ) : ℚ)| := abs_add_three _ _ _
      _ = |(side.2 : ℚ)| * 2 ^ count * |(f : ℚ)| + |(side.1 : ℚ)| * 2 ^ (count + 1) * |(g : ℚ)| +
            |(side.2 : ℚ)| * |(g : ℚ)| * |((2 * sum + 1 : ℤ) : ℚ)| := by
          simp only [abs_mul, abs_neg, pow_succ, htwo, abs_two]
      _ ≤ |(side.2 : ℚ)| * 2 ^ count * |(f : ℚ)| + |(side.1 : ℚ)| * 2 ^ (count + 1) * |(g : ℚ)| +
            |(side.2 : ℚ)| * |(g : ℚ)| * 2 ^ (count + 1) := by gcongr
      _ = 2 ^ count * (|(side.2 : ℚ)| * |(f : ℚ)| +
            2 * (|(side.1 : ℚ)| + |(side.2 : ℚ)|) * |(g : ℚ)|) := by ring
  have hweighed : |(side.2 : ℚ)| * |(f : ℚ)| +
      2 * (|(side.1 : ℚ)| + |(side.2 : ℚ)|) * |(g : ℚ)| ≤ 47 / 10 * bound := by
    have hfirst : |(side.2 : ℚ)| * 938 * (|(f : ℚ)| * 695) ≤ |(side.2 : ℚ)| * 938 * bound := by
      gcongr
    have hsecond : 2 * (|(side.1 : ℚ)| + |(side.2 : ℚ)|) * 695 * (|(g : ℚ)| * 938) ≤
        2 * (|(side.1 : ℚ)| + |(side.2 : ℚ)|) * 695 * bound := by gcongr
    have hthird : (10 : ℚ) * (|(side.2 : ℚ)| * 938 +
        2 * (|(side.1 : ℚ)| + |(side.2 : ℚ)|) * 695) * bound ≤ 47 * (695 * 938) * bound := by gcongr
    linarith
  calc |(side.beforeRound count (2 * sum + 1)).eval f g|
      ≤ 2 ^ count * (47 / 10 * bound) := hparts.trans (by gcongr)
    _ = 47 / 10 * 2 ^ count * bound := by ring
    _ ≤ (743 / 500) ^ (2 * count + 1) * bound := by
        gcongr
        exact room_of_le hcount

/-- A round shrinks the size of the pair by a constant factor a step. -/
theorem Bounded.round {bound : ℚ} {f half sum last : ℤ} {count : ℕ}
    (hbounded : Bounded bound f (2 ^ count * half)) (hpos : 0 ≤ sum) (hlt : sum < 2 ^ count)
    (hlast : 2 ^ (count + 1) * last = (2 * sum + 1) * half - f) :
    Bounded ((743 / 1000) ^ (2 * count + 1) * bound) half last := by
  intro side hside
  have hbefore : |(side.beforeRound count (2 * sum + 1)).eval f ((2 ^ count * half : ℤ) : ℚ)| ≤
      (743 / 500) ^ (2 * count + 1) * bound := by
    rcases lt_or_ge count 12 with hshort | hlong
    · exact hbounded.beforeRound_short hside hshort hpos hlt
    · exact hbounded.beforeRound_long hside hlong hpos hlt
  rw [← Form.eval_beforeRound side hlast, abs_mul, abs_of_pos (by positivity)] at hbefore
  have hscale : (743 / 500 : ℚ) ^ (2 * count + 1) =
      2 ^ (2 * count + 1) * (743 / 1000) ^ (2 * count + 1) := by
    rw [← mul_pow]
    norm_num
  rw [hscale, mul_assoc] at hbefore
  exact le_of_mul_le_mul_left hbefore (by positivity)

/-! ### The number of steps -/

/-- Steps enough to shrink the pair below one bring `g` to zero. Where the steps do not complete a
round, `g` has so many halvings ahead of it that the pair would be too small for them. -/
theorem iterate_eq_zero {count : ℕ} {bound : ℚ} {f g : ℤ} (hf : f % 2 = 1)
    (hbounded : Bounded bound f g) (hsmall : (743 / 1000) ^ count * bound < 938) :
    (step^[count] ⟨-1, f, g⟩).g = 0 := by
  induction count using Nat.strong_induction_on generalizing bound f g with
  | _ count ih =>
    by_cases hzero : g = 0
    · rw [iterate_of_zero hzero]
    obtain ⟨halvings, half, hodd, hg⟩ : ∃ (halvings : ℕ) (half : ℤ), half % 2 = 1 ∧
        g = 2 ^ halvings * half := by
      obtain ⟨halvings, part, hodd, hg⟩ :=
        Nat.exists_eq_two_pow_mul_odd (Int.natAbs_ne_zero.mpr hzero)
      rw [Nat.odd_iff] at hodd
      rcases Int.natAbs_eq g with hpos | hneg
      · exact ⟨halvings, part, by omega, by rw [hpos, hg]; push_cast; ring⟩
      · exact ⟨halvings, -part, by omega, by rw [hneg, hg]; push_cast; ring⟩
    subst hg
    rcases Nat.lt_or_ge count (2 * halvings + 1) with hshort | hlong
    · exfalso
      have hg := hbounded.abs_le.2
      have hhalf : (1 : ℚ) ≤ |(half : ℚ)| := by
        have hnonzero : half ≠ 0 := by omega
        exact_mod_cast Int.one_le_abs hnonzero
      push_cast at hg
      rw [abs_mul, abs_of_pos (by positivity : (0 : ℚ) < 2 ^ halvings)] at hg
      have hpow : (743 / 1000 : ℚ) ^ (2 * halvings) ≤ (743 / 1000) ^ count :=
        pow_le_pow_of_le_one (by norm_num) (by norm_num) (by omega)
      have hone : (1 : ℚ) ≤ (743 / 1000) ^ (2 * halvings) * 2 ^ halvings := by
        rw [pow_mul, ← mul_pow]
        exact one_le_pow₀ (by norm_num)
      have hbound : (2 : ℚ) ^ halvings * 938 ≤ bound := by
        refine le_trans ?_ hg
        have hgrow : (2 : ℚ) ^ halvings * 1 ≤ 2 ^ halvings * |(half : ℚ)| := by gcongr
        linarith
      have hpos : (0 : ℚ) ≤ (743 / 1000) ^ (2 * halvings) := by positivity
      have hlower : (938 : ℚ) ≤ (743 / 1000) ^ count * bound := by
        calc (938 : ℚ) ≤ (743 / 1000) ^ (2 * halvings) * 2 ^ halvings * 938 := by linarith
          _ = (743 / 1000) ^ (2 * halvings) * (2 ^ halvings * 938) := by ring
          _ ≤ (743 / 1000) ^ count * bound := by gcongr
      exact absurd hsmall (not_lt.mpr hlower)
    · obtain ⟨sum, hpos, hlt, last, hlast, hsteps⟩ := Divstep.round hf hodd halvings
      have hnext := hbounded.round hpos hlt hlast
      have hsplit : count = (count - (2 * halvings + 1)) + (2 * halvings + 1) := by omega
      rw [hsplit, Function.iterate_add_apply, hsteps]
      refine ih _ (by omega) hodd hnext ?_
      rw [← mul_assoc, ← pow_add, ← hsplit]
      exact hsmall

/-- Numbers that are not negative and at most `size` are in a polygon. -/
theorem bounded_of_nonneg {f g size : ℤ} (hf : 0 ≤ f) (hf' : f ≤ size) (hg : 0 ≤ g)
    (hg' : g ≤ size) : Bounded (1096 * size) f g := by
  intro side hside
  have hcoefficients : max side.1 0 + max side.2 0 ≤ 1096 ∧
      max (-side.1) 0 + max (-side.2) 0 ≤ 1096 := by
    revert side
    decide +kernel
  have hterm : ∀ coefficient number : ℤ, 0 ≤ number → number ≤ size →
      coefficient * number ≤ max coefficient 0 * size := by
    intro coefficient number hnumber hsize
    calc coefficient * number ≤ max coefficient 0 * number :=
          mul_le_mul_of_nonneg_right (le_max_left _ _) hnumber
      _ ≤ max coefficient 0 * size := mul_le_mul_of_nonneg_left hsize (le_max_right _ _)
  have hsize : 0 ≤ size := hf.trans hf'
  have hupper : side.1 * f + side.2 * g ≤ 1096 * size := by
    have hsum : (max side.1 0 + max side.2 0) * size ≤ 1096 * size :=
      mul_le_mul_of_nonneg_right hcoefficients.1 hsize
    linarith [hterm side.1 f hf hf', hterm side.2 g hg hg']
  have hlower : -(side.1 * f + side.2 * g) ≤ 1096 * size := by
    have hsum : (max (-side.1) 0 + max (-side.2) 0) * size ≤ 1096 * size :=
      mul_le_mul_of_nonneg_right hcoefficients.2 hsize
    linarith [hterm (-side.1) f hf hf', hterm (-side.2) g hg hg']
  unfold Form.eval
  exact_mod_cast abs_le.mpr ⟨by linarith, hupper⟩

/-- 600 steps are enough for numbers up to `2 ^ 256`. -/
theorem iterate_600_eq_zero {f g : ℤ} (hodd : f % 2 = 1) (hf : 0 ≤ f) (hf' : f ≤ 2 ^ 256)
    (hg : 0 ≤ g) (hg' : g ≤ 2 ^ 256) : (step^[600] ⟨-1, f, g⟩).g = 0 := by
  refine iterate_eq_zero hodd (bounded_of_nonneg hf hf' hg hg') ?_
  rw [show 600 = 200 * 3 from rfl, pow_mul]
  norm_num

end Bc3Miner.Foundations.Divstep
