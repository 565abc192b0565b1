import Mathlib.Algebra.BigOperators.Group.Finset.Basic
import Mathlib.Algebra.Order.Ring.Nat
import Mathlib.Data.Nat.ModEq

/-!
# Digits of several widths

A number cut into digits at rising bit positions, `cut i` the lowest bit of digit `i`. The digits
below `cut i` make up the number modulo `2 ^ cut i`, so the sum so far is below every multiple of
the next place, and the two together are at most the number.

The positions need not be evenly spaced, so that digits of one width and of two are the same to it.
`not_modEq` is what a table of multiples needs: neither the sum so far nor its negative is the next
multiple, modulo anything that is large enough.
-/

set_option autoImplicit false
set_option relaxedAutoImplicit false

namespace Bc3Miner.Foundations.MixedRadix

open Finset

/-- Digit `i` of `number`, from bit `cut i` up to bit `cut (i + 1)`. -/
def digit (cut : ℕ → ℕ) (number i : ℕ) : ℕ :=
  number / 2 ^ cut i % 2 ^ (cut (i + 1) - cut i)

/-- What digit `i` stands for. -/
def part (cut : ℕ → ℕ) (number i : ℕ) : ℕ := digit cut number i * 2 ^ cut i

/-- What the first `count` digits stand for. -/
def sumBelow (cut : ℕ → ℕ) (number count : ℕ) : ℕ := ∑ i ∈ range count, part cut number i

variable {cut : ℕ → ℕ} {number : ℕ}

theorem sumBelow_succ (cut : ℕ → ℕ) (number count : ℕ) :
    sumBelow cut number (count + 1) = sumBelow cut number count + part cut number count :=
  sum_range_succ _ _

/-- The digits below a position make up the number modulo it. -/
theorem sumBelow_eq_mod (hzero : cut 0 = 0) (hcut : ∀ i, cut i ≤ cut (i + 1)) (number count : ℕ) :
    sumBelow cut number count = number % 2 ^ cut count := by
  induction count with
  | zero => rw [hzero, pow_zero, Nat.mod_one]; rfl
  | succ count ih =>
    have hpow : 2 ^ cut (count + 1) = 2 ^ cut count * 2 ^ (cut (count + 1) - cut count) := by
      rw [← pow_add, Nat.add_sub_cancel' (hcut count)]
    rw [sumBelow_succ, ih, hpow, Nat.mod_mul, part, digit, Nat.mul_comm]

theorem sumBelow_lt (hzero : cut 0 = 0) (hcut : ∀ i, cut i ≤ cut (i + 1)) (number count : ℕ) :
    sumBelow cut number count < 2 ^ cut count := by
  rw [sumBelow_eq_mod hzero hcut]
  exact Nat.mod_lt _ (Nat.two_pow_pos _)

theorem sumBelow_le (hzero : cut 0 = 0) (hcut : ∀ i, cut i ≤ cut (i + 1)) (number count : ℕ) :
    sumBelow cut number count ≤ number := by
  rw [sumBelow_eq_mod hzero hcut]
  exact Nat.mod_le _ _

/-- What a digit stands for, unless it is zero, is more than all digits below it together. -/
theorem sumBelow_lt_part (hzero : cut 0 = 0) (hcut : ∀ i, cut i ≤ cut (i + 1)) {count : ℕ}
    (hdigit : digit cut number count ≠ 0) :
    sumBelow cut number count < part cut number count := by
  have hlt := sumBelow_lt hzero hcut number count
  have hmul := Nat.mul_le_mul_right (2 ^ cut count) (Nat.one_le_iff_ne_zero.mpr hdigit)
  rw [Nat.one_mul] at hmul
  exact hlt.trans_le hmul

/-- The digits below a nonzero one and what it stands for are neither equal nor opposite modulo a
number above the one that is cut. -/
theorem not_modEq (hzero : cut 0 = 0) (hcut : ∀ i, cut i ≤ cut (i + 1)) {count modulus : ℕ}
    (hdigit : digit cut number count ≠ 0) (hmodulus : number < modulus) :
    ¬ sumBelow cut number count ≡ part cut number count [MOD modulus] ∧
      ¬ modulus ∣ sumBelow cut number count + part cut number count := by
  have hlt := sumBelow_lt_part hzero hcut hdigit
  have hle := sumBelow_le hzero hcut number (count + 1)
  rw [sumBelow_succ] at hle
  constructor
  · intro hequal
    have heq := Nat.ModEq.eq_of_lt_of_lt hequal (by omega) (by omega)
    omega
  · intro hdvd
    have hmul := Nat.le_of_dvd (by omega) hdvd
    omega

end Bc3Miner.Foundations.MixedRadix
