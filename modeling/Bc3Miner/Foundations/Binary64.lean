import Mathlib.Data.Rat.Defs
import Mathlib.Algebra.Order.Ring.Unbundled.Rat
import Mathlib.Algebra.GroupWithZero.Nat

/-!
# Double precision numbers

The values of IEEE 754 binary64, with the operations that round to nearest, ties to even. A finite
number carries its exact rational value; the sign of a zero is not kept. `round` is the only place
that loses precision: every operation on finite numbers is the exact rational operation followed by
`round`.

Infinities and what is not a number are constructors of their own. Overflow in `round` goes to
infinity, and `truncate` takes a number towards zero and clamps it to the range of an unsigned
integer, as a cast does.

Not modelled here: the sign of a zero and the payload of what is not a number; nothing that is built
on these numbers looks at them.
-/

set_option autoImplicit false
set_option relaxedAutoImplicit false

namespace Bc3Miner.Foundations

/-- A double precision number. -/
inductive Binary64
  | nan
  | infinity (negative : Bool)
  | finite (value : ℚ)
  deriving DecidableEq, Repr

namespace Binary64

/-- The exponent of the leading bit of the positive rational `numerator / denominator`. -/
def leadingExponent (numerator denominator : ℕ) : ℤ :=
  let guess : ℤ := (Nat.log2 numerator : ℤ) - (Nat.log2 denominator : ℤ)
  let reached := if 0 ≤ guess then denominator * 2 ^ guess.toNat ≤ numerator
    else denominator ≤ numerator * 2 ^ (-guess).toNat
  if reached then guess else guess - 1

/-- Division of naturals rounded to nearest, ties to even. -/
def divideToNearest (numerator denominator : ℕ) : ℕ :=
  let quotient := numerator / denominator
  let remainder := numerator % denominator
  if denominator < 2 * remainder ∨ (2 * remainder = denominator ∧ quotient % 2 = 1) then
    quotient + 1
  else quotient

/-- The double nearest to a rational: 53 significant bits, fewer below `2 ^ -1022`, and infinity
from the halfway point above the largest finite double. -/
def round (value : ℚ) : Binary64 :=
  if value = 0 then .finite 0
  else
    let numerator := value.num.natAbs
    let unit := max (leadingExponent numerator value.den - 52) (-1074)
    let digits := if 0 ≤ unit then divideToNearest numerator (value.den * 2 ^ unit.toNat)
      else divideToNearest (numerator * 2 ^ (-unit).toNat) value.den
    let magnitude : ℚ := if 0 ≤ unit then (digits * 2 ^ unit.toNat : ℕ)
      else mkRat digits (2 ^ (-unit).toNat)
    if (2 : ℚ) ^ 1024 ≤ magnitude then .infinity (value < 0)
    else .finite (if value < 0 then -magnitude else magnitude)

/-- The double nearest to a natural number. -/
def ofNat (n : ℕ) : Binary64 := round n

def isFinite : Binary64 → Bool
  | .finite _ => true
  | _ => false

def isNegative : Binary64 → Bool
  | .nan => false
  | .infinity negative => negative
  | .finite value => value < 0

def neg : Binary64 → Binary64
  | .nan => .nan
  | .infinity negative => .infinity !negative
  | .finite value => .finite (-value)

def abs (x : Binary64) : Binary64 := if x.isNegative then x.neg else x

def add : Binary64 → Binary64 → Binary64
  | .nan, _ | _, .nan => .nan
  | .infinity s, .infinity t => if s = t then .infinity s else .nan
  | .infinity s, .finite _ | .finite _, .infinity s => .infinity s
  | .finite x, .finite y => round (x + y)

def sub (x y : Binary64) : Binary64 := x.add y.neg

def mul : Binary64 → Binary64 → Binary64
  | .nan, _ | _, .nan => .nan
  | .infinity s, .infinity t => .infinity (s != t)
  | .infinity s, .finite x | .finite x, .infinity s =>
    if x = 0 then .nan else .infinity (s != decide (x < 0))
  | .finite x, .finite y => round (x * y)

/-- Division; a zero divisor counts as positive. -/
def div : Binary64 → Binary64 → Binary64
  | .nan, _ | _, .nan => .nan
  | .infinity _, .infinity _ => .nan
  | .infinity s, .finite y => .infinity (s != decide (y < 0))
  | .finite _, .infinity _ => .finite 0
  | .finite x, .finite y =>
    if y = 0 then if x = 0 then .nan else .infinity (x < 0) else round (x / y)

/-- `x < y`; false when either is not a number. -/
def lt : Binary64 → Binary64 → Bool
  | .nan, _ | _, .nan => false
  | .infinity s, .infinity t => s && !t
  | .infinity s, .finite _ => s
  | .finite _, .infinity t => !t
  | .finite x, .finite y => x < y

/-- `x ≤ y`; false when either is not a number. -/
def le : Binary64 → Binary64 → Bool
  | .nan, _ | _, .nan => false
  | .infinity s, .infinity t => s || !t
  | .infinity s, .finite _ => s
  | .finite _, .infinity t => !t
  | .finite x, .finite y => x ≤ y

/-- The larger of two doubles; the other one when one is not a number. -/
def max : Binary64 → Binary64 → Binary64
  | .nan, y => y
  | x, .nan => x
  | x, y => if x.lt y then y else x

/-- Conversion to an unsigned integer of at most `bound`: truncated towards zero, clamped to the
range, and zero for what is not a number. -/
def truncate (bound : ℕ) : Binary64 → ℕ
  | .nan | .infinity true => 0
  | .infinity false => bound
  | .finite value => min (value.num.toNat / value.den) bound

example : (ofNat (2 ^ 53 + 1)) = .finite (2 ^ 53 : ℕ) := by decide +kernel

example : div (ofNat 1) (ofNat 3) = .finite (6004799503160661 / 18014398509481984) := by
  decide +kernel

end Binary64

end Bc3Miner.Foundations
