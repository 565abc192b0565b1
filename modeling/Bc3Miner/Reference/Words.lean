import Bc3Miner.Foundations.Limbs

/-!
# The words of the reference implementation

`bc3hash/vendor/bc3/uint.hpp`: `UInt<L>`, its operators, and the mixing functions that are one
template for the three widths. A carry is the high half of a sum in 128 bits, which no sum of two
limbs and a carry overflows.

The operators are those of the template, limb by limb; `toNat_add` and its like say which number
comes out modulo the width.
-/

set_option autoImplicit false
set_option relaxedAutoImplicit false

namespace Bc3Miner.Reference

open Foundations

abbrev UInt (L : ℕ) := Limbs L

variable {L : ℕ}

/-! ### Operators -/

/-- One limb of `operator+`, with the carry of the limb below it. -/
def addStep (a b : UInt64) (carry : ℕ) : UInt64 × ℕ :=
  let sum := a.toNat + b.toNat + carry
  (sum.toUInt64, sum / 2 ^ 64)

instance : Add (UInt L) := ⟨fun a b ↦ (Limbs.walk addStep a b 0).1⟩

instance : XorOp (UInt L) := ⟨fun a b ↦ Limbs.ofFn fun i ↦ a.limb i ^^^ b.limb i⟩

instance : AndOp (UInt L) := ⟨fun a b ↦ Limbs.ofFn fun i ↦ a.limb i &&& b.limb i⟩

instance : OrOp (UInt L) := ⟨fun a b ↦ Limbs.ofFn fun i ↦ a.limb i ||| b.limb i⟩

instance : Complement (UInt L) := ⟨fun a ↦ Limbs.ofFn fun i ↦ ~~~a.limb i⟩

/-- The conversion from a 64-bit number: limb 0 of an otherwise zero number. -/
def UInt.ofWord (word : UInt64) : UInt L := Limbs.ofFn fun i ↦ if i = 0 then word else 0

/-- The conversion from another width: the limbs there are, and zeros above them. -/
def UInt.ofUInt {M : ℕ} (a : UInt M) : UInt L := Limbs.ofFn fun i ↦ if i < M then a.limb i else 0

/-- The number a string of hexadecimal digits writes. -/
def UInt.hex (number : ℕ) : UInt L := Limbs.ofFn fun i ↦ (number / 2 ^ (64 * i)).toUInt64

/-- `8 L` bytes, most significant first. -/
def UInt.load (bytes : ℕ → UInt8) : UInt L :=
  Limbs.ofFn fun i ↦
    (List.range 8).foldl (fun limb j ↦ (limb <<< 8) ||| (bytes ((L - 1 - i) * 8 + j)).toUInt64) 0

/-- The bytes of a number, most significant first: byte `i * 8 + j` is byte `j` of limb
`L - 1 - i`. -/
def UInt.store (a : UInt L) : List UInt8 :=
  (List.range L).flatMap fun i ↦ (List.range 8).map fun j ↦
    (a.limb (L - 1 - i) >>> (56 - j * 8).toUInt64).toUInt8

/-! ### Shifts and rotations -/

def shr (count : ℕ) (a : UInt L) : UInt L :=
  Limbs.ofFn fun i ↦
    let low := if i + count / 64 < L then a.limb (i + count / 64) >>> (count % 64).toUInt64 else 0
    if count % 64 ≠ 0 ∧ i + count / 64 + 1 < L then
      low ||| a.limb (i + count / 64 + 1) <<< (64 - count % 64).toUInt64
    else low

def ror (count : ℕ) (a : UInt L) : UInt L :=
  Limbs.ofFn fun i ↦
    let low := a.limb ((i + count / 64) % L) >>> (count % 64).toUInt64
    if count % 64 ≠ 0 then
      low ||| a.limb ((i + count / 64 + 1) % L) <<< (64 - count % 64).toUInt64
    else low

def rol (count : ℕ) (a : UInt L) : UInt L := ror (L * 64 - count % (L * 64)) a

/-! ### Mixing functions -/

def ch (x y z : UInt L) : UInt L := z ^^^ (x &&& (y ^^^ z))

def maj (x y z : UInt L) : UInt L := (x &&& y) ||| (z &&& (x ||| y))

def bigSig0 (x : UInt L) : UInt L :=
  if L = 1 then ror 28 x ^^^ ror 34 x ^^^ ror 39 x
  else if L = 2 then ror 57 x ^^^ ror 63 x ^^^ ror 92 x
  else ror 113 x ^^^ ror 146 x ^^^ ror 171 x

def bigSig1 (x : UInt L) : UInt L :=
  if L = 1 then ror 14 x ^^^ ror 18 x ^^^ ror 41 x
  else if L = 2 then ror 35 x ^^^ ror 44 x ^^^ ror 51 x
  else ror 88 x ^^^ ror 97 x ^^^ ror 201 x

def sig0 (x : UInt L) : UInt L :=
  if L = 1 then ror 1 x ^^^ ror 8 x ^^^ shr 7 x
  else if L = 2 then ror 42 x ^^^ ror 83 x ^^^ shr 20 x
  else ror 131 x ^^^ ror 57 x ^^^ shr 56 x

def sig1 (x : UInt L) : UInt L :=
  if L = 1 then ror 19 x ^^^ ror 61 x ^^^ shr 6 x
  else if L = 2 then ror 24 x ^^^ ror 119 x ^^^ shr 18 x
  else ror 53 x ^^^ ror 247 x ^^^ shr 26 x

def beta (x : UInt L) : UInt L :=
  let rotation := if L = 1 then 51 else if L = 2 then 54 else 81
  x ^^^ bigSig0 x ^^^ bigSig1 x ^^^ sig0 x ^^^ sig1 x ^^^ rol rotation x

def gamma (x y : UInt L) : UInt L :=
  let rightRotation := if L = 1 then 30 else if L = 2 then 48 else 58
  let leftRotation := if L = 1 then 38 else if L = 2 then 99 else 183
  let shift := if L = 1 then 12 else if L = 2 then 22 else 32
  x ^^^ beta y ^^^ ror rightRotation y ^^^ rol leftRotation (sig1 x) ^^^ shr shift y

/-! ### Sums modulo `2 ^ (64 L)` -/

theorem addStep_sum (a b : UInt64) (carry : ℕ) :
    (addStep a b carry).1.toNat + 2 ^ 64 * (addStep a b carry).2 = a.toNat + b.toNat + carry := by
  simp only [addStep, UInt64.toNat_ofNat', Nat.toUInt64_eq]
  exact Nat.mod_add_div _ _

theorem toNat_add (a b : UInt L) : (a + b).toNat = (a.toNat + b.toNat) % 2 ^ (64 * L) :=
  Limbs.walk_sum_mod id addStep_sum a b rfl

theorem add_assoc (a b c : UInt L) : a + b + c = a + (b + c) := by
  apply Limbs.toNat_injective
  rw [toNat_add, toNat_add, toNat_add, toNat_add, Nat.mod_add_mod, Nat.add_mod_mod, Nat.add_assoc]

/-- The word zero is the number zero. -/
theorem toNat_ofWord_zero : (UInt.ofWord 0 : UInt L).toNat = 0 := by
  have hzeros : (UInt.ofWord 0 : UInt L) = ⟨Vector.replicate L 0⟩ := by
    ext i hi
    simp [UInt.ofWord, Limbs.ofFn]
  have hvalue (count : ℕ) : Limbs.value (List.replicate count 0) = 0 := by
    induction count with
    | zero => rfl
    | succ count ih =>
      rw [List.replicate_succ, Limbs.value_cons, ih]
      rfl
  rw [hzeros, Limbs.toNat, Vector.toList_replicate, hvalue]

theorem add_ofWord_zero (a : UInt L) : a + UInt.ofWord 0 = a := by
  apply Limbs.toNat_injective
  rw [toNat_add, toNat_ofWord_zero, Nat.add_zero, Nat.mod_eq_of_lt a.toNat_lt]

end Bc3Miner.Reference
