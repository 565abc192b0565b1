import Bc3Miner.Reference.Words

/-!
# The words of the kernel

The multi-limb integers of `src/kernels/bc3hash.cl` and its mixing functions, of which each width
has its own. What a width has are the operations `Operations` lists, and the functions over them
differ only in the counts they rotate and shift by, so each is one definition with a width's
operations and its `Counts`.

`Operations.AreReference` says that a width's operations are those of the reference under a reading
of its words, and `Counts.AreReference` that its counts are the reference's; the mixing functions
are then the reference's too. `toUInt` reads a 64-bit word, and the wider words are the
reference's own limbs.

A rotation or a shift by whole limbs is treated apart in the source, as a shift of a limb by 64
means nothing; both are proved for every count the functions use.
-/

set_option autoImplicit false
set_option relaxedAutoImplicit false

namespace Bc3Miner.Kernel

open Foundations Reference

abbrev U128 := Limbs 2

abbrev U256 := Limbs 4

/-! ### Limbs -/

def mk128 (low high : UInt64) : U128 := ⟨#v[low, high]⟩

def mk256 (a b c d : UInt64) : U256 := ⟨#v[a, b, c, d]⟩

def ror64 (x : UInt64) (count : ℕ) : UInt64 :=
  (x >>> count.toUInt64) ||| (x <<< ((64 - count) &&& 63).toUInt64)

def rol64 (x : UInt64) (count : ℕ) : UInt64 := ror64 x ((64 - count) &&& 63)

def add128 (a b : U128) : U128 :=
  let low := a.limb 0 + b.limb 0
  mk128 low (a.limb 1 + b.limb 1 + (decide (low < a.limb 0)).toUInt64)

def add256 (a b : U256) : U256 := (Limbs.walk Limbs.addStep a b false).1

def xor128 (a b : U128) : U128 := mk128 (a.limb 0 ^^^ b.limb 0) (a.limb 1 ^^^ b.limb 1)

def and128 (a b : U128) : U128 := mk128 (a.limb 0 &&& b.limb 0) (a.limb 1 &&& b.limb 1)

def or128 (a b : U128) : U128 := mk128 (a.limb 0 ||| b.limb 0) (a.limb 1 ||| b.limb 1)

def not128 (a : U128) : U128 := mk128 (~~~a.limb 0) (~~~a.limb 1)

def xor256 (a b : U256) : U256 :=
  mk256 (a.limb 0 ^^^ b.limb 0) (a.limb 1 ^^^ b.limb 1) (a.limb 2 ^^^ b.limb 2)
    (a.limb 3 ^^^ b.limb 3)

def and256 (a b : U256) : U256 :=
  mk256 (a.limb 0 &&& b.limb 0) (a.limb 1 &&& b.limb 1) (a.limb 2 &&& b.limb 2)
    (a.limb 3 &&& b.limb 3)

def or256 (a b : U256) : U256 :=
  mk256 (a.limb 0 ||| b.limb 0) (a.limb 1 ||| b.limb 1) (a.limb 2 ||| b.limb 2)
    (a.limb 3 ||| b.limb 3)

def not256 (a : U256) : U256 :=
  mk256 (~~~a.limb 0) (~~~a.limb 1) (~~~a.limb 2) (~~~a.limb 3)

/-- The rotation of words whose limb indices are cut by `mask`. -/
def rorMasked {n : ℕ} (mask : ℕ) (a : Limbs n) (count : ℕ) : Limbs n :=
  let q := (count >>> 6) &&& mask
  let s := count &&& 63
  Limbs.ofFn fun i ↦
    let low := a.limb ((i + q) &&& mask) >>> s.toUInt64
    let high := if s ≠ 0 then a.limb ((i + q + 1) &&& mask) <<< (64 - s).toUInt64 else 0
    low ||| high

/-- The shift of words of `n` limbs. -/
def shrLimbs {n : ℕ} (a : Limbs n) (count : ℕ) : Limbs n :=
  let q := count >>> 6
  let s := count &&& 63
  Limbs.ofFn fun i ↦
    let low := if i + q < n then a.limb (i + q) >>> s.toUInt64 else 0
    let high := if s ≠ 0 ∧ i + q + 1 < n then a.limb (i + q + 1) <<< (64 - s).toUInt64 else 0
    low ||| high

def ror128 (a : U128) (count : ℕ) : U128 := rorMasked 1 a count

def rol128 (a : U128) (count : ℕ) : U128 := ror128 a ((128 - (count &&& 127)) &&& 127)

def shr128 (a : U128) (count : ℕ) : U128 := shrLimbs a count

def ror256 (a : U256) (count : ℕ) : U256 := rorMasked 3 a count

def rol256 (a : U256) (count : ℕ) : U256 := ror256 a ((256 - (count &&& 255)) &&& 255)

def shr256 (a : U256) (count : ℕ) : U256 := shrLimbs a count

/-! ### The mixing functions, per width -/

/-- The operations of a width its mixing functions are made of. -/
structure Operations (α : Type) where
  xor : α → α → α
  and : α → α → α
  or : α → α → α
  ror : α → ℕ → α
  rol : α → ℕ → α
  shr : α → ℕ → α

/-- The counts a width's mixing functions rotate and shift by: three rotations for the upper sigmas,
two and a shift for the lower ones, then those of `beta` and of `gamma`. -/
structure Counts where
  bigSig0 : ℕ × ℕ × ℕ
  bigSig1 : ℕ × ℕ × ℕ
  sig0 : ℕ × ℕ × ℕ
  sig1 : ℕ × ℕ × ℕ
  beta : ℕ
  gammaRight : ℕ
  gammaLeft : ℕ
  gammaShift : ℕ

namespace Operations

variable {α : Type} (ops : Operations α) (counts : Counts)

def ch (x y z : α) : α := ops.xor z (ops.and x (ops.xor y z))

def maj (x y z : α) : α := ops.or (ops.and x y) (ops.and z (ops.or x y))

/-- The exclusive or of three rotations. -/
def upperSigma (counts : ℕ × ℕ × ℕ) (x : α) : α :=
  ops.xor (ops.xor (ops.ror x counts.1) (ops.ror x counts.2.1)) (ops.ror x counts.2.2)

/-- The exclusive or of two rotations and a shift. -/
def lowerSigma (counts : ℕ × ℕ × ℕ) (x : α) : α :=
  ops.xor (ops.xor (ops.ror x counts.1) (ops.ror x counts.2.1)) (ops.shr x counts.2.2)

def beta (x : α) : α :=
  let r := ops.xor x (ops.upperSigma counts.bigSig0 x)
  let r := ops.xor r (ops.upperSigma counts.bigSig1 x)
  let r := ops.xor r (ops.lowerSigma counts.sig0 x)
  let r := ops.xor r (ops.lowerSigma counts.sig1 x)
  ops.xor r (ops.rol x counts.beta)

def gamma (x y : α) : α :=
  let r := ops.xor x (ops.beta counts y)
  let r := ops.xor r (ops.ror y counts.gammaRight)
  let r := ops.xor r (ops.rol (ops.lowerSigma counts.sig1 x) counts.gammaLeft)
  ops.xor r (ops.shr y counts.gammaShift)

end Operations

def operations64 : Operations UInt64 :=
  ⟨(· ^^^ ·), (· &&& ·), (· ||| ·), ror64, rol64, fun x count ↦ x >>> count.toUInt64⟩

def operations128 : Operations U128 := ⟨xor128, and128, or128, ror128, rol128, shr128⟩

def operations256 : Operations U256 := ⟨xor256, and256, or256, ror256, rol256, shr256⟩

def counts64 : Counts :=
  ⟨(28, 34, 39), (14, 18, 41), (1, 8, 7), (19, 61, 6), 51, 30, 38, 12⟩

def counts128 : Counts :=
  ⟨(57, 63, 92), (35, 44, 51), (42, 83, 20), (24, 119, 18), 54, 48, 99, 22⟩

def counts256 : Counts :=
  ⟨(113, 146, 171), (88, 97, 201), (131, 57, 56), (53, 247, 26), 81, 58, 183, 32⟩

def ch64 := operations64.ch

def maj64 := operations64.maj

def bigSig0_64 := operations64.upperSigma counts64.bigSig0

def bigSig1_64 := operations64.upperSigma counts64.bigSig1

def sig0_64 := operations64.lowerSigma counts64.sig0

def sig1_64 := operations64.lowerSigma counts64.sig1

def beta64 := operations64.beta counts64

def gamma64 := operations64.gamma counts64

def ch128 := operations128.ch

def maj128 := operations128.maj

def bigSig0_128 := operations128.upperSigma counts128.bigSig0

def sig0_128 := operations128.lowerSigma counts128.sig0

def sig1_128 := operations128.lowerSigma counts128.sig1

def beta128 := operations128.beta counts128

def ch256 := operations256.ch

def maj256 := operations256.maj

def bigSig0_256 := operations256.upperSigma counts256.bigSig0

def bigSig1_256 := operations256.upperSigma counts256.bigSig1

def beta256 := operations256.beta counts256

def gamma256 := operations256.gamma counts256

/-! ### Operations of the reference -/

/-- The operations are those of the reference, words read as numbers of `L` limbs. Counts are those
the kernel has, above zero and below the width. -/
structure Operations.AreReference {α : Type} {L : ℕ} (ops : Operations α) (read : α → UInt L) :
    Prop where
  xor : ∀ x y, read (ops.xor x y) = read x ^^^ read y
  and : ∀ x y, read (ops.and x y) = read x &&& read y
  or : ∀ x y, read (ops.or x y) = read x ||| read y
  ror : ∀ x count, 0 < count → count < L * 64 →
    read (ops.ror x count) = Reference.ror count (read x)
  rol : ∀ x count, 0 < count → count < L * 64 →
    read (ops.rol x count) = Reference.rol count (read x)
  shr : ∀ x count, 0 < count → count < L * 64 →
    read (ops.shr x count) = Reference.shr count (read x)

/-- The mixing functions are those of the reference, words read as numbers of `L` limbs. -/
structure MixesAsReference {α : Type} {L : ℕ} (ops : Operations α) (counts : Counts)
    (read : α → UInt L) : Prop where
  ch : ∀ x y z, read (ops.ch x y z) = Reference.ch (read x) (read y) (read z)
  maj : ∀ x y z, read (ops.maj x y z) = Reference.maj (read x) (read y) (read z)
  bigSig0 : ∀ x, read (ops.upperSigma counts.bigSig0 x) = Reference.bigSig0 (read x)
  bigSig1 : ∀ x, read (ops.upperSigma counts.bigSig1 x) = Reference.bigSig1 (read x)
  sig0 : ∀ x, read (ops.lowerSigma counts.sig0 x) = Reference.sig0 (read x)
  sig1 : ∀ x, read (ops.lowerSigma counts.sig1 x) = Reference.sig1 (read x)
  beta : ∀ x, read (ops.beta counts x) = Reference.beta (read x)
  gamma : ∀ x y, read (ops.gamma counts x y) = Reference.gamma (read x) (read y)

section Rotations

variable {n mask : ℕ}

/-- A mask that keeps what is left modulo the number of limbs rotates as the reference does. -/
theorem rorMasked_eq (hmask : ∀ i, i &&& mask = i % n) (a : Limbs n) (count : ℕ) :
    rorMasked mask a count = Reference.ror count a := by
  refine Limbs.ext_limb fun i hi ↦ ?_
  have hquotient : count >>> 6 = count / 64 := Nat.shiftRight_eq_div_pow count 6
  have hshift : count &&& 63 = count % 64 := Nat.and_two_pow_sub_one_eq_mod count 6
  unfold rorMasked Reference.ror
  rw [Limbs.limb_ofFn _ hi, Limbs.limb_ofFn _ hi]
  simp only [hmask, hquotient, hshift, Nat.add_mod_mod]
  rw [Nat.add_right_comm, Nat.add_mod_mod, Nat.add_right_comm]
  split_ifs <;> simp

/-- The shift of the kernel is that of the reference. -/
theorem shrLimbs_eq (a : Limbs n) (count : ℕ) : shrLimbs a count = Reference.shr count a := by
  refine Limbs.ext_limb fun i hi ↦ ?_
  have hquotient : count >>> 6 = count / 64 := Nat.shiftRight_eq_div_pow count 6
  have hshift : count &&& 63 = count % 64 := Nat.and_two_pow_sub_one_eq_mod count 6
  unfold shrLimbs Reference.shr
  rw [Limbs.limb_ofFn _ hi, Limbs.limb_ofFn _ hi]
  simp only [hquotient, hshift]
  by_cases hhigh : count % 64 ≠ 0 ∧ i + count / 64 + 1 < n
  · rw [if_pos hhigh, if_pos hhigh]
  · rw [if_neg hhigh, if_neg hhigh, UInt64.or_zero]

/-- What is left of a width after a rotation to the left by less than it, as the kernel cuts it. -/
theorem rest_of_width (bits : ℕ) {count : ℕ} (hpositive : 0 < count) (hlt : count < 2 ^ bits) :
    (2 ^ bits - (count &&& (2 ^ bits - 1))) &&& (2 ^ bits - 1) = 2 ^ bits - count % 2 ^ bits := by
  rw [Nat.and_two_pow_sub_one_eq_mod, Nat.and_two_pow_sub_one_eq_mod, Nat.mod_eq_of_lt hlt,
    Nat.mod_eq_of_lt (by omega)]

end Rotations

/-- A 64-bit word as a number of one limb. -/
def toUInt (word : UInt64) : UInt 1 := UInt.ofWord word

/-- The rotation of a 64-bit word is that of the reference, for counts below 64. -/
theorem ror64_eq {count : ℕ} (hlt : count < 64) (x : UInt64) :
    toUInt (ror64 x count) = Reference.ror count (toUInt x) := by
  refine Limbs.ext_limb fun i hi ↦ ?_
  have hshift : (64 - count) &&& 63 = (64 - count) % 64 := Nat.and_two_pow_sub_one_eq_mod _ 6
  have hlimb (j : ℕ) : (toUInt x).limb (j % 1) = x := by rw [Nat.mod_one]; rfl
  obtain rfl : i = 0 := by omega
  unfold Reference.ror
  rw [Limbs.limb_ofFn _ hi]
  simp only [hlimb, Nat.mod_eq_of_lt hlt]
  show ror64 x count = _
  unfold ror64
  rw [hshift]
  by_cases hzero : count = 0
  · simp [hzero]
  · rw [if_pos hzero, Nat.mod_eq_of_lt (by omega)]

/-- The operations on 64-bit words are those of the reference. -/
theorem operations64_areReference : operations64.AreReference toUInt where
  xor _ _ := Limbs.ext_limb fun i hi ↦ by interval_cases i; rfl
  and _ _ := Limbs.ext_limb fun i hi ↦ by interval_cases i; rfl
  or _ _ := Limbs.ext_limb fun i hi ↦ by interval_cases i; rfl
  ror x count _ hlt := ror64_eq (by omega) x
  rol x count hpositive hlt := by
    have hrest : (64 - count) &&& 63 = 64 - count := by
      rw [Nat.and_two_pow_sub_one_eq_mod _ 6, Nat.mod_eq_of_lt (by omega)]
    show toUInt (ror64 x ((64 - count) &&& 63)) =
      Reference.ror (1 * 64 - count % (1 * 64)) (toUInt x)
    rw [hrest, Nat.mod_eq_of_lt hlt, Nat.one_mul]
    exact ror64_eq (by omega) x
  shr x count _ hlt := Limbs.ext_limb fun i hi ↦ by
    obtain rfl : i = 0 := by omega
    unfold Reference.shr
    rw [Limbs.limb_ofFn _ hi, if_neg (by omega), if_pos (by omega), Nat.mod_eq_of_lt (by omega),
      Nat.div_eq_of_lt (by omega)]
    rfl

/-- The rotation of a 128-bit word is that of the reference, for counts between 0 and 128. -/
theorem rol128_eq {count : ℕ} (hpositive : 0 < count) (hlt : count < 128) (x : U128) :
    rol128 x count = Reference.rol count x := by
  have hrest : (128 - (count &&& 127)) &&& 127 = 128 - count % 128 :=
    rest_of_width 7 hpositive hlt
  rw [rol128, hrest]
  exact rorMasked_eq Nat.and_one_is_mod x _

/-- The operations on 128-bit words are those of the reference. -/
theorem operations128_areReference : operations128.AreReference (id : U128 → UInt 2) where
  xor _ _ := Limbs.ext_limb fun i hi ↦ by interval_cases i <;> rfl
  and _ _ := Limbs.ext_limb fun i hi ↦ by interval_cases i <;> rfl
  or _ _ := Limbs.ext_limb fun i hi ↦ by interval_cases i <;> rfl
  ror x count _ _ := rorMasked_eq Nat.and_one_is_mod x count
  rol x count hpositive hlt := rol128_eq hpositive hlt x
  shr x count _ _ := shrLimbs_eq x count

/-- The rotation of a 256-bit word is that of the reference, for counts between 0 and 256. -/
theorem rol256_eq {count : ℕ} (hpositive : 0 < count) (hlt : count < 256) (x : U256) :
    rol256 x count = Reference.rol count x := by
  have hrest : (256 - (count &&& 255)) &&& 255 = 256 - count % 256 :=
    rest_of_width 8 hpositive hlt
  rw [rol256, hrest]
  exact rorMasked_eq (fun i ↦ Nat.and_two_pow_sub_one_eq_mod i 2) x _

/-- The operations on 256-bit words are those of the reference. -/
theorem operations256_areReference : operations256.AreReference (id : U256 → UInt 4) where
  xor _ _ := Limbs.ext_limb fun i hi ↦ by interval_cases i <;> rfl
  and _ _ := Limbs.ext_limb fun i hi ↦ by interval_cases i <;> rfl
  or _ _ := Limbs.ext_limb fun i hi ↦ by interval_cases i <;> rfl
  ror x count _ _ := rorMasked_eq (fun i ↦ Nat.and_two_pow_sub_one_eq_mod i 2) x count
  rol x count hpositive hlt := rol256_eq hpositive hlt x
  shr x count _ _ := shrLimbs_eq x count

/-! ### Mixing functions of the reference -/

namespace Counts

/-- Every count. -/
def all (counts : Counts) : List ℕ :=
  [counts.bigSig0.1, counts.bigSig0.2.1, counts.bigSig0.2.2, counts.bigSig1.1, counts.bigSig1.2.1,
    counts.bigSig1.2.2, counts.sig0.1, counts.sig0.2.1, counts.sig0.2.2, counts.sig1.1,
    counts.sig1.2.1, counts.sig1.2.2, counts.beta, counts.gammaRight, counts.gammaLeft,
    counts.gammaShift]

/-- The counts are those of the reference at `L` limbs, and each is below the width. -/
structure AreReference (counts : Counts) (L : ℕ) : Prop where
  lt_width : ∀ count ∈ counts.all, 0 < count ∧ count < L * 64
  bigSig0 : ∀ x : UInt L, Reference.bigSig0 x = Reference.ror counts.bigSig0.1 x ^^^
    Reference.ror counts.bigSig0.2.1 x ^^^ Reference.ror counts.bigSig0.2.2 x
  bigSig1 : ∀ x : UInt L, Reference.bigSig1 x = Reference.ror counts.bigSig1.1 x ^^^
    Reference.ror counts.bigSig1.2.1 x ^^^ Reference.ror counts.bigSig1.2.2 x
  sig0 : ∀ x : UInt L, Reference.sig0 x = Reference.ror counts.sig0.1 x ^^^
    Reference.ror counts.sig0.2.1 x ^^^ Reference.shr counts.sig0.2.2 x
  sig1 : ∀ x : UInt L, Reference.sig1 x = Reference.ror counts.sig1.1 x ^^^
    Reference.ror counts.sig1.2.1 x ^^^ Reference.shr counts.sig1.2.2 x
  beta : ∀ x : UInt L, Reference.beta x = x ^^^ Reference.bigSig0 x ^^^ Reference.bigSig1 x ^^^
    Reference.sig0 x ^^^ Reference.sig1 x ^^^ Reference.rol counts.beta x
  gamma : ∀ x y : UInt L, Reference.gamma x y = x ^^^ Reference.beta y ^^^
    Reference.ror counts.gammaRight y ^^^ Reference.rol counts.gammaLeft (Reference.sig1 x) ^^^
      Reference.shr counts.gammaShift y

end Counts

section Mixing

variable {α : Type} {L : ℕ} {ops : Operations α} {counts : Counts} {read : α → UInt L}

/-- The three rotations of an upper sigma are those of the reference, for counts inside the word. -/
theorem Operations.AreReference.upperSigma (hops : ops.AreReference read) {a b c : ℕ}
    (ha : 0 < a ∧ a < L * 64) (hb : 0 < b ∧ b < L * 64) (hc : 0 < c ∧ c < L * 64) (x : α) :
    read (ops.upperSigma (a, b, c) x) =
      Reference.ror a (read x) ^^^ Reference.ror b (read x) ^^^ Reference.ror c (read x) := by
  unfold Operations.upperSigma
  rw [hops.xor, hops.xor, hops.ror x a ha.1 ha.2, hops.ror x b hb.1 hb.2, hops.ror x c hc.1 hc.2]

/-- The two rotations and the shift of a lower sigma are those of the reference, for counts inside
the word. -/
theorem Operations.AreReference.lowerSigma (hops : ops.AreReference read) {a b c : ℕ}
    (ha : 0 < a ∧ a < L * 64) (hb : 0 < b ∧ b < L * 64) (hc : 0 < c ∧ c < L * 64) (x : α) :
    read (ops.lowerSigma (a, b, c) x) =
      Reference.ror a (read x) ^^^ Reference.ror b (read x) ^^^ Reference.shr c (read x) := by
  unfold Operations.lowerSigma
  rw [hops.xor, hops.xor, hops.ror x a ha.1 ha.2, hops.ror x b hb.1 hb.2, hops.shr x c hc.1 hc.2]

/-- Operations and counts of the reference make the reference's mixing functions. -/
theorem mixesAsReference (hops : ops.AreReference read) (hcounts : counts.AreReference L) :
    MixesAsReference ops counts read := by
  have hlt (count : ℕ) (hmem : count ∈ counts.all) := hcounts.lt_width count hmem
  have hbigSig0 (x : α) :
      read (ops.upperSigma counts.bigSig0 x) = Reference.bigSig0 (read x) := by
    rw [hcounts.bigSig0]
    exact hops.upperSigma (hlt _ (by simp [Counts.all])) (hlt _ (by simp [Counts.all]))
      (hlt _ (by simp [Counts.all])) x
  have hbigSig1 (x : α) :
      read (ops.upperSigma counts.bigSig1 x) = Reference.bigSig1 (read x) := by
    rw [hcounts.bigSig1]
    exact hops.upperSigma (hlt _ (by simp [Counts.all])) (hlt _ (by simp [Counts.all]))
      (hlt _ (by simp [Counts.all])) x
  have hsig0 (x : α) : read (ops.lowerSigma counts.sig0 x) = Reference.sig0 (read x) := by
    rw [hcounts.sig0]
    exact hops.lowerSigma (hlt _ (by simp [Counts.all])) (hlt _ (by simp [Counts.all]))
      (hlt _ (by simp [Counts.all])) x
  have hsig1 (x : α) : read (ops.lowerSigma counts.sig1 x) = Reference.sig1 (read x) := by
    rw [hcounts.sig1]
    exact hops.lowerSigma (hlt _ (by simp [Counts.all])) (hlt _ (by simp [Counts.all]))
      (hlt _ (by simp [Counts.all])) x
  have hbeta (x : α) : read (ops.beta counts x) = Reference.beta (read x) := by
    have hcount := hlt counts.beta (by simp [Counts.all])
    unfold Operations.beta
    rw [hops.xor, hops.xor, hops.xor, hops.xor, hops.xor, hbigSig0, hbigSig1, hsig0, hsig1,
      hops.rol x counts.beta hcount.1 hcount.2, hcounts.beta]
  refine ⟨fun x y z ↦ ?_, fun x y z ↦ ?_, hbigSig0, hbigSig1, hsig0, hsig1, hbeta, fun x y ↦ ?_⟩
  · unfold Operations.ch Reference.ch
    rw [hops.xor, hops.and, hops.xor]
  · unfold Operations.maj Reference.maj
    rw [hops.or, hops.and, hops.and, hops.or]
  · have hright := hlt counts.gammaRight (by simp [Counts.all])
    have hleft := hlt counts.gammaLeft (by simp [Counts.all])
    have hshift := hlt counts.gammaShift (by simp [Counts.all])
    unfold Operations.gamma
    rw [hops.xor, hops.xor, hops.xor, hops.xor, hbeta, hops.ror y _ hright.1 hright.2,
      hops.rol _ _ hleft.1 hleft.2, hsig1, hops.shr y _ hshift.1 hshift.2, hcounts.gamma]

end Mixing

theorem counts64_areReference : counts64.AreReference 1 :=
  ⟨by decide, fun _ ↦ rfl, fun _ ↦ rfl, fun _ ↦ rfl, fun _ ↦ rfl, fun _ ↦ rfl, fun _ _ ↦ rfl⟩

theorem counts128_areReference : counts128.AreReference 2 :=
  ⟨by decide, fun _ ↦ rfl, fun _ ↦ rfl, fun _ ↦ rfl, fun _ ↦ rfl, fun _ ↦ rfl, fun _ _ ↦ rfl⟩

theorem counts256_areReference : counts256.AreReference 4 :=
  ⟨by decide, fun _ ↦ rfl, fun _ ↦ rfl, fun _ ↦ rfl, fun _ ↦ rfl, fun _ ↦ rfl, fun _ _ ↦ rfl⟩

theorem mixes64 : MixesAsReference operations64 counts64 toUInt :=
  mixesAsReference operations64_areReference counts64_areReference

theorem mixes128 : MixesAsReference operations128 counts128 (id : U128 → UInt 2) :=
  mixesAsReference operations128_areReference counts128_areReference

theorem mixes256 : MixesAsReference operations256 counts256 (id : U256 → UInt 4) :=
  mixesAsReference operations256_areReference counts256_areReference

/-! ### Sums of the reference -/

/-- The sum of 64-bit words is that of one-limb numbers. -/
theorem toUInt_add (x y : UInt64) : toUInt (x + y) = toUInt x + toUInt y := by
  apply Limbs.toNat_injective
  rw [toNat_add]
  have hvalue (word : UInt64) : (toUInt word).toNat = word.toNat := by
    show word.toNat + 2 ^ 64 * 0 = word.toNat
    rw [Nat.mul_zero, Nat.add_zero]
  rw [hvalue, hvalue, hvalue, UInt64.toNat_add]

theorem add256_eq (a b : U256) : add256 a b = a + b := by
  apply Limbs.toNat_injective
  rw [toNat_add]
  exact Limbs.walk_sum_mod Bool.toNat Limbs.addStep_sum a b rfl

/-- A 128-bit number is its two limbs. -/
theorem toNat_two (a : U128) : a.toNat = (a.limb 0).toNat + 2 ^ 64 * (a.limb 1).toNat := by
  rcases a with ⟨⟨⟨limbs⟩, hsize⟩⟩
  rcases limbs with _ | ⟨low, _ | ⟨high, _ | ⟨third, rest⟩⟩⟩
  · exact absurd hsize (by simp)
  · exact absurd hsize (by simp)
  · show Limbs.value [low, high] = low.toNat + 2 ^ 64 * high.toNat
    rw [Limbs.value_cons, Limbs.value_cons, Limbs.value_nil]
    omega
  · exact absurd hsize (by simp)

/-- The sum of the kernel is that of the reference. -/
theorem add128_eq (a b : U128) : add128 a b = a + b := by
  apply Limbs.toNat_injective
  rw [toNat_add, toNat_two, toNat_two a, toNat_two b]
  show (a.limb 0 + b.limb 0).toNat + 2 ^ 64 *
      (a.limb 1 + b.limb 1 + (decide (a.limb 0 + b.limb 0 < a.limb 0)).toUInt64).toNat = _
  have ha := (a.limb 0).toNat_lt
  have hb := (b.limb 0).toNat_lt
  simp only [UInt64.toNat_add, Limbs.toNat_toUInt64, UInt64.lt_iff_toNat_lt]
  by_cases hwrap : ((a.limb 0).toNat + (b.limb 0).toNat) % 2 ^ 64 < (a.limb 0).toNat
  · rw [decide_eq_true hwrap, Bool.toNat_true]
    omega
  · rw [decide_eq_false hwrap, Bool.toNat_false]
    omega

theorem not128_eq (a : U128) : not128 a = ~~~a :=
  Limbs.ext_limb fun i hi ↦ by interval_cases i <;> rfl

theorem not256_eq (a : U256) : not256 a = ~~~a :=
  Limbs.ext_limb fun i hi ↦ by interval_cases i <;> rfl

end Bc3Miner.Kernel
