import Bc3Miner.Foundations.SlidingWindow
import Bc3Miner.Reference.Modular
import Mathlib.Data.ZMod.Basic

/-!
# Powers with a fixed exponent or a fixed base

`FixedExponent` and `FixedPower` of `bc3hash/vendor/bc3/uint.hpp`, over `Mod<L, C>` for any width
and any small `C`. The first makes the schedule of a sliding window from its exponent and evaluates
it for one number or for two in step; the second makes a table with a row for each byte of an
exponent and multiplies one entry of each.

`fixedExponent_powers` and `fixedPower_powers` say that both are the power in the integers modulo `2
^ (64 L) - C`, and canonical, for every exponent.

`powerEntry_spec` and `powersAfter_spec` are the table row by row, and `tablePair_eq` that the two
in step are the two one at a time.
-/

set_option autoImplicit false
set_option relaxedAutoImplicit false

namespace Bc3Miner.Reference

open Foundations
open Bc3Miner.Reference.Mod

variable {L : ℕ}

/-! ### The two tables -/

/-- Bit `n` of an exponent. -/
def UInt.bit (e : UInt L) (n : ℕ) : Bool := (e.limb (n / 64) >>> (n % 64).toUInt64) &&& 1 == 1

/-- `byte`. -/
def UInt.byte (e : UInt L) (i : ℕ) : ℕ :=
  ((e.limb (i / 8) >>> (8 * (i % 8)).toUInt64) &&& 255).toNat

/-- The constructor of `FixedExponent`. -/
def fixedExponent (window : ℕ) (exponent : UInt L) : Windows :=
  Windows.ofBits exponent.bit window (64 * L)

/-- `FixedExponent::operator()`. -/
def Windows.power (C : UInt64) (window : ℕ) (windows : Windows) (a : UInt L) : Option (UInt L) :=
  match windows.schedule window with
  | none => some (UInt.ofWord 1)
  | some schedule => schedule.run (mul C) (square C) (normalize C a)

/-- `FixedExponent::pair`. -/
def Windows.pair (C : UInt64) (window : ℕ) (windows : Windows) (a b : UInt L) :
    Option (UInt L × UInt L) :=
  match windows.schedule window with
  | none => some (UInt.ofWord 1, UInt.ofWord 1)
  | some schedule => schedule.run (fun x y ↦ (mul C x.1 y.1, mul C x.2 y.2))
      (fun x ↦ (square C x.1, square C x.2)) (normalize C a, normalize C b)

/-- The powers after `power`. -/
def powersAfter (C : UInt64) (base : UInt L) : ℕ → UInt L → List (UInt L)
  | 0, _ => []
  | count + 1, power => mul C power base :: powersAfter C base count (mul C power base)

def powerRow (C : UInt64) (base : UInt L) : List (UInt L) :=
  UInt.ofWord 1 :: base :: powersAfter C base 254 base

/-- Rows of `FixedPower`'s table. -/
def powerRows (C : UInt64) : ℕ → UInt L → Option (List (List (UInt L)))
  | 0, _ => some []
  | rows + 1, base => do
    let row := powerRow C base
    let rest ← powerRows C rows (mul C (← row[255]?) base)
    some (row :: rest)

/-- The constructor of `FixedPower`. -/
def fixedPower (C : UInt64) (base : UInt L) : Option (List (List (UInt L))) :=
  powerRows C (8 * L) base

/-- The entry of row `i` for an exponent. -/
def powerEntry (table : List (List (UInt L))) (e : UInt L) (i : ℕ) : Option (UInt L) := do
  (← table[i]?)[e.byte i]?

/-- `FixedPower::operator()`. -/
def tablePower (C : UInt64) (table : List (List (UInt L))) (e : UInt L) : Option (UInt L) := do
  let r ← powerEntry table e 0
  (List.range' 1 (8 * L - 1)).foldlM (fun r i ↦ do return mul C r (← powerEntry table e i)) r

/-- `FixedPower::pair`. -/
def tablePair (C : UInt64) (table : List (List (UInt L))) (a b : UInt L) :
    Option (UInt L × UInt L) := do
  let r ← powerEntry table a 0
  let s ← powerEntry table b 0
  (List.range' 1 (8 * L - 1)).foldlM
    (fun powers i ↦ do
      return (mul C powers.1 (← powerEntry table a i), mul C powers.2 (← powerEntry table b i)))
    (r, s)

/-! ### Bits and bytes -/

/-- The bit of a number is that of its value. -/
theorem bit_eq_testBit (e : UInt L) : e.bit = e.toNat.testBit := by
  funext n
  have hplace : 64 * (n / 64) + n % 64 = n := Nat.div_add_mod n 64
  have heven : (2 : ℕ) ∣ 2 ^ (64 - n % 64) := dvd_pow_self 2 (by omega)
  have hvalue := Limbs.toNat_limb_shiftRight e (n / 64) (Nat.mod_lt n (by norm_num))
  have hone : (1 : UInt64).toNat = 1 := rfl
  rw [hplace] at hvalue
  rw [UInt.bit, Nat.testBit_eq_decide_div_mod_eq, ← Nat.mod_mod_of_dvd _ heven, ← hvalue]
  rw [Bool.eq_iff_iff, beq_iff_eq, decide_eq_true_eq, ← UInt64.toNat_inj, UInt64.toNat_and, hone,
    Nat.and_one_is_mod]

/-- A byte of a number is the digit of its value in base 256. -/
theorem byte_eq (e : UInt L) (i : ℕ) : e.byte i = e.toNat / 256 ^ i % 256 := by
  have hshift : 8 * (i % 8) < 64 := by omega
  have hplace : 64 * (i / 8) + 8 * (i % 8) = 8 * i := by omega
  have hdvd : 256 ∣ 2 ^ (64 - 8 * (i % 8)) := pow_dvd_pow 2 (by omega : 8 ≤ 64 - 8 * (i % 8))
  have hmask : (255 : UInt64).toNat = 2 ^ 8 - 1 := rfl
  have hbase : (256 : ℕ) ^ i = 2 ^ (8 * i) := by
    rw [pow_mul]
    rfl
  rw [UInt.byte, UInt64.toNat_and, hmask, Nat.and_two_pow_sub_one_eq_mod,
    Limbs.toNat_limb_shiftRight e (i / 8) hshift, hplace, hbase]
  exact Nat.mod_mod_of_dvd _ hdvd

/-! ### Pairs of residues -/

/-- Two canonical numbers. -/
def PairStands (p : ℕ) (x : UInt L × UInt L) (a : ZMod p × ZMod p) : Prop :=
  Stands p x.1 a.1 ∧ Stands p x.2 a.2

/-- A product of pairs is the pair of products. -/
theorem pairStands_mul {C : UInt64} (hsmall : Small L C) {x y : UInt L × UInt L}
    {a b : ZMod (modulus C : UInt L).toNat × ZMod (modulus C : UInt L).toNat}
    (hx : PairStands (modulus C : UInt L).toNat x a)
    (hy : PairStands (modulus C : UInt L).toNat y b) :
    PairStands (modulus C : UInt L).toNat (Mod.mul C x.1 y.1, Mod.mul C x.2 y.2) (a * b) :=
  ⟨Stands.mul hsmall hx.1 hy.1, Stands.mul hsmall hx.2 hy.2⟩

theorem pairStands_normalize {C : UInt64} (hsmall : Small L C) (a b : UInt L) :
    PairStands (modulus C : UInt L).toNat (normalize C a, normalize C b)
      ((a.toNat : ZMod (modulus C : UInt L).toNat), (b.toNat : ZMod (modulus C : UInt L).toNat)) :=
  ⟨stands_normalize hsmall a, stands_normalize hsmall b⟩

/-! ### Fixed exponents -/

section FixedExponent

variable {C : UInt64} (hsmall : Small L C) {window : ℕ} (hwindow : 1 ≤ window)

include hsmall hwindow

/-- One number. -/
theorem power_spec (e a : UInt L) :
    ∃ r, Windows.power C window (fixedExponent window e) a = some r ∧
      Stands (modulus C : UInt L).toNat r
        ((a.toNat : ZMod (modulus C : UInt L).toNat) ^ e.toNat) := by
  unfold Windows.power fixedExponent
  rw [bit_eq_testBit]
  rcases Nat.eq_zero_or_pos e.toNat with hzero | hpos
  · rw [hzero, Windows.schedule_zero, pow_zero]
    exact ⟨_, rfl, stands_one hsmall⟩
  · obtain ⟨schedule, hschedule, hformed, hexponent⟩ :=
      Windows.schedule_spec hwindow e.toNat_lt hpos.ne'
    obtain ⟨r, hrun, hr⟩ := Schedule.run_stands (fun hx hy ↦ Stands.mul hsmall hx hy)
      (fun hx ↦ Stands.mul hsmall hx hx) hformed (stands_normalize hsmall a)
    rw [hschedule]
    rw [hexponent] at hr
    exact ⟨r, hrun, hr⟩

/-- Two numbers in step. -/
theorem pair_spec (e a b : UInt L) :
    ∃ r s, Windows.pair C window (fixedExponent window e) a b = some (r, s) ∧
      Stands (modulus C : UInt L).toNat r ((a.toNat : ZMod (modulus C : UInt L).toNat) ^ e.toNat) ∧
      Stands (modulus C : UInt L).toNat s
        ((b.toNat : ZMod (modulus C : UInt L).toNat) ^ e.toNat) := by
  unfold Windows.pair fixedExponent
  rw [bit_eq_testBit]
  rcases Nat.eq_zero_or_pos e.toNat with hzero | hpos
  · rw [hzero, Windows.schedule_zero, pow_zero, pow_zero]
    exact ⟨_, _, rfl, stands_one hsmall, stands_one hsmall⟩
  · obtain ⟨schedule, hschedule, hformed, hexponent⟩ :=
      Windows.schedule_spec hwindow e.toNat_lt hpos.ne'
    obtain ⟨⟨r, s⟩, hrun, hr, hs⟩ := Schedule.run_stands (pairStands_mul hsmall)
      (fun hx ↦ pairStands_mul hsmall hx hx) hformed (pairStands_normalize hsmall a b)
    rw [hschedule]
    rw [hexponent] at hr hs
    exact ⟨r, s, hrun, hr, hs⟩

end FixedExponent

/-! ### Fixed bases -/

section FixedPower

variable {C : UInt64} (hsmall : Small L C)

include hsmall

/-- Each power after the first is the one before it times the base. -/
theorem powersAfter_spec (base : UInt L) {power : UInt L} {m : ℕ}
    (hpower : (power.toNat : ZMod (modulus C : UInt L).toNat) = base.toNat ^ m) (count : ℕ) {j : ℕ}
    (hj : j < count) :
    ∃ y, (powersAfter C base count power)[j]? = some y ∧
      (y.toNat : ZMod (modulus C : UInt L).toNat) = base.toNat ^ (m + 1 + j) := by
  induction count generalizing power m j with
  | zero => exact absurd hj (Nat.not_lt_zero j)
  | succ count ih =>
    have hnext := (stands_mul hsmall hpower rfl : Stands _ (Mod.mul C power base) _).residue
    rw [← pow_succ] at hnext
    rcases j with _ | j
    · exact ⟨_, rfl, hnext⟩
    · obtain ⟨y, hget, hy⟩ := ih hnext (Nat.lt_of_succ_lt_succ hj)
      refine ⟨y, hget, ?_⟩
      rw [hy, Nat.add_assoc (m + 1), Nat.add_comm 1 j]

/-- A row of the table holds the powers of its base up to the 255th. -/
theorem powerRow_spec (base : UInt L) {j : ℕ} (hj : j < 256) :
    ∃ y, (powerRow C base)[j]? = some y ∧
      (y.toNat : ZMod (modulus C : UInt L).toNat) = base.toNat ^ j := by
  rcases j with _ | _ | j
  · exact ⟨_, rfl, by rw [(stands_one hsmall).residue, pow_zero]⟩
  · exact ⟨_, rfl, by rw [Nat.zero_add, pow_one]⟩
  · obtain ⟨y, hget, hy⟩ := powersAfter_spec hsmall base (m := 1) (by rw [pow_one]) 254
      (by omega : j < 254)
    refine ⟨y, hget, ?_⟩
    rw [hy]
    congr 1
    omega

/-- Row `i` holds the powers of `base ^ 256 ^ i`. -/
theorem powerRows_spec (rows : ℕ) (base : UInt L) :
    ∃ table, powerRows C rows base = some table ∧ ∀ i < rows, ∀ j < 256,
      ∃ row y, table[i]? = some row ∧ row[j]? = some y ∧
        (y.toNat : ZMod (modulus C : UInt L).toNat) = base.toNat ^ (j * 256 ^ i) := by
  induction rows generalizing base with
  | zero => exact ⟨[], rfl, fun i hi ↦ absurd hi (Nat.not_lt_zero i)⟩
  | succ rows ih =>
    obtain ⟨last, hlast, hlastValue⟩ := powerRow_spec hsmall base (by norm_num : 255 < 256)
    have hnext := (stands_mul hsmall hlastValue rfl : Stands _ (Mod.mul C last base) _).residue
    rw [← pow_succ] at hnext
    obtain ⟨rest, hrest, hrows⟩ := ih (Mod.mul C last base)
    refine ⟨powerRow C base :: rest, ?_, ?_⟩
    · rw [powerRows, hlast, Option.bind_eq_bind, Option.bind_some, hrest]
      rfl
    · rintro (_ | i) hi j hj
      · obtain ⟨y, hget, hy⟩ := powerRow_spec hsmall base hj
        exact ⟨_, y, rfl, hget, by rw [hy, pow_zero, Nat.mul_one]⟩
      · obtain ⟨row, y, hrow, hget, hy⟩ := hrows i (Nat.lt_of_succ_lt_succ hi) j hj
        refine ⟨row, y, hrow, hget, ?_⟩
        rw [hy, hnext, ← pow_mul]
        congr 1
        ring

variable {base : UInt L} {table : List (List (UInt L))} (htable : fixedPower C base = some table)

include htable

/-- The entry of row `i` for an exponent. -/
theorem powerEntry_spec (e : UInt L) {i : ℕ} (hi : i < 8 * L) :
    ∃ y, powerEntry table e i = some y ∧ (y.toNat : ZMod (modulus C : UInt L).toNat) =
      base.toNat ^ (256 ^ i * (e.toNat / 256 ^ i % 256)) := by
  obtain ⟨made, hmade, hrows⟩ := powerRows_spec hsmall (8 * L) base
  obtain rfl : made = table := Option.some.inj (hmade.symm.trans htable)
  obtain ⟨row, y, hrow, hget, hy⟩ :=
    hrows i hi (e.toNat / 256 ^ i % 256) (Nat.mod_lt _ (by norm_num))
  refine ⟨y, ?_, by rw [hy, Nat.mul_comm]⟩
  rw [powerEntry, hrow, Option.bind_eq_bind, Option.bind_some, byte_eq, hget]

/-- Let the product so far be the power with the lowest bytes of an exponent, as many as `start`.
Multiplying the entries of the next rows to it reads only entries of the table and gives the power
with that many bytes more. -/
theorem foldlM_spec (e : UInt L) (count : ℕ) {start : ℕ} (hend : start + count ≤ 8 * L) {r : UInt L}
    (hr : (r.toNat : ZMod (modulus C : UInt L).toNat) = base.toNat ^ (e.toNat % 256 ^ start)) :
    ∃ s, (List.range' start count).foldlM
        (fun r i ↦ do return Mod.mul C r (← powerEntry table e i)) r = some s ∧
      (s.toNat : ZMod (modulus C : UInt L).toNat) =
        base.toNat ^ (e.toNat % 256 ^ (start + count)) ∧
      (0 < count → s.toNat < (modulus C : UInt L).toNat) := by
  induction count generalizing start r with
  | zero => exact ⟨r, rfl, hr, fun hpos ↦ absurd hpos (Nat.lt_irrefl 0)⟩
  | succ count ih =>
    obtain ⟨y, hentry, hy⟩ := powerEntry_spec hsmall htable e (by omega : start < 8 * L)
    have hproduct := stands_mul hsmall hr hy
    rw [← pow_add, ← Nat.mod_pow_succ] at hproduct
    obtain ⟨s, hfold, hvalue, hcanonical⟩ := ih (by omega : start + 1 + count ≤ 8 * L)
      hproduct.residue
    refine ⟨s, ?_, ?_, fun _ ↦ ?_⟩
    · rw [List.range'_succ, List.foldlM_cons, hentry]
      exact hfold
    · rw [hvalue]
      congr 3
      omega
    · rcases Nat.eq_zero_or_pos count with rfl | hpos
      · obtain rfl : Mod.mul C r y = s := Option.some.inj hfold
        exact hproduct.canonical
      · exact hcanonical hpos

/-- A power from the table reads only its entries and is the canonical residue of the power. -/
theorem tablePower_spec (e : UInt L) :
    ∃ r, tablePower C table e = some r ∧ Stands (modulus C : UInt L).toNat r
      ((base.toNat : ZMod (modulus C : UInt L).toNat) ^ e.toNat) := by
  have hlimbs := hsmall.limbs
  obtain ⟨first, hfirst, hvalue⟩ := powerEntry_spec hsmall htable e (by omega : 0 < 8 * L)
  rw [pow_zero, Nat.one_mul, Nat.div_one, ← pow_one 256] at hvalue
  obtain ⟨r, hfold, hr, hcanonical⟩ := foldlM_spec hsmall htable e (8 * L - 1)
    (by omega : 1 + (8 * L - 1) ≤ 8 * L) hvalue
  have hwidth : (256 : ℕ) ^ (1 + (8 * L - 1)) = 2 ^ (64 * L) := by
    rw [show (256 : ℕ) = 2 ^ 8 from rfl, ← pow_mul]
    congr 1
    omega
  rw [hwidth, Nat.mod_eq_of_lt e.toNat_lt] at hr
  refine ⟨r, ?_, hcanonical (by omega), hr⟩
  rw [tablePower, hfirst]
  exact hfold

omit hsmall htable in
/-- If each of two chains of products comes to its end on its own, then the two done in step come to
theirs, and give the two results: the chains share their table and nothing else. -/
theorem foldlM_pair (a b : UInt L) (places : List ℕ) {r s r' s' : UInt L}
    (hr : places.foldlM (fun r i ↦ do return Mod.mul C r (← powerEntry table a i)) r = some r')
    (hs : places.foldlM (fun r i ↦ do return Mod.mul C r (← powerEntry table b i)) s = some s') :
    places.foldlM (fun powers i ↦ do return (Mod.mul C powers.1 (← powerEntry table a i),
      Mod.mul C powers.2 (← powerEntry table b i))) (r, s) = some (r', s') := by
  induction places generalizing r s with
  | nil =>
    obtain rfl : r = r' := Option.some.inj hr
    obtain rfl : s = s' := Option.some.inj hs
    rfl
  | cons i places ih =>
    rw [List.foldlM_cons] at hr hs ⊢
    rcases ha : powerEntry table a i with _ | x
    · rw [ha] at hr
      exact absurd hr (by simp)
    · rcases hb : powerEntry table b i with _ | y
      · rw [hb] at hs
        exact absurd hs (by simp)
      · rw [ha] at hr
        rw [hb] at hs
        exact ih hr hs

omit hsmall htable in
/-- A pair of powers is the two powers. -/
theorem tablePair_eq {a b r s : UInt L} (hr : tablePower C table a = some r)
    (hs : tablePower C table b = some s) : tablePair C table a b = some (r, s) := by
  unfold tablePower at hr hs
  unfold tablePair
  rcases ha : powerEntry table a 0 with _ | x
  · rw [ha] at hr
    exact absurd hr (by simp)
  · rcases hb : powerEntry table b 0 with _ | y
    · rw [hb] at hs
      exact absurd hs (by simp)
    · rw [ha] at hr
      rw [hb] at hs
      exact foldlM_pair a b _ hr hs

end FixedPower

/-! ### Powers modulo `2 ^ (64 L) - C` -/

/-- Let `C` be small for the width, and the window have at least one bit. For every exponent and all
numbers, reduced or not, the schedule that `FixedExponent` makes runs to its end, and what it
evaluates to, one number at a time or two in step, is the canonical power modulo `2 ^ (64 L) - C`.
-/
theorem fixedExponent_powers {C : UInt64} (hsmall : Small L C) {window : ℕ} (hwindow : 1 ≤ window)
    (e a b : UInt L) :
    ∃ r s, Windows.power C window (fixedExponent window e) a = some r ∧
      Windows.pair C window (fixedExponent window e) a b = some (r, s) ∧
      r.toNat = a.toNat ^ e.toNat % (2 ^ (64 * L) - C.toNat) ∧
      s.toNat = b.toNat ^ e.toNat % (2 ^ (64 * L) - C.toNat) := by
  obtain ⟨r, hrun, hr⟩ := power_spec hsmall hwindow e a
  obtain ⟨r', s, hpair, hr', hs⟩ := pair_spec hsmall hwindow e a b
  have hvalue := hr.toNat_eq
  have hvalue' := hr'.toNat_eq
  obtain rfl : r' = r := Limbs.toNat_injective (hvalue'.trans hvalue.symm)
  rw [← modulus_eq hsmall]
  exact ⟨_, _, hrun, hpair, hvalue, hs.toNat_eq⟩

/-- A window of `exp64`'s width, modulo `M64`'s modulus. -/
theorem fixedExponent_powers_word :
    ∃ r s : UInt 1,
      Windows.power 59 3 (fixedExponent 3 (UInt.ofWord 7 : UInt 1)) (UInt.ofWord 2) = some r ∧
      Windows.pair 59 3 (fixedExponent 3 (UInt.ofWord 7 : UInt 1)) (UInt.ofWord 2)
        (UInt.ofWord 3) = some (r, s) ∧
      r.toNat = (UInt.ofWord 2 : UInt 1).toNat ^ (UInt.ofWord 7 : UInt 1).toNat %
        (2 ^ (64 * 1) - (59 : UInt64).toNat) ∧
      s.toNat = (UInt.ofWord 3 : UInt 1).toNat ^ (UInt.ofWord 7 : UInt 1).toNat %
        (2 ^ (64 * 1) - (59 : UInt64).toNat) :=
  fixedExponent_powers ⟨by decide, by decide, by decide⟩ (by decide) (UInt.ofWord 7)
    (UInt.ofWord 2) (UInt.ofWord 3)

/-- Let `C` be small for the width. `FixedPower` makes a table of every base, canonical or not, and
over it, for all exponents, the base's canonical powers modulo `2 ^ (64 L) - C` come out, one at a
time or two in step. -/
theorem fixedPower_powers {C : UInt64} (hsmall : Small L C) (base : UInt L) :
    ∃ table, fixedPower C base = some table ∧ ∀ a b : UInt L,
      ∃ r s, tablePower C table a = some r ∧ tablePair C table a b = some (r, s) ∧
        r.toNat = base.toNat ^ a.toNat % (2 ^ (64 * L) - C.toNat) ∧
        s.toNat = base.toNat ^ b.toNat % (2 ^ (64 * L) - C.toNat) := by
  obtain ⟨table, htable, -⟩ := powerRows_spec hsmall (8 * L) base
  refine ⟨table, htable, fun a b ↦ ?_⟩
  obtain ⟨r, hr, hrstands⟩ := tablePower_spec hsmall htable a
  obtain ⟨s, hs, hsstands⟩ := tablePower_spec hsmall htable b
  rw [← modulus_eq hsmall]
  exact ⟨r, s, hr, tablePair_eq hr hs, hrstands.toNat_eq, hsstands.toNat_eq⟩

/-- A table modulo `F64`'s modulus. -/
theorem fixedPower_powers_word :
    ∃ table, fixedPower 1469 (UInt.ofWord 3 : UInt 1) = some table ∧ ∀ a b : UInt 1,
      ∃ r s, tablePower 1469 table a = some r ∧ tablePair 1469 table a b = some (r, s) ∧
        r.toNat = (UInt.ofWord 3 : UInt 1).toNat ^ a.toNat %
          (2 ^ (64 * 1) - (1469 : UInt64).toNat) ∧
        s.toNat = (UInt.ofWord 3 : UInt 1).toNat ^ b.toNat %
          (2 ^ (64 * 1) - (1469 : UInt64).toNat) :=
  fixedPower_powers ⟨by decide, by decide, by decide⟩ _

end Bc3Miner.Reference
