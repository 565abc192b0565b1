import Bc3Miner.Foundations.Limbs

/-!
# Limbs with accumulators of 128 bits

A product of two limbs and two more limbs fit 128 bits, so that a pass which multiplies each limb
and adds another one and the carry loses nothing: `chain_scaled` turns an equation about one step
into one about two numbers. `mulRows` is the schoolbook product, row by row over a window that moves
up a limb at a time, and `addWide` adds a number of 128 bits to the lowest limb.

`chain_scaled` is used with any step that multiplies by a number and adds; the bound on the carry is
part of the step's equation, so no bound has to be carried along a list.
-/

set_option autoImplicit false
set_option relaxedAutoImplicit false

namespace Bc3Miner.Foundations.Limbs

/-! ### One limb -/

/-- `a * b + c + d` in 128 bits, as its low half and its high half. -/
def mulAdd (a b c d : UInt64) : UInt64 × UInt64 :=
  let sum := (a.toNat * b.toNat + c.toNat + d.toNat) % 2 ^ 128
  (sum.toUInt64, (sum / 2 ^ 64).toUInt64)

/-- The two limbs of a product with two additions stand for all of it: the sum does not leave 128
bits. -/
theorem mulAdd_sum (a b c d : UInt64) :
    (mulAdd a b c d).1.toNat + 2 ^ 64 * (mulAdd a b c d).2.toNat =
      a.toNat * b.toNat + c.toNat + d.toNat := by
  have ha := a.toNat_lt
  have hb := b.toNat_lt
  have hc := c.toNat_lt
  have hd := d.toNat_lt
  have hproduct : a.toNat * b.toNat ≤ (2 ^ 64 - 1) * (2 ^ 64 - 1) :=
    Nat.mul_le_mul (by omega) (by omega)
  have hfits : a.toNat * b.toNat + c.toNat + d.toNat < 2 ^ 128 := by omega
  unfold mulAdd
  rw [Nat.mod_eq_of_lt hfits]
  simp only [Nat.toUInt64_eq, UInt64.toNat_ofNat']
  omega

/-- A limb added to 128 bits: the low half, and the high half that remains. -/
def addLimb (limb : UInt64) (wide : ℕ) : UInt64 × ℕ :=
  let sum := (wide + limb.toNat) % 2 ^ 128
  (sum.toUInt64, sum / 2 ^ 64)

/-- A limb added to a wide carry that leaves room for it gives a limb and a carry that leaves room
again. -/
theorem addLimb_sum (limb : UInt64) {wide : ℕ} (hwide : wide + 2 ^ 64 ≤ 2 ^ 128) :
    (addLimb limb wide).1.toNat + 2 ^ 64 * (addLimb limb wide).2 = limb.toNat + wide ∧
      (addLimb limb wide).2 + 2 ^ 64 ≤ 2 ^ 128 := by
  have hlimb := limb.toNat_lt
  unfold addLimb
  rw [Nat.mod_eq_of_lt (by omega)]
  simp only [Nat.toUInt64_eq, UInt64.toNat_ofNat']
  omega

/-! ### Passes -/

section Scaled

variable {σ : Type} {step : UInt64 → UInt64 → σ → UInt64 × σ}

/-- If every step adds the multiple of a limb, a limb and the carry, then a chain over two lists of
the same length adds the multiple of the first number to the second, and the carry that comes in. -/
theorem chain_scaled (carry : σ → ℕ) {factor : ℕ}
    (hstep : ∀ a b state, (step a b state).1.toNat + 2 ^ 64 * carry (step a b state).2 =
      a.toNat * factor + b.toNat + carry state) {as bs : List UInt64} (state : σ)
    (hlength : as.length = bs.length) :
    value (chain step as bs state).1 + 2 ^ (64 * as.length) * carry (chain step as bs state).2 =
      value as * factor + value bs + carry state := by
  induction as generalizing bs state with
  | nil =>
    rw [List.length_eq_zero_iff.mp hlength.symm]
    simp [chain]
  | cons a as ih =>
    rcases bs with _ | ⟨b, bs⟩
    · exact absurd hlength (by simp)
    · have hrest := ih (step a b state).2 (by simpa using hlength)
      have hhead := hstep a b state
      rw [chain_cons, value_cons, value_cons, value_cons, List.length_cons, Nat.mul_succ, pow_add]
      dsimp only
      linear_combination hhead + 2 ^ 64 * hrest

end Scaled

/-- `factor` times the limbs of `as`, with those of `bs` and a carry added. -/
def mulAddPass (factor : UInt64) (as bs : List UInt64) (carry : UInt64) : List UInt64 × UInt64 :=
  chain (fun a b carry ↦ mulAdd a factor b carry) as bs carry

/-- One pass adds the product of a number with a limb to another of the same length, and the carry
that comes in. -/
theorem mulAddPass_sum (factor : UInt64) {as bs : List UInt64} (carry : UInt64)
    (hlength : as.length = bs.length) :
    value (mulAddPass factor as bs carry).1 +
        2 ^ (64 * as.length) * (mulAddPass factor as bs carry).2.toNat =
      value as * factor.toNat + value bs + carry.toNat :=
  chain_scaled UInt64.toNat (fun a b carry ↦ mulAdd_sum a factor b carry) carry hlength

theorem length_mulAddPass (factor : UInt64) {as bs : List UInt64} (carry : UInt64)
    (hlength : as.length = bs.length) :
    (mulAddPass factor as bs carry).1.length = as.length := by
  rw [mulAddPass, length_chain, hlength, Nat.min_self]

/-- A number of 128 bits added to the lowest limb. -/
def addWide : List UInt64 → ℕ → List UInt64 × ℕ
  | [], wide => ([], wide)
  | limb :: limbs, wide =>
    let (out, wide) := addLimb limb wide
    let (rest, wide) := addWide limbs wide
    (out :: rest, wide)

theorem length_addWide (limbs : List UInt64) (wide : ℕ) :
    (addWide limbs wide).1.length = limbs.length := by
  induction limbs generalizing wide with
  | nil => rfl
  | cons limb limbs ih => exact congrArg Nat.succ (ih _)

/-- A wide carry is added to the number, and what is not taken up goes out at the end. -/
theorem addWide_sum (limbs : List UInt64) {wide : ℕ} (hwide : wide + 2 ^ 64 ≤ 2 ^ 128) :
    value (addWide limbs wide).1 + 2 ^ (64 * limbs.length) * (addWide limbs wide).2 =
      value limbs + wide := by
  induction limbs generalizing wide with
  | nil => simp [addWide]
  | cons limb limbs ih =>
    obtain ⟨hhead, hnext⟩ := addLimb_sum limb hwide
    have hrest := ih hnext
    rw [addWide]
    dsimp only
    rw [value_cons, value_cons, List.length_cons, Nat.mul_succ, pow_add]
    linear_combination hhead + 2 ^ 64 * hrest

/-! ### Products -/

/-- The rows of a product: each limb of the second number times all of the first, added to a window
that moves up a limb at a time. -/
def mulRows (b : List UInt64) : List UInt64 → List UInt64 → List UInt64
  | [], window => window
  | a :: as, window =>
    match mulAddPass a b window 0 with
    | ([], _) => []
    | (lowest :: rest, carry) => lowest :: mulRows b as (rest ++ [carry])

/-- The rows of the product: as many limbs as both numbers have, and the value is the product plus
what the window held. -/
theorem mulRows_spec (b : List UInt64) (hb : b ≠ []) (as : List UInt64) {window : List UInt64}
    (hwindow : window.length = b.length) :
    (mulRows b as window).length = as.length + b.length ∧
      value (mulRows b as window) = value as * value b + value window := by
  induction as generalizing window with
  | nil => simp [mulRows, hwindow]
  | cons a as ih =>
    have hsum := mulAddPass_sum a 0 hwindow.symm
    have hlength := length_mulAddPass a 0 hwindow.symm
    rw [mulRows]
    rcases hpass : mulAddPass a b window 0 with ⟨_ | ⟨lowest, rest⟩, carry⟩
    · rw [hpass] at hlength
      exact absurd (List.length_eq_zero_iff.mp hlength.symm) hb
    · rw [hpass] at hsum hlength
      have hrest : rest.length + 1 = b.length := hlength
      have hnext : (rest ++ [carry]).length = b.length := by
        rw [List.length_append, List.length_singleton, hrest]
      obtain ⟨hcount, hvalue⟩ := ih hnext
      have hzero : (0 : UInt64).toNat = 0 := rfl
      have hsingle : value [carry] = carry.toNat := by
        rw [value_cons, value_nil, Nat.mul_zero, Nat.add_zero]
      simp only at hsum ⊢
      rw [value_cons, hzero, ← hrest, Nat.mul_succ, pow_add] at hsum
      rw [value_append, hsingle] at hvalue
      constructor
      · rw [List.length_cons, hcount, List.length_cons]
        omega
      · rw [value_cons, value_cons, hvalue]
        linear_combination hsum

/-! ### Multiples -/

/-- The multiple of a number by one limb, with the carry out of it. -/
def scale (factor : UInt64) : List UInt64 → UInt64 → List UInt64 × UInt64
  | [], carry => ([], carry)
  | limb :: limbs, carry =>
    let (out, carry) := mulAdd limb factor 0 carry
    let (rest, carry) := scale factor limbs carry
    (out :: rest, carry)

theorem length_scale (factor : UInt64) (limbs : List UInt64) (carry : UInt64) :
    (scale factor limbs carry).1.length = limbs.length := by
  induction limbs generalizing carry with
  | nil => rfl
  | cons limb limbs ih => exact congrArg Nat.succ (ih _)

/-- A number times a limb plus a carry, with the last carry at the end of the limbs. -/
theorem scale_sum (factor : UInt64) (limbs : List UInt64) (carry : UInt64) :
    value (scale factor limbs carry).1 +
        2 ^ (64 * limbs.length) * (scale factor limbs carry).2.toNat =
      value limbs * factor.toNat + carry.toNat := by
  induction limbs generalizing carry with
  | nil => simp [scale]
  | cons limb limbs ih =>
    have hhead := mulAdd_sum limb factor 0 carry
    have hrest := ih (mulAdd limb factor 0 carry).2
    have hzero : (0 : UInt64).toNat = 0 := rfl
    rw [hzero, Nat.add_zero] at hhead
    dsimp only [scale]
    rw [value_cons, value_cons, List.length_cons, Nat.mul_succ, pow_add]
    linear_combination hhead + 2 ^ 64 * hrest

/-! ### Numbers from lists -/

variable {n : ℕ}

/-- The number that a list of limbs is, as far as it goes. -/
def ofList (limbs : List UInt64) : Limbs n := ofFn fun i ↦ limbs.getD i 0

theorem toList_ofList {limbs : List UInt64} (hlength : limbs.length = n) :
    (ofList limbs : Limbs n).v.toList = limbs := by
  refine List.ext_getElem (by rw [Vector.length_toList, hlength]) fun i hi hi' ↦ ?_
  simp [ofList, ofFn, List.getD_eq_getElem?_getD, hi']

theorem toNat_ofList {limbs : List UInt64} (hlength : limbs.length = n) :
    (ofList limbs : Limbs n).toNat = value limbs := by
  rw [toNat, toList_ofList hlength]

/-- A limb is the digit at its place. -/
theorem toNat_limb_div (a : Limbs n) (i : ℕ) :
    (a.limb i).toNat = a.toNat / 2 ^ (64 * i) % 2 ^ 64 := by
  rw [toNat, value_div]
  rcases Nat.lt_or_ge i n with hi | hi
  · have hlt := (a.limb i).toNat_lt
    rw [value_drop a hi]
    omega
  · have hlength : a.v.toList.length ≤ i := by rwa [Vector.length_toList]
    rw [List.drop_eq_nil_of_le hlength, limb, List.getD_eq_getElem?_getD,
      List.getElem?_eq_none hlength]
    rfl

/-- A shifted limb is the number from that place on. -/
theorem toNat_limb_shiftRight (a : Limbs n) (i : ℕ) {shift : ℕ} (hshift : shift < 64) :
    (a.limb i >>> shift.toUInt64).toNat =
      a.toNat / 2 ^ (64 * i + shift) % 2 ^ (64 - shift) := by
  have hcount : shift.toUInt64.toNat % 64 = shift := by
    rw [Nat.toUInt64_eq, UInt64.toNat_ofNat']
    omega
  have hpow : 2 ^ 64 = 2 ^ shift * 2 ^ (64 - shift) := by
    rw [← pow_add]
    congr 1
    omega
  rw [UInt64.toNat_shiftRight, hcount, Nat.shiftRight_eq_div_pow, Limbs.toNat_limb_div, hpow,
    Nat.mod_mul_right_div_self, Nat.div_div_eq_div_mul, ← pow_add]

/-- A number whose limbs are the digits of another. -/
theorem toNat_of_limb {a : Limbs n} {number : ℕ}
    (hlimb : ∀ i < n, (a.limb i).toNat = number / 2 ^ (64 * i) % 2 ^ 64) :
    a.toNat = number % 2 ^ (64 * n) := by
  have htake : ∀ count ≤ n, value (a.v.toList.take count) = number % 2 ^ (64 * count) := by
    intro count hcount
    induction count with
    | zero => rw [List.take_zero, value_nil, Nat.mul_zero, pow_zero, Nat.mod_one]
    | succ count ih =>
      have hlength : count < a.v.toList.length := by rwa [Vector.length_toList]
      have hget : a.v.toList[count] = a.limb count := by
        rw [limb, List.getD_eq_getElem?_getD, List.getElem?_eq_getElem hlength, Option.getD_some]
      rw [List.take_succ_eq_append_getElem hlength, value_append, ih (by omega), List.length_take,
        Nat.min_eq_left hlength.le, value_cons, value_nil, Nat.mul_zero, Nat.add_zero, hget,
        hlimb count hcount, Nat.mul_succ, pow_add, Nat.mod_mul]
  have hall := htake n le_rfl
  rwa [List.take_of_length_le (by rw [Vector.length_toList])] at hall

end Bc3Miner.Foundations.Limbs
