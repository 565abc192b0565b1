import Mathlib.Data.Nat.Digits.Defs
import Mathlib.Data.Nat.Digits.Lemmas
import Mathlib.Data.UInt
import Mathlib.Tactic.LinearCombination

/-!
# Numbers in limbs of 64 bits

A number is a vector of limbs, least significant first. Additions and subtractions walk the limbs
with a carry, and what a walk computes follows from what one of its steps computes: `chain_sum` and
`chain_difference` turn an equation about two limbs and a carry into one about two numbers.
Comparisons walk from the other end.

Shifts and windows read a number from a limb on and across its neighbour (`window_toNat`), and
`value_div` and `value_drop` are the same on lists. A carry is a flag or a word, as the walk has it;
the equations are in the natural numbers, where nothing wraps around, and `toNat_injective` brings
them back to limbs.
-/

set_option autoImplicit false
set_option relaxedAutoImplicit false

namespace Bc3Miner.Foundations

/-- A number in `n` limbs of 64 bits, least significant first. -/
@[ext]
structure Limbs (n : ℕ) where
  v : Vector UInt64 n
  deriving DecidableEq

namespace Limbs

variable {n : ℕ}

/-! ### The value of a list of limbs -/

def value (limbs : List UInt64) : ℕ := Nat.ofDigits (2 ^ 64) (limbs.map UInt64.toNat)

@[simp] theorem value_nil : value [] = 0 := rfl

theorem value_cons (limb : UInt64) (limbs : List UInt64) :
    value (limb :: limbs) = limb.toNat + 2 ^ 64 * value limbs := by
  unfold value
  rw [List.map_cons, Nat.ofDigits_cons]

theorem value_append (low high : List UInt64) :
    value (low ++ high) = value low + 2 ^ (64 * low.length) * value high := by
  unfold value
  rw [List.map_append, Nat.ofDigits_append, List.length_map, ← pow_mul]

/-- A number of `n` limbs is below `2 ^ (64 * n)`. -/
theorem value_lt (limbs : List UInt64) : value limbs < 2 ^ (64 * limbs.length) := by
  have hdigits : ∀ digit ∈ limbs.map UInt64.toNat, digit < 2 ^ 64 := by
    intro digit hmem
    rcases List.mem_map.mp hmem with ⟨limb, -, rfl⟩
    exact limb.toNat_lt
  have hlt := Nat.ofDigits_lt_base_pow_length (by norm_num : 1 < 2 ^ 64) hdigits
  rwa [List.length_map, ← pow_mul] at hlt

/-- As many limbs of the same value are the same limbs. -/
theorem value_injective {a b : List UInt64} (hlength : a.length = b.length)
    (hvalue : value a = value b) : a = b := by
  induction a generalizing b with
  | nil => exact (List.length_eq_zero_iff.mp hlength.symm).symm
  | cons x a ih =>
    rcases b with _ | ⟨y, b⟩
    · exact absurd hlength (by simp)
    · have hx := x.toNat_lt
      have hy := y.toNat_lt
      rw [value_cons, value_cons] at hvalue
      have hhead : x = y := UInt64.toNat_inj.mp (by omega)
      have htail : a = b := ih (by simpa using hlength) (by omega)
      rw [hhead, htail]

/-! ### Numbers of `n` limbs -/

/-- Limb `i`, zero past the last one. -/
def limb (a : Limbs n) (i : ℕ) : UInt64 := a.v.toList.getD i 0

def toNat (a : Limbs n) : ℕ := value a.v.toList

theorem toNat_lt (a : Limbs n) : a.toNat < 2 ^ (64 * n) := by
  have hlt := value_lt a.v.toList
  rwa [Vector.length_toList] at hlt

theorem toNat_injective {a b : Limbs n} (hvalue : a.toNat = b.toNat) : a = b := by
  have hlists := value_injective (by rw [Vector.length_toList, Vector.length_toList]) hvalue
  exact Limbs.ext (Vector.toList_inj.mp hlists)

/-- Numbers are equal when their limbs are. -/
theorem ext_limb {a b : Limbs n} (hlimbs : ∀ i < n, a.limb i = b.limb i) : a = b := by
  refine Limbs.ext (Vector.ext fun i hi ↦ ?_)
  have hlimb := hlimbs i hi
  simpa [limb, List.getD_eq_getElem?_getD, hi] using hlimb

/-- A number built limb by limb. -/
def ofFn (limbs : ℕ → UInt64) : Limbs n := ⟨Vector.ofFn fun i ↦ limbs i⟩

theorem limb_ofFn (limbs : ℕ → UInt64) {i : ℕ} (hi : i < n) :
    (ofFn limbs : Limbs n).limb i = limbs i := by
  unfold limb ofFn
  simp [List.getD_eq_getElem?_getD, hi]

/-! ### Walks over the limbs with a carry -/

section Chain

variable {σ : Type} (step : UInt64 → UInt64 → σ → UInt64 × σ)

/-- The limbs of two lists combined from the least significant ones on, with a state between. -/
def chain : List UInt64 → List UInt64 → σ → List UInt64 × σ
  | a :: as, b :: bs, state =>
    let (out, next) := step a b state
    let (rest, last) := chain as bs next
    (out :: rest, last)
  | _, _, state => ([], state)

theorem chain_cons (a b : UInt64) (as bs : List UInt64) (state : σ) :
    chain step (a :: as) (b :: bs) state =
      ((step a b state).1 :: (chain step as bs (step a b state).2).1,
        (chain step as bs (step a b state).2).2) :=
  rfl

/-- A chain over two lists gives as many limbs as the shorter one has. -/
theorem length_chain (as bs : List UInt64) (state : σ) :
    (chain step as bs state).1.length = min as.length bs.length := by
  induction as generalizing bs state with
  | nil => simp [chain]
  | cons a as ih =>
    rcases bs with _ | ⟨b, bs⟩
    · simp [chain]
    · rw [chain_cons, List.length_cons, ih, List.length_cons, List.length_cons, Nat.succ_min_succ]

/-- The walk over two numbers of `n` limbs. -/
def walk (a b : Limbs n) (state : σ) : Limbs n × σ :=
  (⟨⟨(chain step a.v.toList b.v.toList state).1.toArray, by simp [length_chain]⟩⟩,
    (chain step a.v.toList b.v.toList state).2)

variable {step}

/-- If every step adds two limbs and the carry, then a chain over two lists of the same length adds
their numbers and the carry that comes in; the carry that goes out stands above the last limb. -/
theorem chain_sum (carry : σ → ℕ)
    (hstep : ∀ a b state, (step a b state).1.toNat + 2 ^ 64 * carry (step a b state).2 =
      a.toNat + b.toNat + carry state) (as bs : List UInt64) (state : σ)
    (hlength : as.length = bs.length) :
    value (chain step as bs state).1 + 2 ^ (64 * as.length) * carry (chain step as bs state).2 =
      value as + value bs + carry state := by
  induction as generalizing bs state with
  | nil =>
    rw [List.length_eq_zero_iff.mp hlength.symm]
    simp [chain]
  | cons a as ih =>
    rcases bs with _ | ⟨b, bs⟩
    · exact absurd hlength (by simp)
    · have hrest := ih bs (step a b state).2 (by simpa using hlength)
      have hhead := hstep a b state
      rw [chain_cons, value_cons, value_cons, value_cons, List.length_cons, Nat.mul_succ, pow_add]
      dsimp only
      linear_combination hhead + 2 ^ 64 * hrest

/-- If every step subtracts a limb and the borrow, then a chain over two lists of the same length
subtracts the second number and the borrow that comes in; the borrow that goes out is owed above the
last limb. -/
theorem chain_difference (borrow : σ → ℕ)
    (hstep : ∀ a b state, (step a b state).1.toNat + b.toNat + borrow state =
      a.toNat + 2 ^ 64 * borrow (step a b state).2) (as bs : List UInt64) (state : σ)
    (hlength : as.length = bs.length) :
    value (chain step as bs state).1 + value bs + borrow state =
      value as + 2 ^ (64 * as.length) * borrow (chain step as bs state).2 := by
  induction as generalizing bs state with
  | nil =>
    rw [List.length_eq_zero_iff.mp hlength.symm]
    simp [chain]
  | cons a as ih =>
    rcases bs with _ | ⟨b, bs⟩
    · exact absurd hlength (by simp)
    · have hrest := ih bs (step a b state).2 (by simpa using hlength)
      have hhead := hstep a b state
      rw [chain_cons, value_cons, value_cons, value_cons, List.length_cons, Nat.mul_succ, pow_add]
      dsimp only
      linear_combination hhead + 2 ^ 64 * hrest

/-- If every step adds two limbs and the carry, the walk adds two numbers and the carry, and what
goes out stands at the end of the limbs. -/
theorem walk_sum (carry : σ → ℕ)
    (hstep : ∀ a b state, (step a b state).1.toNat + 2 ^ 64 * carry (step a b state).2 =
      a.toNat + b.toNat + carry state) (a b : Limbs n) (state : σ) :
    (walk step a b state).1.toNat + 2 ^ (64 * n) * carry (walk step a b state).2 =
      a.toNat + b.toNat + carry state := by
  have hsum := chain_sum carry hstep a.v.toList b.v.toList state (by simp)
  rwa [Vector.length_toList] at hsum

/-- A sum whose last carry is dropped is the sum modulo `2 ^ (64 n)`. -/
theorem walk_sum_mod (carry : σ → ℕ)
    (hstep : ∀ a b state, (step a b state).1.toNat + 2 ^ 64 * carry (step a b state).2 =
      a.toNat + b.toNat + carry state) (a b : Limbs n) {state : σ} (hstart : carry state = 0) :
    (walk step a b state).1.toNat = (a.toNat + b.toNat) % 2 ^ (64 * n) := by
  have hsum := walk_sum carry hstep a b state
  have hlt := (walk step a b state).1.toNat_lt
  rw [hstart, Nat.add_zero] at hsum
  rw [← hsum, Nat.add_mul_mod_self_left, Nat.mod_eq_of_lt hlt]

/-- If every step takes a limb and the borrow from a limb, the walk takes a number and the borrow
from a number. -/
theorem walk_difference (borrow : σ → ℕ)
    (hstep : ∀ a b state, (step a b state).1.toNat + b.toNat + borrow state =
      a.toNat + 2 ^ 64 * borrow (step a b state).2) (a b : Limbs n) (state : σ) :
    (walk step a b state).1.toNat + b.toNat + borrow state =
      a.toNat + 2 ^ (64 * n) * borrow (walk step a b state).2 := by
  have hdifference := chain_difference borrow hstep a.v.toList b.v.toList state (by simp)
  rwa [Vector.length_toList] at hdifference

end Chain

/-! ### Carries by comparison -/

/-- One limb of a sum: wrapping additions, and a carry for each of them that wrapped. -/
def addStep (a b : UInt64) (carry : Bool) : UInt64 × Bool :=
  let sum := a + b
  let sum' := sum + carry.toUInt64
  (sum', decide (sum < a) || decide (sum' < sum))

/-- One limb of a difference: wrapping subtractions, and a borrow for each of them that wrapped. -/
def subStep (a b : UInt64) (borrow : Bool) : UInt64 × Bool :=
  let difference := a - b
  let difference' := difference - borrow.toUInt64
  (difference', decide (a < b) || decide (difference < borrow.toUInt64))

theorem toNat_toUInt64 (flag : Bool) : flag.toUInt64.toNat = flag.toNat := by
  cases flag <;> rfl

theorem toNat_or_decide (p q : Prop) [Decidable p] [Decidable q] :
    (decide p || decide q).toNat = if p ∨ q then 1 else 0 := by
  by_cases hp : p <;> by_cases hq : q <;> simp [hp, hq]

/-- One step of an addition: the limb and the carry that go out stand for the sum. -/
theorem addStep_sum (a b : UInt64) (carry : Bool) :
    (addStep a b carry).1.toNat + 2 ^ 64 * (addStep a b carry).2.toNat =
      a.toNat + b.toNat + carry.toNat := by
  have ha := a.toNat_lt
  have hb := b.toNat_lt
  have hcarry := carry.toNat_le
  simp only [addStep, toNat_or_decide, UInt64.lt_iff_toNat_lt, UInt64.toNat_add, toNat_toUInt64]
  split_ifs with hwrap <;> omega

/-- One step of a subtraction: the limb and the borrow that go out stand for the difference. -/
theorem subStep_difference (a b : UInt64) (borrow : Bool) :
    (subStep a b borrow).1.toNat + b.toNat + borrow.toNat =
      a.toNat + 2 ^ 64 * (subStep a b borrow).2.toNat := by
  have ha := a.toNat_lt
  have hb := b.toNat_lt
  have hborrow := borrow.toNat_le
  simp only [subStep, toNat_or_decide, UInt64.lt_iff_toNat_lt, UInt64.toNat_sub, toNat_toUInt64]
  split_ifs with hwrap <;> omega

/-! ### One word added and taken away -/

/-- A word added to the lowest limb, with the carry of each limb added to the next. -/
def rippleUp : List UInt64 → UInt64 → List UInt64 × UInt64
  | [], carry => ([], carry)
  | limb :: limbs, carry =>
    let sum := limb + carry
    let rest := rippleUp limbs (decide (sum < carry)).toUInt64
    (sum :: rest.1, rest.2)

/-- A word taken from the lowest limb, with the borrow of each limb taken from the next. -/
def rippleDown : List UInt64 → UInt64 → List UInt64 × UInt64
  | [], borrow => ([], borrow)
  | limb :: limbs, borrow =>
    let rest := rippleDown limbs (decide (limb < borrow)).toUInt64
    ((limb - borrow) :: rest.1, rest.2)

theorem length_rippleUp (limbs : List UInt64) (carry : UInt64) :
    (rippleUp limbs carry).1.length = limbs.length := by
  induction limbs generalizing carry with
  | nil => rfl
  | cons limb limbs ih => rw [rippleUp, List.length_cons, ih, List.length_cons]

theorem length_rippleDown (limbs : List UInt64) (borrow : UInt64) :
    (rippleDown limbs borrow).1.length = limbs.length := by
  induction limbs generalizing borrow with
  | nil => rfl
  | cons limb limbs ih => rw [rippleDown, List.length_cons, ih, List.length_cons]

/-- A carry that ripples through the limbs is added to the number, and goes out at the end if it is
not taken up. -/
theorem rippleUp_sum (limbs : List UInt64) (carry : UInt64) :
    value (rippleUp limbs carry).1 + 2 ^ (64 * limbs.length) * (rippleUp limbs carry).2.toNat =
      value limbs + carry.toNat := by
  induction limbs generalizing carry with
  | nil => simp [rippleUp]
  | cons limb limbs ih =>
    have hrest := ih (decide (limb + carry < carry)).toUInt64
    have hhead : (limb + carry).toNat + 2 ^ 64 * (decide (limb + carry < carry)).toUInt64.toNat =
        limb.toNat + carry.toNat := by
      have hlimb := limb.toNat_lt
      have hcarry := carry.toNat_lt
      rw [toNat_toUInt64, UInt64.toNat_add]
      by_cases hwrap : limb + carry < carry
      · rw [decide_eq_true hwrap, Bool.toNat_true]
        rw [UInt64.lt_iff_toNat_lt, UInt64.toNat_add] at hwrap
        omega
      · rw [decide_eq_false hwrap, Bool.toNat_false]
        rw [UInt64.lt_iff_toNat_lt, UInt64.toNat_add] at hwrap
        omega
    rw [rippleUp, value_cons, value_cons, List.length_cons, Nat.mul_succ, pow_add]
    linear_combination hhead + 2 ^ 64 * hrest

/-- A borrow that ripples through the limbs is taken from the number, and goes out at the end if it
is not paid. -/
theorem rippleDown_difference (limbs : List UInt64) (borrow : UInt64) :
    value (rippleDown limbs borrow).1 + borrow.toNat =
      value limbs + 2 ^ (64 * limbs.length) * (rippleDown limbs borrow).2.toNat := by
  induction limbs generalizing borrow with
  | nil => simp [rippleDown]
  | cons limb limbs ih =>
    have hrest := ih (decide (limb < borrow)).toUInt64
    have hhead : (limb - borrow).toNat + borrow.toNat =
        limb.toNat + 2 ^ 64 * (decide (limb < borrow)).toUInt64.toNat := by
      have hlimb := limb.toNat_lt
      have hborrow := borrow.toNat_lt
      rw [toNat_toUInt64, UInt64.toNat_sub]
      by_cases hwrap : limb < borrow
      · rw [decide_eq_true hwrap, Bool.toNat_true]
        rw [UInt64.lt_iff_toNat_lt] at hwrap
        omega
      · rw [decide_eq_false hwrap, Bool.toNat_false]
        rw [UInt64.lt_iff_toNat_lt] at hwrap
        omega
    rw [rippleDown, value_cons, value_cons, List.length_cons, Nat.mul_succ, pow_add]
    linear_combination hhead + 2 ^ 64 * hrest

/-- A word added to a number of `n` limbs, and the carry out of the last one. -/
def addWord (a : Limbs n) (word : UInt64) : Limbs n × UInt64 :=
  (⟨⟨(rippleUp a.v.toList word).1.toArray, by simp [length_rippleUp]⟩⟩,
    (rippleUp a.v.toList word).2)

/-- A word taken from a number of `n` limbs. -/
def subWord (a : Limbs n) (word : UInt64) : Limbs n :=
  ⟨⟨(rippleDown a.v.toList word).1.toArray, by simp [length_rippleDown]⟩⟩

theorem addWord_sum (a : Limbs n) (word : UInt64) :
    (addWord a word).1.toNat + 2 ^ (64 * n) * (addWord a word).2.toNat =
      a.toNat + word.toNat := by
  have hsum := rippleUp_sum a.v.toList word
  rwa [Vector.length_toList] at hsum

/-- A word that is at most the number is taken away without a borrow. -/
theorem subWord_toNat {a : Limbs n} {word : UInt64} (hle : word.toNat ≤ a.toNat) :
    (subWord a word).toNat = a.toNat - word.toNat := by
  have hdifference := rippleDown_difference a.v.toList word
  have hlt := (subWord a word).toNat_lt
  rw [Vector.length_toList] at hdifference
  change (subWord a word).toNat + word.toNat = a.toNat + _ at hdifference
  rcases Nat.eq_zero_or_pos (rippleDown a.v.toList word).2.toNat with hzero | hpos
  · rw [hzero, Nat.mul_zero] at hdifference
    omega
  · have hmul := Nat.mul_le_mul_left (2 ^ (64 * n)) hpos
    omega

/-! ### Comparison from the most significant limb -/

/-- Whether the first number is at least the second, both most significant limb first. -/
def geFromTop : List UInt64 → List UInt64 → Bool
  | a :: as, b :: bs => if a ≠ b then decide (b < a) else geFromTop as bs
  | _, _ => true

/-- The comparison from the top limb down is that of the numbers, if they have the same number of
limbs. -/
theorem geFromTop_iff (as bs : List UInt64) (hlength : as.length = bs.length) :
    geFromTop as bs = true ↔ value bs.reverse ≤ value as.reverse := by
  induction as generalizing bs with
  | nil =>
    rw [List.length_eq_zero_iff.mp hlength.symm]
    simp [geFromTop]
  | cons a as ih =>
    rcases bs with _ | ⟨b, bs⟩
    · exact absurd hlength (by simp)
    · have hrest : as.length = bs.length := by simpa using hlength
      have has := value_lt as.reverse
      have hbs := value_lt bs.reverse
      rw [List.length_reverse] at has hbs
      rw [List.reverse_cons, List.reverse_cons, value_append, value_append, value_cons, value_cons,
        List.length_reverse, List.length_reverse, hrest]
      rw [hrest] at has
      by_cases hab : a = b
      · subst hab
        have hfirst : geFromTop (a :: as) (a :: bs) = geFromTop as bs := by simp [geFromTop]
        rw [hfirst, ih bs hrest]
        simp
      · have hfirst : geFromTop (a :: as) (b :: bs) = decide (b < a) := by simp [geFromTop, hab]
        rw [hfirst, decide_eq_true_iff, UInt64.lt_iff_toNat_lt]
        have hne : a.toNat ≠ b.toNat := fun h ↦ hab (UInt64.toNat_inj.mp h)
        simp only [value_nil, mul_zero, add_zero]
        constructor
        · intro hlt
          have hmul := Nat.mul_le_mul_left (2 ^ (64 * bs.length)) (Nat.succ_le_of_lt hlt)
          rw [Nat.mul_succ] at hmul
          omega
        · intro hle
          by_contra hnot
          have hlt : a.toNat < b.toNat := by omega
          have hmul := Nat.mul_le_mul_left (2 ^ (64 * bs.length)) (Nat.succ_le_of_lt hlt)
          rw [Nat.mul_succ] at hmul
          omega

/-- Whether `a` is at least `b`, decided at the most significant limb where they differ. -/
def ge (a b : Limbs n) : Bool := geFromTop a.v.toList.reverse b.v.toList.reverse

theorem ge_iff (a b : Limbs n) : a.ge b = true ↔ b.toNat ≤ a.toNat := by
  unfold ge
  rw [geFromTop_iff _ _ (by simp), List.reverse_reverse, List.reverse_reverse]
  rfl

/-! ### Bits out of two neighbouring limbs -/

/-- The quotient by a power of `2 ^ 64` is the number of the limbs that are left. -/
theorem value_div (limbs : List UInt64) (count : ℕ) :
    value limbs / 2 ^ (64 * count) = value (limbs.drop count) := by
  rcases Nat.lt_or_ge count limbs.length with hlt | hge
  · have hlow := value_lt (limbs.take count)
    have hsplit := value_append (limbs.take count) (limbs.drop count)
    rw [List.length_take, Nat.min_eq_left hlt.le] at hlow hsplit
    rw [List.take_append_drop] at hsplit
    rw [hsplit, Nat.add_mul_div_left _ _ (by positivity), Nat.div_eq_of_lt hlow, Nat.zero_add]
  · have hsmall := value_lt limbs
    rw [List.drop_eq_nil_of_le hge, value_nil]
    refine Nat.div_eq_of_lt (hsmall.trans_le ?_)
    exact Nat.pow_le_pow_right (by norm_num) (by omega)

/-- The bits of a number from bit `position` on that two neighbouring limbs have. -/
def window (a : Limbs n) (position : ℕ) : UInt64 :=
  let index := position >>> 6
  let shift := position &&& 63
  let low := a.limb index >>> shift.toUInt64
  if shift ≠ 0 ∧ index + 1 < n then low ||| a.limb (index + 1) <<< (64 - shift).toUInt64 else low

/-- The limbs from an index on are the limb there and those from the next on. -/
theorem value_drop (a : Limbs n) {index : ℕ} (hindex : index < n) :
    value (a.v.toList.drop index) =
      (a.limb index).toNat + 2 ^ 64 * value (a.v.toList.drop (index + 1)) := by
  have hlength : index < a.v.toList.length := by rwa [Vector.length_toList]
  rw [List.drop_eq_getElem_cons hlength, value_cons, limb, List.getD_eq_getElem?_getD,
    List.getElem?_eq_getElem hlength, Option.getD_some]

/-- The high part of a limb and the low part of the next one do not overlap. -/
theorem toNat_shiftRight_or_shiftLeft (low high : UInt64) {shift : ℕ} (hpos : 0 < shift)
    (hlt : shift < 64) :
    (low >>> shift.toUInt64 ||| high <<< (64 - shift).toUInt64).toNat =
      (low.toNat / 2 ^ shift + 2 ^ (64 - shift) * high.toNat) % 2 ^ 64 := by
  have hshift : shift.toUInt64.toNat % 64 = shift := by
    rw [Nat.toUInt64_eq, UInt64.toNat_ofNat']
    omega
  have hrest : (64 - shift).toUInt64.toNat % 64 = 64 - shift := by
    rw [Nat.toUInt64_eq, UInt64.toNat_ofNat']
    omega
  have hpow : 2 ^ 64 = 2 ^ (64 - shift) * 2 ^ shift := by
    rw [← pow_add, Nat.sub_add_cancel hlt.le]
  have hsmall : low.toNat / 2 ^ shift < 2 ^ (64 - shift) := by
    rw [Nat.div_lt_iff_lt_mul (by positivity), ← hpow]
    exact low.toNat_lt
  have hhigh : 2 ^ (64 - shift) * high.toNat % 2 ^ 64 =
      2 ^ (64 - shift) * (high.toNat % 2 ^ shift) := by
    rw [hpow, Nat.mul_mod_mul_left]
  have hsum : 2 ^ (64 - shift) * (high.toNat % 2 ^ shift) + low.toNat / 2 ^ shift < 2 ^ 64 := by
    have hmod := Nat.mod_lt high.toNat (Nat.two_pow_pos shift)
    calc 2 ^ (64 - shift) * (high.toNat % 2 ^ shift) + low.toNat / 2 ^ shift
        < 2 ^ (64 - shift) * (high.toNat % 2 ^ shift) + 2 ^ (64 - shift) := by omega
      _ = 2 ^ (64 - shift) * (high.toNat % 2 ^ shift + 1) := by rw [Nat.mul_succ]
      _ ≤ 2 ^ (64 - shift) * 2 ^ shift := Nat.mul_le_mul_left _ hmod
      _ = 2 ^ 64 := hpow.symm
  rw [UInt64.toNat_or, UInt64.toNat_shiftRight, UInt64.toNat_shiftLeft, hshift, hrest,
    Nat.shiftRight_eq_div_pow, Nat.shiftLeft_eq, Nat.mul_comm high.toNat, hhigh, Nat.or_comm,
    ← Nat.two_pow_add_eq_or_of_lt hsmall, ← Nat.add_mod_mod, hhigh, Nat.add_comm (_ / _),
    Nat.mod_eq_of_lt hsum]

/-- They are its 64 bits from there on. -/
theorem window_toNat (a : Limbs n) {position : ℕ} (hposition : position < 64 * n) :
    (a.window position).toNat = a.toNat / 2 ^ position % 2 ^ 64 := by
  have hindex : position >>> 6 = position / 64 := Nat.shiftRight_eq_div_pow position 6
  have hshift : position &&& 63 = position % 64 := Nat.and_two_pow_sub_one_eq_mod position 6
  have hplace : position / 64 < n := by omega
  have hsplit : a.toNat / 2 ^ position =
      value (a.v.toList.drop (position / 64)) / 2 ^ (position % 64) := by
    rw [← value_div, Nat.div_div_eq_div_mul, ← pow_add, Nat.div_add_mod]
    rfl
  rw [hsplit, value_drop a hplace, window, hindex, hshift]
  by_cases hzero : position % 64 = 0
  · have hlow : (a.limb (position / 64)).toNat < 2 ^ 64 := (a.limb (position / 64)).toNat_lt
    rw [if_neg (by omega), hzero, pow_zero, Nat.div_one, Nat.add_mul_mod_self_left,
      Nat.mod_eq_of_lt hlow]
    simp
  · have hpow : 2 ^ 64 = 2 ^ (position % 64) * 2 ^ (64 - position % 64) := by
      rw [← pow_add]
      congr 1
      omega
    have hdiv (low high : ℕ) : (low + 2 ^ 64 * high) / 2 ^ (position % 64) =
        low / 2 ^ (position % 64) + 2 ^ (64 - position % 64) * high := by
      rw [hpow, Nat.mul_assoc, Nat.add_mul_div_left _ _ (by positivity)]
    rw [hdiv]
    have hcount : (position % 64).toUInt64.toNat % 64 = position % 64 := by
      rw [Nat.toUInt64_eq, UInt64.toNat_ofNat']
      omega
    by_cases hnext : position / 64 + 1 < n
    · rw [if_pos ⟨hzero, hnext⟩, toNat_shiftRight_or_shiftLeft _ _ (by omega) (by omega),
        value_drop a hnext, Nat.mul_add, Nat.mul_left_comm, ← Nat.add_assoc,
        Nat.add_mul_mod_self_left]
    · rw [if_neg (fun hboth ↦ hnext hboth.2), List.drop_eq_nil_of_le (by simp; omega), value_nil,
        Nat.mul_zero, Nat.add_zero, UInt64.toNat_shiftRight, Nat.shiftRight_eq_div_pow, hcount,
        Nat.mod_eq_of_lt ((Nat.div_le_self _ _).trans_lt (UInt64.toNat_lt _))]

/-- Cut to `width` bits by a mask, they are `width` bits of the number. -/
theorem window_and_mask (a : Limbs n) {position width : ℕ} (hposition : position < 64 * n)
    (hwidth : width < 64) {mask : UInt64} (hmask : mask.toNat = 2 ^ width - 1) :
    (a.window position &&& mask).toNat = a.toNat / 2 ^ position % 2 ^ width := by
  rw [UInt64.toNat_and, hmask, Nat.and_two_pow_sub_one_eq_mod, window_toNat a hposition,
    Nat.mod_mod_of_dvd _ (Nat.pow_dvd_pow 2 hwidth.le)]

end Limbs

end Bc3Miner.Foundations
