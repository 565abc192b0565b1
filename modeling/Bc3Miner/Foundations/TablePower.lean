import Mathlib.Algebra.BigOperators.Intervals
import Mathlib.Algebra.BigOperators.Group.Finset.Basic
import Mathlib.Data.List.Range
import Mathlib.Data.ZMod.Basic

/-!
# Products over the rows of a table

A product takes one entry of each row, in order: `product` reads an entry when it multiplies by it,
and `productAhead` one multiplication earlier, the first row's again at the end. Both are the
product of the entries (`product_stands`, `productAhead_eq`).

Where the entries are powers by the digits of an exponent the product is the power (`prod_digits`).

The two products differ in when an entry is read, not in what is multiplied, and `foldlM_stands`
carries a representation along either. `product_power` is the case of a table of powers by digits,
which is what a fixed base has.
-/

set_option autoImplicit false
set_option relaxedAutoImplicit false

namespace Bc3Miner.Foundations.TablePower

open Finset

variable {α : Type*} (mul : α → α → α) (entry : ℕ → Option α)

def step (r : α) (i : ℕ) : Option α := do return mul r (← entry i)

/-- The product of one entry of each row. -/
def product (rows : ℕ) : Option α := do
  let first ← entry 0
  (List.range' 1 (rows - 1)).foldlM (step mul entry) first

/-- One multiplication by the entry at hand, and the entry of the next row. -/
def aheadStep (rows : ℕ) (state : α × α) (i : ℕ) : Option (α × α) := do
  let next ← entry ((i + 1) % rows)
  return (mul state.1 state.2, next)

/-- The same product, each entry read one multiplication ahead. -/
def productAhead (rows : ℕ) : Option α := do
  let first ← entry 0
  let next ← entry 1
  let state ← (List.range' 1 (rows - 1)).foldlM (aheadStep mul entry rows) (first, next)
  return state.1

section Ahead

variable {entry} {rows : ℕ} {read : ℕ → α} (hread : ∀ i < rows, entry i = some (read i))

include hread

/-- If every row has its entry, the steps over a range of rows are the products with those entries
in order. -/
theorem foldlM_eq {start count : ℕ} (hend : start + count ≤ rows) (r : α) :
    (List.range' start count).foldlM (step mul entry) r =
      some ((List.range' start count).foldl (fun r i ↦ mul r (read i)) r) := by
  induction count generalizing start r with
  | zero => rfl
  | succ count ih =>
    rw [List.range'_succ, List.foldlM_cons, List.foldl_cons, step, hread start (by omega)]
    exact ih (by omega) _

/-- The entry at hand is always that of the row whose turn it is. -/
theorem foldlM_aheadStep {start count : ℕ} (hend : start + count = rows) (r : α) :
    (List.range' start count).foldlM (aheadStep mul entry rows) (r, read (start % rows)) =
      some ((List.range' start count).foldl (fun r i ↦ mul r (read i)) r, read 0) := by
  induction count generalizing start r with
  | zero =>
    obtain rfl : start = rows := by omega
    rw [Nat.mod_self]
    rfl
  | succ count ih =>
    have hnext : entry ((start + 1) % rows) = some (read ((start + 1) % rows)) :=
      hread _ (Nat.mod_lt _ (by omega))
    have hstart : start % rows = start := Nat.mod_eq_of_lt (by omega)
    rw [List.range'_succ, List.foldlM_cons, List.foldl_cons, aheadStep, hnext, hstart]
    exact ih (by omega) _

/-- Reading each entry one row ahead of its product changes nothing, from two rows on. -/
theorem productAhead_eq (hrows : 2 ≤ rows) :
    productAhead mul entry rows = product mul entry rows := by
  have hone : 1 % rows = 1 := Nat.mod_eq_of_lt (by omega)
  have hahead := foldlM_aheadStep mul hread (by omega : 1 + (rows - 1) = rows) (read 0)
  rw [hone] at hahead
  unfold productAhead product
  rw [hread 0 (by omega), hread 1 (by omega)]
  simp only [Option.bind_eq_bind, Option.bind_some]
  rw [hahead, foldlM_eq mul hread (by omega : 1 + (rows - 1) ≤ rows)]
  rfl

end Ahead

/-! ### What a product stands for -/

section Stands

variable {mul entry} {M : Type*} [CommMonoid M] (Entry Result : α → M → Prop)
  (hentry : ∀ ⦃x a⦄, Result x a → Entry x a)
  (hmul : ∀ ⦃x y a b⦄, Entry x a → Entry y b → Result (mul x y) (a * b))
  {rows : ℕ} {part : ℕ → M} (hparts : ∀ i < rows, ∃ y, entry i = some y ∧ Entry y (part i))

include hentry hmul hparts

/-- From the product of the first rows, the steps over the rows after it come to the product of all
of them, and none of them fails. -/
theorem foldlM_stands {start count : ℕ} (hend : start + (count + 1) ≤ rows) {r : α}
    (hr : Entry r (∏ i ∈ range start, part i)) :
    ∃ s, (List.range' start (count + 1)).foldlM (step mul entry) r = some s ∧
      Result s (∏ i ∈ range (start + (count + 1)), part i) := by
  obtain ⟨y, hget, hy⟩ := hparts start (by omega)
  have hproduct := hmul hr hy
  rw [← prod_range_succ] at hproduct
  have hstep : step mul entry r start = some (mul r y) := by
    rw [step, hget]
    rfl
  rw [List.range'_succ, List.foldlM_cons, hstep, Option.bind_eq_bind, Option.bind_some]
  induction count generalizing start r y with
  | zero => exact ⟨_, rfl, hproduct⟩
  | succ count ih =>
    obtain ⟨z, hnext, hz⟩ := hparts (start + 1) (by omega)
    have hlater := hmul (hentry hproduct) hz
    rw [← prod_range_succ] at hlater
    have hstep' : step mul entry (mul r y) (start + 1) = some (mul (mul r y) z) := by
      rw [step, hnext]
      rfl
    obtain ⟨s, hrun, hs⟩ := ih (by omega) (hentry hproduct) z hnext hz hlater hstep'
    refine ⟨s, ?_, ?_⟩
    · rw [List.range'_succ, List.foldlM_cons, hstep']
      exact hrun
    · rwa [show start + (count + 1 + 1) = start + 1 + (count + 1) by omega]

/-- The product of at least two rows stands for the product of their parts. -/
theorem product_stands (hrows : 2 ≤ rows) :
    ∃ r, product mul entry rows = some r ∧ Result r (∏ i ∈ range rows, part i) := by
  obtain ⟨count, rfl⟩ : ∃ count, rows = 1 + (count + 1) := ⟨rows - 2, by omega⟩
  obtain ⟨first, hget, hfirst⟩ := hparts 0 (by omega)
  have hone : part 0 = ∏ i ∈ range 1, part i := (prod_range_one part).symm
  rw [hone] at hfirst
  obtain ⟨r, hrun, hr⟩ := foldlM_stands Entry Result hentry hmul hparts le_rfl hfirst
  refine ⟨r, ?_, hr⟩
  rw [product, hget, Nat.add_sub_cancel_left]
  exact hrun

end Stands

/-! ### Digits of an exponent -/

/-- The powers by the low digits of an exponent multiply to the power by its low part. -/
theorem prod_digits {M : Type*} [CommMonoid M] (base : M) (radix e rows : ℕ) :
    ∏ i ∈ range rows, base ^ (radix ^ i * (e / radix ^ i % radix)) = base ^ (e % radix ^ rows) := by
  induction rows with
  | zero => rw [prod_range_zero, pow_zero, Nat.mod_one, pow_zero]
  | succ rows ih => rw [prod_range_succ, ih, ← pow_add, Nat.mod_pow_succ]

/-- Canonical products of entries that are only residues. -/
theorem product_power {mul : α → α → α} {entry : ℕ → Option α} {toNat : α → ℕ} {p : ℕ} (hp : 0 < p)
    (hmul : ∀ x y, toNat (mul x y) = toNat x * toNat y % p) {rows radix e : ℕ} (hrows : 2 ≤ rows)
    (he : e < radix ^ rows) {base : ZMod p} (hparts : ∀ i < rows, ∃ y, entry i = some y ∧
      (toNat y : ZMod p) = base ^ (radix ^ i * (e / radix ^ i % radix))) :
    ∃ r, product mul entry rows = some r ∧ toNat r = (base ^ e).val := by
  have hproducts : ∀ ⦃x y : α⦄ ⦃a b : ZMod p⦄, (toNat x : ZMod p) = a → (toNat y : ZMod p) = b →
      toNat (mul x y) < p ∧ (toNat (mul x y) : ZMod p) = a * b := by
    intro x y a b hx hy
    rw [hmul]
    exact ⟨Nat.mod_lt _ hp, by rw [ZMod.natCast_mod, Nat.cast_mul, hx, hy]⟩
  obtain ⟨r, hrun, hlt, hr⟩ := product_stands (fun x (a : ZMod p) ↦ (toNat x : ZMod p) = a)
    (fun x a ↦ toNat x < p ∧ (toNat x : ZMod p) = a) (fun _ _ hx ↦ hx.2) hproducts hparts hrows
  rw [prod_digits, Nat.mod_eq_of_lt he] at hr
  exact ⟨r, hrun, by rw [← hr, ZMod.val_cast_of_lt hlt]⟩

end Bc3Miner.Foundations.TablePower
