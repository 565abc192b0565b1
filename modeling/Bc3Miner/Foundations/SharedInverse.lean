import Mathlib.Algebra.BigOperators.Group.Finset.Basic
import Mathlib.Algebra.BigOperators.Intervals
import Mathlib.Algebra.BigOperators.GroupWithZero.Finset
import Mathlib.Algebra.Field.Basic
import Mathlib.Data.List.GetD

/-!
# One inverse for many

Of several numbers that are not zero, one inversion and a few products give all the inverses: the
products of the first one, the first two and so on (`partialProduct`), the inverse of the last of
them, and from it, backwards, the inverse of each number and of the product before it (`separate`).

The numbers are words of any kind, with a product `mul` that follows the product of a field under
a relation `R`, which says what a word stands for.

The relation is kept by the product on words that stand for elements which are not zero, and the
inverse of the whole product is handed in, so that how it is computed is open.
-/

set_option autoImplicit false
set_option relaxedAutoImplicit false

namespace Bc3Miner.Foundations.SharedInverse

open Finset

section

variable {α : Type} (mul : α → α → α)

/-- The product of the numbers up to number `last`. -/
def partialProduct (z : ℕ → α) : ℕ → α
  | 0 => z 0
  | last + 1 => mul (partialProduct z last) (z (last + 1))

/-- The inverses of the numbers up to number `last`, from the inverse of their product. -/
def separate (z acc : ℕ → α) : ℕ → α → List α
  | 0, inv => [inv]
  | last + 1, inv => separate z acc last (mul inv (z (last + 1))) ++ [mul inv (acc last)]

@[simp] theorem length_separate (z acc : ℕ → α) (last : ℕ) (inv : α) :
    (separate mul z acc last inv).length = last + 1 := by
  induction last generalizing inv with
  | zero => rfl
  | succ last ih => rw [separate, List.length_append, ih, List.length_singleton]

/-- The product of four numbers, and their inverses, written out. -/
theorem separate_four (z : ℕ → α) (inv default : α) :
    partialProduct mul z 3 = mul (mul (mul (z 0) (z 1)) (z 2)) (z 3) ∧
      (separate mul z (partialProduct mul z) 3 inv).getD 0 default =
        mul (mul (mul inv (z 3)) (z 2)) (z 1) ∧
      (separate mul z (partialProduct mul z) 3 inv).getD 1 default =
        mul (mul (mul inv (z 3)) (z 2)) (z 0) ∧
      (separate mul z (partialProduct mul z) 3 inv).getD 2 default =
        mul (mul inv (z 3)) (mul (z 0) (z 1)) ∧
      (separate mul z (partialProduct mul z) 3 inv).getD 3 default =
        mul inv (mul (mul (z 0) (z 1)) (z 2)) :=
  ⟨rfl, rfl, rfl, rfl, rfl⟩

variable {F : Type} [Field F] {R : α → F → Prop} {mul}
  (hmul : ∀ {a b x y}, R a x → R b y → R (mul a b) (x * y))

include hmul

/-- The running product up to an index stands for the product of all factors up to it. -/
theorem partialProduct_spec {z : ℕ → α} {x : ℕ → F} {last : ℕ} (hz : ∀ i ≤ last, R (z i) (x i)) :
    R (partialProduct mul z last) (∏ i ∈ range (last + 1), x i) := by
  induction last with
  | zero =>
    rw [prod_range_one]
    exact hz 0 le_rfl
  | succ last ih =>
    rw [prod_range_succ]
    exact hmul (ih fun i hi ↦ hz i (hi.trans (Nat.le_succ last))) (hz (last + 1) le_rfl)

/-- Each place has the inverse of the number there. By induction on the number of numbers: without
the last one, the inverse of the product is the whole inverse times the last number. -/
theorem separate_spec {z acc : ℕ → α} {x : ℕ → F} {last : ℕ} (hz : ∀ i ≤ last, R (z i) (x i))
    (hx : ∀ i ≤ last, x i ≠ 0) (hacc : ∀ i ≤ last, R (acc i) (∏ k ∈ range (i + 1), x k)) {inv : α}
    (hinv : R inv (∏ i ∈ range (last + 1), x i)⁻¹) {i : ℕ} (hi : i ≤ last) (default : α) :
    R ((separate mul z acc last inv).getD i default) (x i)⁻¹ := by
  induction last generalizing inv with
  | zero =>
    obtain rfl : i = 0 := Nat.le_zero.mp hi
    rwa [prod_range_one] at hinv
  | succ last ih =>
    have hlast : x (last + 1) ≠ 0 := hx _ le_rfl
    have hbefore : ∏ k ∈ range (last + 1), x k ≠ 0 :=
      prod_ne_zero_iff.mpr fun k hk ↦ hx k (mem_range.mp hk).le
    rw [prod_range_succ, mul_inv] at hinv
    rcases Nat.lt_or_ge i (last + 1) with hlt | hge
    · have hnext : R (mul inv (z (last + 1))) (∏ k ∈ range (last + 1), x k)⁻¹ := by
        have hproduct := hmul hinv (hz (last + 1) le_rfl)
        rwa [mul_assoc, inv_mul_cancel₀ hlast, mul_one] at hproduct
      rw [separate, List.getD_append _ _ _ _ (by rwa [length_separate])]
      exact ih (fun k hk ↦ hz k (hk.trans (Nat.le_succ last)))
        (fun k hk ↦ hx k (hk.trans (Nat.le_succ last)))
        (fun k hk ↦ hacc k (hk.trans (Nat.le_succ last))) hnext (Nat.le_of_lt_succ hlt)
    · obtain rfl : i = last + 1 := le_antisymm hi hge
      have hproduct := hmul hinv (hacc last (Nat.le_succ last))
      rw [mul_right_comm, inv_mul_cancel₀ hbefore, one_mul] at hproduct
      rw [separate, List.getD_append_right _ _ _ _ (by rw [length_separate]), length_separate,
        Nat.sub_self]
      exact hproduct

end

end Bc3Miner.Foundations.SharedInverse
