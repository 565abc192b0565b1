import Mathlib.Algebra.BigOperators.Group.List.Basic
import Mathlib.Data.List.GetD
import Mathlib.Algebra.GroupWithZero.Nat

/-!
# Blocks laid one after another

Where a block begins in the list they make, and what is read there.

Where all blocks have one length, the place of an item is that length times the block's number and
the item's place in it (`start_eq_mul`, `length_flatten_eq_mul`), and `getElem?_flatten` reads it.
-/

set_option autoImplicit false
set_option relaxedAutoImplicit false

namespace Bc3Miner.Foundations.Blocks

variable {α : Type*}

/-- Where block `index` begins. -/
def start (blocks : List (List α)) (index : ℕ) : ℕ := ((blocks.map List.length).take index).sum

theorem drop_start (blocks : List (List α)) (index : ℕ) :
    blocks.flatten.drop (start blocks index) = (blocks.drop index).flatten :=
  List.drop_sum_flatten blocks index

/-- A read within a block is a read of the block. -/
theorem getD_flatten (blocks : List (List α)) {index place : ℕ} (default : α)
    (hplace : place < (blocks.getD index []).length) :
    blocks.flatten.getD (start blocks index + place) default =
      (blocks.getD index []).getD place default := by
  have hindex : index < blocks.length := by
    by_contra hge
    rw [List.getD_eq_default _ _ (by omega)] at hplace
    exact absurd hplace (by simp)
  have hrest : (blocks.drop index).flatten =
      blocks.getD index [] ++ (blocks.drop (index + 1)).flatten := by
    rw [List.drop_eq_getElem_cons hindex, List.flatten_cons, List.getD_eq_getElem _ _ hindex]
  rw [List.getD_eq_getElem?_getD, ← List.getElem?_drop, drop_start, hrest,
    List.getElem?_append_left hplace, ← List.getD_eq_getElem?_getD]

/-- Blocks of one length. -/
theorem start_eq_mul {blocks : List (List α)} {length index : ℕ}
    (hlength : ∀ block ∈ blocks, block.length = length) (hindex : index ≤ blocks.length) :
    start blocks index = index * length := by
  have hmap : blocks.map List.length = List.replicate blocks.length length := by
    rw [List.eq_replicate_iff]
    refine ⟨List.length_map _, fun count hmem ↦ ?_⟩
    rcases List.mem_map.mp hmem with ⟨block, hblock, rfl⟩
    exact hlength block hblock
  rw [start, hmap, List.take_replicate, Nat.min_eq_left hindex, List.sum_replicate_nat]

/-- Their length together. -/
theorem length_flatten_eq_mul {blocks : List (List α)} {length : ℕ}
    (hlength : ∀ block ∈ blocks, block.length = length) :
    blocks.flatten.length = blocks.length * length := by
  have hend := start_eq_mul hlength (Nat.le_refl blocks.length)
  have hcount : (blocks.map List.length).length ≤ blocks.length := Nat.le_of_eq (List.length_map _)
  rwa [start, List.take_of_length_le hcount, ← List.length_flatten] at hend

/-- A read in a block that only blocks of one length come before. -/
theorem getElem?_flatten {blocks : List (List α)} {length index place : ℕ}
    (hlength : ∀ other ∈ blocks.take index, other.length = length) {block : List α}
    (hblock : blocks[index]? = some block) (hplace : place < block.length) :
    blocks.flatten[index * length + place]? = block[place]? := by
  induction blocks generalizing index with
  | nil => exact absurd hblock (by simp)
  | cons first blocks ih =>
    rw [List.flatten_cons]
    rcases index with _ | index
    · obtain rfl : first = block := Option.some.inj hblock
      rw [Nat.zero_mul, Nat.zero_add, List.getElem?_append_left hplace]
    · have hfirst : first.length = length := hlength first (by simp)
      have hlater : (index + 1) * length + place = first.length + (index * length + place) := by
        rw [hfirst, Nat.succ_mul, Nat.add_comm (index * length), Nat.add_assoc]
      rw [hlater, List.getElem?_append_right (Nat.le_add_right _ _), Nat.add_sub_cancel_left]
      exact ih (fun other hmem ↦ hlength other (List.mem_cons_of_mem _ hmem)) hblock

end Bc3Miner.Foundations.Blocks
