import Mathlib.Order.Lattice
import Mathlib.Data.List.Basic

/-!
# The first of the greatest

The first item of greatest key in a list, found by keeping the best so far and replacing it by a
greater one only (`keepGreater`). An item that comes later and is no greater changes nothing, so of
several greatest ones the first stays.

`FirstGreatest` is the relation that the loop computes: what is before the item is less, and what is
after it is no greater. One more item at the end keeps it (`FirstGreatest.keepGreater`), and nothing
in the list is greater than the item (`FirstGreatest.le`).
-/

set_option autoImplicit false
set_option relaxedAutoImplicit false

namespace Bc3Miner.Foundations

variable {Item Key : Type*} [LinearOrder Key] (key : Item → Key)

/-- The first item of greatest key; none of no items. -/
def FirstGreatest (items : List Item) : Option Item → Prop
  | none => items = []
  | some item => ∃ before after, items = before ++ item :: after ∧
      (∀ other ∈ before, key other < key item) ∧ ∀ other ∈ after, key other ≤ key item

/-- Keep the best item so far, or take a greater one. -/
def keepGreater (best : Option Item) (item : Item) : Option Item :=
  if best.all fun other ↦ key other < key item then some item else best

/-- No item is greater than the first greatest. -/
theorem FirstGreatest.le {items : List Item} {item other : Item}
    (hbest : FirstGreatest key items (some item)) (hmem : other ∈ items) :
    key other ≤ key item := by
  obtain ⟨before, after, rfl, hbefore, hafter⟩ := hbest
  rcases List.mem_append.mp hmem with hearlier | hlater
  · exact (hbefore other hearlier).le
  · rcases List.mem_cons.mp hlater with rfl | hlater
    · exact le_rfl
    · exact hafter other hlater

/-- One more item at the end. -/
theorem FirstGreatest.keepGreater {items : List Item} {best : Option Item}
    (hbest : FirstGreatest key items best) (item : Item) :
    FirstGreatest key (items ++ [item]) (keepGreater key best item) := by
  cases best with
  | none =>
    have hitems : items = [] := hbest
    rw [hitems]
    exact ⟨[], [], rfl, fun _ hnone ↦ absurd hnone List.not_mem_nil,
      fun _ hnone ↦ absurd hnone List.not_mem_nil⟩
  | some other =>
    unfold Foundations.keepGreater
    rw [Option.all_some]
    by_cases hgreater : key other < key item
    · rw [if_pos (decide_eq_true hgreater)]
      refine ⟨items, [], rfl, fun earlier hmem ↦ ?_, fun _ hnone ↦ absurd hnone List.not_mem_nil⟩
      exact (hbest.le key hmem).trans_lt hgreater
    · rw [if_neg (mt of_decide_eq_true hgreater)]
      obtain ⟨before, after, rfl, hbefore, hafter⟩ := hbest
      refine ⟨before, after ++ [item], by rw [List.append_assoc, List.cons_append], hbefore, ?_⟩
      intro later hmem
      rcases List.mem_append.mp hmem with hold | hnew
      · exact hafter later hold
      · rw [List.mem_singleton.mp hnew]
        exact not_lt.mp hgreater

end Bc3Miner.Foundations
