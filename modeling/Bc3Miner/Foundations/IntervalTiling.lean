import Mathlib.Order.Interval.Set.Disjoint
import Mathlib.Order.CompletePartialOrder

/-!
# Half-open intervals that follow one another

Work done in order is a list of half-open intervals `[x, y)` of a linear order. `Tiles a l b` says
that the intervals of `l` are nonempty, start at `a`, end at `b` and each starts where the one
before it ends; `Ascends a l b` allows gaps between them.

Intervals that ascend are pairwise disjoint (`Ascends.pairwise_disjoint`), and intervals that tile
`[a, b)` cover it exactly (`Tiles.mem_iff`).

The order is any linear order, and the intervals are pairs of its elements; that work is finite
enters only through the list.
-/

set_option autoImplicit false
set_option relaxedAutoImplicit false

namespace Bc3Miner.Foundations.IntervalTiling

open Set

variable {α : Type*} [LinearOrder α]

/-- The intervals follow one another from the first bound to the last, without gap or overlap. -/
inductive Tiles : α → List (α × α) → α → Prop
  | nil (a : α) : Tiles a [] a
  | cons {a b c : α} {rest : List (α × α)} (hlt : a < b) (hrest : Tiles b rest c) :
      Tiles a ((a, b) :: rest) c

/-- The intervals follow one another from the first bound to the last, without overlap. -/
inductive Ascends : α → List (α × α) → α → Prop
  | nil {a b : α} (hle : a ≤ b) : Ascends a [] b
  | cons {a x y b : α} {rest : List (α × α)} (hle : a ≤ x) (hlt : x < y)
      (hrest : Ascends y rest b) : Ascends a ((x, y) :: rest) b

theorem Tiles.ascends {a b : α} {l : List (α × α)} (h : Tiles a l b) : Ascends a l b := by
  induction h with
  | nil a => exact .nil le_rfl
  | cons hlt _ ih => exact .cons le_rfl hlt ih

theorem Ascends.le {a b : α} {l : List (α × α)} (h : Ascends a l b) : a ≤ b := by
  induction h with
  | nil hle => exact hle
  | cons hle hlt _ ih => exact hle.trans (hlt.le.trans ih)

theorem Ascends.mono {a a' b b' : α} {l : List (α × α)} (h : Ascends a l b) (ha : a' ≤ a)
    (hb : b ≤ b') : Ascends a' l b' := by
  induction h generalizing a' with
  | nil hle => exact .nil (ha.trans (hle.trans hb))
  | cons hle hlt _ ih => exact .cons (ha.trans hle) hlt (ih le_rfl hb)

/-- Every interval of an ascending list lies between the bounds. -/
theorem Ascends.bounds {a b : α} {l : List (α × α)} (h : Ascends a l b) {p : α × α}
    (hp : p ∈ l) : a ≤ p.1 ∧ p.1 < p.2 ∧ p.2 ≤ b := by
  induction h with
  | nil hle => simp at hp
  | cons hle hlt hrest ih =>
    rcases List.mem_cons.mp hp with rfl | hmem
    · exact ⟨hle, hlt, hrest.le⟩
    · obtain ⟨hfirst, hnonempty, hlast⟩ := ih hmem
      exact ⟨hle.trans (hlt.le.trans hfirst), hnonempty, hlast⟩

/-- Each interval of an ascending list ends before every later one starts. -/
theorem Ascends.pairwise_le {a b : α} {l : List (α × α)} (h : Ascends a l b) :
    l.Pairwise fun p q ↦ p.2 ≤ q.1 := by
  induction h with
  | nil hle => exact .nil
  | cons hle hlt hrest ih => exact .cons (fun _ hq ↦ (hrest.bounds hq).1) ih

/-- The intervals of an ascending list are pairwise disjoint. -/
theorem Ascends.pairwise_disjoint {a b : α} {l : List (α × α)} (h : Ascends a l b) :
    l.Pairwise fun p q ↦ Disjoint (Ico p.1 p.2) (Ico q.1 q.2) := by
  refine h.pairwise_le.imp fun {p q} hle ↦ ?_
  rw [Ico_disjoint_Ico]
  exact (min_le_left _ _).trans (hle.trans (le_max_right _ _))

/-- The intervals of a tiling cover what lies between its bounds, and nothing else. -/
theorem Tiles.mem_iff {a b : α} {l : List (α × α)} (h : Tiles a l b) (x : α) :
    x ∈ Ico a b ↔ ∃ p ∈ l, x ∈ Ico p.1 p.2 := by
  induction h with
  | nil a => simp
  | @cons a b c rest hlt hrest ih =>
    have hle := hrest.ascends.le
    rw [← Ico_union_Ico_eq_Ico hlt.le hle, mem_union, ih]
    simp

end Bc3Miner.Foundations.IntervalTiling
