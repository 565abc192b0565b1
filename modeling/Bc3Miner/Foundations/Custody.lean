import Mathlib.Logic.Function.Basic

/-!
# Who holds a token

Tokens that cannot be copied are each in one place: a function from places to what they hold that
gives no token twice (`OneEach`). A place that takes another token, or none, lets go of the one it
held; `held_update_iff` says which tokens are then still held anywhere.

`OneEach` is kept by a move that takes a token only from where it was let go, or a fresh one
(`OneEach.update`), and by any place letting go (`OneEach.clear`). Nothing is assumed about what
places and tokens are.
-/

set_option autoImplicit false
set_option relaxedAutoImplicit false

namespace Bc3Miner.Foundations

variable {Place Token : Type*}

/-- No token is in two places. -/
def OneEach (holds : Place → Option Token) : Prop :=
  ∀ place other token, holds place = some token → holds other = some token → place = other

/-- The token is somewhere. -/
def Held (holds : Place → Option Token) (token : Token) : Prop := ∃ place, holds place = some token

variable [DecidableEq Place]

/-- A place that changes what it holds: held are its new token, and whatever was held in another
place. -/
theorem held_update_iff {holds : Place → Option Token} (halone : OneEach holds) (place : Place)
    (now : Option Token) (token : Token) :
    Held (Function.update holds place now) token ↔
      now = some token ∨ Held holds token ∧ holds place ≠ some token := by
  constructor
  · rintro ⟨other, hother⟩
    by_cases hsame : other = place
    · rw [hsame, Function.update_self] at hother
      exact .inl hother
    · rw [Function.update_of_ne hsame] at hother
      exact .inr ⟨⟨other, hother⟩, fun hhere ↦ hsame (halone other place token hother hhere)⟩
  · rintro (hnow | ⟨⟨other, hother⟩, helsewhere⟩)
    · exact ⟨place, by rw [Function.update_self, hnow]⟩
    · have hne : other ≠ place := by
        rintro rfl
        exact helsewhere hother
      exact ⟨other, by rw [Function.update_of_ne hne, hother]⟩

/-- A place may take a token that no other place holds. -/
theorem OneEach.update {holds : Place → Option Token} (halone : OneEach holds) {place : Place}
    {now : Option Token}
    (hfree : ∀ token, now = some token → ∀ other, other ≠ place → holds other ≠ some token) :
    OneEach (Function.update holds place now) := by
  intro first other token hfirst hother
  by_cases hfirstHere : first = place
  · by_cases hotherHere : other = place
    · rw [hfirstHere, hotherHere]
    · rw [hfirstHere, Function.update_self] at hfirst
      rw [Function.update_of_ne hotherHere] at hother
      exact absurd hother (hfree token hfirst other hotherHere)
  · rw [Function.update_of_ne hfirstHere] at hfirst
    by_cases hotherHere : other = place
    · rw [hotherHere, Function.update_self] at hother
      exact absurd hfirst (hfree token hother first hfirstHere)
    · rw [Function.update_of_ne hotherHere] at hother
      exact halone first other token hfirst hother

/-- A place may let go of what it holds. -/
theorem OneEach.clear {holds : Place → Option Token} (halone : OneEach holds) (place : Place) :
    OneEach (Function.update holds place none) :=
  halone.update fun _ hnone ↦ nomatch hnone

end Bc3Miner.Foundations
