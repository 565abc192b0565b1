import Mathlib.Data.List.Infix

/-!
# The pieces of a list between separators

`List.splitOn` cuts a list at every separator. A list that has no separator lies within one piece:
at the start of the whole it begins the first piece (`splitOn_append_of_notMem`), and anywhere else
it is part of some piece (`exists_piece_of_infix`).

Both are for any type of items; the pieces are those of the library's `List.splitOn`.
-/

set_option autoImplicit false
set_option relaxedAutoImplicit false

namespace Bc3Miner.Foundations

variable {α : Type*} [BEq α] [LawfulBEq α]

/-- What comes before the first separator begins the first piece. -/
theorem splitOn_append_of_notMem {separator : α} {front : List α} (hfront : separator ∉ front)
    (rest : List α) :
    ∃ piece pieces, rest.splitOn separator = piece :: pieces ∧
      (front ++ rest).splitOn separator = (front ++ piece) :: pieces := by
  obtain ⟨piece, pieces, hrest⟩ := List.exists_cons_of_ne_nil (List.splitOn_ne_nil separator rest)
  refine ⟨piece, pieces, hrest, ?_⟩
  induction front with
  | nil => exact hrest
  | cons first others ih =>
    have hne : (first == separator) = false := by
      rw [beq_eq_false_iff_ne]
      intro heq
      exact hfront (heq ▸ List.mem_cons_self)
    rw [List.cons_append, List.splitOn_cons_eq_if_modifyHead, hne,
      ih fun hmem ↦ hfront (List.mem_cons_of_mem _ hmem)]
    rfl

/-- A list that is one piece is that piece. -/
theorem eq_of_splitOn_singleton {separator : α} {whole piece : List α}
    (hsplit : whole.splitOn separator = [piece]) : whole = piece := by
  have hwhole : [separator].intercalate (whole.splitOn separator) = whole :=
    List.intercalate_splitOn separator
  rw [← hwhole, hsplit]
  simp [List.intercalate]

/-- A run without a separator is part of one piece. -/
theorem exists_piece_of_infix {separator : α} {run whole : List α} (hrun : separator ∉ run)
    (hpart : run <:+: whole) : ∃ piece ∈ whole.splitOn separator, run <:+: piece := by
  obtain ⟨before, after, rfl⟩ := hpart
  rw [List.append_assoc]
  induction before with
  | nil =>
    obtain ⟨piece, pieces, -, hsplit⟩ := splitOn_append_of_notMem hrun after
    refine ⟨run ++ piece, ?_, List.infix_append' [] run piece⟩
    rw [List.nil_append, hsplit]
    exact List.mem_cons_self
  | cons first others ih =>
    obtain ⟨piece, hmem, hpiece⟩ := ih
    rw [List.cons_append, List.splitOn_cons_eq_if_modifyHead]
    by_cases hfirst : (first == separator) = true
    · rw [if_pos hfirst]
      exact ⟨piece, List.mem_cons_of_mem _ hmem, hpiece⟩
    · rw [if_neg hfirst]
      obtain ⟨head, pieces, hsplit⟩ :=
        List.exists_cons_of_ne_nil (List.splitOn_ne_nil separator (others ++ (run ++ after)))
      rw [hsplit] at hmem ⊢
      rcases List.mem_cons.mp hmem with rfl | hlater
      · exact ⟨first :: piece, List.mem_cons_self, hpiece.trans (List.suffix_cons _ _).isInfix⟩
      · exact ⟨piece, List.mem_cons_of_mem _ hlater, hpiece⟩

end Bc3Miner.Foundations
