import StructuredText.Proofs.Skeleton
import StructuredText.Proofs.SpacingRules

/-!
# What each pass keeps

`Keeps before after` says that two texts have the same literals, the same skeleton and the same word
joints. Texts that differ by moves are of this kind.

Results:
1. `Respaced.keeps`: moves keep literals, skeleton and word joints.
2. `Spacing.spaceOperators_keeps`, `LineBreak.reduceBlankLines_keeps` and others: so do the passes
   that apply rules on blanks.
-/

namespace StructuredText

open Literal

/-- The kind and text of each literal of a document, from left to right. -/
def literalsOf (document : List Char) : List (Kind × List Char) :=
  (scan document).map fun span => (span.kind, span.text document)

theorem Marked.literalsOf_eq {cells : List Cell} (h : Marked recognize [] cells) :
    literalsOf (chars cells) = literals cells := by
  rw [literalsOf, h.scan_eq]
  exact literals_eq_map_spansFrom cells []

/-- Both texts have the same literals, skeleton and word joints. -/
structure Keeps (before after : List Char) : Prop where
  literals : literalsOf after = literalsOf before
  skeleton : skeleton after = skeleton before
  wordJoints : wordJoints after = wordJoints before

theorem Keeps.refl (text : List Char) : Keeps text text :=
  ⟨rfl, rfl, rfl⟩

theorem Keeps.trans {first second third : List Char} (h : Keeps first second)
    (h' : Keeps second third) : Keeps first third where
  literals := h'.literals.trans h.literals
  skeleton := h'.skeleton.trans h.skeleton
  wordJoints := h'.wordJoints.trans h.wordJoints

/-- The second text comes from the first by moves. -/
def Respaced (licence : Licence) (before after : List Char) : Prop :=
  ∀ cells, Marked recognize [] cells → chars cells = before →
    ∃ cells', chars cells' = after ∧ Respacing licence cells cells'

theorem exists_marked_recognize (text : List Char) :
    ∃ cells, chars cells = text ∧ Marked recognize [] cells :=
  exists_marked recognize_isProper text []

/-- Moves keep literals, skeleton and word joints. -/
theorem Respaced.keeps {licence : Licence} {before after : List Char}
    (h : Respaced licence before after) : Keeps before after := by
  obtain ⟨cells, rfl, hmarked⟩ := exists_marked_recognize before
  obtain ⟨cells', rfl, hmoves⟩ := h cells hmarked rfl
  refine ⟨?_, hmoves.skeleton_eq, hmoves.wordJoints_eq⟩
  rw [(hmoves.marked hmarked).literalsOf_eq, hmarked.literalsOf_eq, hmoves.literals_eq]

theorem Respaced.trans {licence : Licence} {first second third : List Char}
    (h : Respaced licence first second) (h' : Respaced licence second third) :
    Respaced licence first third := by
  intro cells hmarked heq
  obtain ⟨cells', heq', hmoves⟩ := h cells hmarked heq
  obtain ⟨cells'', heq'', hmoves'⟩ := h' cells' (hmoves.marked hmarked) heq'
  exact ⟨cells'', heq'', hmoves.trans hmoves'⟩

/-! ## Rules -/

section Rule

variable {rule : Rule} {hit : List Char → List Char → List Char → Prop} {licence : Licence}

theorem Rule.apply_respaced (spec : rule.Spec hit)
    (hmoves : Respaces licence (fun _ => True) [] hit) (text : List Char) :
    Respaced licence text (rule.apply text) := by
  rintro cells hmarked rfl
  obtain ⟨out, hout, hpatched⟩ := Rule.apply_patched spec hmarked
  exact ⟨out, hout.symm, hpatched.respacing_all hmoves⟩

theorem Rule.applyTyped_respaced (spec : rule.Spec hit)
    (hmoves : Respaces licence (fun _ => True) [] hit) (text : List Char) :
    Respaced licence text (rule.applyTyped text) := by
  rintro cells hmarked rfl
  obtain ⟨out, hout, hpatched⟩ := Rule.applyTyped_patched_untype spec hmarked
  exact ⟨out, hout.symm, hpatched.respacing_all hmoves⟩

end Rule

/-! ## Passes -/

namespace Spacing

theorem collapse_respaced (text : List Char) : Respaced .strict text (collapse text) :=
  Rule.applyTyped_respaced padRun_spec padRun_respaces text

theorem spaceParentheses_respaced (text : List Char) :
    Respaced .strict text (spaceParentheses text) :=
  .trans (Rule.applyTyped_respaced openingParenthesis_spec openingParenthesis_respaces text)
    (Rule.applyTyped_respaced closingParenthesis_spec closingParenthesis_respaces _)

theorem operator_respaced (text : List Char) : Respaced .parting text (operator.applyTyped text) :=
  Rule.applyTyped_respaced operator_spec (operator_respaces rfl rfl) text

/-- Only the first part of the pass puts blanks into the middle of what has none. -/
theorem spaceOperators_respaced (text : List Char) :
    Respaced .strict (operator.applyTyped text) (spaceOperators text) :=
  .trans (Rule.applyTyped_respaced comma_spec comma_respaces _) (collapse_respaced _)

theorem spaceOperators_keeps (text : List Char) : Keeps text (spaceOperators text) :=
  (operator_respaced text).keeps.trans (spaceOperators_respaced text).keeps

theorem trimLineEnds_respaced (text : List Char) : Respaced .strict text (trimLineEnds text) :=
  Rule.apply_respaced lineEnd_spec dropsPads_respaces text

theorem tightenColons_respaced (text : List Char) : Respaced .closing text (tightenColons text) :=
  .trans
    (Rule.applyTyped_respaced beforeColon_spec
      (fun block rest written hne hhit =>
      closesBefore_respaces rfl block rest written hne hhit.1) text)
    (Rule.apply_respaced finalSemicolon_spec finalSemicolon_respaces _)

end Spacing

theorem LineBreak.reduceBlankLines_respaced (text : List Char) :
    Respaced .strict text (reduceBlankLines text) :=
  .trans (Rule.apply_respaced blankLine_spec dropsPads_respaces text)
    (Rule.apply_respaced lineFeeds_spec lineFeeds_respaces _)

end StructuredText
