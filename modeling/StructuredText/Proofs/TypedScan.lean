import Mathlib.Data.List.Pairwise
import StructuredText.Proofs.Gaps
import StructuredText.Proofs.TypedMarking

/-!
# The two scans of a text

Some passes keep strings and comments, others keep typed literals too, and both kinds of passes work
on the same text. A typed literal holds no code point that opens a string or comment, so that the
two scans find the same strings and comments, and typed literals stand between them.

Results:
1. `Marked.spansFrom_untype`: without typed literals, the spans of a marking are those of the other
   marking.
2. `exists_gap_of_apart`: a stretch that meets no span lies in one of the gaps.
3. `Literal.scanTyped_agrees`: the two scans agree.
-/

namespace StructuredText

open Literal

/-- Without typed literals, the spans are those of the marking of strings and comments. -/
theorem Marked.spansFrom_untype {before : List Char} {cells : List Cell}
    (h : Marked recognizeTyped before cells) :
    (spansFrom before.length cells).filter (·.kind ≠ .typed) =
      spansFrom before.length (StructuredText.untype cells) := by
  induction h with
  | nil => rfl
  | code _ _ ih => exact ih
  | @literal before body c kind rest hfind hrest ih =>
    have hlength : (body.reverse ++ c :: before).length = before.length + body.length + 1 := by
      simp
      omega
    rw [hlength] at ih
    have hhead := hrest.untype.head?_not_inside
    rw [spansFrom_literalCells hrest.head?_not_inside, untype_append]
    rcases recognizeTyped_eq_some.mp hfind with hliteral | ⟨-, -, rfl⟩
    · have hkind : kind ≠ .typed := by
        rintro rfl
        exact literalAt_ne_typed hliteral
      rw [untype_literalCells hkind, spansFrom_literalCells hhead,
        List.filter_cons_of_pos (by simpa using hkind), ih]
    · -- The cells of a typed literal are code in the other marking.
      rw [untype_typedCells, spansFrom_append hhead, spansFrom_codeCells, List.nil_append,
        List.filter_cons_of_neg (by simp), ih, ← length_chars (codeCells _), chars_codeCells,
        List.length_cons, Nat.add_assoc]

/-- The literals of cells end in the text. -/
theorem stop_le_of_mem_spansFrom {span : Span} {cells : List Cell} :
    ∀ pos, span ∈ spansFrom pos cells → span.stop ≤ pos + cells.length := by
  induction cells with
  | nil => simp [spansFrom]
  | cons cell rest ih =>
    intro pos hmem
    have hlater : span ∈ spansFrom (pos + 1) rest → span.stop ≤ pos + (cell :: rest).length := by
      intro hmem
      have := ih _ hmem
      rw [List.length_cons]
      omega
    obtain ⟨c, role⟩ := cell
    cases role with
    | code | inside kind => exact hlater hmem
    | opening kind =>
      rcases List.mem_cons.mp hmem with rfl | hmem
      · have := (List.takeWhile_sublist (p := Cell.isInside) (l := rest)).length_le
        simp only [List.length_cons]
        omega
      · exact hlater hmem

/-- Of two spans that are in order, one lies in front of the other. -/
theorem Literal.Ordered.le_or_le {spans : List Span} (ordered : Ordered spans) {first second : Span}
    (hfirst : first ∈ spans) (hsecond : second ∈ spans) (hne : first ≠ second) :
    first.stop ≤ second.start ∨ second.stop ≤ first.start := by
  have hpairs : spans.Pairwise fun first second =>
      first.stop ≤ second.start ∨ second.stop ≤ first.start :=
    ordered.apart.imp .inl
  have : Std.Symm fun first second : Span =>
      first.stop ≤ second.start ∨ second.stop ≤ first.start := ⟨fun _ _ => Or.symm⟩
  exact hpairs.forall hfirst hsecond hne

/-- A stretch that lies in front of or behind every span lies in one of the gaps. -/
theorem exists_gap_of_apart {spans : List Span} {first finish start stop : Nat}
    (hfirst : first ≤ start) (hfinish : stop ≤ finish)
    (hapart : ∀ span ∈ spans, stop ≤ span.start ∨ span.stop ≤ start) :
    ∃ gap ∈ gapsFrom first finish spans, gap.start ≤ start ∧ stop ≤ gap.stop := by
  induction spans generalizing first with
  | nil => exact ⟨_, List.mem_singleton_self _, hfirst, hfinish⟩
  | cons span spans ih =>
    rcases hapart span List.mem_cons_self with hbefore | hbehind
    · exact ⟨_, List.mem_cons_self, hfirst, hbefore⟩
    · obtain ⟨gap, hgap, hholds⟩ := ih hbehind fun other hother =>
        hapart other (List.mem_cons_of_mem _ hother)
      exact ⟨gap, List.mem_cons_of_mem _ hgap, hholds⟩

/-- The scan that also finds typed literals finds the strings and comments that the other scan
finds, and each typed literal stands in a gap between them. -/
theorem Literal.scanTyped_agrees (text : List Char) :
    (scanTyped text).filter (·.kind ≠ .typed) = scan text ∧
      ∀ span ∈ scanTyped text, span.kind = .typed →
        ∃ gap ∈ gapsFrom 0 text.length (scan text),
          gap.start ≤ span.start ∧ span.stop ≤ gap.stop := by
  obtain ⟨cells, rfl, hmarked⟩ := exists_marked recognizeTyped_isProper text []
  have hscan := hmarked.untype.scan_eq
  rw [chars_untype] at hscan
  have hfilter := hmarked.spansFrom_untype
  rw [hmarked.scanTyped_eq, hscan]
  refine ⟨hfilter, fun span hspan htyped => ?_⟩
  have hstop : span.stop ≤ (chars cells).length := by
    rw [length_chars, ← Nat.zero_add cells.length]
    exact stop_le_of_mem_spansFrom 0 hspan
  refine exists_gap_of_apart (Nat.zero_le _) hstop fun other hother => ?_
  -- A string or comment is one of the spans of the larger scan, and is not the typed literal.
  rw [List.length_nil] at hfilter
  rw [← hfilter, List.mem_filter] at hother
  refine (spansFrom_ordered cells 0).le_or_le hspan hother.1 ?_
  rintro rfl
  simp [htyped] at hother

end StructuredText
