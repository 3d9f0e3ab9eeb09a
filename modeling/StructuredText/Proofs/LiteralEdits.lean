import StructuredText.Literal.Mask
import StructuredText.Proofs.Rewriting

/-!
# Rewriting literals

Edits of the literals of a text, one for each literal of some kinds, as a walk over its cells.

Results:
1. `applyEdits_literals`: such edits rewrite the literals of the cells and keep the rest.
2. `maskSpans_eq`: masking puts a code point in place of each of those of literals.
-/

namespace StructuredText

open Literal

variable {cells : List Cell} {before : List Char} {mark : Recognizer Kind}

/-- The text of cells with the literals of some kinds rewritten. What is written may depend on the
code point before the literal. `before` stands before the cells, nearest code point first. -/
def rewriteLiterals (chosen : Kind → Bool) (write : Option Char → Kind → List Char → List Char)
    (before : List Char) : List Cell → List Char
  | [] => []
  | ⟨c, .code⟩ :: rest => c :: rewriteLiterals chosen write (c :: before) rest
  | ⟨c, .inside _⟩ :: rest => rewriteLiterals chosen write (c :: before) rest
  | ⟨c, .opening kind⟩ :: rest =>
      let body := c :: chars (rest.takeWhile Cell.isInside)
      (if chosen kind then write before.head? kind body else body) ++
        rewriteLiterals chosen write (c :: before) rest

section

variable {chosen : Kind → Bool} {write : Option Char → Kind → List Char → List Char}

theorem rewriteLiterals_insideCells (kind : Kind) (text before : List Char) (rest : List Cell) :
    rewriteLiterals chosen write before (insideCells kind text ++ rest) =
      rewriteLiterals chosen write (text.reverse ++ before) rest := by
  induction text generalizing before with
  | nil => rfl
  | cons c text ih =>
    simp only [insideCells, List.map_cons, List.cons_append, rewriteLiterals] at ih ⊢
    rw [ih, List.reverse_cons, List.append_assoc, List.singleton_append]

theorem rewriteLiterals_literalCells {kind : Kind} {c : Char} {body : List Char} {rest : List Cell}
    (h : ∀ cell ∈ rest.head?, cell.isInside = false) :
    rewriteLiterals chosen write before (literalCells kind c body ++ rest) =
      (if chosen kind then write before.head? kind (c :: body) else c :: body) ++
        rewriteLiterals chosen write (body.reverse ++ c :: before) rest := by
  simp only [literalCells, List.cons_append, rewriteLiterals, takeWhile_insideCells kind body h,
    chars_insideCells, rewriteLiterals_insideCells]

/-- The edit of a literal of a document. -/
def literalEdit (write : Option Char → Kind → List Char → List Char) (document : List Char)
    (span : Span) : Edit :=
  let before := if span.start = 0 then none else document[span.start - 1]?
  ⟨span.start, span.stop, write before span.kind (span.text document)⟩

/-- The code point before a place. -/
theorem before_eq_head? (before rest : List Char) :
    (if before.length = 0 then none else (before.reverse ++ rest)[before.length - 1]?) =
      before.head? := by
  cases before with
  | nil => rfl
  | cons c before => simp

theorem start_of_mem_literalEdits {document : List Char} {pos : Nat} :
    ∀ edit ∈ ((spansFrom pos cells).filter (chosen ·.kind)).map (literalEdit write document),
      pos + (cells.takeWhile Cell.isInside).length ≤ edit.start ∧ edit.start ≤ edit.stop := by
  intro edit hedit
  obtain ⟨span, hspan, rfl⟩ := List.mem_map.mp hedit
  have hmem := (List.mem_filter.mp hspan).1
  have := (spansFrom_ordered cells pos).nonempty span hmem
  exact ⟨start_of_mem_spansFrom pos hmem, Nat.le_of_lt this⟩

/-- Edits of literals rewrite the literals of the cells and keep the rest. -/
theorem applyEdits_literals (h : Marked mark before cells) {document : List Char}
    (hdocument : document = before.reverse ++ chars cells) :
    applyEditsFrom before.length
        (((spansFrom before.length cells).filter (chosen ·.kind)).map (literalEdit write document))
        (chars cells) =
      rewriteLiterals chosen write before cells := by
  induction h with
  | nil => rfl
  | @code before c rest _ _ ih =>
    rw [chars_cons, rewriteLiterals, ← ih (by simp [hdocument]), spansFrom]
    exact @applyEditsFrom_append _ _ [c] _ fun edit hedit => by
      have := start_of_mem_literalEdits edit hedit
      rw [List.length_singleton]
      omega
  | @literal before body c kind rest hfind hrest ih =>
    have hhead := hrest.head?_not_inside
    have hlength : (body.reverse ++ c :: before).length = before.length + body.length + 1 := by
      simp
      omega
    have htail := ih (by simp [hdocument])
    rw [hlength] at htail
    rw [rewriteLiterals_literalCells hhead, spansFrom_literalCells hhead, chars_append,
      chars_literalCells, ← htail]
    by_cases hchosen : chosen kind = true
    · have htext : Span.text ⟨before.length, before.length + body.length + 1, kind⟩ document =
          c :: body := by
        rw [Span.text, slice, hdocument, chars_append, chars_literalCells,
          List.drop_left' (List.length_reverse), Nat.add_assoc, Nat.add_sub_cancel_left,
          List.take_left' List.length_cons]
      have hbefore : (if before.length = 0 then none else document[before.length - 1]?) =
          before.head? := by
        rw [hdocument]
        exact before_eq_head? before _
      simp only [List.filter_cons, hchosen, if_true, List.map_cons, literalEdit, applyEditsFrom,
        htext, hbefore, Nat.sub_self, List.take_zero, List.nil_append]
      rw [Nat.add_assoc, Nat.add_sub_cancel_left, List.drop_left' List.length_cons]
    · simp only [List.filter_cons, hchosen]
      refine @applyEditsFrom_append before.length _ (c :: body) _ fun edit hedit => ?_
      have := start_of_mem_literalEdits edit hedit
      rw [List.length_cons]
      omega

end

/-! ## Masks -/

/-- The cell's code point, or `fill` if it belongs to a literal. -/
def veil (fill : Char) (cell : Cell) : Char :=
  if cell.isCode then cell.char else fill

theorem maskBody_eq (fill : Char) (body : List Char) :
    maskBody [fill] false body = body.map fun _ => fill := by
  induction body with
  | nil => rfl
  | cons c body ih => simpa [maskBody] using ih

theorem map_veil_insideCells (fill : Char) (kind : Kind) (text : List Char) :
    (insideCells kind text).map (veil fill) = text.map fun _ => fill := by
  rw [insideCells, List.map_map]
  rfl

theorem map_veil_of_marked (h : Marked mark before cells) (fill : Char) :
    rewriteLiterals (fun _ => true) (fun _ _ body => maskBody [fill] false body) before cells =
      cells.map (veil fill) := by
  induction h with
  | nil => rfl
  | code _ _ ih =>
    rw [rewriteLiterals, ih]
    rfl
  | literal _ hrest ih =>
    rw [rewriteLiterals_literalCells hrest.head?_not_inside, ih, if_pos rfl, maskBody_eq,
      List.map_append, literalCells, List.map_cons, List.map_cons, map_veil_insideCells, veil,
      if_neg (by simp [Cell.isCode])]

/-- Masking puts a code point in place of each of those of literals. -/
theorem maskSpans_eq (h : Marked mark [] cells) (fill : Char) :
    maskSpans [fill] false (spansFrom 0 cells) (chars cells) = cells.map (veil fill) := by
  rw [← map_veil_of_marked h, ← applyEdits_literals h rfl, List.filter_true]
  rfl

end StructuredText
