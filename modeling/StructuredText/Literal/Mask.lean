import StructuredText.Literal.Scan

/-!
# Masking literals

A masked document has filler in place of the code points of its literals, so that a search in it
finds nothing inside a literal. With a filler of one code point, offsets stay the same.
-/

namespace StructuredText.Literal

/-- What stands in place of a literal. Line feeds stay if `keepNewlines` asks for it. -/
def maskBody (fill : List Char) (keepNewlines : Bool) (body : List Char) : List Char :=
  body.flatMap fun c => if keepNewlines && c == '\n' then [c] else fill

/-- A filler of one code point keeps the length. -/
theorem length_maskBody (c : Char) (keepNewlines : Bool) (body : List Char) :
    (maskBody [c] keepNewlines body).length = body.length := by
  induction body with
  | nil => rfl
  | cons d rest ih =>
    simp only [maskBody, List.flatMap_cons, List.length_append, List.length_cons] at ih ⊢
    rw [ih]
    split <;> exact Nat.add_comm _ _

/-- The document with the given spans masked. -/
def maskSpans (fill : List Char) (keepNewlines : Bool) (spans : List Span)
    (document : List Char) : List Char :=
  applyEdits
    (spans.map fun span =>
      ⟨span.start, span.stop, maskBody fill keepNewlines (span.text document)⟩)
    document

/-- The document with spaces in place of its strings and comments. -/
def mask (document : List Char) : List Char :=
  maskSpans [' '] true (scan document) document

end StructuredText.Literal
