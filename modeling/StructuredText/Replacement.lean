import StructuredText.Literal.Lookup
import StructuredText.Literal.Scan

/-!
# Replacement outside literals

A pass over a document replaces the occurrences of a construct, except those that meet a literal. An
occurrence that meets a literal is left as it is, and the search goes on behind it.
-/

namespace StructuredText

open Literal

/-- The occurrences of a construct that meet none of the spans. -/
def freeOccurrences {α : Type} (find : Recognizer α) (spans : List Span) (text : List Char) :
    List (Occurrence α) :=
  let index := spans.toArray
  (occurrences find text).filter fun found => !overlaps index found.start found.stop

/-- Replaces each occurrence that meets none of the spans by what `write` makes of it. -/
def replaceOutside {α : Type} (find : Recognizer α) (spans : List Span) (write : α → List Char)
    (text : List Char) : List Char :=
  applyEdits
    ((freeOccurrences find spans text).map fun found =>
      ⟨found.start, found.stop, write found.value⟩)
    text

/-- Reads a stretch that is not empty, and says what to put in its place. -/
abbrev Rule := Cursor → Option (Cursor × List Char)

/-- Applies a rule outside strings and comments. -/
def Rule.apply (rule : Rule) (text : List Char) : List Char :=
  replaceOutside (.ofReader rule) (scan text) id text

/-- Applies a rule outside strings, comments and typed literals. -/
def Rule.applyTyped (rule : Rule) (text : List Char) : List Char :=
  replaceOutside (.ofReader rule) (scanTyped text) id text

end StructuredText
