import StructuredText.Format

/-!
# Edits of a whole document

An editor asks for the edits that format a document. A document that is not visible has none, and a
visible one has a single edit that replaces all of it.
-/

namespace StructuredText.Document

/-- A place in a document: its line and the offset in that line, both from zero. -/
structure Position where
  line : Nat
  character : Nat
deriving Repr, DecidableEq

structure Range where
  first : Position
  last : Position
deriving Repr, DecidableEq

/-- Put `text` in place of what stands in `range`. -/
structure Replacement where
  range : Range
  text : List Char
deriving Repr, DecidableEq

/-- The edits of a document, and what is to be told about them. -/
structure Edits where
  replacements : List Replacement
  notices : List Notice
deriving Repr, DecidableEq

/-- Reads a line break: a carriage return with a line feed behind it, or one of the two alone. -/
def lineBreak (cursor : Cursor) : Option Cursor :=
  cursor.token ['\r', '\n'] <|> cursor.char '\r' <|> cursor.char '\n'

def breakAt : Recognizer Unit :=
  .ofReader fun cursor => (lineBreak cursor).map (·, ())

/-- The pieces of `rest`, the part of a text from offset `pos` on, that stand between
occurrences. -/
def piecesFrom {α : Type} (pos : Nat) : List (Occurrence α) → List Char → List (List Char)
  | [], rest => [rest]
  | found :: later, rest =>
      rest.take (found.start - pos) ::
        piecesFrom found.stop later (rest.drop (found.stop - pos))

/-- The lines of a document, whatever its line breaks are. -/
def linesOf (text : List Char) : List (List Char) :=
  piecesFrom 0 (occurrences breakAt text) text

/-- From the start of a document to the end of its last line. -/
def range (text : List Char) : Range :=
  let all := linesOf text
  ⟨⟨0, 0⟩, ⟨all.length - 1, (all.getLast?.getD []).length⟩⟩

/-- The edits that format a document. -/
def edits [Host] (visible : Bool) (vocabulary : Vocabulary) (file : String) (text : List Char) :
    Except Pattern.Fault Edits :=
  if visible then do
    let formatted ← Format.canonical vocabulary file text
    return ⟨[⟨range text, formatted.text⟩], formatted.notices⟩
  else .ok ⟨[], []⟩

end StructuredText.Document
