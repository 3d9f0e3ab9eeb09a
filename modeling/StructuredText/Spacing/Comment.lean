import StructuredText.Literal.Scan

/-!
# Padding of comments

A comment has a blank behind its opener and before its closer, and a blank before its opener unless
it starts its line.
-/

namespace StructuredText.Spacing

open Literal

/-- The delimiter that closes a comment of a kind. -/
def closer : Kind → List Char
  | .blockComment => ['*', ')']
  | .slashComment => ['*', '/']
  | .string | .lineComment | .typed => []

/-- The inside of a comment, with a blank at its start, and at its end if the comment is closed. -/
def padInside (closed : Bool) (inside : List Char) : List Char :=
  let led := if inside.head?.any isBlank then inside else ' ' :: inside
  if closed && !led.getLast?.any isBlank then led ++ [' '] else led

/-- The text of a comment with its delimiters padded. A comment that is not closed has its opener
padded only. -/
def padComment (kind : Kind) (body : List Char) : List Char :=
  let opener := body.take 2
  let ending := if closes kind body then closer kind else []
  let inside := (body.take (body.length - ending.length)).drop 2
  if inside.isEmpty then
    if ending.isEmpty then opener else opener ++ [' '] ++ ending
  else
    opener ++ padInside (!ending.isEmpty) inside ++ ending

/-- What goes between a comment and the text before it. -/
def gapBefore (before : Option Char) : List Char :=
  match before with
  | none => []
  | some c => if isPad c || c == '\n' then [] else [' ']

/-- The edit that pads a comment of a document. -/
def commentEdit (document : List Char) (span : Span) : Edit :=
  let before := if span.start = 0 then none else document[span.start - 1]?
  ⟨span.start, span.stop, gapBefore before ++ padComment span.kind (span.text document)⟩

/-- Pads all comments of a document. -/
def padComments (document : List Char) : List Char :=
  applyEdits
    (((scan document).filter (·.kind.isComment)).map (commentEdit document))
    document

end StructuredText.Spacing
