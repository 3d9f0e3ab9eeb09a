import StructuredText.Replacement

/-!
# Line breaks and blank lines

What follows the end of a block goes on a line of its own; comments behind the end of a block stay
on its line. Of several blank lines one is left.
-/

namespace StructuredText.LineBreak

open Literal

/-- The ends of blocks that a semicolon follows. -/
def closedEnds : List (List Char) :=
  ["END_IF".toList, "END_CASE".toList, "END_WHILE".toList, "END_FOR".toList,
   "END_REPEAT".toList]

/-- The end of a block, with its semicolon. Declarations may end without one. -/
def terminator (cursor : Cursor) : Option Cursor := do
  let first ← cursor.boundary
  match (first.oneOf closedEnds).bind (Cursor.char ';') with
  | some stop => some stop
  | none =>
      let stop ← (← first.word "END_VAR".toList).boundary
      return stop.optionally (Cursor.char ';')

/-- The place of the break that is due at `cut`, where the end of a block or a comment behind it
ends. There is none if nothing but comments follows on the line. `comments` are those that start
at `cut` or later. -/
def breakPoint (document : List Char) (cut : Nat) (afterComment : Bool) (comments : List Span) :
    Option Nat :=
  let pads := (document.drop cut).takeWhile isPad
  match (document.drop cut).dropWhile isPad with
  | [] => if afterComment then none else some cut
  | '\n' :: _ => none
  | _ =>
      match comments with
      | [] => some cut
      | span :: later =>
          if span.start = cut + pads.length then
            if span.kind = .lineComment then none else breakPoint document span.stop true later
          else some cut

/-- The places where a line break is due. -/
def breakPoints (document : List Char) : List Nat :=
  let spans := scan document
  let index := spans.toArray
  let comments := spans.filter (·.kind.isComment)
  let find : Recognizer Unit := .ofReader fun cursor => (terminator cursor).map (·, ())
  (occurrences find document).filterMap fun found =>
    if isProtected index found.start then none
    else breakPoint document found.stop false (comments.dropWhile (·.start < found.stop))

/-- Puts what follows the end of a block on a line of its own. -/
def breakBlocks (document : List Char) : List Char :=
  applyEdits ((breakPoints document).map fun pos => ⟨pos, pos, ['\n']⟩) document

/-- The spaces and tabs of a line that has nothing else. -/
def blankLine : Rule := fun cursor => do
  let stop ← (← cursor.ensure Cursor.atLineStart).someRun isPad
  if stop.atLineEnd then return (stop, []) else none

/-- Three line feeds or more, as two. -/
def lineFeeds : Rule := fun cursor => do
  let stop ← cursor.someRun (· == '\n')
  if stop.pos - cursor.pos ≥ 3 then return (stop, ['\n', '\n']) else none

/-- Leaves one of several blank lines. -/
def reduceBlankLines (text : List Char) : List Char :=
  lineFeeds.apply (blankLine.apply text)

end StructuredText.LineBreak
