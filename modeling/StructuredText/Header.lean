import StructuredText.Line
import StructuredText.Spacing.Edge
import StructuredText.Text.Newline

/-!
# Block headers

The header of a block runs from the keyword that opens the block, or a further branch of it, to the
keyword that enters its body. A header is written on one line, unless its lines open, continue or
close a block themselves, or it holds a line comment.
-/

namespace StructuredText.Header

open Literal

/-- The keyword that starts a header, and the one that ends it. -/
structure Family where
  keyword : List Char
  clause : List Char
deriving Repr, DecidableEq

/-- The families of headers of the language. -/
def families : List Family :=
  [⟨"IF".toList, "THEN".toList⟩, ⟨"ELSIF".toList, "THEN".toList⟩,
   ⟨"WHILE".toList, "DO".toList⟩, ⟨"FOR".toList, "DO".toList⟩]

/-- Goes on to the first place where `clause` stands as a word, and behind it. No semicolon may
come before it. -/
def clauseFrom (clause : List Char) (pos : Nat) (before : List Char) : List Char → Option Cursor
  | [] => Cursor.wholeWord [clause] ⟨pos, before, []⟩
  | c :: rest =>
      match Cursor.wholeWord [clause] ⟨pos, before, c :: rest⟩ with
      | some stop => some stop
      | none => if c = ';' then none else clauseFrom clause (pos + 1) (c :: before) rest

/-- Reads a header. -/
def reader (family : Family) (cursor : Cursor) : Option Cursor := do
  let inside ← cursor.wholeWord [family.keyword]
  clauseFrom family.clause inside.pos inside.before inside.after

/-- Whether a line may not become part of a header. -/
def isStructural (line : List Char) : Bool :=
  match LineKind.ofLine line with
  | .opener | .closer | .continuation => true
  | .comment | .caseLabel | .other => false

/-- The masked text of a header has further lines, all of which may become part of its first. -/
def isJoinable (masked : List Char) : Bool :=
  match lines masked with
  | [] | [_] => false
  | _ :: further => !further.any isStructural

/-- Any number of blanks, as one space. -/
def blankRun : Rule := fun cursor => do
  let stop ← cursor.someRun isBlank
  return (stop, [' '])

/-- A header on one line. -/
def joined (text : List Char) : List Char :=
  Spacing.closeSeparators (trim (blankRun.apply text))

/-- The document with a code point in place of each of its literals' that is in no word and breaks
no line. -/
def masked (spans : List Span) (document : List Char) : List Char :=
  maskSpans ['\x00'] false spans document

/-- The edits that put the headers of a family on one line each. -/
def edits (family : Family) (document : List Char) : List Edit :=
  let spans := scan document
  let code := masked spans document
  let find : Recognizer Unit := .ofReader fun cursor => (reader family cursor).map (·, ())
  (occurrences find code).filterMap fun found =>
    if isJoinable (slice code found.start found.stop) &&
        !spans.any fun span =>
          span.kind == .lineComment && found.start ≤ span.start && span.start < found.stop then
      some ⟨found.start, found.stop, joined (slice document found.start found.stop)⟩
    else none

/-- Puts the headers of a family on one line each. -/
def join (family : Family) (document : List Char) : List Char :=
  applyEdits (edits family document) document

/-- Puts the headers of several families on one line each, family after family. -/
def joinAll (families : List Family) (document : List Char) : List Char :=
  families.foldl (fun document family => join family document) document

end StructuredText.Header
