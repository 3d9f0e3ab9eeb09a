import StructuredText.Text.Slice

/-!
# Literal spans

A literal is a part of a document that formatting must keep: a string, a comment in one of three
forms, or a literal with a type of its own such as a date, a based number or a direct address. A
span says where a literal stands. A string or comment that is not closed runs to the end of the
document; `Span.isTerminated` tells the two cases apart by the text of the span alone.
-/

namespace StructuredText.Literal

inductive Kind where
  | string
  | blockComment
  | slashComment
  | lineComment
  | typed
deriving Repr, DecidableEq

namespace Kind

def isComment : Kind → Bool
  | .blockComment | .slashComment | .lineComment => true
  | .string | .typed => false

/-- How messages name the kind. -/
def phrase : Kind → String
  | .string => "string"
  | .blockComment => "block comment"
  | .slashComment => "slash comment"
  | .lineComment => "line comment"
  | .typed => "typed literal"

end Kind

/-- The stretch `[start, stop)` of a document that a literal takes. -/
structure Span where
  start : Nat
  stop : Nat
  kind : Kind
deriving Repr, DecidableEq

namespace Span

def text (span : Span) (document : List Char) : List Char :=
  slice document span.start span.stop

end Span

/-- Whether a string body ends in a `$` that is not itself escaped: it has an odd number of
dollars at its end. -/
def endsWithEscape (body : List Char) : Bool :=
  (body.reverse.takeWhile (· == '$')).length % 2 == 1

/-- Whether the text of a literal ends in the delimiter that closes its kind. -/
def closes (kind : Kind) (body : List Char) : Bool :=
  match kind with
  | .string =>
      body.length ≥ 2 && body.getLast? == body.head? && !endsWithEscape body.dropLast
  | .blockComment => body.length ≥ 4 && ['*', ')'].isSuffixOf body
  | .slashComment => body.length ≥ 4 && ['*', '/'].isSuffixOf body
  | .lineComment | .typed => true

/-- Whether the literal at `span` is closed. -/
def Span.isTerminated (span : Span) (document : List Char) : Bool :=
  closes span.kind (span.text document)

end StructuredText.Literal
