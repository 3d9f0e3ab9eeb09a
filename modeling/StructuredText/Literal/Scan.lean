import StructuredText.Literal.Span
import StructuredText.Literal.Typed
import StructuredText.Occurrence

/-!
# Finding literals

`scan` lists the literals of a document from left to right. A literal starts at the first opener
outside earlier literals, so an opener inside a string or comment opens nothing.

* A string runs to the next quote of its kind. Inside, `$` takes the next code point with it.
* A block or slash comment runs to the first closer behind its two-character opener.
* A line comment runs to the last code point of its line that is not blank.

`scanTyped` also lists typed literals.
-/

namespace StructuredText.Literal

/-- How far a string goes behind its opening quote: to its closing quote, or to the end. -/
def stringLength (quote : Char) : List Char → Nat
  | [] => 0
  | '$' :: [] => 1
  | '$' :: _ :: rest => stringLength quote rest + 2
  | c :: rest => if c = quote then 1 else stringLength quote rest + 1

/-- How far a comment goes behind its opener: to the first `mark` directly followed by `closer`,
or to the end. -/
def commentLength (mark closer : Char) : List Char → Nat
  | [] => 0
  | [_] => 1
  | c :: d :: rest =>
      if c = mark ∧ d = closer then 2 else commentLength mark closer (d :: rest) + 1

/-- How far a line comment goes behind its two slashes. -/
def lineCommentLength (rest : List Char) : Nat :=
  (trimRight (rest.takeWhile (· != '\n'))).length

/-- The string or comment that starts here: its length and kind. -/
def literalAt : List Char → Option (Nat × Kind)
  | '\x27' :: rest => some (stringLength '\x27' rest + 1, .string)
  | '\x22' :: rest => some (stringLength '\x22' rest + 1, .string)
  | '(' :: '*' :: rest => some (commentLength '*' ')' rest + 2, .blockComment)
  | '/' :: '*' :: rest => some (commentLength '*' '/' rest + 2, .slashComment)
  | '/' :: '/' :: rest => some (lineCommentLength rest + 2, .lineComment)
  | _ => none

/-- Recognises strings and comments. -/
def recognize : Recognizer Kind :=
  fun _ cursor => literalAt cursor.after

/-- Recognises strings, comments and typed literals. -/
def recognizeTyped : Recognizer Kind :=
  fun _ cursor =>
    match literalAt cursor.after with
    | some found => some found
    | none => (typedLiteral cursor).map fun stop => (stop.pos - cursor.pos, .typed)

def Span.ofOccurrence (found : Occurrence Kind) : Span :=
  ⟨found.start, found.stop, found.value⟩

/-- The strings and comments of a document. -/
def scan (document : List Char) : List Span :=
  (occurrences recognize document).map Span.ofOccurrence

/-- The strings, comments and typed literals of a document. -/
def scanTyped (document : List Char) : List Span :=
  (occurrences recognizeTyped document).map Span.ofOccurrence

/-- The literal that is not closed, if there is one. -/
def unterminated (document : List Char) : Option Span :=
  (scan document).find? fun span => !span.isTerminated document

end StructuredText.Literal
