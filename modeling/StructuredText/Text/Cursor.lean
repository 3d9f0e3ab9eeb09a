import StructuredText.Text.Blank
import StructuredText.Text.Case
import StructuredText.Text.Word

/-!
# Cursors

A cursor is a place in a text that has been read up to there. Recognisers of the fixed tokens of
the language are built from the readers below: each takes a cursor, and gives the cursor behind
what it read, or nothing if the text does not continue that way.
-/

namespace StructuredText

/-- A place in a text: its offset, the code points before it, nearest first, and those after it. -/
structure Cursor where
  pos : Nat
  before : List Char
  after : List Char
deriving Repr, DecidableEq

namespace Cursor

/-- The start of a text. -/
def start (text : List Char) : Cursor :=
  ⟨0, [], text⟩

def atStart (cursor : Cursor) : Bool :=
  cursor.before.isEmpty

def atEnd (cursor : Cursor) : Bool :=
  cursor.after.isEmpty

/-- Whether a line starts here. -/
def atLineStart (cursor : Cursor) : Bool :=
  match cursor.before with
  | [] => true
  | c :: _ => c == '\n'

/-- Whether a line ends here. -/
def atLineEnd (cursor : Cursor) : Bool :=
  match cursor.after with
  | [] => true
  | c :: _ => c == '\n'

/-- Whether a word starts or ends here. -/
def atBoundary (cursor : Cursor) : Bool :=
  atWordBoundary cursor.before cursor.after

/-- Whether the next code point is `c`. -/
def sees (c : Char) (cursor : Cursor) : Bool :=
  cursor.after.head? == some c

/-- Reads one code point that satisfies `p`. -/
def next (p : Char → Bool) (cursor : Cursor) : Option Cursor :=
  match cursor.after with
  | [] => none
  | c :: rest => if p c then some ⟨cursor.pos + 1, c :: cursor.before, rest⟩ else none

/-- Reads the code point `c`. -/
def char (c : Char) (cursor : Cursor) : Option Cursor :=
  cursor.next (· == c)

/-- Reads exactly the code points of `text`. -/
def token (text : List Char) (cursor : Cursor) : Option Cursor :=
  match text with
  | [] => some cursor
  | c :: rest => (cursor.char c).bind (token rest)

/-- Reads the code points of `text` up to case. -/
def word (text : List Char) (cursor : Cursor) : Option Cursor :=
  match text with
  | [] => some cursor
  | c :: rest => (cursor.next (sameUpToCase c)).bind (word rest)

/-- Reads one of the given words, up to case. The first that fits is taken. -/
def oneOf (words : List (List Char)) (cursor : Cursor) : Option Cursor :=
  words.findSome? fun text => cursor.word text

/-- Reads all code points from here on that satisfy `p`. -/
def runFrom (p : Char → Bool) (pos : Nat) (before : List Char) : List Char → Cursor
  | [] => ⟨pos, before, []⟩
  | c :: rest => if p c then runFrom p (pos + 1) (c :: before) rest else ⟨pos, before, c :: rest⟩

/-- Reads the longest run of code points that satisfy `p`. -/
def run (p : Char → Bool) (cursor : Cursor) : Cursor :=
  runFrom p cursor.pos cursor.before cursor.after

/-- Reads the longest run of code points that satisfy `p`, at least one. -/
def someRun (p : Char → Bool) (cursor : Cursor) : Option Cursor :=
  (cursor.next p).map (run p)

/-- Reads what `read` reads, if it can. -/
def optionally (read : Cursor → Option Cursor) (cursor : Cursor) : Cursor :=
  (read cursor).getD cursor

/-- Stays here if a word starts or ends here. -/
def boundary (cursor : Cursor) : Option Cursor :=
  if cursor.atBoundary then some cursor else none

/-- Stays here if `condition` holds here. -/
def ensure (condition : Cursor → Bool) (cursor : Cursor) : Option Cursor :=
  if condition cursor then some cursor else none

/-- Reads one of the given words, up to case, from boundary to boundary. -/
def wholeWord (words : List (List Char)) (cursor : Cursor) : Option Cursor :=
  words.findSome? fun text => do (← (← cursor.boundary).word text).boundary

/-- The text from one cursor up to a later one. -/
def upTo (cursor stop : Cursor) : List Char :=
  cursor.after.take (stop.pos - cursor.pos)

def pads : Cursor → Cursor :=
  run isPad

def blanks : Cursor → Cursor :=
  run isBlank

/-- Reads one decimal digit or more. -/
def digits : Cursor → Option Cursor :=
  someRun isDigit

end Cursor

end StructuredText
