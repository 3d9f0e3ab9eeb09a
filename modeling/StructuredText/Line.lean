import StructuredText.Literal.Mask

/-!
# Kinds of lines

The kind of a line says how it moves the depth of blocks. It depends on the line alone: keywords
count outside literals of the line, and from word boundary to word boundary.
-/

namespace StructuredText

inductive LineKind where
  | comment
  | opener
  | continuation
  | caseLabel
  | closer
  | other
deriving Repr, DecidableEq

namespace LineKind

def openers : List (List Char) :=
  ["IF".toList, "CASE".toList, "WHILE".toList, "FOR".toList, "REPEAT".toList, "VAR".toList,
   "VAR_INPUT".toList, "VAR_OUTPUT".toList, "VAR_IN_OUT".toList, "VAR_TEMP".toList,
   "VAR_GLOBAL".toList, "VAR_ACCESS".toList, "VAR_EXTERNAL".toList, "VAR_INST".toList,
   "VAR_STAT".toList, "VAR_CONFIG".toList]

def continuations : List (List Char) :=
  ["ELSIF".toList, "ELSE".toList]

def closers : List (List Char) :=
  ["END_IF".toList, "END_CASE".toList, "END_WHILE".toList, "END_FOR".toList,
   "END_REPEAT".toList, "END_VAR".toList]

/-- Whether one of the words stands in the text. -/
def hasWord (words : List (List Char)) (text : List Char) : Bool :=
  occursIn (Cursor.wholeWord words) text

/-- A number of a case label: an optional sign, at most one blank, and digits. -/
def labelNumber (cursor : Cursor) : Option Cursor :=
  ((cursor.optionally (Cursor.char '-')).optionally (Cursor.next isBlank)).digits

/-- A further number of a case label, behind a comma or the two dots of a range. -/
def furtherNumber (cursor : Cursor) : Option Cursor := do
  let cursor := cursor.blanks
  let cursor ← (cursor.token ['.', '.']) <|> (cursor.char ',')
  labelNumber cursor.blanks

/-- Reads as many further numbers as there are, at most `most`. -/
def furtherNumbers (most : Nat) (cursor : Cursor) : Cursor :=
  match most with
  | 0 => cursor
  | most + 1 =>
      match furtherNumber cursor with
      | some stop => furtherNumbers most stop
      | none => cursor

/-- Whether a text starts with a case label: numbers and ranges, and a colon that is not part of
an assignment sign. -/
def startsWithLabel (text : List Char) : Bool :=
  (labelNumber (.start text)).any fun cursor =>
    ((furtherNumbers text.length cursor).blanks.char ':').any fun stop => !stop.sees '='

def startsWithComment : List Char → Bool
  | '(' :: '*' :: _ | '/' :: '*' :: _ | '/' :: '/' :: _ => true
  | _ => false

/-- The kind of the code of a line, in which literals are masked. -/
def ofCode (code : List Char) : LineKind :=
  let closes := hasWord closers code
  if hasWord openers code then if closes then .other else .opener
  else if hasWord continuations code then .continuation
  else if startsWithLabel code then .caseLabel
  else if closes then .closer
  else .other

/-- The kind of a line. -/
def ofLine (line : List Char) : LineKind :=
  let content := trim line
  if startsWithComment content then .comment else ofCode (trim (Literal.mask content))

end LineKind

end StructuredText
