import StructuredText.Replacement

/-!
# Spacing of tokens

Rules on the blanks between tokens of a line: one space for each run of spaces and tabs, a space on
both sides of an operator, none before and one behind a comma, and a space between a keyword and a
parenthesis.
-/

namespace StructuredText.Spacing

/-- A tab, or more than one space or tab, as one space. -/
def padRun : Rule := fun cursor => do
  let stop ← cursor.someRun isPad
  if stop.pos - cursor.pos ≥ 2 || cursor.sees '\t' then return (stop, [' ']) else none

def collapse (text : List Char) : List Char :=
  padRun.applyTyped text

/-- Keywords with a condition behind them. -/
def conditionKeywords : List (List Char) :=
  ["IF".toList, "WHILE".toList, "CASE".toList]

/-- Keywords with a condition before them. -/
def clauseKeywords : List (List Char) :=
  ["THEN".toList, "DO".toList, "OF".toList]

/-- A space between a keyword and an opening parenthesis. -/
def openingParenthesis : Rule := fun cursor => do
  let behindWord ← cursor.boundary.bind (Cursor.oneOf conditionKeywords)
  let stop ← behindWord.char '('
  return (stop, cursor.upTo behindWord ++ [' ', '('])

/-- A space between a closing parenthesis and a keyword. -/
def closingParenthesis : Rule := fun cursor => do
  let inside ← cursor.char ')'
  let stop ← inside.wholeWord clauseKeywords
  return (stop, [')', ' '] ++ inside.upTo stop)

def spaceParentheses (text : List Char) : List Char :=
  closingParenthesis.applyTyped (openingParenthesis.applyTyped text)

/-- The operators, each before those that it starts with. -/
def operators : List (List Char) :=
  [":=".toList, "<>".toList, ">=".toList, "<=".toList, "=>".toList, "**".toList, "-".toList,
   "+".toList, "/".toList, "=".toList, ":".toList, "*".toList, "<".toList, ">".toList]

/-- An operator with the blanks around it, as the operator between two spaces. A power sign and a
star before a semicolon stay as they are. -/
def operator : Rule := fun cursor => do
  let first := cursor.pads
  let sign ← operators.find? fun sign => (first.token sign).isSome
  let last ← first.token sign
  let stop := last.pads
  if sign == ['*', '*'] || (sign == ['*'] && last.sees ';') then return (stop, cursor.upTo stop)
  else return (stop, [' '] ++ sign ++ [' '])

/-- A comma with the blanks around it. -/
def comma : Rule := fun cursor => do
  let stop ← cursor.pads.char ','
  return (stop.pads, [',', ' '])

def spaceOperators (text : List Char) : List Char :=
  collapse (comma.applyTyped (operator.applyTyped text))

end StructuredText.Spacing
