import StructuredText.Replacement

/-!
# Blanks at edges

Blanks that go: those at the end of a line, those before a colon or comma, and those between the
last semicolon of a document and its final line feed.
-/

namespace StructuredText.Spacing

/-- Spaces and tabs at the end of a line. -/
def lineEnd : Rule := fun cursor => do
  let stop ← cursor.someRun isPad
  if stop.atLineEnd then return (stop, []) else none

def trimLineEnds (text : List Char) : List Char :=
  lineEnd.apply text

/-- A colon with spaces or tabs before it, unless it is part of an assignment sign. -/
def beforeColon : Rule := fun cursor => do
  let stop ← (← cursor.someRun isPad).char ':'
  if stop.sees '=' then none else return (stop, [':'])

/-- A comma with spaces or tabs before it. -/
def beforeComma : Rule := fun cursor => do
  let stop ← (← cursor.someRun isPad).char ','
  return (stop, [','])

/-- The last semicolon of a document, with more blanks than one line feed behind it. -/
def finalSemicolon : Rule := fun cursor => do
  let inside ← cursor.char ';'
  let stop := inside.blanks
  if stop.atEnd && stop.pos - inside.pos ≥ 2 && stop.before.head? == some '\n' then
    return (stop, [';', '\n'])
  else none

def tightenColons (text : List Char) : List Char :=
  finalSemicolon.apply (beforeColon.applyTyped text)

def closeSeparators (text : List Char) : List Char :=
  beforeColon.applyTyped (beforeComma.applyTyped text)

end StructuredText.Spacing
