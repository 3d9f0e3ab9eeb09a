import StructuredText.Text.Cursor

/-!
# Typed literals

Literals with a type of their own: dates and times of day (`D#2024-01-31`, `TOD#12:30:00.5`,
`DT#2024-01-31-12:30`), durations (`T#-1h30m`), based integers (`16#FF`), numbers with an exponent
(`1.5E-3`) and direct addresses (`%IX0.1`, `%Q*`). Letters count up to case.

All but addresses start at a word boundary. Each reader takes as much as it can; no literal of one
form starts another form.
-/

namespace StructuredText.Literal

open Cursor

/-- A type word followed by the sign that separates it from the value. -/
def typeName (names : List String) (cursor : Cursor) : Option Cursor :=
  names.findSome? fun name => (cursor.word name.toList).bind (char '#')

/-- Hours and minutes, and then seconds, which may have a fraction. -/
def clockTime (cursor : Cursor) : Option Cursor := do
  let cursor ← cursor.digits
  let cursor ← cursor.char ':'
  let cursor ← cursor.digits
  return cursor.optionally fun seconds => do
    let seconds ← seconds.char ':'
    let seconds ← seconds.digits
    return seconds.optionally fun fraction => (fraction.char '.').bind digits

/-- Year, month and day. -/
def calendarDate (cursor : Cursor) : Option Cursor := do
  let cursor ← cursor.digits
  let cursor ← cursor.char '-'
  let cursor ← cursor.digits
  let cursor ← cursor.char '-'
  cursor.digits

def dateAndTime (cursor : Cursor) : Option Cursor := do
  let cursor ← typeName ["DT", "LDT", "DATE_AND_TIME", "LDATE_AND_TIME"] cursor
  let cursor ← calendarDate cursor
  let cursor ← cursor.char '-'
  clockTime cursor

def timeOfDay (cursor : Cursor) : Option Cursor := do
  let cursor ← typeName ["TOD", "LTOD", "TIME_OF_DAY", "LTIME_OF_DAY"] cursor
  clockTime cursor

def date (cursor : Cursor) : Option Cursor := do
  let cursor ← typeName ["D", "LD", "DATE", "LDATE"] cursor
  calendarDate cursor

def isSign (c : Char) : Bool :=
  c == '-' || c == '+'

def duration (cursor : Cursor) : Option Cursor := do
  let cursor ← typeName ["T", "LT", "TIME", "LTIME"] cursor
  let cursor := cursor.optionally (next isSign)
  let cursor ← cursor.next isDigit
  return cursor.run fun c => isWordChar c || c == '.'

/-- A digit of a based integer, or the underscore that groups digits. -/
def isBasedDigit (c : Char) : Bool :=
  ('0' ≤ c && c ≤ '9') || ('A' ≤ c && c ≤ 'F') || ('a' ≤ c && c ≤ 'f') || c == '_'

def basedInteger (cursor : Cursor) : Option Cursor := do
  let cursor ← cursor.digits
  let cursor ← cursor.char '#'
  cursor.someRun isBasedDigit

/-- A digit, and then digits grouped by underscores. -/
def groupedDigits (cursor : Cursor) : Option Cursor :=
  (cursor.next isDigit).map (run fun c => isDigit c || c == '_')

def exponentNumber (cursor : Cursor) : Option Cursor := do
  let cursor ← groupedDigits cursor
  let cursor := cursor.optionally fun fraction => (fraction.char '.').bind groupedDigits
  let cursor ← cursor.next (sameUpToCase 'E')
  let cursor := cursor.optionally (next isSign)
  cursor.digits

/-- Digits, and then groups of digits behind points. `tries` bounds the number of groups. -/
def dottedDigits (tries : Nat) (cursor : Cursor) : Cursor :=
  match tries with
  | 0 => cursor
  | tries + 1 =>
      match (cursor.char '.').bind digits with
      | some further => dottedDigits tries further
      | none => cursor

/-- Whether `c` is one of the given letters up to case. -/
def isLetterOf (letters : String) (c : Char) : Bool :=
  letters.toList.any (sameUpToCase c)

def directAddress (cursor : Cursor) : Option Cursor := do
  let cursor ← cursor.char '%'
  let cursor ← cursor.next (isLetterOf "IQM")
  let cursor := cursor.optionally (next (isLetterOf "XBWDL"))
  match cursor.char '*' with
  | some starred => return starred
  | none =>
      let cursor ← cursor.digits
      return dottedDigits cursor.after.length cursor

/-- Reads a typed literal. -/
def typedLiteral (cursor : Cursor) : Option Cursor :=
  (cursor.boundary.bind fun cursor =>
      dateAndTime cursor <|> timeOfDay cursor <|> date cursor <|> duration cursor <|>
        basedInteger cursor <|> exponentNumber cursor) <|>
    directAddress cursor

end StructuredText.Literal
