import StructuredText.Pattern.Replace
import StructuredText.Vocabulary.Combined

/-!
# Letter case

Words of the vocabulary are written in capitals, and the units of date and time literals in small
letters. Literals are kept: both steps leave out the spans of the text before the first step.
-/

namespace StructuredText.Casing

/-- The types whose literals are dates, times and durations. -/
def dateTypes : List (List Char) :=
  ["TIME_OF_DAY".toList, "DATE_AND_TIME".toList, "TIME".toList, "DATE".toList, "TOD".toList,
   "DT".toList, "T".toList, "D".toList]

/-- Whether `c` may stand behind the `#` of a date or time literal: digits, signs, and the letters
of units up to case. -/
def isDatePart (c : Char) : Bool :=
  ('0' ≤ c && c ≤ '9') || c == ':' || c == '-' || c == '_' || c == '.' ||
    ['y', 'm', 'd', 'h', 's', 'u', 'n'].any fun letter => sameUpToCase letter c

/-- A date or time literal, with its units in small letters. -/
def dateUnits : Rule := fun cursor => do
  let behindType ← dateTypes.findSome? fun name =>
    (cursor.boundary.bind (Cursor.word name)).bind (Cursor.char '#')
  let stop ← behindType.someRun isDatePart
  return (stop, cursor.upTo behindType ++ lower (behindType.upTo stop))

/-- Writes the words that a pattern matches in capitals, and the units of dates in small
letters. -/
def applyPattern (pattern : Pattern) (text : List Char) : List Char :=
  let spans := Literal.scan text
  let capitals := pattern.replaceOutside spans (fun found => upper found.text) text
  replaceOutside (.ofReader dateUnits) spans id capitals

/-- Writes the words of a vocabulary in capitals, and the units of dates in small letters. -/
def apply [Host] (vocabulary : Vocabulary) (text : List Char) :
    Except Pattern.Fault (List Char) := do
  return applyPattern (← vocabulary.casingPattern) text

end StructuredText.Casing
