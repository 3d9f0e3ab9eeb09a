import StructuredText.Pattern.Replace
import StructuredText.Vocabulary.Combined

/-!
# Spacing of calls

The name of a function stands directly before the parenthesis that opens its arguments.
-/

namespace StructuredText.Spacing

/-- Takes out the blanks between the name that a pattern keeps as group one and the
parenthesis. -/
def closeCallsBy (pattern : Pattern) (text : List Char) : List Char :=
  pattern.replaceOutside (Literal.scanTyped text) (fun found => found.group 1 ++ ['(']) text

/-- Takes out the blanks between function names of a vocabulary and their arguments. -/
def closeCalls [Host] (vocabulary : Vocabulary) (text : List Char) :
    Except Pattern.Fault (List Char) := do
  return closeCallsBy (← vocabulary.callPattern) text

end StructuredText.Spacing
