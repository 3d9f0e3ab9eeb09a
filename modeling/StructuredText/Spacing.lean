import StructuredText.Spacing.Call
import StructuredText.Spacing.Comment
import StructuredText.Spacing.Edge
import StructuredText.Spacing.Token

/-!
# Spacing

All rules on blanks inside lines, in the order in which they apply.
-/

namespace StructuredText.Spacing

/-- Applies the rules on blanks, with the names of functions given by a vocabulary. -/
def normalize [Host] (vocabulary : Vocabulary) (text : List Char) :
    Except Pattern.Fault (List Char) := do
  let text ← closeCalls vocabulary (collapse text)
  return tightenColons (trimLineEnds (spaceOperators (padComments (spaceParentheses text))))

end StructuredText.Spacing
