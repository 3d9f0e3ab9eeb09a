import StructuredText.Literal.Span
import StructuredText.Location

/-!
# Notices

What formatting tells besides its result.
-/

namespace StructuredText

inductive Notice where
  | unterminated (kind : Literal.Kind) (location : Location)
  | unmatchedCloser (line : Nat)
deriving Repr, DecidableEq

namespace Notice

inductive Severity where
  | debug
  | warning
deriving Repr, DecidableEq

def Severity.label : Severity → String
  | .debug => "DEBUG"
  | .warning => "WARNING"

def severity : Notice → Severity
  | .unterminated _ _ => .warning
  | .unmatchedCloser _ => .debug

def message : Notice → String
  | .unterminated kind location =>
      "unterminated " ++ kind.phrase ++ " at " ++ location.render ++
        "; the rest of the document is left as is"
  | .unmatchedCloser line => "unmatched block closer at line " ++ toString line

/-- The notice as records show it. -/
def render (notice : Notice) : String :=
  notice.severity.label ++ ": " ++ notice.message

end Notice

end StructuredText
