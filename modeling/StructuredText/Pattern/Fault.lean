import StructuredText.Text.Quoted

/-!
# Faults in patterns

Why a text is not a pattern, or not a replacement template, and where. Offsets count from zero; if
the text has several lines, a message also gives line and column, counted from one. Some faults
belong to the text as a whole, and have no offset. Most faults say that the text is no pattern, but
a few come from limits of the reader, and may not be taken for such.
-/

namespace StructuredText.Pattern

inductive Cause where
  | unterminatedGroup
  | unbalancedParenthesis
  | unterminatedComment
  | unterminatedSet
  | nothingToRepeat
  | multipleRepeat
  | repeatBoundsReversed
  | badRange (low high : String)
  | badEscape (escape : String)
  | incompleteEscape (escape : String)
  | octalOutOfRange (escape : String)
  | danglingEscape
  | unexpectedEnd
  | unknownExtension (sign : String)
  | missingName (what : String)
  | unterminatedName (terminator : Char)
  | missingBrace
  | unknownCharacterName (name : String)
  | badGroupName (name : String)
  | badGroupNumber
  | unknownGroupName (name : String)
  | repeatedGroupName (name : String) (index earlier : Nat)
  | invalidReference (index : Nat)
  | openGroupReference
  | lookBehindReference
  | excessBranches
  | misplacedFlags
  | inlineFlags (reason : String)
  | variableLookBehind
  | distantLookBehind
  | templateRepetition (operator : String)
  | missingNameBracket
  | incompatibleFlags
  | excessDigits (count : Nat)
  | excessRepetition
  | exhaustedStack
deriving Repr, DecidableEq

def Cause.message : Cause → String
  | .unterminatedGroup => "missing ), unterminated subpattern"
  | .unbalancedParenthesis => "unbalanced parenthesis"
  | .unterminatedComment => "missing ), unterminated comment"
  | .unterminatedSet => "unterminated character set"
  | .nothingToRepeat => "nothing to repeat"
  | .multipleRepeat => "multiple repeat"
  | .repeatBoundsReversed => "min repeat greater than max repeat"
  | .badRange low high => "bad character range " ++ low ++ "-" ++ high
  | .badEscape escape => "bad escape " ++ escape
  | .incompleteEscape escape => "incomplete escape " ++ escape
  | .octalOutOfRange escape => "octal escape value " ++ escape ++ " outside of range 0-0o377"
  | .danglingEscape => "bad escape (end of pattern)"
  | .unexpectedEnd => "unexpected end of pattern"
  | .unknownExtension sign => "unknown extension ?" ++ sign
  | .missingName what => "missing " ++ what
  | .unterminatedName terminator => "missing " ++ terminator.toString ++ ", unterminated name"
  | .missingBrace => "missing \x7b"
  | .unknownCharacterName name => "undefined character name " ++ quotedString name
  | .badGroupName name => "bad character in group name " ++ quotedString name
  | .badGroupNumber => "bad group number"
  | .unknownGroupName name => "unknown group name " ++ quotedString name
  | .repeatedGroupName name index earlier =>
      "redefinition of group name " ++ quotedString name ++ " as group " ++ toString index ++
        "; was group " ++ toString earlier
  | .invalidReference index => "invalid group reference " ++ toString index
  | .openGroupReference => "cannot refer to an open group"
  | .lookBehindReference => "cannot refer to group defined in the same lookbehind subpattern"
  | .excessBranches => "conditional backref with more than two branches"
  | .misplacedFlags => "global flags not at the start of the expression"
  | .inlineFlags reason => reason
  | .variableLookBehind => "look-behind requires fixed-width pattern"
  | .distantLookBehind => "looks too much behind"
  | .templateRepetition operator => "internal: unsupported template operator " ++ operator
  | .missingNameBracket => "missing <"
  | .incompatibleFlags => "ASCII and UNICODE flags are incompatible"
  | .excessDigits count =>
      "Exceeds the limit (4300 digits) for integer string conversion: value has " ++
        toString count ++ " digits; use sys.set_int_max_str_digits() to increase the limit"
  | .excessRepetition => "the repetition number is too large"
  | .exhaustedStack => "maximum recursion depth exceeded"

/-- Whether a cause belongs to a place in the source. -/
def Cause.isPlaced : Cause → Bool
  | .variableLookBehind | .distantLookBehind | .templateRepetition _ | .incompatibleFlags
  | .excessDigits _ | .excessRepetition | .exhaustedStack => false
  | _ => true

/-- What kind of error a fault is. -/
inductive FaultKind where
  /-- The text is no pattern. -/
  | pattern
  /-- A value is not allowed. -/
  | value
  /-- A limit of the reader is met. -/
  | limit
deriving Repr, DecidableEq

def Cause.kind : Cause → FaultKind
  | .incompatibleFlags | .excessDigits _ => .value
  | .excessRepetition | .exhaustedStack => .limit
  | _ => .pattern

/-- A fault and, if it belongs to a place in the source, its offset. -/
structure Fault where
  cause : Cause
  offset : Option Nat
  source : List Char
deriving Repr, DecidableEq

def Fault.kind (fault : Fault) : FaultKind :=
  fault.cause.kind

/-- A fault that was found at an offset. -/
def Fault.at (source : List Char) (cause : Cause) (offset : Nat) : Fault :=
  ⟨cause, if cause.isPlaced then some offset else none, source⟩

/-- The number of the line that holds `offset`, from one. -/
def lineOf (source : List Char) (offset : Nat) : Nat :=
  (source.take offset).count '\n' + 1

/-- The number of the code point at `offset` in its line, from one. -/
def columnOf (source : List Char) (offset : Nat) : Nat :=
  ((source.take offset).reverse.takeWhile (· != '\n')).length + 1

def Fault.message (fault : Fault) : String :=
  match fault.offset with
  | none => fault.cause.message
  | some offset =>
      fault.cause.message ++ " at position " ++ toString offset ++
        if fault.source.contains '\n' then
          " (line " ++ toString (lineOf fault.source offset) ++ ", column " ++
            toString (columnOf fault.source offset) ++ ")"
        else ""

end StructuredText.Pattern
