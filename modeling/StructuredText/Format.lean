import StructuredText.Casing
import StructuredText.Header
import StructuredText.Indentation
import StructuredText.LineBreak
import StructuredText.Notice
import StructuredText.Spacing

/-!
# Formatting

The canonical form of a document: letter case, spacing, line breaks, indentation and headers, one
after another. Formatting a document fails only if the patterns of its vocabulary cannot be joined.
-/

namespace StructuredText

/-- A formatted document, and what is to be told about it. -/
structure Formatted where
  text : List Char
  notices : List Notice
deriving Repr, DecidableEq

namespace Format

/-- The notice on a literal that is not closed. -/
def unterminatedNotice (file : String) (document : List Char) : List Notice :=
  match Literal.unterminated document with
  | some span => [.unterminated span.kind (.ofPosition file document span.start)]
  | none => []

/-- The passes behind letter case and spacing, which need no vocabulary. -/
def layOut (document : List Char) : Formatted :=
  let indented :=
    Indentation.scan (LineBreak.reduceBlankLines (LineBreak.breakBlocks document))
  ⟨Header.joinAll Header.families (joinLines (indented.map (·.text))),
    (Indentation.unmatchedClosers indented).map .unmatchedCloser⟩

/-- The canonical form of a document. -/
def canonical [Host] (vocabulary : Vocabulary) (file : String) (text : List Char) :
    Except Pattern.Fault Formatted := do
  let document := normalizeNewlines text
  let cased ← Casing.apply vocabulary document
  let spaced ← Spacing.normalize vocabulary cased
  let laidOut := layOut spaced
  return { laidOut with notices := unterminatedNotice file document ++ laidOut.notices }

inductive Mode where
  | canonical
  /-- Line breaks are normalised, and nothing else. -/
  | identity
deriving Repr, DecidableEq

def Mode.name : Mode → String
  | .canonical => "canonical"
  | .identity => "identity"

def Mode.all : List Mode :=
  [.canonical, .identity]

def Mode.ofName? (name : String) : Option Mode :=
  Mode.all.find? (·.name == name)

/-- The only style there is. -/
def styleName : String :=
  "v0"

inductive Failure where
  | unsupportedStyle (style : String)
  | unknownMode (mode : String)
  | pattern (fault : Pattern.Fault)
deriving Repr, DecidableEq

def Failure.message : Failure → String
  | .unsupportedStyle style =>
      "Unsupported fmt style '" ++ style ++ "'. Expected '" ++ styleName ++ "'."
  | .unknownMode mode => "Unknown formatting mode '" ++ mode ++ "'"
  | .pattern fault => fault.message

/-- Formats a document in a mode. -/
def inMode [Host] (mode : Mode) (vocabulary : Vocabulary) (file : String) (text : List Char) :
    Except Pattern.Fault Formatted :=
  match mode with
  | .identity => .ok ⟨normalizeNewlines text, []⟩
  | .canonical => canonical vocabulary file text

/-- Formats a document in a mode and style given by name. -/
def apply [Host] (mode style : String) (vocabulary : Vocabulary) (file : String)
    (text : List Char) : Except Failure Formatted :=
  if style ≠ styleName then .error (.unsupportedStyle style)
  else
    match Mode.ofName? mode with
    | none => .error (.unknownMode mode)
    | some mode => (inMode mode vocabulary file text).mapError .pattern

end Format

end StructuredText
