import StructuredText.Line
import StructuredText.Literal.Lookup
import StructuredText.Text.Newline

/-!
# Indentation

Each line is indented by one tab for each block that is open around it. Walking down the lines, the
depth counts the open blocks. A line that opens a block stands outside it; one that continues or
closes a block stands at the level of its opener. A line that starts inside a literal is kept as it
is, but code behind the literal still opens and closes blocks.
-/

namespace StructuredText

/-- A line as it is written, its kind, the number of its tabs, and the depth behind it. A line that
starts inside a literal has no kind. -/
structure IndentedLine where
  text : List Char
  kind : Option LineKind
  level : Nat
  depth : Nat
deriving Repr, DecidableEq

namespace Indentation

open Literal

/-- The depth behind a line of a kind. -/
def depthAfter (kind : LineKind) (depth : Nat) : Nat :=
  match kind with
  | .opener => depth + 1
  | .closer => depth - 1
  | .comment | .continuation | .caseLabel | .other => depth

/-- The level of a line of a kind. -/
def levelAt (kind : LineKind) (depth : Nat) : Nat :=
  match kind with
  | .continuation | .caseLabel | .closer => depth - 1
  | .comment | .opener | .other => depth

/-- A line that starts inside a literal of which `covered` code points are on the line. -/
def carriedLine (covered depth : Nat) (line : List Char) : IndentedLine :=
  let tail := line.drop covered
  let kind := if (trim tail).isEmpty then .other else LineKind.ofLine tail
  let after := depthAfter kind depth
  ⟨line, none, after, after⟩

/-- A line without the blanks around it. Blanks at its end that belong to a literal stay. -/
def contentOf (endsInLiteral : Bool) (line : List Char) : List Char :=
  if endsInLiteral then trimLeft line else trim line

/-- A line with the given content. -/
def codeLine (depth : Nat) (content : List Char) : IndentedLine :=
  if content.isEmpty then ⟨[], some .other, 0, depth⟩
  else
    let kind := LineKind.ofLine content
    let level := levelAt kind depth
    ⟨List.replicate level '\t' ++ content, some kind, level, depthAfter kind depth⟩

/-- The line that starts at offset `start`, at a depth. -/
def place (spans : Array Span) (start depth : Nat) (line : List Char) : IndentedLine :=
  match (spanAt spans start).filter (·.start < start) with
  | some span => carriedLine (span.stop - start) depth line
  | none =>
      let last : Int := (start : Int) + line.length - 1
      codeLine depth (contentOf (isProtected spans last) line)

/-- The lines from offset `start` on, at a depth. -/
def placeAll (spans : Array Span) (start depth : Nat) : List (List Char) → List IndentedLine
  | [] => []
  | line :: others =>
      let placed := place spans start depth line
      placed :: placeAll spans (start + line.length + 1) placed.depth others

/-- The lines of a document with their indentation. -/
def scan (document : List Char) : List IndentedLine :=
  placeAll (Literal.scan document).toArray 0 0 (lines document)

/-- The document with its lines indented. -/
def apply (document : List Char) : List Char :=
  joinLines ((scan document).map (·.text))

/-- The level of each line. -/
def levels (document : List Char) : List Nat :=
  (scan document).map (·.level)

/-- The numbers of the lines that close a block where none is open. `number` is that of the first
line, and `depth` the depth before it. -/
def unmatchedFrom (number depth : Nat) : List IndentedLine → List Nat
  | [] => []
  | line :: others =>
      let later := unmatchedFrom (number + 1) line.depth others
      if line.kind = some .closer ∧ depth = 0 then number :: later else later

/-- The numbers of the lines, from one, that close a block where none is open. -/
def unmatchedClosers (indented : List IndentedLine) : List Nat :=
  unmatchedFrom 1 0 indented

end Indentation

end StructuredText
