import StructuredText.Vocabulary.Basic

/-!
# Combined patterns of a vocabulary

Two patterns are built from the entries of a vocabulary: one for all words that are written in
capitals, and one for a function name that blanks separate from its arguments. Both are also known
by their source, which joins the sources of the entries. An entry that sets flags for a whole
pattern cannot be joined; the fault names its place in the joined source. Neither can entries whose
joined source is too much for the stack.
-/

namespace StructuredText.Vocabulary

open Pattern (Fault)

/-- A piece of a joined source: signs of its own, or an entry. -/
inductive Piece where
  | signs (text : String)
  | entry (text : String)
deriving Repr, DecidableEq

def Piece.source : Piece → List Char
  | .signs text | .entry text => text.toList

def joinedSource (pieces : List Piece) : List Char :=
  pieces.flatMap Piece.source

/-- The entries as alternatives. -/
def alternation : List String → List Piece
  | [] => []
  | [entry] => [.signs "(?:", .entry entry, .signs ")"]
  | entry :: entries =>
      [.signs "(?:", .entry entry, .signs ")", .signs "|"] ++ alternation entries

/-- The source of the alternatives for function names. -/
def functionAlternation (vocabulary : Vocabulary) : String :=
  String.ofList (joinedSource (alternation vocabulary.functions))

/-- Parts that are not empty, with bars in between. -/
def joinParts (parts : List (List Piece)) : List Piece :=
  List.flatten ((parts.filter fun part => !part.isEmpty).intersperse [.signs "|"])

/-- The pieces of the pattern for words in capitals. -/
def casingPieces (vocabulary : Vocabulary) : List Piece :=
  let blocks :=
    if vocabulary.blockNames.isEmpty then []
    else [.signs "(?:END_)?(?:"] ++ alternation vocabulary.blockNames ++ [.signs ")"]
  let calls :=
    if vocabulary.functions.isEmpty then []
    else [.signs "(?:"] ++ alternation vocabulary.functions ++ [.signs ")(?=\\s*\\()"]
  [.signs "\\b(?:"] ++
    joinParts [alternation vocabulary.types, alternation vocabulary.keywords, blocks, calls] ++
    [.signs ")\\b"]

/-- The pieces of the pattern for separated function names. -/
def callPieces (vocabulary : Vocabulary) : List Piece :=
  [.signs "\\b((?:"] ++ alternation vocabulary.functions ++ [.signs "))\\s+\\("]

section

variable [Host]

/-- Where the first entry with flags for a whole pattern sets them, if the pieces stand from
`offset` on. -/
def flagsOffset (offset : Nat) : List Piece → Option Nat
  | [] => none
  | .signs text :: pieces => flagsOffset (offset + text.length) pieces
  | .entry text :: pieces =>
      match Pattern.parse .ignoringCase text.toList with
      | .ok { flagsAt := some flags, .. } => some (offset + flags)
      | _ => flagsOffset (offset + text.length) pieces

/-- Refuses pieces of which one sets flags for a whole pattern, or that the stack cannot hold. -/
def checkJoined (pieces : List Piece) : Except Fault Unit :=
  let source := joinedSource pieces
  if Host.holds true source then
    match flagsOffset 0 pieces with
    | some offset => .error (.at source .misplacedFlags offset)
    | none => .ok ()
  else .error (.at source .exhaustedStack 0)

/-- The pattern of an entry, with letters up to case. -/
def entryPattern (entry : String) : Except Fault Pattern := do
  let parsed ← Pattern.parse .ignoringCase entry.toList
  return parsed.pattern

def entryPatterns (entries : List String) : Except Fault (List Pattern) :=
  entries.mapM entryPattern

end

/-- Any number of blanks, `least` at least. -/
def blankRun (least : Nat) : Pattern :=
  .repeated (.one ⟨[.category .blank true], false, true⟩) least none true

def parenthesis : Pattern :=
  .char '(' true

/-- An optional `END_`. -/
def blockEnd : Pattern :=
  .repeated (.literal "END_".toList true) 0 (some 1) true

/-- The pattern for words in capitals. -/
def casingPattern [Host] (vocabulary : Vocabulary) : Except Fault Pattern := do
  checkJoined vocabulary.casingPieces
  let types ← entryPatterns vocabulary.types
  let keywords ← entryPatterns vocabulary.keywords
  let blockNames ← entryPatterns vocabulary.blockNames
  let functions ← entryPatterns vocabulary.functions
  let blocks := if blockNames.isEmpty then [] else [.seq blockEnd (.choice blockNames)]
  let calls :=
    if functions.isEmpty then []
    else [.seq (.choice functions) (.ahead true (.seq (blankRun 0) parenthesis))]
  return .sequence
    [.anchor .boundary, .choice (types ++ keywords ++ blocks ++ calls), .anchor .boundary]

/-- The pattern for a function name, kept as group one, that blanks separate from an opening
parenthesis. -/
def callPattern [Host] (vocabulary : Vocabulary) : Except Fault Pattern := do
  checkJoined vocabulary.callPieces
  let functions ← entryPatterns vocabulary.functions
  return .sequence [.anchor .boundary, .group 1 (.choice functions), blankRun 1, parenthesis]

end StructuredText.Vocabulary
