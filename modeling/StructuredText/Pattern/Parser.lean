import StructuredText.Pattern.Lexeme

/-!
# Reading patterns

`Pattern.parse` builds the pattern that a source describes, one lexeme after another. The groups
that are open form a stack of levels; a closing parenthesis turns the innermost level into an item
of the level around it. A pattern that has been read may still have a flaw for which it cannot be
used: a look-behind that has no fixed width, or reaches too far.
-/

namespace StructuredText.Pattern

/-- What flags change: whether letters count up to case, whether `^` and `$` hold at each line,
whether `.` takes a line feed, whether blanks and comments stand for nothing, and whether classes,
boundaries and case know the code points of ASCII only. -/
structure Flags where
  ignoreCase : Bool
  multiLine : Bool
  dotAll : Bool
  verbose : Bool
  ascii : Bool
deriving Repr, DecidableEq

namespace Flags

def none : Flags :=
  ⟨false, false, false, false, false⟩

def ignoringCase : Flags :=
  { none with ignoreCase := true }

/-- The flags with the one of the given letter set; `u` takes the place of `a`. The letter `t` is
about the whole pattern, and changes no flag. -/
def set (value : Bool) (flags : Flags) : Char → Flags
  | 'i' => { flags with ignoreCase := value }
  | 'm' => { flags with multiLine := value }
  | 's' => { flags with dotAll := value }
  | 'x' => { flags with verbose := value }
  | 'a' => { flags with ascii := value }
  | 'u' => { flags with ascii := !value }
  | _ => flags

def change (flags : Flags) (update : FlagChange) : Flags :=
  update.off.foldl (set false) (update.on.foldl (set true) flags)

/-- When letters that are read again count as the same. -/
def caseRule (flags : Flags) : CaseRule :=
  if !flags.ignoreCase then .exact else if flags.ascii then .ascii else .any

/-- The member of a set, and its ASCII letters in the other case. -/
def withAsciiTwins : SetItem → List SetItem
  | .range low high =>
      [.range low high, .range (max low 65 + 32) (min high 90 + 32),
        .range (max low 97 - 32) (min high 122 - 32)]
  | item => [item]

/-- A set under the flags. Letters of ASCII that count up to case are listed in both cases. -/
def charSet (flags : Flags) (items : List SetItem) (complement : Bool) : CharSet :=
  if flags.ascii then
    let items := items.map fun
      | .category kind inside => .category kind.ascii inside
      | item => item
    ⟨if flags.ignoreCase then items.flatMap withAsciiTwins else items, complement, false⟩
  else ⟨items, complement, flags.ignoreCase⟩

/-- A condition on a place under the flags. -/
def anchor (flags : Flags) : Anchor → Anchor
  | .boundary => if flags.ascii then .asciiBoundary else .boundary
  | .noBoundary => if flags.ascii then .noAsciiBoundary else .noBoundary
  | condition => condition

end Flags

/-- Whether a quantifier may follow an item. -/
inductive Shape where
  | anchor
  | repetition
  | other
deriving Repr, DecidableEq

structure Item where
  pattern : Pattern
  shape : Shape
deriving Repr, DecidableEq

/-- What a closing parenthesis makes of a level. -/
inductive Purpose where
  | whole
  | plain
  | capture (index : Nat)
  | ahead (wanted : Bool)
  /-- `outermost` if no other look-behind is open around it. -/
  | behind (wanted outermost : Bool)
  | atomic
  | conditional (index : Nat)
deriving Repr, DecidableEq

/-- An open group: the alternatives that are complete and the items of the current one, latest
first. -/
structure Level where
  purpose : Purpose
  start : Nat
  flags : Flags
  alternatives : List Pattern
  items : List Item
deriving Repr, DecidableEq

namespace Level

def opened (purpose : Purpose) (start : Nat) (flags : Flags) : Level :=
  ⟨purpose, start, flags, [], []⟩

/-- The alternative that is being read. -/
def current (level : Level) : Pattern :=
  sequence (level.items.reverse.map Item.pattern)

/-- The pattern of the whole level. -/
def pattern (level : Level) : Pattern :=
  choice (level.current :: level.alternatives).reverse

def push (level : Level) (pattern : Pattern) (shape : Shape) : Level :=
  { level with items := ⟨pattern, shape⟩ :: level.items }

/-- The level behind a bar. -/
def nextAlternative (level : Level) : Level :=
  { level with alternatives := level.current :: level.alternatives, items := [] }

end Level

/-- What is known after a part of the lexemes. -/
structure Progress where
  level : Level
  around : List Level
  /-- Names of groups and their numbers. -/
  names : List (String × Nat)
  groupCount : Nat
  /-- The widths of the groups that are closed. -/
  closed : List (Nat × Width)
  /-- Within a look-behind, how many groups there were when the outermost one opened. -/
  behindFrom : Option Nat
  /-- Where flags for the whole pattern were set first. -/
  flagsAt : Option Nat
  /-- The letters of all flags for the whole pattern. -/
  letters : List Char
  /-- The numbers that conditions ask for, and where they do so. -/
  asked : List (Nat × Nat)
deriving Repr, DecidableEq

/-- A pattern with what its source says about it. -/
structure Parsed where
  pattern : Pattern
  names : List (String × Nat)
  groupCount : Nat
  flagsAt : Option Nat
deriving Repr, DecidableEq

namespace Progress

def start (flags : Flags) : Progress :=
  ⟨.opened .whole 0 flags, [], [], 0, [], none, none, [], []⟩

def push (progress : Progress) (pattern : Pattern) (shape : Shape) : Progress :=
  { progress with level := progress.level.push pattern shape }

def openLevel (progress : Progress) (purpose : Purpose) (start : Nat) (flags : Flags) :
    Progress :=
  { progress with
    level := .opened purpose start flags
    around := progress.level :: progress.around }

/-- Opens a group that keeps the flags. -/
def enter (progress : Progress) (purpose : Purpose) (start : Nat) : Progress :=
  progress.openLevel purpose start progress.level.flags

def groupWidth (progress : Progress) (index : Nat) : Width :=
  (progress.closed.lookup index).getD (.fixed 0)

/-- Within a look-behind, a group that is referred to has to be closed before it. -/
def checkBehind (progress : Progress) (lexeme : Lexeme) (index : Nat) : Reading Unit :=
  match progress.behindFrom with
  | none => return ()
  | some first =>
      if (progress.closed.lookup index).isNone then .error (.openGroupReference, lexeme.stop)
      else if first ≤ index then .error (.lookBehindReference, lexeme.stop)
      else return ()

/-- Opens a group that depends on whether another one has matched. -/
def openConditional (progress : Progress) (lexeme : Lexeme) : Test → Reading Progress
  | .name name =>
      match progress.names.lookup name with
      | none => .error (.unknownGroupName name, lexeme.stop - (name.length + 1))
      | some index => do
          progress.checkBehind lexeme index
          return progress.enter (.conditional index) lexeme.start
  | .number index width =>
      let offset := lexeme.stop - (width + 1)
      if index = 0 then .error (.badGroupNumber, offset)
      else do
        progress.checkBehind lexeme index
        return { progress.enter (.conditional index) lexeme.start with
          asked := progress.asked ++ [(index, offset)] }

/-- Opens a group. -/
def openGroup (progress : Progress) (lexeme : Lexeme) : Opening → Reading Progress
  | .capture none =>
      let index := progress.groupCount + 1
      return { progress.enter (.capture index) lexeme.start with groupCount := index }
  | .capture (some name) =>
      let index := progress.groupCount + 1
      match progress.names.lookup name with
      | some earlier =>
          .error (.repeatedGroupName name index earlier, lexeme.stop - (name.length + 1))
      | none =>
          return { progress.enter (.capture index) lexeme.start with
            groupCount := index
            names := progress.names ++ [(name, index)] }
  | .plain change =>
      return progress.openLevel .plain lexeme.start (progress.level.flags.change change)
  | .ahead wanted => return progress.enter (.ahead wanted) lexeme.start
  | .behind wanted =>
      let outermost := progress.behindFrom.isNone
      return { progress.enter (.behind wanted outermost) lexeme.start with
        behindFrom := progress.behindFrom.orElse fun _ => some (progress.groupCount + 1) }
  | .atomic => return progress.enter .atomic lexeme.start
  | .conditional test => progress.openConditional lexeme test

/-- Flags for the whole pattern may not ask for ASCII and for all code points. -/
def checkLetters (progress : Progress) : Reading Unit :=
  if progress.letters.contains 'a' && progress.letters.contains 'u' then
    .error (.incompatibleFlags, 0)
  else return ()

/-- Closes the innermost group. -/
def closeGroup (progress : Progress) (lexeme : Lexeme) : Reading Progress :=
  match progress.around with
  | [] => do
      progress.checkLetters
      .error (.unbalancedParenthesis, lexeme.start)
  | level :: around =>
      let body := progress.level.pattern
      let width := body.width progress.groupWidth
      let outer := { progress with level, around }
      match progress.level.purpose with
      | .whole | .plain => return outer.push body .other
      | .capture index =>
          return { outer.push (.group index body) .other with
            closed := (index, width) :: outer.closed }
      | .ahead wanted => return outer.push (.ahead wanted body) .other
      | .behind wanted outermost =>
          return { outer.push (.behind wanted width body) .other with
            behindFrom := if outermost then none else outer.behindFrom }
      | .atomic => return outer.push (.atomic body) .other
      | .conditional index =>
          let last := progress.level.current
          return outer.push
            (if progress.level.alternatives.isEmpty then .conditional index last .empty
            else .conditional index (choice progress.level.alternatives.reverse) last) .other

/-- Repeats the last item. -/
def quantify (progress : Progress) (lexeme : Lexeme) (least : Nat) (most : Option Nat)
    (greed : Greed) : Reading Progress :=
  match progress.level.items with
  | [] => .error (.nothingToRepeat, lexeme.start)
  | ⟨pattern, shape⟩ :: items =>
      match shape with
      | .anchor => .error (.nothingToRepeat, lexeme.start)
      | .repetition => .error (.multipleRepeat, lexeme.start)
      | .other =>
          let repeated :=
            match greed with
            | .greedy => .repeated pattern least most true
            | .lazy => .repeated pattern least most false
            | .possessive => .atomic (.repeated (.atomic pattern) least most true)
          return { progress with
            level := { progress.level with items := ⟨repeated, .repetition⟩ :: items } }

/-- Refers to a closed group. A fault of the reference itself is at `offset`, and one of a
look-behind around it at the end of the lexeme. -/
def refer (progress : Progress) (lexeme : Lexeme) (index offset : Nat) : Reading Progress :=
  if (progress.closed.lookup index).isNone then .error (.openGroupReference, offset)
  else do
    progress.checkBehind lexeme index
    return progress.push (.reference index progress.level.flags.caseRule) .other

/-- Whether nothing but flags and comments has been read. -/
def isFresh (progress : Progress) : Bool :=
  progress.around.isEmpty && progress.level.alternatives.isEmpty && progress.level.items.isEmpty

/-- Whether a condition already has both of its branches. -/
def isComplete (progress : Progress) : Bool :=
  match progress.level.purpose with
  | .conditional _ => !progress.level.alternatives.isEmpty
  | _ => false

/-- Takes one lexeme in. -/
def step (progress : Progress) (lexeme : Lexeme) : Reading Progress :=
  let flags := progress.level.flags
  match lexeme.meaning with
  | .set items complement =>
      return progress.push (.one (flags.charSet items complement)) .other
  | .any =>
      let excluded := if flags.dotAll then [] else [.single '\n']
      return progress.push (.one ⟨excluded, true, false⟩) .other
  | .lineStart =>
      let condition := if flags.multiLine then .lineStart else .textStart
      return progress.push (.anchor condition) .anchor
  | .lineEnd =>
      let condition := if flags.multiLine then .lineEnd else .lastLineEnd
      return progress.push (.anchor condition) .anchor
  | .anchor condition => return progress.push (.anchor (flags.anchor condition)) .anchor
  | .quantifier least most greed => progress.quantify lexeme least most greed
  | .reference index width =>
      if index > progress.groupCount then
        .error (.invalidReference index, lexeme.stop - (width - 1))
      else progress.refer lexeme index (lexeme.stop - width)
  | .namedReference name =>
      let offset := lexeme.stop - (name.length + 1)
      match progress.names.lookup name with
      | none => .error (.unknownGroupName name, offset)
      | some index => progress.refer lexeme index offset
  | .opening kind => progress.openGroup lexeme kind
  | .closing => progress.closeGroup lexeme
  | .bar =>
      if progress.isComplete then .error (.excessBranches, lexeme.start)
      else return { progress with level := progress.level.nextAlternative }
  | .comment => return progress
  | .globalFlags letters =>
      if progress.isFresh then
        return { progress with
          level := { progress.level with flags := flags.change ⟨letters, []⟩ }
          flagsAt := progress.flagsAt.orElse fun _ => some lexeme.start
          letters := progress.letters ++ letters }
      else .error (.misplacedFlags, lexeme.start)

/-- Takes in the lexemes of the tokens of a source of `size` code points; `tries` bounds their
number. -/
def readFrom [Host] (size : Nat) :
    (tries : Nat) → (progress : Progress) → List Token → Reading Progress
  | 0, progress, _ | _ + 1, progress, [] => return progress
  | tries + 1, progress, token :: rest => do
      let (meaning, rest) ← readLexeme progress.level.flags.verbose size token rest
      let next ← progress.step ⟨token.offset, offsetOf size rest, meaning⟩
      readFrom size tries next rest

/-- Checks what can only be checked once all lexemes are taken in. -/
def finish (progress : Progress) : Reading Progress :=
  match progress.around with
  | _ :: _ => .error (.unterminatedGroup, progress.level.start)
  | [] => do
      progress.checkLetters
      match progress.asked.find? fun ask => ask.1 > progress.groupCount with
      | some (index, offset) => .error (.invalidReference index, offset)
      | none => return progress

end Progress

/-- Look-behinds reach no further. -/
def mostBehind : Nat :=
  4294967295

/-- Whether a pattern, read in one way only, is a repetition that gives nothing back. -/
def isPossessive : Pattern → Bool
  | .repeated (.atomic _) _ _ greedy => greedy
  | _ => false

/-- Why a pattern cannot be used, looking at parts before what is inside them. Under the flag `t`,
`template`, nothing may be repeated. -/
def flaw (template : Bool) : Pattern → Option Cause
  | .empty | .one _ | .anchor _ | .reference _ _ => none
  | .seq first second | .either first second | .conditional _ first second =>
      (first.flaw template).or (second.flaw template)
  | .repeated body _ _ greedy =>
      if template then
        some (.templateRepetition (if greedy then "MAX_REPEAT" else "MIN_REPEAT"))
      else body.flaw template
  | .atomic body =>
      if template && body.isPossessive then some (.templateRepetition "POSSESSIVE_REPEAT")
      else body.flaw template
  | .group _ body | .ahead _ body => body.flaw template
  | .behind _ width body =>
      if width.least > mostBehind then some .distantLookBehind
      else if !width.isFixed then some .variableLookBehind
      else body.flaw template

/-- Reads the source of a pattern, however deep it is nested. -/
def parse [Host] (flags : Flags) (source : List Char) : Except Fault Parsed :=
  let tokens := tokensFrom 0 source
  let result : Reading Progress := do
    (← Progress.readFrom source.length tokens.length (.start flags) tokens).finish
  match result with
  | .error (cause, offset) => .error (.at source cause offset)
  | .ok progress =>
      let pattern := progress.level.pattern
      match pattern.flaw (progress.letters.contains 't') with
      | some cause => .error (.at source cause 0)
      | none => .ok ⟨pattern, progress.names, progress.groupCount, progress.flagsAt⟩

/-- Reads the source of a pattern, as far as the stack allows. -/
def compile [Host] (flags : Flags) (source : List Char) : Except Fault Parsed :=
  if Host.holds flags.ignoreCase source then parse flags source
  else .error (.at source .exhaustedStack 0)

end StructuredText.Pattern
