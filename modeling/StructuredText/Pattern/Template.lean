import StructuredText.Pattern.Match
import StructuredText.Pattern.Parser

/-!
# Replacement templates

A template says what to put in place of a match: text, and the text of groups by number (`\1`,
`\g<1>`) or by name (`\g<name>`). An escape that stands for no control character is kept with its
backslash, unless it is a letter, which is a fault.
-/

namespace StructuredText.Pattern

inductive TemplatePart where
  | text (text : List Char)
  | group (index : Nat)
deriving Repr, DecidableEq

inductive TemplateFault where
  | malformed (fault : Fault)
  | unknownName (name : String)
deriving Repr, DecidableEq

def TemplateFault.message : TemplateFault → String
  | .malformed fault => fault.message
  | .unknownName name => (Cause.unknownGroupName name).message

namespace Template

/-- Why reading stopped: a fault at an offset, or a name that no group has. -/
abbrev Stop := (Cause × Nat) ⊕ String

def lift {α : Type} : Reading α → Except Stop α
  | .ok value => .ok value
  | .error fault => .error (.inl fault)

/-- A reference to a group of the pattern. -/
def refer (parsed : Parsed) (index offset : Nat) : Except Stop TemplatePart :=
  if index > parsed.groupCount then .error (.inl (.invalidReference index, offset))
  else return .group index

/-- A group by number or name between angle brackets. -/
def readGroup (parsed : Parsed) (size : Nat) (rest : List Token) :
    Except Stop (TemplatePart × List Token) := do
  match ← lift (acceptSign '<' rest) with
  | none => .error (.inl (.missingNameBracket, offsetOf size rest))
  | some rest =>
      let (name, rest) ← lift (readName size "group name" '>' [] rest)
      let offset := offsetOf size rest - (name.length + 1)
      if isGroupName name then
        match parsed.names.lookup (String.ofList name) with
        | some index => return (← refer parsed index offset, rest)
        | none => .error (.inr (String.ofList name))
      else
        match groupNumber name with
        | some index => return (← refer parsed index offset, rest)
        | none => .error (.inl (.badGroupName (String.ofList name), offset))

/-- What an escape at `offset` stands for. -/
def readEscape (parsed : Parsed) (size offset : Nat) (c : Char) (rest : List Token) :
    Except Stop (TemplatePart × List Token) := do
  if c = 'g' then readGroup parsed size rest
  else if c = '0' then
    let (digits, rest) ← lift (readUpTo isOctalDigit 2 rest)
    return (.text [Char.ofNat (numeral 8 digits)], rest)
  else if isDecimalDigit c then
    match ← lift (readReference offset c rest) with
    | (.reference index width, rest) =>
        return (← refer parsed index (offsetOf size rest - (width - 1)), rest)
    | (.set [.range code _] _, rest) => return (.text [Char.ofNat code], rest)
    | (_, rest) => return (.text [], rest)
  else
    match if c = 'b' then some 8 else controlEscape c with
    | some code => return (.text [Char.ofNat code], rest)
    | none =>
        if isAsciiLetter c then .error (.inl (.badEscape (escapeText c []), offset))
        else return (.text ['\\', c], rest)

/-- The parts of a template; `tries` bounds their number. -/
def readParts (parsed : Parsed) (size : Nat) :
    (tries : Nat) → List Token → Except Stop (List TemplatePart)
  | 0, _ | _ + 1, [] => return []
  | tries + 1, token :: rest => do
      lift (arrive (token :: rest))
      lift (arrive rest)
      let (part, rest) ←
        match token.sign with
        | .escaped c => readEscape parsed size token.offset c rest
        | sign => pure (.text sign.text, rest)
      return part :: (← readParts parsed size tries rest)

/-- Reads a template for the matches of a pattern. -/
def parse (parsed : Parsed) (source : List Char) : Except TemplateFault (List TemplatePart) :=
  let tokens := tokensFrom 0 source
  match readParts parsed source.length tokens.length tokens with
  | .ok parts => .ok parts
  | .error (.inl (cause, offset)) => .error (.malformed (.at source cause offset))
  | .error (.inr name) => .error (.unknownName name)

/-- What a template puts in place of a match. -/
def expand (parts : List TemplatePart) (found : Found) : List Char :=
  parts.flatMap fun
    | .text text => text
    | .group index => found.group index

end Template

end StructuredText.Pattern
