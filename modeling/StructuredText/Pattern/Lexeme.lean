import StructuredText.Host
import StructuredText.Pattern.Basic
import StructuredText.Pattern.Fault

/-!
# Lexemes of patterns

The written form of a pattern is cut into lexemes: single code points and sets, anchors,
quantifiers, the openings and closings of groups, and references. In a verbose part, blanks and
comments up to the end of a line stand for nothing.

The backslash joins the code point behind it. A backslash that ends the source is a fault as soon
as the reader comes to it, which is when the token before it is consumed.
-/

namespace StructuredText.Pattern

/-! ## Tokens -/

/-- A code point of the source by itself or behind a backslash, or a backslash at the very end. -/
inductive Sign where
  | plain (c : Char)
  | escaped (c : Char)
  | dangling
deriving Repr, DecidableEq

def Sign.text : Sign → List Char
  | .plain c => [c]
  | .escaped c => ['\\', c]
  | .dangling => ['\\']

structure Token where
  offset : Nat
  sign : Sign
deriving Repr, DecidableEq

/-- The tokens of a source from offset `offset` on. -/
def tokensFrom (offset : Nat) : List Char → List Token
  | [] => []
  | '\\' :: [] => [⟨offset, .dangling⟩]
  | '\\' :: c :: rest => ⟨offset, .escaped c⟩ :: tokensFrom (offset + 2) rest
  | c :: rest => ⟨offset, .plain c⟩ :: tokensFrom (offset + 1) rest

/-- A result, or a fault and its offset. -/
abbrev Reading (α : Type) := Except (Cause × Nat) α

/-- The offset of the next token of a source of `size` code points. -/
def offsetOf (size : Nat) : List Token → Nat
  | [] => size
  | token :: _ => token.offset

/-- Refuses to come to a backslash that ends the source. -/
def arrive : List Token → Reading Unit
  | ⟨offset, .dangling⟩ :: _ => .error (.danglingEscape, offset)
  | _ => .ok ()

/-- Consumes the next token if it is `c`. -/
def acceptSign (c : Char) : List Token → Reading (Option (List Token))
  | ⟨_, .plain d⟩ :: rest =>
      if c = d then do
        arrive rest
        return some rest
      else return none
  | _ => return none

/-- Consumes plain code points that satisfy `p`, at most `limit`. -/
def readUpTo (p : Char → Bool) : (limit : Nat) → List Token → Reading (List Char × List Token)
  | 0, tokens => return ([], tokens)
  | _ + 1, [] => return ([], [])
  | limit + 1, token :: rest =>
      match token.sign with
      | .plain c =>
          if p c then do
            arrive rest
            let (taken, rest) ← readUpTo p limit rest
            return (c :: taken, rest)
          else return ([], token :: rest)
      | _ => return ([], token :: rest)

/-- Reads the name of `what` up to `terminator`, which is consumed. `taken` holds the name so
far. -/
def readName (size : Nat) (what : String) (terminator : Char) (taken : List Char) :
    List Token → Reading (List Char × List Token)
  | [] =>
      if taken.isEmpty then .error (.missingName what, size)
      else .error (.unterminatedName terminator, size - taken.length)
  | token :: rest => do
      arrive rest
      if token.sign = .plain terminator then
        if taken.isEmpty then .error (.missingName what, offsetOf size rest - 1)
        else return (taken, rest)
      else readName size what terminator (taken ++ token.sign.text) rest

/-! ## Numbers -/

def isDecimalDigit (c : Char) : Bool :=
  '0' ≤ c && c ≤ '9'

def isOctalDigit (c : Char) : Bool :=
  '0' ≤ c && c ≤ '7'

def isHexDigit (c : Char) : Bool :=
  isDecimalDigit c || ('a' ≤ c && c ≤ 'f') || ('A' ≤ c && c ≤ 'F')

def isAsciiLetter (c : Char) : Bool :=
  ('a' ≤ c && c ≤ 'z') || ('A' ≤ c && c ≤ 'Z')

def digitValue (c : Char) : Nat :=
  if isDecimalDigit c then c.toNat - 48
  else if 'a' ≤ c && c ≤ 'f' then c.toNat - 87
  else c.toNat - 55

/-- The number that digits stand for in a base. -/
def numeral (base : Nat) (digits : List Char) : Nat :=
  digits.foldl (fun n c => n * base + digitValue c) 0

/-- Numbers are not read from more digits. -/
def mostDigits : Nat :=
  4300

/-- The number that digits write, of which `value` has been read. Single underscores may stand
between them. -/
def digitsValue (value : Nat) : List Char → Option Nat
  | [] => some value
  | '_' :: c :: rest =>
      if isDigit c then digitsValue (value * 10 + decimalValue c) rest else none
  | c :: rest => if isDigit c then digitsValue (value * 10 + decimalValue c) rest else none

/-- The number of a group, with blanks around it and a sign. -/
def groupNumber (name : List Char) : Option Nat :=
  let read : List Char → Option Nat
    | c :: rest => if isDigit c then digitsValue (decimalValue c) rest else none
    | [] => none
  if name.countP isDigit > mostDigits then none
  else
    match trim name with
    | '+' :: digits => read digits
    | '-' :: digits => (read digits).filter (· == 0)
    | digits => read digits

/-! ## Escapes -/

/-- The control character that an escape stands for, in a set and outside. -/
def controlEscape : Char → Option Nat
  | 'a' => some 7
  | 'f' => some 12
  | 'n' => some 10
  | 'r' => some 13
  | 't' => some 9
  | 'v' => some 11
  | '\\' => some 92
  | _ => none

def categoryEscape : Char → Option SetItem
  | 'd' => some (.category .digit true)
  | 'D' => some (.category .digit false)
  | 's' => some (.category .blank true)
  | 'S' => some (.category .blank false)
  | 'w' => some (.category .word true)
  | 'W' => some (.category .word false)
  | _ => none

def escapeText (c : Char) (digits : List Char) : String :=
  String.ofList ('\\' :: c :: digits)

/-- A code point given by exactly `width` hexadecimal digits behind `\c`. -/
def readHexEscape (offset : Nat) (c : Char) (width : Nat) (rest : List Token) :
    Reading (Nat × List Token) := do
  let (digits, rest) ← readUpTo isHexDigit width rest
  let code := numeral 16 digits
  if digits.length ≠ width then
    .error (.incompleteEscape (escapeText c digits), offset)
  else if code > 0x10FFFF then
    .error (.badEscape (escapeText c digits), offset)
  else return (code, rest)

/-- A code point given by its name in braces. -/
def readNamedEscape [Host] (size : Nat) (rest : List Token) : Reading (Nat × List Token) := do
  match ← acceptSign '{' rest with
  | none => .error (.missingBrace, offsetOf size rest)
  | some rest =>
      let (name, rest) ← readName size "character name" '}' [] rest
      match Host.named? name with
      | some c => return (c.toNat, rest)
      | none =>
          .error (.unknownCharacterName (String.ofList name),
            offsetOf size rest - (name.length + 4))

/-- An escape that means the same in a set and outside: a code point by hexadecimal digits or by
its name, or punctuation. -/
def readPlainEscape [Host] (size offset : Nat) (c : Char) (rest : List Token) :
    Reading (Nat × List Token) :=
  if c = 'x' then readHexEscape offset c 2 rest
  else if c = 'u' then readHexEscape offset c 4 rest
  else if c = 'U' then readHexEscape offset c 8 rest
  else if c = 'N' then readNamedEscape size rest
  else if isAsciiLetter c || isDecimalDigit c then .error (.badEscape (escapeText c []), offset)
  else return (c.toNat, rest)

/-- An octal escape of at most three digits, of which `c` is the first. -/
def readOctalEscape (offset : Nat) (c : Char) (rest : List Token) :
    Reading (Nat × List Token) := do
  let (digits, rest) ← readUpTo isOctalDigit 2 rest
  let code := numeral 8 (c :: digits)
  if code > 255 then .error (.octalOutOfRange (escapeText c digits), offset)
  else return (code, rest)

/-! ## Sets -/

section

variable [Host]

/-- A member of a set, of which `token` has been consumed. -/
def readSetMember (size : Nat) (token : Token) (rest : List Token) :
    Reading (SetItem × List Token) :=
  match token.sign with
  | .plain c => return (.single c, rest)
  | .dangling => .error (.danglingEscape, token.offset)
  | .escaped c =>
      if c = 'b' then return (.range 8 8, rest)
      else
        match controlEscape c, categoryEscape c with
        | some code, _ => return (.range code code, rest)
        | none, some item => return (item, rest)
        | none, none => do
            let (code, rest) ←
              if isOctalDigit c then readOctalEscape token.offset c rest
              else readPlainEscape size token.offset c rest
            return (.range code code, rest)

/-- The range between two members. -/
def rangeBetween (size : Nat) (first last : Token) (low high : SetItem) (rest : List Token) :
    Reading SetItem :=
  let fault : Reading SetItem :=
    .error
      (.badRange (String.ofList first.sign.text) (String.ofList last.sign.text),
        offsetOf size rest - (first.sign.text.length + 1 + last.sign.text.length))
  match low, high with
  | .range low _, .range high _ => if high < low then fault else return .range low high
  | _, _ => fault

/-- The members of a set that opened at `opened`, up to the closing bracket. `items` holds the
members so far, latest first, and `tries` bounds the number of members to come. -/
def readSetItems (size opened : Nat) :
    (tries : Nat) → (items : List SetItem) → List Token → Reading (List SetItem × List Token)
  | 0, _, _ | _ + 1, _, [] => .error (.unterminatedSet, opened)
  | tries + 1, items, token :: rest => do
      arrive rest
      if token.sign = .plain ']' && !items.isEmpty then return (items.reverse, rest)
      let (low, rest) ← readSetMember size token rest
      match ← acceptSign '-' rest with
      | none => readSetItems size opened tries (low :: items) rest
      | some [] => .error (.unterminatedSet, opened)
      | some (last :: rest) => do
          arrive rest
          if last.sign = .plain ']' then
            return ((.single '-' :: low :: items).reverse, rest)
          let (high, rest) ← readSetMember size last rest
          let range ← rangeBetween size token last low high rest
          readSetItems size opened tries (range :: items) rest

end

/-! ## Lexemes -/

/-- How a repetition chooses its number of rounds. -/
inductive Greed where
  | greedy
  | lazy
  | possessive
deriving Repr, DecidableEq

/-- Letters of the flags that a group turns on and off. -/
structure FlagChange where
  on : List Char
  off : List Char
deriving Repr, DecidableEq

/-- How a condition names its group: by name, or by a number that takes `width` code points. -/
inductive Test where
  | name (name : String)
  | number (index width : Nat)
deriving Repr, DecidableEq

inductive Opening where
  | capture (name : Option String)
  | plain (flags : FlagChange)
  | ahead (wanted : Bool)
  | behind (wanted : Bool)
  | atomic
  | conditional (test : Test)
deriving Repr, DecidableEq

inductive Meaning where
  | set (items : List SetItem) (complement : Bool)
  | any
  | lineStart
  | lineEnd
  | anchor (condition : Anchor)
  | quantifier (least : Nat) (most : Option Nat) (greed : Greed)
  | reference (index width : Nat)
  | namedReference (name : String)
  | opening (kind : Opening)
  | closing
  | bar
  | comment
  | globalFlags (letters : List Char)
deriving Repr, DecidableEq

/-- A lexeme takes the stretch `[start, stop)` of the source. -/
structure Lexeme where
  start : Nat
  stop : Nat
  meaning : Meaning
deriving Repr, DecidableEq

def Meaning.char (code : Nat) : Meaning :=
  .set [.range code code] false

/-- A reference to a group, or an octal escape of three digits, that starts with `\c`. -/
def readReference (offset : Nat) (c : Char) (rest : List Token) :
    Reading (Meaning × List Token) := do
  let (second, rest) ← readUpTo isDecimalDigit 1 rest
  let octal := isOctalDigit c && !second.isEmpty && second.all isOctalDigit
  let (third, rest) ← if octal then readUpTo isOctalDigit 1 rest else pure ([], rest)
  let digits := c :: second ++ third
  if third.isEmpty then return (.reference (numeral 10 digits) (digits.length + 1), rest)
  else
    let code := numeral 8 digits
    if code > 255 then .error (.octalOutOfRange (String.ofList ('\\' :: digits)), offset)
    else return (.char code, rest)

/-- An escape outside a set. -/
def readEscape [Host] (size offset : Nat) (c : Char) (rest : List Token) :
    Reading (Meaning × List Token) :=
  match c with
  | 'A' => return (.anchor .textStart, rest)
  | 'Z' => return (.anchor .textEnd, rest)
  | 'b' => return (.anchor .boundary, rest)
  | 'B' => return (.anchor .noBoundary, rest)
  | _ =>
      match categoryEscape c, controlEscape c with
      | some item, _ => return (.set [item] false, rest)
      | none, some code => return (.char code, rest)
      | none, none =>
          if c = '0' then do
            let (digits, rest) ← readUpTo isOctalDigit 2 rest
            return (.char (numeral 8 digits), rest)
          else if isDecimalDigit c then readReference offset c rest
          else do
            let (code, rest) ← readPlainEscape size offset c rest
            return (.char code, rest)

/-- The mark behind a quantifier that says how it chooses. -/
def readGreed : List Token → Greed × List Token
  | ⟨_, .plain '?'⟩ :: rest => (.lazy, rest)
  | ⟨_, .plain '+'⟩ :: rest => (.possessive, rest)
  | rest => (.greedy, rest)

def quantifier (least : Nat) (most : Option Nat) (rest : List Token) : Meaning × List Token :=
  let (greed, rest) := readGreed rest
  (.quantifier least most greed, rest)

/-- The number of rounds has to be less. -/
def roundLimit : Nat :=
  4294967295

/-- A bound of a quantifier in braces, if there are digits. -/
def boundOf (digits : List Char) : Reading (Option Nat) :=
  if digits.isEmpty then return none
  else if digits.length > mostDigits then .error (.excessDigits digits.length, 0)
  else if numeral 10 digits ≥ roundLimit then .error (.excessRepetition, 0)
  else return some (numeral 10 digits)

/-- The upper bound of a quantifier in braces, which is the lower one if there is no comma. -/
def readHigh (low : List Char) (rest : List Token) : Reading (List Char × List Token) := do
  match ← acceptSign ',' rest with
  | some further => readUpTo isDecimalDigit further.length further
  | none => return (low, rest)

/-- The end of a quantifier in braces, of which the bounds have been read, or a brace that stands
for itself. -/
def closeBraces (offset : Nat) (low high : List Char) (rest afterLow afterHigh : List Token) :
    Reading (Meaning × List Token) := do
  if afterLow.length = rest.length && afterHigh.length = rest.length then
    return (.char 123, rest)
  match ← acceptSign '}' afterHigh with
  | none => return (.char 123, rest)
  | some closed =>
      let least ← boundOf low
      let most ← boundOf high
      if most.any (· < least.getD 0) then .error (.repeatBoundsReversed, offset + 1)
      else return quantifier (least.getD 0) most closed

/-- A quantifier in braces at `offset`, or a brace that stands for itself. -/
def readBraces (offset : Nat) (rest : List Token) : Reading (Meaning × List Token) := do
  let (low, afterLow) ← readUpTo isDecimalDigit rest.length rest
  let (high, afterHigh) ← readHigh low afterLow
  closeBraces offset low high rest afterLow afterHigh

/-! ## Openings of groups -/

def isFlagLetter (c : Char) : Bool :=
  ['i', 'L', 'm', 's', 'x', 'a', 't', 'u'].contains c

def isFlagOfType (c : Char) : Bool :=
  c == 'a' || c == 'u'

def flagFault (reason : String) (offset : Nat) : Cause × Nat :=
  (.inlineFlags reason, offset)

/-- The fault of a sign that is no flag, where `missing` was expected. -/
def notAFlag (size : Nat) (missing : String) (sign : Sign) (rest : List Token) : Cause × Nat :=
  let offset := offsetOf size rest - sign.text.length
  match sign with
  | .plain c =>
      if isAlphanumeric c && !isDigit c then flagFault "unknown flag" offset
      else flagFault missing offset
  | _ => flagFault missing offset

/-- Whether flag `c` may be turned on behind the flags `on`. -/
def checkFlagOn (on : List Char) (c : Char) (offset : Nat) : Reading Unit :=
  if c = 'L' then
    .error (flagFault "bad inline flags: cannot use 'L' flag with a str pattern" offset)
  else if isFlagOfType c && on.any (fun d => isFlagOfType d && d != c) then
    .error (flagFault "bad inline flags: flags 'a', 'u' and 'L' are incompatible" offset)
  else return ()

/-- Whether flag `c` may be turned off. -/
def checkFlagOff (c : Char) (offset : Nat) : Reading Unit :=
  if isFlagOfType c || c = 'L' then
    .error (flagFault "bad inline flags: cannot turn off flags 'a', 'u' and 'L'" offset)
  else return ()

/-- Flags turned on, of which `c` is the next, up to the sign that ends them. -/
def readFlagsOn (size : Nat) (on : List Char) (c : Char) :
    List Token → Reading (List Char × Char × List Token)
  | [] => do
      checkFlagOn on c size
      .error (flagFault "missing -, : or )" size)
  | token :: rest => do
      checkFlagOn on c token.offset
      arrive rest
      match token.sign with
      | .plain d =>
          if d = ')' || d = '-' || d = ':' then return (on ++ [c], d, rest)
          else if isFlagLetter d then readFlagsOn size (on ++ [c]) d rest
          else .error (notAFlag size "missing -, : or )" token.sign rest)
      | _ => .error (notAFlag size "missing -, : or )" token.sign rest)

/-- Flags turned off, of which `c` is the next, up to the colon. -/
def readFlagsOff (size : Nat) (off : List Char) (c : Char) :
    List Token → Reading (List Char × List Token)
  | [] => do
      checkFlagOff c size
      .error (flagFault "missing :" size)
  | token :: rest => do
      checkFlagOff c token.offset
      arrive rest
      match token.sign with
      | .plain d =>
          if d = ':' then return (off ++ [c], rest)
          else if isFlagLetter d then readFlagsOff size (off ++ [c]) d rest
          else .error (notAFlag size "missing :" token.sign rest)
      | _ => .error (notAFlag size "missing :" token.sign rest)

/-- The flags to be turned off behind a minus sign. -/
def readFlagsOffFirst (size : Nat) : List Token → Reading (List Char × List Token)
  | [] => .error (flagFault "missing flag" size)
  | token :: rest => do
      arrive rest
      match token.sign with
      | .plain c =>
          if isFlagLetter c then readFlagsOff size [] c rest
          else .error (notAFlag size "missing flag" token.sign rest)
      | _ => .error (notAFlag size "missing flag" token.sign rest)

/-- Inline flags behind those that are turned on, which `sign` ends. -/
def endFlags (size : Nat) (on : List Char) (sign : Char) (rest : List Token) :
    Reading (Meaning × List Token) := do
  if sign = ')' then return (.globalFlags on, rest)
  if on.contains 't' then
    .error (flagFault "bad inline flags: cannot turn on global flag" (offsetOf size rest - 1))
  else
    let (off, rest) ← if sign = '-' then readFlagsOffFirst size rest else pure ([], rest)
    if off.contains 't' then
      .error (flagFault "bad inline flags: cannot turn off global flag" (offsetOf size rest - 1))
    else if on.any off.contains then
      .error (flagFault "bad inline flags: flag turned on and off" (offsetOf size rest - 1))
    else return (.opening (.plain ⟨on, off⟩), rest)

/-- Inline flags whose first sign is `c`. -/
def readFlags (size : Nat) (c : Char) (rest : List Token) : Reading (Meaning × List Token) :=
  if c = '-' then endFlags size [] '-' rest
  else do
    let (on, sign, rest) ← readFlagsOn size [] c rest
    endFlags size on sign rest

/-- Whether a text can name a group. -/
def isGroupName : List Char → Bool
  | [] => false
  | c :: rest => (c == '_' || (isAlphanumeric c && !isDigit c)) && rest.all isWordChar

/-- A name up to `terminator` that can name a group. -/
def readGroupName (size : Nat) (terminator : Char) (rest : List Token) :
    Reading (String × List Token) := do
  let (name, rest) ← readName size "group name" terminator [] rest
  if isGroupName name then return (String.ofList name, rest)
  else .error (.badGroupName (String.ofList name), offsetOf size rest - (name.length + 1))

/-- Groups have smaller numbers. -/
def groupLimit : Nat :=
  1073741823

/-- The name or number of the group that a condition asks for. -/
def readTest (size : Nat) (rest : List Token) : Reading (Test × List Token) := do
  let (name, rest) ← readName size "group name" ')' [] rest
  let offset := offsetOf size rest - (name.length + 1)
  if isGroupName name then return (.name (String.ofList name), rest)
  else
    match groupNumber name with
    | none => .error (.badGroupName (String.ofList name), offset)
    | some index =>
        if index ≥ groupLimit then .error (.invalidReference index, offset)
        else return (.number index name.length, rest)

/-- The next token, which has to be there. -/
def demand (size : Nat) : List Token → Reading (Token × List Token)
  | [] => .error (.unexpectedEnd, size)
  | token :: rest => do
      arrive rest
      return (token, rest)

/-- The fault of an unknown sign behind a parenthesis and question mark, `lead` in between. -/
def unknownExtension (size : Nat) (lead : String) (sign : Sign) (rest : List Token) :
    Cause × Nat :=
  (.unknownExtension (lead ++ String.ofList sign.text),
    offsetOf size rest - (sign.text.length + 1 + lead.length))

/-- Consumes a comment up to its closing parenthesis. -/
def skipComment (opened : Nat) : List Token → Reading (List Token)
  | [] => .error (.unterminatedComment, opened)
  | token :: rest => do
      arrive rest
      if token.sign = .plain ')' then return rest else skipComment opened rest

/-- Consumes a comment up to the end of its line. -/
def skipLine : List Token → Reading (List Token)
  | [] => return []
  | token :: rest => do
      arrive rest
      if token.sign = .plain '\n' then return rest else skipLine rest

/-- What a parenthesis at `opened` opens. -/
def readOpening (size opened : Nat) (rest : List Token) : Reading (Meaning × List Token) := do
  match ← acceptSign '?' rest with
  | none => return (.opening (.capture none), rest)
  | some rest =>
      let (token, rest) ← demand size rest
      match token.sign with
      | .plain ':' => return (.opening (.plain ⟨[], []⟩), rest)
      | .plain '=' => return (.opening (.ahead true), rest)
      | .plain '!' => return (.opening (.ahead false), rest)
      | .plain '>' => return (.opening .atomic, rest)
      | .plain '#' => return (.comment, ← skipComment opened rest)
      | .plain '(' =>
          let (test, rest) ← readTest size rest
          return (.opening (.conditional test), rest)
      | .plain '<' =>
          let (token, rest) ← demand size rest
          match token.sign with
          | .plain '=' => return (.opening (.behind true), rest)
          | .plain '!' => return (.opening (.behind false), rest)
          | sign => .error (unknownExtension size "<" sign rest)
      | .plain 'P' =>
          match ← acceptSign '<' rest with
          | some rest =>
              let (name, rest) ← readGroupName size '>' rest
              return (.opening (.capture (some name)), rest)
          | none =>
              match ← acceptSign '=' rest with
              | some rest =>
                  let (name, rest) ← readGroupName size ')' rest
                  return (.namedReference name, rest)
              | none =>
                  let (token, rest) ← demand size rest
                  .error (unknownExtension size "P" token.sign rest)
      | .plain c =>
          if isFlagLetter c || c = '-' then readFlags size c rest
          else .error (unknownExtension size "" token.sign rest)
      | sign => .error (unknownExtension size "" sign rest)

/-! ## The lexemes of a source -/

/-- A blank that stands for nothing in a verbose part. -/
def isVerboseBlank (c : Char) : Bool :=
  c == ' ' || ('\t' ≤ c && c ≤ '\r')

/-- The lexeme that starts with the code point `c` at `offset`. -/
def readSign [Host] (size offset : Nat) (c : Char) (rest : List Token) :
    Reading (Meaning × List Token) :=
  match c with
  | '[' => do
      let negated ← acceptSign '^' rest
      let (items, rest) ← readSetItems size offset (rest.length + 1) [] (negated.getD rest)
      return (.set items negated.isSome, rest)
  | '?' => return quantifier 0 (some 1) rest
  | '*' => return quantifier 0 none rest
  | '+' => return quantifier 1 none rest
  | '{' => readBraces offset rest
  | '(' => readOpening size offset rest
  | '.' => return (.any, rest)
  | '^' => return (.lineStart, rest)
  | '$' => return (.lineEnd, rest)
  | c => return (.char c.toNat, rest)

/-- The lexeme that starts with `token`. -/
def readLexeme [Host] (verbose : Bool) (size : Nat) (token : Token) (rest : List Token) :
    Reading (Meaning × List Token) :=
  match token.sign with
  | .dangling => .error (.danglingEscape, token.offset)
  | .plain '|' => return (.bar, rest)
  | .plain ')' => return (.closing, rest)
  | .escaped c => do
      arrive rest
      readEscape size token.offset c rest
  | .plain c => do
      arrive rest
      if verbose && isVerboseBlank c then return (.comment, rest)
      else if verbose && c = '#' then return (.comment, ← skipLine rest)
      else readSign size token.offset c rest

end StructuredText.Pattern
