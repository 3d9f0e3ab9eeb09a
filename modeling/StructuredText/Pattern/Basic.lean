import StructuredText.Text.Blank
import StructuredText.Text.Case
import StructuredText.Text.Word

/-!
# Patterns

A pattern describes stretches of text: single code points out of a set, sequences, ordered choices,
repetitions, groups whose text is kept, references to such groups, and conditions on the place and
on groups.
Where a pattern can match in several ways, the order of choices says which way is tried first.
-/

namespace StructuredText

namespace Pattern

/-- A code point of ASCII words. -/
def isAsciiWord (c : Char) : Bool :=
  c.toNat < 128 && isWordChar c

/-- A class of code points inside a set, among all code points or among those of ASCII. -/
inductive Category where
  | digit
  | blank
  | word
  | asciiDigit
  | asciiBlank
  | asciiWord
deriving Repr, DecidableEq

namespace Category

def holds : Category → Char → Bool
  | .digit, c => isDigit c
  | .blank, c => isBlank c
  | .word, c => isWordChar c
  | .asciiDigit, c => '0' ≤ c && c ≤ '9'
  | .asciiBlank, c => c == ' ' || ('\t' ≤ c && c ≤ '\r')
  | .asciiWord, c => isAsciiWord c

/-- The class among the code points of ASCII. -/
def ascii : Category → Category
  | .digit | .asciiDigit => .asciiDigit
  | .blank | .asciiBlank => .asciiBlank
  | .word | .asciiWord => .asciiWord

end Category

/-- A part of a set of code points: all from `low` to `high`, or those that are in a class or, with
`inside` false, that are not. -/
inductive SetItem where
  | range (low high : Nat)
  | category (kind : Category) (inside : Bool)
deriving Repr, DecidableEq

def SetItem.single (c : Char) : SetItem :=
  .range c.toNat c.toNat

def SetItem.holds (ignoreCase : Bool) : SetItem → Char → Bool
  | .range low high, c =>
      (low ≤ c.toNat && c.toNat ≤ high) ||
        (ignoreCase && (caseVariants c).any fun n => low ≤ n && n ≤ high)
  | .category kind inside, c => kind.holds c == inside

/-- A set of code points, or its complement. -/
structure CharSet where
  items : List SetItem
  complement : Bool
  ignoreCase : Bool
deriving Repr, DecidableEq

def CharSet.holds (set : CharSet) (c : Char) : Bool :=
  set.items.any (·.holds set.ignoreCase c) != set.complement

/-- A condition on a place in the text. -/
inductive Anchor where
  | textStart
  /-- The end of the text. -/
  | textEnd
  /-- The end of the text, or the place before a line feed that ends it. -/
  | lastLineEnd
  | lineStart
  | lineEnd
  | boundary
  /-- A place in a text that is not empty where no word starts or ends. -/
  | noBoundary
  /-- A place where a word of ASCII letters starts or ends, and one where none does. -/
  | asciiBoundary
  | noAsciiBoundary
deriving Repr, DecidableEq

/-- When letters that are read again count as the same. -/
inductive CaseRule where
  | exact
  | ascii
  | any
deriving Repr, DecidableEq

/-- The lower-case letter of an ASCII letter, and every other code point as it is. -/
def lowerAscii (c : Char) : Char :=
  if 'A' ≤ c && c ≤ 'Z' then Char.ofNat (c.toNat + 32) else c

def CaseRule.same : CaseRule → Char → Char → Bool
  | .exact, c, d => c == d
  | .ascii, c, d => lowerAscii c == lowerAscii d
  | .any, c, d => c == d || lowerChar c == lowerChar d

/-- The least and the greatest number of code points that a pattern can match; no second number
means that there is no greatest. -/
structure Width where
  least : Nat
  most : Option Nat
deriving Repr, DecidableEq

end Pattern

/-- A description of stretches of text. -/
inductive Pattern where
  | empty
  | one (set : Pattern.CharSet)
  | anchor (condition : Pattern.Anchor)
  | seq (first second : Pattern)
  | either (first second : Pattern)
  /-- From `least` to `most` times `body`, without limit if there is no `most`. More rounds are
  tried first if `greedy`, fewer otherwise. -/
  | repeated (body : Pattern) (least : Nat) (most : Option Nat) (greedy : Bool)
  /-- The text that `body` matches is kept under `index`. -/
  | group (index : Nat) (body : Pattern)
  | reference (index : Nat) (rule : Pattern.CaseRule)
  /-- Whether `body` matches from here on. -/
  | ahead (wanted : Bool) (body : Pattern)
  /-- Whether `body`, which has this width, matches up to here. -/
  | behind (wanted : Bool) (width : Pattern.Width) (body : Pattern)
  /-- What `body` matches first, and no other way. -/
  | atomic (body : Pattern)
  /-- `present` if text is kept under `index`, and `absent` if not. -/
  | conditional (index : Nat) (present absent : Pattern)
deriving Repr, DecidableEq

namespace Pattern

namespace Width

def fixed (n : Nat) : Width :=
  ⟨n, some n⟩

def add (a b : Width) : Width :=
  ⟨a.least + b.least, do return (← a.most) + (← b.most)⟩

def union (a b : Width) : Width :=
  ⟨min a.least b.least, do return max (← a.most) (← b.most)⟩

def times (w : Width) (least : Nat) (most : Option Nat) : Width :=
  ⟨w.least * least,
    match w.most, most with
    | some 0, _ | _, some 0 => some 0
    | some n, some k => some (n * k)
    | _, _ => none⟩

def isFixed (w : Width) : Bool :=
  w.most == some w.least

end Width

/-- The width of a pattern, given that of the groups it refers to. -/
def width (groups : Nat → Width) : Pattern → Width
  | .empty | .anchor _ | .ahead _ _ | .behind _ _ _ => .fixed 0
  | .one _ => .fixed 1
  | .seq first second => (first.width groups).add (second.width groups)
  | .either first second | .conditional _ first second =>
      (first.width groups).union (second.width groups)
  | .repeated body least most _ => (body.width groups).times least most
  | .group _ body | .atomic body => body.width groups
  | .reference index _ => groups index

/-- The patterns one after another. -/
def sequence : List Pattern → Pattern
  | [] => .empty
  | [p] => p
  | p :: ps => .seq p (sequence ps)

/-- The first of the patterns that matches. There is a match only if the list is not empty. -/
def choice : List Pattern → Pattern
  | [] => .one ⟨[], false, false⟩
  | [p] => p
  | p :: ps => .either p (choice ps)

/-- A single code point. -/
def char (c : Char) (ignoreCase : Bool) : Pattern :=
  .one ⟨[.single c], false, ignoreCase⟩

/-- The code points of `text` in order. -/
def literal (text : List Char) (ignoreCase : Bool) : Pattern :=
  sequence (text.map (char · ignoreCase))

end Pattern

end StructuredText
