/-!
# The host

What formatting takes from the machine that it runs on, and from the tables that come with it: the
names of code points, which patterns may use, and how deep patterns, JSON values and directories can
be nested before the stack is exhausted. Results that depend on a host hold for every host.
-/

namespace StructuredText

/-- Where a sign of the source of a pattern stands: behind an opening parenthesis or its question
mark, behind the bracket that opens a set, in a set, behind a backslash, or elsewhere. Behind a
comment or flags, which may make comments of what follows, the place is not known any more. -/
inductive Place where
  | outside
  | opened
  | asked
  | setOpened
  | set
  | escaped (inSet : Bool)
  | unknown
deriving DecidableEq

/-- How many parentheses are open at a place, and how many have been at once. -/
structure Depth where
  place : Place := .outside
  now : Nat := 0
  most : Nat := 0
deriving DecidableEq

namespace Depth

def enter (depth : Depth) (place : Place) : Depth :=
  ⟨place, depth.now + 1, max depth.most (depth.now + 1)⟩

def outside (depth : Depth) : Char → Depth
  | '(' => depth.enter .opened
  | ')' => { depth with place := .outside, now := depth.now - 1 }
  | '[' => { depth with place := .setOpened }
  | '\\' => { depth with place := .escaped false }
  | _ => { depth with place := .outside }

/-- No parenthesis closes where the place is not known. -/
def unknown (depth : Depth) (c : Char) : Depth :=
  if c = '(' then depth.enter .unknown else { depth with place := .unknown }

def set (depth : Depth) : Char → Depth
  | ']' => { depth with place := .outside }
  | '\\' => { depth with place := .escaped true }
  | _ => { depth with place := .set }

def step (depth : Depth) (c : Char) : Depth :=
  match depth.place with
  | .outside => depth.outside c
  | .opened => if c = '?' then { depth with place := .asked } else depth.outside c
  | .asked => if c ∈ [':', '=', '!', '<', '>'] then { depth with place := .outside }
      else depth.unknown c
  | .setOpened => if c = '^' ∨ c = ']' then depth.unknown c else depth.set c
  | .set => depth.set c
  | .escaped inSet => { depth with place := if inSet then .set else .outside }
  | .unknown => depth.unknown c

/-- The depth behind a source. -/
def along (depth : Depth) (source : List Char) : Depth :=
  source.foldl step depth

theorem along_append (depth : Depth) (source later : List Char) :
    depth.along (source ++ later) = (depth.along source).along later :=
  List.foldl_append

end Depth

/-- The parentheses of the source are no deeper than every host can read. -/
def IsShallow (source : List Char) : Prop :=
  (Depth.along {} source).most ≤ 256

instance (source : List Char) : Decidable (IsShallow source) :=
  Nat.decLe _ _

class Host where
  /-- The code point that has a name. -/
  named? : List Char → Option Char
  /-- Whether the stack is large enough to read a pattern, with letters up to case or not. -/
  holds : (ignoreCase : Bool) → (source : List Char) → Bool
  holds_of_isShallow : ∀ (ignoreCase : Bool) (source : List Char),
    IsShallow source → holds ignoreCase source = true
  /-- How many JSON lists and objects can stand inside one another. -/
  nesting : Nat
  /-- How many directories deep a listing can go. -/
  levels : Nat

namespace Host

/-- The names of the ASCII letters. -/
def letterNamed? (name : List Char) : Option Char :=
  let among (lead letters : String) : Option Char :=
    letters.toList.find? fun c => lead.toList ++ [c.toUpper] == name.map Char.toUpper
  (among "LATIN SMALL LETTER " "abcdefghijklmnopqrstuvwxyz").or
    (among "LATIN CAPITAL LETTER " "ABCDEFGHIJKLMNOPQRSTUVWXYZ")

/-- A host that knows the names of the ASCII letters, and has room for some hundred levels. -/
@[reducible] def plain : Host where
  named? := letterNamed?
  holds _ source := (Depth.along {} source).most ≤ 480
  holds_of_isShallow _ _ h := decide_eq_true (Nat.le_trans h (by decide))
  nesting := 980
  levels := 980

end Host

end StructuredText
