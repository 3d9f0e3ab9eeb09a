import StructuredText.Text.Case

/-!
# Paths

A path is a list of names, from the root of the tree or from the working directory. Empty names and
single dots are left out; two dots stay, and mean the directory above when the path is followed.
-/

namespace StructuredText

/-- `root` is empty for a path from the working directory. -/
structure Path where
  root : String
  names : List String
deriving Repr, DecidableEq

namespace Path

/-- The parts of a text between slashes. -/
def splitSlashes : List Char → List (List Char)
  | [] => [[]]
  | c :: rest =>
      if c = '/' then [] :: splitSlashes rest
      else
        match splitSlashes rest with
        | [] => [[c]]
        | part :: others => (c :: part) :: others

/-- The root of a written path. Two slashes at its start are kept apart from one, more are not. -/
def rootOf : List Char → String
  | '/' :: '/' :: '/' :: _ => "/"
  | '/' :: '/' :: _ => "//"
  | '/' :: _ => "/"
  | _ => ""

/-- The path that a text writes. -/
def ofString (text : String) : Path :=
  let parts := splitSlashes text.toList
  ⟨rootOf text.toList,
    (parts.filter fun part => !part.isEmpty && part != ['.']).map String.ofList⟩

/-- The path as messages write it. -/
def render (path : Path) : String :=
  if path.root.isEmpty && path.names.isEmpty then "."
  else path.root ++ "/".intercalate path.names

/-- The last name of a path. -/
def fileName (path : Path) : String :=
  path.names.getLast?.getD ""

/-- The path to what has the given names below this path. -/
def below (path : Path) (names : List String) : Path :=
  { path with names := path.names ++ names }

/-- The part of a name from its last dot on. A dot at either end of the name starts no suffix. -/
def suffixOf (name : List Char) : List Char :=
  let ending := (name.reverse.takeWhile (· != '.')).reverse
  if ending.isEmpty || name.length ≤ ending.length + 1 then [] else '.' :: ending

/-- The suffix of a path. -/
def suffix (path : Path) : List Char :=
  suffixOf path.fileName.toList

/-- The path with `ending` behind its last name. -/
def withEnding (path : Path) (ending : String) : Path :=
  { path with names := path.names.dropLast ++ [path.fileName ++ ending] }

/-- The order of paths from one place: name by name, and a path before those below it. -/
def precedes : List String → List String → Bool
  | [], _ => true
  | _ :: _, [] => false
  | a :: as, b :: bs => if a = b then precedes as bs else decide (a < b)

end Path

end StructuredText
