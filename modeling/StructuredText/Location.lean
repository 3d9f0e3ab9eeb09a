/-!
# Locations

Where in a file something was found: a range of lines, counted from one.
-/

namespace StructuredText

structure Location where
  file : String
  firstLine : Int
  lastLine : Int
deriving Repr, DecidableEq

namespace Location

/-- The location as messages write it. -/
def render (location : Location) : String :=
  if location.firstLine = location.lastLine then
    location.file ++ ":" ++ toString location.firstLine
  else
    location.file ++ ":" ++ toString location.firstLine ++ "-" ++ toString location.lastLine

/-- The offset that a position stands for in a text of `size` code points: a position below zero
counts from the end, and no position goes beyond an end. -/
def clampOffset (size : Nat) (pos : Int) : Nat :=
  if pos < 0 then (size + pos).toNat else min pos.toNat size

/-- The line of `file` that holds position `pos` of its text. -/
def ofPosition (file : String) (text : List Char) (pos : Int) : Location :=
  let line := (text.take (clampOffset text.length pos)).count '\n' + 1
  ⟨file, line, line⟩

end Location

/-- A message, and behind it in brackets the location it speaks of. -/
def locatedMessage (message : String) (location : Option Location) : String :=
  match location with
  | some location => message ++ " [" ++ location.render ++ "]"
  | none => message

end StructuredText
