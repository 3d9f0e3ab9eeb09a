/-!
# Sets of code points by boundaries

A set of code points is stored as its boundaries in ascending order: members start at the first,
stop before the second, start again at the third, and so on. Tables hold the gaps between them.
-/

namespace StructuredText

/-- The boundaries with the given gaps between them, from `start` on. -/
def boundariesFrom (start : Nat) : List Nat → List Nat
  | [] => []
  | gap :: gaps => (start + gap) :: boundariesFrom (start + gap) gaps

/-- Whether `n` is in the set with the given boundaries. -/
def withinBoundaries (n : Nat) : List Nat → Bool
  | start :: stop :: rest =>
      if n < start then false
      else if n < stop then true
      else withinBoundaries n rest
  | _ => false

end StructuredText
