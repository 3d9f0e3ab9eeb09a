import StructuredText.Literal.Span

/-!
# Looking up literals

Spans in order and apart can be searched by bisection: the only span that can hold a position is
the last one that starts at or before it. Positions are integers, so that a position before the
document can be asked for too.
-/

namespace StructuredText.Literal

/-- How many spans start at or before `pos`, if it is known that those below `low` do and those
from `high` on do not. `steps` bounds the number of halvings. -/
def bisect (spans : Array Span) (pos : Int) : (steps low high : Nat) → Nat
  | 0, low, _ => low
  | steps + 1, low, high =>
      if low < high then
        let middle := (low + high) / 2
        match spans[middle]? with
        | some span =>
            if pos < span.start then bisect spans pos steps low middle
            else bisect spans pos steps (middle + 1) high
        | none => low
      else low

/-- How many spans start at or before `pos`. -/
def startedBy (spans : Array Span) (pos : Int) : Nat :=
  bisect spans pos spans.size 0 spans.size

/-- The last span that starts at or before `pos`. -/
def lastStartedBy (spans : Array Span) (pos : Int) : Option Span :=
  match startedBy spans pos with
  | 0 => none
  | n + 1 => spans[n]?

/-- The span that holds `pos`. -/
def spanAt (spans : Array Span) (pos : Int) : Option Span :=
  (lastStartedBy spans pos).filter fun span => span.start ≤ pos && pos < span.stop

/-- Whether some span holds `pos`. -/
def isProtected (spans : Array Span) (pos : Int) : Bool :=
  (spanAt spans pos).isSome

/-- Whether the stretch `[start, stop)` meets a span: a stretch that is not empty meets the spans
it shares a code point with, and an empty one those it lies strictly inside of. -/
def overlaps (spans : Array Span) (start stop : Nat) : Bool :=
  let started := startedBy spans start
  let last := lastStartedBy spans start
  if start = stop then
    last.any fun span => span.start < start && start < span.stop
  else
    last.any (fun span => start < span.stop) ||
      (spans[started]?).any fun span => span.start < stop

end StructuredText.Literal
