import StructuredText.Occurrence
import StructuredText.Pattern.Basic

/-!
# Matching patterns

`Pattern.run` tries the ways in which a pattern can match at a place, in order, until the rest of
the search accepts one. A repetition starts another round beyond its least number only if the text
has been read further since the last such round started; so the rounds are bounded by the length
of the text.
-/

namespace StructuredText.Pattern

/-- A place in the text, and the text of the groups that have matched, latest first. -/
structure State where
  cursor : Cursor
  groups : List (Nat × List Char)
deriving Repr, DecidableEq

/-- Whether a word of ASCII letters starts or ends here. -/
def atAsciiBoundary (cursor : Cursor) : Bool :=
  cursor.before.head?.any isAsciiWord != cursor.after.head?.any isAsciiWord

def Anchor.holds : Anchor → Cursor → Bool
  | .textStart, cursor => cursor.atStart
  | .textEnd, cursor => cursor.atEnd
  | .lastLineEnd, cursor => cursor.atEnd || cursor.after == ['\n']
  | .lineStart, cursor => cursor.atLineStart
  | .lineEnd, cursor => cursor.atLineEnd
  | .boundary, cursor => cursor.atBoundary
  | .noBoundary, cursor => !cursor.atBoundary && !(cursor.atStart && cursor.atEnd)
  | .asciiBoundary, cursor => atAsciiBoundary cursor
  | .noAsciiBoundary, cursor => !atAsciiBoundary cursor && !(cursor.atStart && cursor.atEnd)

/-- Reads `text` again. -/
def rereadFrom (rule : CaseRule) (text : List Char) (cursor : Cursor) : Option Cursor :=
  match text with
  | [] => some cursor
  | c :: rest => (cursor.next (rule.same c)).bind (rereadFrom rule rest)

/-- The cursor `width` code points earlier. -/
def stepBack : Nat → Cursor → Option Cursor
  | 0, cursor => some cursor
  | width + 1, cursor =>
      match cursor.before with
      | [] => none
      | c :: before => stepBack width ⟨cursor.pos - 1, before, c :: cursor.after⟩

/-- What is left to match behind a pattern: takes a state to the state at the end of the match. -/
abbrev Continuation := State → Option State

/-- The rounds of a repetition, of which `count` are over. `last` is where the last round beyond
the least number started, and `rounds` bounds the number of rounds to come. -/
def repeatFrom (body : Continuation → Continuation) (least : Nat) (most : Option Nat)
    (greedy : Bool) (accept : Continuation) :
    (rounds count : Nat) → (last : Option Nat) → Continuation
  | 0, _, _, state => accept state
  | rounds + 1, count, last, state =>
      if count < least then
        body (repeatFrom body least most greedy accept rounds (count + 1) last) state
      else
        let again := fun _ : Unit =>
          if most.all (count < ·) && last != some state.cursor.pos then
            body
              (repeatFrom body least most greedy accept rounds (count + 1)
                (some state.cursor.pos))
              state
          else none
        if greedy then
          match again () with
          | some result => some result
          | none => accept state
        else
          match accept state with
          | some result => some result
          | none => again ()

/-- The first way to match the pattern from a state on that `accept` accepts, in a text of at most
`size` code points. -/
def run (size : Nat) : Pattern → Continuation → Continuation
  | .empty, accept, state => accept state
  | .one set, accept, state =>
      match state.cursor.next set.holds with
      | some cursor => accept { state with cursor }
      | none => none
  | .anchor condition, accept, state =>
      if condition.holds state.cursor then accept state else none
  | .seq first second, accept, state => first.run size (second.run size accept) state
  | .either first second, accept, state =>
      match first.run size accept state with
      | some result => some result
      | none => second.run size accept state
  | .repeated body least most greedy, accept, state =>
      repeatFrom (body.run size) least most greedy accept (least + size + 2) 0 none state
  | .group index body, accept, state =>
      body.run size
        (fun found =>
          let text := state.cursor.after.take (found.cursor.pos - state.cursor.pos)
          accept { found with groups := (index, text) :: found.groups })
        state
  | .reference index rule, accept, state =>
      match state.groups.lookup index with
      | some text =>
          match rereadFrom rule text state.cursor with
          | some cursor => accept { state with cursor }
          | none => none
      | none => none
  | .ahead wanted body, accept, state =>
      match body.run size some state with
      | some found => if wanted then accept { state with groups := found.groups } else none
      | none => if wanted then none else accept state
  | .behind wanted width body, accept, state =>
      match (stepBack width.least state.cursor).bind fun cursor =>
          body.run size some { state with cursor } with
      | some found => if wanted then accept { state with groups := found.groups } else none
      | none => if wanted then none else accept state
  | .atomic body, accept, state =>
      match body.run size some state with
      | some found => accept found
      | none => none
  | .conditional index present absent, accept, state =>
      if (state.groups.lookup index).isSome then present.run size accept state
      else absent.run size accept state

/-- What a pattern matched: the whole text and the texts of its groups. -/
structure Found where
  text : List Char
  groups : List (Nat × List Char)
deriving Repr, DecidableEq

/-- The text of a group. Group zero is the whole match, and a group that took no part is empty. -/
def Found.group (found : Found) (index : Nat) : List Char :=
  if index = 0 then found.text else (found.groups.lookup index).getD []

/-- Recognises what the pattern matches, in a text of at most `size` code points. -/
def recognize (size : Nat) (pattern : Pattern) : Recognizer Found :=
  fun advance cursor =>
    let accept : Continuation := fun state =>
      if advance && state.cursor.pos == cursor.pos then none else some state
    (pattern.run size accept ⟨cursor, []⟩).map fun stop =>
      let length := stop.cursor.pos - cursor.pos
      (length, ⟨cursor.after.take length, stop.groups⟩)

/-- The matches of a pattern in a text, from left to right. -/
def matchesIn (pattern : Pattern) (text : List Char) : List (Occurrence Found) :=
  occurrences (pattern.recognize text.length) text

end StructuredText.Pattern
