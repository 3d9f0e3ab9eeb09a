import StructuredText.Text.Cursor

/-!
# Occurrences

A recogniser tells where a construct stands in a text. `occurrences` walks a text from left to
right and lists what a recogniser finds: each occurrence starts at the first place where there is
one, and the next is looked for from its end on. An empty occurrence does not hide a longer one at
the same place, and may stand right behind an occurrence that is not empty.
-/

namespace StructuredText

/-- A stretch `[start, stop)` of a text, with what was recognised there. -/
structure Occurrence (α : Type) where
  start : Nat
  stop : Nat
  value : α
deriving Repr, DecidableEq

/-- How many code points a construct takes at a place, and what it is. With `advance` the
construct has to take one code point at least. -/
abbrev Recognizer (α : Type) := (advance : Bool) → Cursor → Option (Nat × α)

/-- The recogniser of a construct that a reader reads and that is never empty. -/
def Recognizer.ofReader {α : Type} (read : Cursor → Option (Cursor × α)) : Recognizer α :=
  fun _ cursor => (read cursor).map fun found => (found.1.pos - cursor.pos, found.2)

/-- The occurrences in a text whose part before `pos` is given, nearest code point first, and
whose next `skip` code points belong to an occurrence already listed. -/
def occurrencesFrom {α : Type} (find : Recognizer α) (pos skip : Nat) (before : List Char) :
    List Char → List (Occurrence α)
  | [] =>
      match skip with
      | 0 =>
          match find false ⟨pos, before, []⟩ with
          | some found => [⟨pos, pos, found.2⟩]
          | none => []
      | _ + 1 => []
  | c :: rest =>
      match skip with
      | k + 1 => occurrencesFrom find (pos + 1) k (c :: before) rest
      | 0 =>
          match find false ⟨pos, before, c :: rest⟩ with
          | none => occurrencesFrom find (pos + 1) 0 (c :: before) rest
          | some (n + 1, value) =>
              ⟨pos, pos + n + 1, value⟩ :: occurrencesFrom find (pos + 1) n (c :: before) rest
          | some (0, value) =>
              ⟨pos, pos, value⟩ ::
                match find true ⟨pos, before, c :: rest⟩ with
                | some (n + 1, longer) =>
                    ⟨pos, pos + n + 1, longer⟩ ::
                      occurrencesFrom find (pos + 1) n (c :: before) rest
                | _ => occurrencesFrom find (pos + 1) 0 (c :: before) rest

/-- The occurrences of a construct in a text, from left to right. -/
def occurrences {α : Type} (find : Recognizer α) (text : List Char) : List (Occurrence α) :=
  occurrencesFrom find 0 0 [] text

/-- Whether `holds` is true at some place of a text whose part before is given. -/
def somewhereFrom (holds : Cursor → Bool) (pos : Nat) (before : List Char) : List Char → Bool
  | [] => holds ⟨pos, before, []⟩
  | c :: rest =>
      holds ⟨pos, before, c :: rest⟩ || somewhereFrom holds (pos + 1) (c :: before) rest

/-- Whether a reader can read something at some place of the text. -/
def occursIn (read : Cursor → Option Cursor) (text : List Char) : Bool :=
  somewhereFrom (fun cursor => (read cursor).isSome) 0 [] text

end StructuredText
