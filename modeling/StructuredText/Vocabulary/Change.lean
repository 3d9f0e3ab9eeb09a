import StructuredText.Vocabulary.Load

/-!
# Changes of a vocabulary

A session works on one vocabulary, which changes put others in place of. A change that fails leaves
the vocabulary as it was.
-/

namespace StructuredText.Vocabulary

inductive Change where
  | clear
  /-- The standard vocabulary. -/
  | reset
  /-- What a value describes; `file` is named in errors. -/
  | parse (file : String) (value : Json)
  /-- What the fields of an object describe. -/
  | build (fields : List (String × Json))
  /-- The current vocabulary with what a value describes added. -/
  | extend (value : Json)
  /-- What a file describes, added to the current or to the standard vocabulary. -/
  | load (tree : FileTree) (path : Path) (ontoCurrent : Bool)

section

variable [Host]

namespace Change

/-- The vocabulary that a change makes of the current one. -/
def apply (change : Change) (current : Vocabulary) : Except Error Vocabulary :=
  match change with
  | .clear => .ok .empty
  | .reset => .ok .standard
  | .parse file value => Vocabulary.parse file value
  | .build fields => (ofFields fields).mapError .ofRefusal
  | .extend value => do
      let additions ← Vocabulary.parse unnamedFile value
      (current.extend additions).mapError .ofRefusal
  | .load tree path ontoCurrent =>
      Vocabulary.load tree path (if ontoCurrent then current else .standard)

/-- The vocabulary behind a change. -/
def next (current : Vocabulary) (change : Change) : Vocabulary :=
  match change.apply current with
  | .ok vocabulary => vocabulary
  | .error _ => current

end Change

/-- The vocabulary behind a session, which starts with the empty one. -/
def afterChanges (changes : List Change) : Vocabulary :=
  changes.foldl Change.next .empty

end

end StructuredText.Vocabulary
