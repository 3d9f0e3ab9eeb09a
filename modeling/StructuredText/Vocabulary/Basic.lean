import StructuredText.Pattern.Parser

/-!
# Vocabularies

A vocabulary lists the words that formatting writes in capitals: functions, which count only where
they are called, keywords, types, and the names of blocks. An entry is a fragment of a pattern; it
counts up to case and from word boundary to word boundary. An entry may not be empty, has to be a
pattern by itself, and may keep no groups. An entry that meets a limit of the reader of patterns is
a fault of another kind, which ends all checks.
-/

namespace StructuredText

structure Vocabulary where
  functions : List String
  keywords : List String
  types : List String
  blockNames : List String
deriving Repr, DecidableEq

namespace Vocabulary

def empty : Vocabulary :=
  ⟨[], [], [], []⟩

/-- The four lists of a vocabulary. -/
inductive Field where
  | functions
  | keywords
  | types
  | blockNames
deriving Repr, DecidableEq

namespace Field

/-- The key of a field in vocabulary files. -/
def key : Field → String
  | .functions => "functions"
  | .keywords => "keywords"
  | .types => "types"
  | .blockNames => "block_names"

/-- The fields in the order in which they are checked. -/
def all : List Field :=
  [.functions, .keywords, .types, .blockNames]

end Field

def entries (vocabulary : Vocabulary) : Field → List String
  | .functions => vocabulary.functions
  | .keywords => vocabulary.keywords
  | .types => vocabulary.types
  | .blockNames => vocabulary.blockNames

def ofEntries (entries : Field → List String) : Vocabulary :=
  ⟨entries .functions, entries .keywords, entries .types, entries .blockNames⟩

/-- Why a text is no entry. -/
inductive EntryFault where
  | empty
  | notAPattern (entry : String) (fault : Pattern.Fault)
  | keepsGroups (entry : String)
deriving Repr, DecidableEq

namespace EntryFault

def message : EntryFault → String
  | .empty => "vocabulary entries must be non-empty"
  | .notAPattern entry fault =>
      match fault.kind with
      | .pattern => "invalid pattern " ++ quotedString entry ++ ": " ++ fault.message
      | .value | .limit => fault.message
  | .keepsGroups entry =>
      "pattern " ++ quotedString entry ++ " must not define capture groups"

/-- The limit of the reader that an entry meets. -/
def limit? : EntryFault → Option Pattern.Fault
  | .notAPattern _ fault => if fault.kind = .limit then some fault else none
  | .empty | .keepsGroups _ => none

end EntryFault

section

variable [Host]

/-- What is wrong with an entry. -/
def entryFault (entry : String) : Option EntryFault :=
  if entry.isEmpty then some .empty
  else
    match Pattern.compile .none entry.toList with
    | .error fault => some (.notAPattern entry fault)
    | .ok parsed => if parsed.groupCount = 0 then none else some (.keepsGroups entry)

/-- What is wrong with the first wrong entry of a list. -/
def entriesFault (entries : List String) : Option EntryFault :=
  entries.findSome? entryFault

/-- All entries may stand in a vocabulary. -/
def IsValid (vocabulary : Vocabulary) : Prop :=
  ∀ field, ∀ entry ∈ vocabulary.entries field, entryFault entry = none

end

/-- The entries of both, those of `a` first, and of `b` those that `a` does not have. -/
def mergeEntries (a b : List String) : List String :=
  a ++ b.filter fun entry => !a.contains entry

theorem mem_mergeEntries {entry : String} {a b : List String} :
    entry ∈ mergeEntries a b ↔ entry ∈ a ∨ entry ∈ b := by
  simp only [mergeEntries, List.mem_append, List.mem_filter]
  by_cases h : entry ∈ a <;> simp [h]

def merge (a b : Vocabulary) : Vocabulary :=
  ofEntries fun field => mergeEntries (a.entries field) (b.entries field)

@[simp] theorem entries_ofEntries (entries : Field → List String) (field : Field) :
    (ofEntries entries).entries field = entries field := by
  cases field <;> rfl

/-- Merging makes no wrong entry. -/
theorem IsValid.merge [Host] {a b : Vocabulary} (ha : a.IsValid) (hb : b.IsValid) :
    (a.merge b).IsValid := by
  intro field entry h
  rw [Vocabulary.merge, entries_ofEntries, mem_mergeEntries] at h
  exact h.elim (ha field entry) (hb field entry)

end Vocabulary

end StructuredText
