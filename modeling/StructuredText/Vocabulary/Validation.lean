import StructuredText.Json.Basic
import StructuredText.Location
import StructuredText.Vocabulary.Basic

/-!
# Vocabularies as JSON

A vocabulary is written as a JSON object that has a list of entries under the key of each field; a
field that is left out is empty. All findings are reported: those on the fields in their order,
then those on keys that are no field's, in the order of the object. Only an entry that meets a limit
of the reader of patterns ends the check without any report.
-/

namespace StructuredText.Vocabulary

/-- What is wrong with a value, or with what is done to it. -/
inductive Issue where
  | notAList
  | notAString
  | entry (fault : EntryFault)
  | unknownKey
  /-- A vocabulary does not change once it is made. -/
  | frozen
deriving Repr, DecidableEq

def Issue.message : Issue → String
  | .notAList => "Input should be a valid tuple"
  | .notAString => "Input should be a valid string"
  | .entry fault => "Value error, " ++ fault.message
  | .unknownKey => "Extra inputs are not permitted"
  | .frozen => "Instance is frozen"

/-- An issue, with the keys and indices that lead to where it is. -/
structure Finding where
  place : List String
  issue : Issue
deriving Repr, DecidableEq

def Finding.message (finding : Finding) : String :=
  let place := ".".intercalate finding.place
  if place.isEmpty then finding.issue.message else place ++ ": " ++ finding.issue.message

def findingsMessage (findings : List Finding) : String :=
  "; ".intercalate (findings.map Finding.message)

/-- The texts of a list of JSON strings. -/
def strings? : List Json → Option (List String)
  | [] => some []
  | .string text :: items => (strings? items).map (text :: ·)
  | _ :: _ => none

/-- Findings on the items of a list that are no strings. `index` is that of the first item. -/
def itemFindings (key : String) (index : Nat) : List Json → List Finding
  | [] => []
  | .string _ :: items => itemFindings key (index + 1) items
  | _ :: items => ⟨[key, toString index], .notAString⟩ :: itemFindings key (index + 1) items

/-- Why a value is refused: there are findings on it, or an entry meets a limit of the reader of
patterns. -/
inductive Refusal where
  | findings (found : List Finding)
  | limit (fault : Pattern.Fault)
deriving Repr, DecidableEq

/-- Why a field is refused that has a wrong entry. -/
def Refusal.ofEntry (field : Field) (fault : EntryFault) : Refusal :=
  match fault.limit? with
  | some fault => .limit fault
  | none => .findings [⟨[field.key], .entry fault⟩]

section

variable [Host]

/-- The entries that a JSON value gives a field. -/
def fieldEntries (field : Field) : Json → Except Refusal (List String)
  | .array items =>
      match strings? items with
      | none => .error (.findings (itemFindings field.key 0 items))
      | some entries =>
          match entriesFault entries with
          | some fault => .error (.ofEntry field fault)
          | none => .ok entries
  | _ => .error (.findings [⟨[field.key], .notAList⟩])

/-- The entries that an object gives a field. -/
def entriesOf (fields : List (String × Json)) (field : Field) : Except Refusal (List String) :=
  match fields.lookup field.key with
  | some value => fieldEntries field value
  | none => .ok []

end

/-- Findings on keys that are no field's. -/
def unknownKeys (fields : List (String × Json)) : List Finding :=
  (fields.filter fun entry => !(Field.all.map Field.key).contains entry.1).map fun entry =>
    ⟨[entry.1], .unknownKey⟩

section

variable [Host]

/-- The first limit that an entry of an object meets. -/
def limitFault (fields : List (String × Json)) : Option Pattern.Fault :=
  Field.all.findSome? fun field =>
    match entriesOf fields field with
    | .error (.limit fault) => some fault
    | _ => none

/-- All findings on an object. -/
def findings (fields : List (String × Json)) : List Finding :=
  (Field.all.flatMap fun field =>
    match entriesOf fields field with
    | .error (.findings found) => found
    | _ => []) ++ unknownKeys fields

/-- The vocabulary that an object describes, or what is wrong with it. -/
def ofFields (fields : List (String × Json)) : Except Refusal Vocabulary :=
  match limitFault fields, findings fields with
  | some fault, _ => .error (.limit fault)
  | none, [] => .ok (ofEntries fun field => (entriesOf fields field).toOption.getD [])
  | none, found => .error (.findings found)

end

/-- The object that describes a vocabulary. -/
def toFields (vocabulary : Vocabulary) : List (String × Json) :=
  Field.all.map fun field => (field.key, .array ((vocabulary.entries field).map .string))

/-- Adds the entries of `b` to `a`, and checks all of them. -/
def extend [Host] (a b : Vocabulary) : Except Refusal Vocabulary :=
  ofFields (a.merge b).toFields

/-! ## Errors -/

/-- Why a value is no vocabulary. -/
inductive ValueError where
  | notAnObject
  | invalid (findings : List Finding)
deriving Repr, DecidableEq

def ValueError.message : ValueError → String
  | .notAnObject => "vocabulary must be a JSON object"
  | .invalid findings => "invalid vocabulary: " ++ findingsMessage findings

/-- The keys and indices that lead to the first finding. -/
def ValueError.place : ValueError → List String
  | .notAnObject | .invalid [] => []
  | .invalid (finding :: _) => finding.place

end StructuredText.Vocabulary
