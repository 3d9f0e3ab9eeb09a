import StructuredText.FileTree.Text
import StructuredText.Json.Parser
import StructuredText.Vocabulary.Standard
import StructuredText.Vocabulary.Validation

/-!
# Vocabulary files

A vocabulary file holds a vocabulary as JSON, which is added to another vocabulary.
-/

namespace StructuredText.Vocabulary

/-- Why there is no vocabulary. -/
inductive LoadError where
  | unreadable (fault : FileTree.Fault)
  | notJson (file : String) (cause : Json.Cause) (line : Nat)
  | wrongValue (file : String) (error : ValueError)
deriving Repr, DecidableEq

namespace LoadError

/-- What is wrong, without its location. -/
def summary : LoadError → String
  | .unreadable fault => "cannot read vocabulary: " ++ fault.message
  | .notJson _ cause _ => "vocabulary is not valid JSON: " ++ cause.message
  | .wrongValue _ error => error.message

/-- A value that is no vocabulary is located at the first line of its file. -/
def location : LoadError → Option Location
  | .unreadable _ => none
  | .notJson file _ line => some ⟨file, line, line⟩
  | .wrongValue file _ => some ⟨file, 1, 1⟩

def message (error : LoadError) : String :=
  locatedMessage error.summary error.location

/-- The keys and indices that lead to what is wrong. -/
def place : LoadError → List String
  | .unreadable _ | .notJson _ _ _ => []
  | .wrongValue _ error => error.place

end LoadError

/-- How messages name the file of a vocabulary that comes from no file. -/
def unnamedFile : String :=
  "<vocabulary>"

/-- Why a vocabulary cannot be made: an error that is told about, or a fault that nobody expects. -/
inductive Error where
  | load (error : LoadError)
  | findings (found : List Finding)
  | content (fault : FileTree.ContentFault)
  | json (fault : Json.Fault)
  | pattern (fault : Pattern.Fault)
deriving Repr, DecidableEq

namespace Error

def message : Error → String
  | .load error => error.message
  | .findings found => findingsMessage found
  | .content fault => fault.message
  | .json fault => fault.cause.message
  | .pattern fault => fault.message

def ofRefusal : Refusal → Error
  | .findings found => .findings found
  | .limit fault => .pattern fault

/-- The error of an object that stands in a file. -/
def ofRefusalIn (file : String) : Refusal → Error
  | .findings found => .load (.wrongValue file (.invalid found))
  | .limit fault => .pattern fault

end Error

section

variable [Host]

/-- The vocabulary that a JSON value describes; `file` is named in errors. -/
def parse (file : String) : Json → Except Error Vocabulary
  | .object fields => (ofFields fields).mapError (.ofRefusalIn file)
  | _ => .error (.load (.wrongValue file .notAnObject))

/-- The vocabulary that the text of a file describes. -/
def parseText (file : String) (text : List Char) : Except Error Vocabulary :=
  match Json.parse text with
  | .ok value => parse file value
  | .error fault =>
      if fault.cause.isLimit then .error (.json fault)
      else .error (.load (.notJson file fault.cause (fault.line text)))

/-- Adds the vocabulary in the file at a path to another vocabulary. -/
def load (tree : FileTree) (path : Path) (base : Vocabulary) : Except Error Vocabulary :=
  match tree.readText path with
  | .error (.file fault) => .error (.load (.unreadable fault))
  | .error (.content fault) => .error (.content fault)
  | .ok text => do
      let additions ← parseText path.render text
      (base.extend additions).mapError .ofRefusal

end

end StructuredText.Vocabulary
