import StructuredText.Text.Word

/-!
# Arguments

Which arguments of a command line are options. An option may be cut short as long as no other has
the same start, and its value may stand behind an equals sign. A single letter option may have more
letters behind it. From the argument `--` on, nothing is an option.
-/

namespace StructuredText.CommandLine

/-- An option: how it is spelt, whether it takes a value, and what it means. -/
structure OptionForm (α : Type) where
  spellings : List String
  takesValue : Bool
  meaning : α
deriving Repr, DecidableEq

/-- How messages name an option. -/
def OptionForm.label {α : Type} (form : OptionForm α) : String :=
  "/".intercalate form.spellings

/-- What an argument has behind the spelling of its option: nothing, a text behind an equals sign,
or further letters. -/
inductive Attachment where
  | nothing
  | behindEquals (text : List Char)
  | behindLetter (text : List Char)
deriving Repr, DecidableEq

inductive Argument (α : Type) where
  | value
  /-- The first `--`. -/
  | separator
  | option (form : OptionForm α) (attachment : Attachment)
  /-- An option that there is not. -/
  | unknown
deriving Repr, DecidableEq

/-- All spellings of the given options, in order. -/
def spellingTable {α : Type} (forms : List (OptionForm α)) : List (List Char × OptionForm α) :=
  forms.flatMap fun form => form.spellings.map fun spelling => (spelling.toList, form)

/-- The part of an argument before its first equals sign, and what stands behind the sign. -/
def splitEquals : List Char → List Char × Attachment
  | [] => ([], .nothing)
  | c :: rest =>
      if c = '=' then ([], .behindEquals rest)
      else
        let (start, attachment) := splitEquals rest
        (c :: start, attachment)

/-- A spelling that an argument may stand for, and how. -/
structure Candidate (α : Type) where
  spelling : List Char
  form : OptionForm α
  attachment : Attachment
deriving Repr, DecidableEq

/-- The spellings that an argument may be short for, or that it may have letters behind. -/
def candidates {α : Type} (forms : List (OptionForm α)) (text : List Char) :
    List (Candidate α) :=
  if ['-', '-'].isPrefixOf text then
    let (start, attachment) := splitEquals text
    (spellingTable forms).filterMap fun (spelling, form) =>
      if start.isPrefixOf spelling then some ⟨spelling, form, attachment⟩ else none
  else
    (spellingTable forms).filterMap fun (spelling, form) =>
      if spelling = text.take 2 then some ⟨spelling, form, .behindLetter (text.drop 2)⟩
      else if text.isPrefixOf spelling then some ⟨spelling, form, .nothing⟩
      else none

/-- Whether a text is a number with a minus sign. A line feed may stand behind it. -/
def isNegativeNumber (text : List Char) : Bool :=
  match text with
  | '-' :: number =>
      let number := if number.getLast? == some '\n' then number.dropLast else number
      let behindDigits := number.dropWhile isDigit
      match behindDigits with
      | [] => !number.isEmpty
      | '.' :: decimals => !decimals.isEmpty && decimals.all isDigit
      | _ => false
  | _ => false

/-- An argument that may stand for several spellings. -/
structure Ambiguity where
  text : List Char
  spellings : List (List Char)
deriving Repr, DecidableEq

/-- What an argument before `--` is. -/
def classify {α : Type} (forms : List (OptionForm α)) (text : List Char) :
    Except Ambiguity (Argument α) :=
  if text.head? != some '-' then .ok .value
  else
    match (spellingTable forms).lookup text with
    | some form => .ok (.option form .nothing)
    | none =>
        if text.length = 1 then .ok .value
        else
          let (start, attachment) := splitEquals text
          match attachment, (spellingTable forms).lookup start with
          | .behindEquals value, some form => .ok (.option form (.behindEquals value))
          | _, _ =>
              match candidates forms text with
              | [found] => .ok (.option found.form found.attachment)
              | [] =>
                  if isNegativeNumber text || text.contains ' ' then .ok .value
                  else .ok .unknown
              | found => .error ⟨text, found.map (·.spelling)⟩

/-- What the arguments of a command line are, each with its text. -/
def classifyAll {α : Type} (forms : List (OptionForm α)) :
    List String → Except Ambiguity (List (String × Argument α))
  | [] => .ok []
  | text :: others =>
      if text = "--" then
        .ok ((text, .separator) :: others.map fun other => (other, .value))
      else do
        let argument ← classify forms text.toList
        let arguments ← classifyAll forms others
        return (text, argument) :: arguments

end StructuredText.CommandLine
