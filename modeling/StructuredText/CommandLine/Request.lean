import StructuredText.CommandLine.Argument
import StructuredText.CommandLine.Usage
import StructuredText.Format

/-!
# Requests

What a command line asks for. The program's own options come first; the first argument that is no
option names the command, and all arguments behind it belong to the command. Arguments are taken
from left to right, and the first one that asks for a help text or is wrong ends the reading. What
nobody knows is reported last, after a script that is missing.
-/

namespace StructuredText.CommandLine

/-- What to format and how. -/
structure Request where
  script : String
  mode : Format.Mode
  style : String
  check : Bool
  inPlace : Bool
  vocabulary : Option String
deriving Repr, DecidableEq

/-- Why the reading of a command line ends early. -/
inductive Stop where
  | show (text : String)
  | wrong (error : UsageError)
deriving Repr, DecidableEq

/-! ## Options -/

inductive ProgramOption where
  | help
  | version
deriving Repr, DecidableEq

inductive FormatOption where
  | help
  | mode
  | style
  | check
  | inPlace
  | vocabulary
deriving Repr, DecidableEq

def programForms : List (OptionForm ProgramOption) :=
  [⟨["-h", "--help"], false, .help⟩, ⟨["--version"], false, .version⟩]

def formatForms : List (OptionForm FormatOption) :=
  [⟨["-h", "--help"], false, .help⟩, ⟨["--mode"], true, .mode⟩, ⟨["--style"], true, .style⟩,
   ⟨["--check"], false, .check⟩, ⟨["--in-place"], false, .inPlace⟩,
   ⟨["--vocabulary"], true, .vocabulary⟩]

/-- What the letters behind `-h` leave over that no option can take. -/
def ignoredLetters : List Char → Option (List Char)
  | [] => none
  | '-' :: rest => some ('-' :: rest)
  | 'h' :: '=' :: rest => some rest
  | 'h' :: rest => ignoredLetters rest
  | _ => none

/-- What an option that takes no value has behind it all the same. -/
def ignoredValue : Attachment → Option (List Char)
  | .nothing => none
  | .behindEquals text => some text
  | .behindLetter text => ignoredLetters text

/-- Refuses a value behind an option that takes none. -/
def refuseValue {α : Type} (scope : Scope) (form : OptionForm α) (attachment : Attachment) :
    Except Stop Unit :=
  match ignoredValue attachment with
  | some text => .error (.wrong ⟨scope, .ignoredValue form.label (String.ofList text)⟩)
  | none => .ok ()

/-! ## The command that formats -/

/-- What has been read of the arguments behind the command. -/
structure Draft where
  script : Option String
  mode : Format.Mode
  style : String
  check : Bool
  inPlace : Bool
  vocabulary : Option String
  unrecognized : List String
deriving Repr, DecidableEq

namespace Draft

def initial : Draft :=
  ⟨none, .canonical, Format.styleName, false, false, none, []⟩

/-- Keeps an argument that nobody knows. -/
def leave (draft : Draft) (text : String) : Draft :=
  { draft with unrecognized := draft.unrecognized ++ [text] }

/-- Takes an option without a value. -/
def setFlag (draft : Draft) (form : OptionForm FormatOption) (attachment : Attachment) :
    Except Stop Draft := do
  refuseValue .format form attachment
  match form.meaning with
  | .check => return { draft with check := true }
  | .inPlace => return { draft with inPlace := true }
  | _ => .error (.show Scope.format.help)

/-- Takes an option with its value. -/
def setValue (draft : Draft) (form : OptionForm FormatOption) (value : String) :
    Except Stop Draft :=
  match form.meaning with
  | .mode =>
      match Format.Mode.ofName? value with
      | some mode => .ok { draft with mode }
      | none =>
          .error (.wrong ⟨.format, .badChoice form.label value (Format.Mode.all.map (·.name))⟩)
  | .style => .ok { draft with style := value }
  | .vocabulary => .ok { draft with vocabulary := some value }
  | _ => .ok draft

/-- The text of the first argument, if it is a value. -/
def firstValue : List (String × Argument FormatOption) → Option String
  | (text, .value) :: _ => some text
  | _ => none

def startsWithSeparator : List (String × Argument FormatOption) → Bool
  | (_, .separator) :: _ => true
  | _ => false

/-- Takes the arguments behind the command; with `skip` the first has been taken already. The
script is the first value that belongs to no option, and a `--` next to it goes with it. -/
def read (draft : Draft) (skip : Bool) :
    List (String × Argument FormatOption) → Except Stop Draft
  | [] => .ok draft
  | (text, argument) :: others =>
      if skip then draft.read false others
      else
        match argument with
        | .unknown => (draft.leave text).read false others
        | .value =>
            match draft.script with
            | none => { draft with script := some text }.read (startsWithSeparator others) others
            | some _ => (draft.leave text).read false others
        | .separator =>
            match draft.script, firstValue others with
            | none, some script => { draft with script := some script }.read true others
            | _, _ => (draft.leave text).read false others
        | .option form attachment =>
            if form.takesValue then
              match attachment, firstValue others with
              | .behindEquals value, _ | .behindLetter value, _ => do
                  (← draft.setValue form (String.ofList value)).read false others
              | .nothing, some value => do (← draft.setValue form value).read true others
              | .nothing, none => .error (.wrong ⟨.format, .noValue form.label⟩)
            else do (← draft.setFlag form attachment).read false others

end Draft

/-- Classifies arguments, or tells which one is ambiguous. -/
def classifyIn {α : Type} (scope : Scope) (forms : List (OptionForm α))
    (arguments : List String) : Except Stop (List (String × Argument α)) :=
  (classifyAll forms arguments).mapError fun found =>
    .wrong ⟨scope, .ambiguous (String.ofList found.text) (found.spellings.map String.ofList)⟩

/-- The request that the arguments behind the command make. `earlier` are the arguments before it
that nobody knows. -/
def readFormat (earlier arguments : List String) : Except Stop Request := do
  let draft ← Draft.initial.read false (← classifyIn .format formatForms arguments)
  match draft.script with
  | none => .error (.wrong ⟨.format, .required "script"⟩)
  | some script =>
      let unrecognized := earlier ++ draft.unrecognized
      if unrecognized.isEmpty then
        return ⟨script, draft.mode, draft.style, draft.check, draft.inPlace, draft.vocabulary⟩
      else .error (.wrong ⟨.program, .unrecognized unrecognized⟩)

/-! ## The program -/

def commandName : String :=
  "fmt"

/-- Goes to the command of the given name. -/
def readCommand (earlier : List String) (name : String) (arguments : List String) :
    Except Stop Request :=
  if name = commandName then readFormat earlier arguments
  else .error (.wrong ⟨.program, .badChoice "command" name [commandName]⟩)

/-- Takes the program's options up to the command. A `--` in front of other arguments is taken for
the command. -/
def readProgram (earlier : List String) :
    List (String × Argument ProgramOption) → Except Stop Request
  | [] | [(_, .separator)] => .error (.wrong ⟨.program, .required "command"⟩)
  | (text, .unknown) :: others => readProgram (earlier ++ [text]) others
  | (text, .value) :: others | (text, .separator) :: others =>
      readCommand earlier text (others.map (·.1))
  | (_, .option form attachment) :: _ => do
      refuseValue .program form attachment
      match form.meaning with
      | .help => .error (.show Scope.program.help)
      | .version => .error (.show version)

/-- The request that a command line makes. -/
def request (arguments : List String) : Except Stop Request := do
  readProgram [] (← classifyIn .program programForms arguments)

end StructuredText.CommandLine
