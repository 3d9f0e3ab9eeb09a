import StructuredText.CommandLine.Request
import StructuredText.Vocabulary.Load

/-!
# Running a request

A run takes a file tree to a file tree. It formats one file, or all `.st` files below a directory in
order, and either prints the result, tells which files need formatting, or replaces the files that
do. A file that cannot be read ends the run; the files before it have been dealt with.
-/

namespace StructuredText.CommandLine

/-- A fault that the program does not expect. -/
inductive Failure where
  | vocabulary (error : Vocabulary.Error)
  | search (fault : FileTree.SearchFault)
  | content (fault : FileTree.ContentFault)
  | pattern (fault : Pattern.Fault)
  | file (fault : FileTree.Fault)
deriving Repr, DecidableEq

def Failure.message : Failure → String
  | .vocabulary error => error.message
  | .search fault | .content fault | .pattern fault | .file fault => fault.message

/-- How a run ends. -/
inductive Ending where
  | status (code : Nat)
  | misuse (error : UsageError)
  | failure (failure : Failure)
deriving Repr, DecidableEq

/-- What a run leaves behind. -/
structure Outcome where
  tree : FileTree
  output : String
  notices : List Notice
  ending : Ending
deriving Repr, DecidableEq

/-- What a run has done so far. `changed` tells whether some file needs formatting. -/
structure Progress where
  tree : FileTree
  output : String
  notices : List Notice
  changed : Bool
deriving Repr, DecidableEq

namespace Progress

def start (tree : FileTree) : Progress :=
  ⟨tree, "", [], false⟩

def print (progress : Progress) (text : String) : Progress :=
  { progress with output := progress.output ++ text }

def notify (progress : Progress) (notices : List Notice) : Progress :=
  { progress with notices := progress.notices ++ notices }

/-- The run ends here. -/
def finish (progress : Progress) (ending : Ending) : Outcome :=
  ⟨progress.tree, progress.output, progress.notices, ending⟩

/-- The run ends with a line that tells why. -/
def fail (progress : Progress) (reason : String) : Outcome :=
  (progress.print ("failed: " ++ reason ++ "\n")).finish (.status 1)

end Progress

/-- The suffix of the files that are formatted below a directory. -/
def scriptSuffix : String :=
  ".st"

/-- What the name of a temporary file ends in. -/
def temporaryEnding : String :=
  ".tmp"

/-- The files below a directory that are formatted. -/
def scriptsBelow (tree : FileTree) (directory : Path) : List Path :=
  (tree.filesBelow directory).filter fun path => lower path.suffix == scriptSuffix.toList

/-- Deals with the text of a file and its formatted form. A run that prints ends with the first
file. -/
def deliver (request : Request) (path : Path) (text formatted : List Char)
    (progress : Progress) : Except Outcome Progress :=
  if request.check then
    if formatted = text then .ok progress
    else .ok { progress.print ("needs format: " ++ path.render ++ "\n") with changed := true }
  else if request.inPlace then
    if formatted = text then .ok progress
    else
      match progress.tree.replace path temporaryEnding (Utf8.encode formatted) with
      | .ok tree => .ok ({ progress with tree }.print ("ok: wrote " ++ path.render ++ "\n"))
      | .error fault => .error (progress.finish (.failure (.file fault)))
  else .error ((progress.print (String.ofList formatted)).finish (.status 0))

section

variable [Host]

/-- Formats one file. -/
def formatFile (request : Request) (vocabulary : Vocabulary) (progress : Progress)
    (path : Path) : Except Outcome Progress :=
  match progress.tree.readText path with
  | .error (.file fault) => .error (progress.fail fault.message)
  | .error (.content fault) => .error (progress.finish (.failure (.content fault)))
  | .ok text =>
      match Format.inMode request.mode vocabulary path.render text with
      | .error fault =>
          .error
            ((progress.notify (Format.unterminatedNotice path.render text)).finish
              (.failure (.pattern fault)))
      | .ok formatted =>
          deliver request path text formatted.text (progress.notify formatted.notices)

/-- Formats files one after another. -/
def formatFiles (request : Request) (vocabulary : Vocabulary) (paths : List Path)
    (progress : Progress) : Outcome :=
  match paths.foldlM (formatFile request vocabulary) progress with
  | .error outcome => outcome
  | .ok progress => progress.finish (.status (if progress.changed then 1 else 0))

/-- The vocabulary of a request. An empty path is none. -/
def requestVocabulary (tree : FileTree) (request : Request) :
    Except Vocabulary.Error Vocabulary :=
  match request.vocabulary with
  | none | some "" => .ok .standard
  | some path => Vocabulary.load tree (.ofString path) .standard

/-- Formats what a request asks for. -/
def formatScripts (request : Request) (vocabulary : Vocabulary) (tree : FileTree) : Outcome :=
  let progress := Progress.start tree
  let script := Path.ofString request.script
  match tree.searchFault script with
  | some fault => progress.finish (.failure (.search fault))
  | none =>
      if tree.isDirectory script then
        let paths := scriptsBelow tree script
        if paths.isEmpty then
          if request.check || request.inPlace then
            (progress.print ("ok: no " ++ scriptSuffix ++ " files found\n")).finish (.status 0)
          else
            progress.fail
              ("no " ++ scriptSuffix ++
                " files found (use --check or --in-place for directories)")
        else if request.check || request.inPlace then
          formatFiles request vocabulary paths progress
        else progress.fail "directory formatting requires --check or --in-place"
      else formatFiles request vocabulary [script] progress

/-- Runs a request. -/
def perform (request : Request) (tree : FileTree) : Outcome :=
  let progress := Progress.start tree
  if request.check && request.inPlace then
    progress.fail "--check and --in-place are mutually exclusive"
  else if request.style ≠ Format.styleName then
    progress.fail
      ("unsupported style '" ++ request.style ++ "' (expected '" ++ Format.styleName ++ "')")
  else
    match requestVocabulary tree request with
    | .error (.load error) => progress.fail error.message
    | .error error => progress.finish (.failure (.vocabulary error))
    | .ok vocabulary => formatScripts request vocabulary tree

/-- Runs a command line. -/
def run (arguments : List String) (tree : FileTree) : Outcome :=
  let progress := Progress.start tree
  match request arguments with
  | .error (.show text) => (progress.print text).finish (.status 0)
  | .error (.wrong error) => progress.finish (.misuse error)
  | .ok request => perform request tree

end

end StructuredText.CommandLine
