import StructuredText.CommandLine.Run

/-!
# The program

Takes from the disk what a command line asks about, runs the command line on it, and brings the
disk up to date.
-/

namespace StructuredText.Program

open CommandLine

/-- The path on the disk of a place in a tree. -/
def diskPath (place : List String) : String :=
  "/" ++ "/".intercalate place

/-- The names of what a directory on the disk holds, if it is one. -/
def namesIn? (place : List String) : IO (Option (List String)) := do
  try
    let entries ← ((← IO.currentDir) / diskPath place).readDir
    return some (entries.toList.map (·.fileName))
  catch _ => return none

/-- The bytes of a file on the disk, if it is one. -/
def bytesOf? (place : List String) : IO (Option (List UInt8)) := do
  try return some (← IO.FS.readBinFile (diskPath place)).toList
  catch _ => return none

/-- Adds the directory or file at a place to a tree. -/
def addPlace (tree : FileTree) (place : List String) : IO FileTree := do
  if (← namesIn? place).isSome then return tree.makeDirectory place
  match ← bytesOf? place with
  | some bytes => return tree.put place bytes
  | none => return tree

/-- Adds all that names lead past from a place. -/
def addAlong (tree : FileTree) (place : List String) : List String → IO FileTree
  | [] => return tree
  | ".." :: names => addAlong tree place.dropLast names
  | name :: names => do addAlong (← addPlace tree (place ++ [name])) (place ++ [name]) names

/-- Adds all that is below a directory. -/
partial def addBelow (tree : FileTree) (place : List String) : IO FileTree := do
  match ← namesIn? place with
  | none => return tree
  | some names =>
      names.foldlM
        (fun tree name => do
          addBelow (← addPlace tree (place ++ [name])) (place ++ [name]))
        tree

/-- Adds what a path leads past and to. -/
def addPath (tree : FileTree) (path : Path) : IO FileTree := do
  let start := if path.root.isEmpty then tree.home else []
  let tree ← addAlong tree start path.names
  match tree.locate path with
  | .ok place => addBelow tree place
  | .error _ => return tree

/-- The part of the disk that a request is about. -/
def treeFor (request : Request) : IO FileTree := do
  let home := (Path.ofString (← IO.currentDir).toString).names
  let script := Path.ofString request.script
  let tree ← addPath (.empty home) script
  let tree ← if script.names.isEmpty then pure tree
    else addPath tree (script.withEnding temporaryEnding)
  match request.vocabulary with
  | some path => addPath tree (.ofString path)
  | none => return tree

/-- Brings the disk from one tree to another. -/
def store (before after : FileTree) : IO Unit := do
  for file in before.files do
    if !after.hasFile file.1 then IO.FS.removeFile (diskPath file.1)
  for file in after.files do
    if before.bytes? file.1 != some file.2 then
      let path := diskPath file.1
      IO.FS.writeBinFile (path ++ temporaryEnding) (ByteArray.mk file.2.toArray)
      IO.FS.rename (path ++ temporaryEnding) path

/-- Prints what a run tells, and gives its exit status. -/
def conclude (outcome : Outcome) : IO UInt32 := do
  IO.print outcome.output
  for notice in outcome.notices do
    if notice.severity == .warning then IO.eprintln notice.message
  match outcome.ending with
  | .status code => return UInt32.ofNat code
  | .misuse error =>
      IO.eprint error.scope.usage
      IO.eprintln error.message
      return 2
  | .failure failure =>
      IO.eprintln failure.message
      return 1

end StructuredText.Program

open StructuredText in
def main (arguments : List String) : IO UInt32 := do
  let before ←
    match CommandLine.request arguments with
    | .ok request => Program.treeFor request
    | .error _ => pure (FileTree.empty [])
  let outcome := @CommandLine.run Host.plain arguments before
  Program.store before outcome.tree
  Program.conclude outcome
