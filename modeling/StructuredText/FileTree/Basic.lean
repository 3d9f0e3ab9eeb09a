import StructuredText.FileTree.Path
import StructuredText.Host
import StructuredText.Text.Quoted
import StructuredText.Text.Utf8

/-!
# File trees

A file tree holds directories and files, each under the list of names that leads to it from the
root, and knows the working directory. Every name of a path but the last has to be that of a
directory when the path is followed, and neither a name nor the path may have too many bytes.

Left out are links, permissions, and all else that a disk holds besides directories and files: what
the tree has can be read and written.
-/

namespace StructuredText

structure FileTree where
  home : List String
  directories : List (List String)
  files : List (List String × List UInt8)
deriving Repr, DecidableEq

namespace FileTree

/-- A place and all places on the way to it from the root. -/
def placesTo (place : List String) : List (List String) :=
  (List.range place.length).map fun n => place.take (n + 1)

/-- A tree with nothing but its working directory. -/
def empty (home : List String) : FileTree :=
  ⟨home, placesTo home, []⟩

def hasDirectory (tree : FileTree) (place : List String) : Bool :=
  place.isEmpty || tree.directories.contains place

/-- The bytes of the file at a place. -/
def bytes? (tree : FileTree) (place : List String) : Option (List UInt8) :=
  tree.files.lookup place

def hasFile (tree : FileTree) (place : List String) : Bool :=
  (tree.bytes? place).isSome

/-! ## Faults -/

inductive Cause where
  | missing
  | notADirectory
  | isADirectory
  | tooLong
deriving Repr, DecidableEq

def Cause.message : Cause → String
  | .missing => "[Errno 2] No such file or directory"
  | .notADirectory => "[Errno 20] Not a directory"
  | .isADirectory => "[Errno 21] Is a directory"
  | .tooLong => "[Errno 36] File name too long"

/-- Why something cannot be done with the file at a path. -/
structure Fault where
  cause : Cause
  path : Path
deriving Repr, DecidableEq

def Fault.message (fault : Fault) : String :=
  fault.cause.message ++ ": " ++ quotedString fault.path.render

/-! ## Following paths -/

/-- Names have no more bytes. -/
def mostNameBytes : Nat :=
  255

/-- Paths, as they are written, have no more bytes. -/
def mostPathBytes : Nat :=
  4095

def byteCount (text : String) : Nat :=
  (Utf8.encode text.toList).length

/-- The place that names lead to from a directory. The last name need not exist. -/
def follow (tree : FileTree) (place : List String) : List String → Except Cause (List String)
  | [] => .ok place
  | name :: others =>
      if name = ".." then follow tree place.dropLast others
      else if byteCount name > mostNameBytes then .error .tooLong
      else if others.isEmpty then .ok (place ++ [name])
      else if tree.hasDirectory (place ++ [name]) then follow tree (place ++ [name]) others
      else if tree.hasFile (place ++ [name]) then .error .notADirectory
      else .error .missing

/-- The place that a path leads to. -/
def locate (tree : FileTree) (path : Path) : Except Cause (List String) :=
  if byteCount path.render > mostPathBytes then .error .tooLong
  else tree.follow (if path.root.isEmpty then tree.home else []) path.names

/-- Whether a path cannot be followed because of its length. -/
def isTooLong (tree : FileTree) (path : Path) : Bool :=
  match tree.locate path with
  | .error .tooLong => true
  | _ => false

def isDirectory (tree : FileTree) (path : Path) : Bool :=
  match tree.locate path with
  | .ok place => tree.hasDirectory place
  | .error _ => false

/-- The bytes of the file at a path. -/
def read (tree : FileTree) (path : Path) : Except Fault (List UInt8) :=
  match tree.locate path with
  | .error cause => .error ⟨cause, path⟩
  | .ok place =>
      if tree.hasDirectory place then .error ⟨.isADirectory, path⟩
      else
        match tree.bytes? place with
        | some bytes => .ok bytes
        | none => .error ⟨.missing, path⟩

/-- The names that lead from `directory` to a place below it. -/
def namesBelow (directory place : List String) : Option (List String) :=
  if directory.isPrefixOf place then some (place.drop directory.length) else none

/-- The paths of all files below a directory, in order. -/
def filesBelow (tree : FileTree) (path : Path) : List Path :=
  match tree.locate path with
  | .error _ => []
  | .ok directory =>
      ((tree.files.filterMap fun file => namesBelow directory file.1).mergeSort
        Path.precedes).map path.below

/-- Why it cannot be told which files a path stands for. -/
inductive SearchFault where
  | file (fault : Fault)
  /-- Too many directories are inside one another. -/
  | tooDeep
deriving Repr, DecidableEq

def SearchFault.message : SearchFault → String
  | .file fault => fault.message
  | .tooDeep => "maximum recursion depth exceeded"

/-- What keeps the files at a path, or below it if it is a directory, from being found. A path with
a null character leads nowhere, however long it is. -/
def searchFault [Host] (tree : FileTree) (path : Path) : Option SearchFault :=
  match tree.locate path with
  | .error cause =>
      if cause = .tooLong && !path.render.toList.contains '\x00' then some (.file ⟨cause, path⟩)
      else none
  | .ok place =>
      let directories := tree.directories.filterMap (namesBelow place)
      let files := tree.files.filterMap fun file => namesBelow place file.1
      if tree.hasDirectory place then
        match ((directories ++ files).map path.below).find? tree.isTooLong with
        | some found => some (.file ⟨.tooLong, found⟩)
        | none => if directories.any (·.length > Host.levels) then some .tooDeep else none
      else none

/-! ## Changes -/

/-- Puts bytes in the file at a place, which is made if it does not exist. -/
def put (tree : FileTree) (place : List String) (bytes : List UInt8) : FileTree :=
  { tree with files := (place, bytes) :: tree.files.filter (·.1 != place) }

/-- Takes away the file at a place. -/
def erase (tree : FileTree) (place : List String) : FileTree :=
  { tree with files := tree.files.filter (·.1 != place) }

theorem lookup_filter_ne {β : Type} (place : List String) (files : List (List String × β)) :
    (files.filter (·.1 != place)).lookup place = none := by
  rw [List.lookup_eq_none_iff]
  intro file h
  have hne := (List.mem_filter.mp h).2
  simp only [bne_iff_ne] at hne ⊢
  exact Ne.symm hne

theorem lookup_filter_of_ne {β : Type} {place other : List String} (h : other ≠ place) :
    ∀ files : List (List String × β),
      (files.filter (·.1 != place)).lookup other = files.lookup other
  | [] => rfl
  | (name, value) :: files => by
    have ih := lookup_filter_of_ne h files
    by_cases hn : name = place
    · have hne : (other == name) = false := by simp [hn, h]
      rw [List.lookup_cons, hne, List.filter_cons_of_neg (by simp [hn]), ih]
    · rw [List.filter_cons_of_pos (by simp [hn]), List.lookup_cons, List.lookup_cons, ih]

@[simp] theorem bytes?_put_self (tree : FileTree) (place : List String) (bytes : List UInt8) :
    (tree.put place bytes).bytes? place = some bytes := by
  simp [bytes?, put]

theorem bytes?_put_of_ne {place other : List String} (h : other ≠ place) (tree : FileTree)
    (bytes : List UInt8) : (tree.put place bytes).bytes? other = tree.bytes? other := by
  have hne : (other == place) = false := by simp [h]
  simp [bytes?, put, List.lookup_cons, hne, lookup_filter_of_ne h]

@[simp] theorem bytes?_erase_self (tree : FileTree) (place : List String) :
    (tree.erase place).bytes? place = none :=
  lookup_filter_ne place tree.files

theorem bytes?_erase_of_ne {place other : List String} (h : other ≠ place) (tree : FileTree) :
    (tree.erase place).bytes? other = tree.bytes? other :=
  lookup_filter_of_ne h tree.files

/-- Makes a directory and all directories above it. -/
def makeDirectory (tree : FileTree) (place : List String) : FileTree :=
  { tree with
    directories :=
      tree.directories ++ (placesTo place).filter fun above => !tree.hasDirectory above }

/-- Puts bytes in the file at a path by way of a temporary file beside it, whose name has `ending`
behind that of the file. A file of that name is lost. -/
def replace (tree : FileTree) (path : Path) (ending : String) (bytes : List UInt8) :
    Except Fault FileTree := do
  let temporary := path.withEnding ending
  let place ← (tree.locate path).mapError (⟨·, path⟩)
  let besides ← (tree.locate temporary).mapError (⟨·, temporary⟩)
  if tree.hasDirectory besides then .error ⟨.isADirectory, temporary⟩
  else return (tree.erase besides).put place bytes

end FileTree

end StructuredText
