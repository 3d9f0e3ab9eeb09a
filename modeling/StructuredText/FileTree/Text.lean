import StructuredText.FileTree.Basic
import StructuredText.Text.Newline
import StructuredText.Text.Utf8

/-!
# Text files

A text file is read as UTF-8, with each line break as a line feed. No file can have a null character
in its path, and none is looked for there.
-/

namespace StructuredText.FileTree

/-- A fault that has nothing to do with which files there are. -/
inductive ContentFault where
  | nullInPath
  | encoding (fault : Utf8.Fault)
deriving Repr, DecidableEq

def ContentFault.message : ContentFault → String
  | .nullInPath => "embedded null byte"
  | .encoding fault => fault.message

/-- Why a text cannot be read. -/
inductive TextFault where
  | file (fault : Fault)
  | content (fault : ContentFault)
deriving Repr, DecidableEq

/-- The text of the file at a path. -/
def readText (tree : FileTree) (path : Path) : Except TextFault (List Char) := do
  if path.render.toList.contains '\x00' then .error (.content .nullInPath)
  else
    let bytes ← (tree.read path).mapError .file
    let text ← (Utf8.decode bytes).mapError fun fault => .content (.encoding fault)
    return normalizeNewlines text

end StructuredText.FileTree
