/-!
# Blanks

The white-space code points, and trimming by them. A *blank* is any of them; the two *pads* are
the space and the tab, the only blanks that spacing rules write or remove inside a line.
-/

namespace StructuredText

/-- A white-space code point. -/
def isBlank (c : Char) : Bool :=
  let n := c.toNat
  if n < 128 then (9 ≤ n && n ≤ 13) || (28 ≤ n && n ≤ 32)
  else
    n == 0x85 || n == 0xA0 || n == 0x1680 || (0x2000 ≤ n && n ≤ 0x200A) ||
      n == 0x2028 || n == 0x2029 || n == 0x202F || n == 0x205F || n == 0x3000

/-- A space or a tab. -/
def isPad (c : Char) : Bool :=
  c == ' ' || c == '\t'

/-- The text without its leading blanks. -/
def trimLeft (text : List Char) : List Char :=
  text.dropWhile isBlank

/-- The text without its trailing blanks. -/
def trimRight : List Char → List Char
  | [] => []
  | c :: rest =>
      match trimRight rest with
      | [] => if isBlank c then [] else [c]
      | kept => c :: kept

/-- The text without its leading and trailing blanks. -/
def trim (text : List Char) : List Char :=
  trimRight (trimLeft text)

end StructuredText
