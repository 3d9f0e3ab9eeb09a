import StructuredText.Text.Printable

/-!
# Quoted texts

How messages quote a text. It stands between apostrophes, or between double quotes if it holds an
apostrophe and no double quote. The quote in use and the backslash get a backslash before them, and
a code point that cannot be printed is written as an escape.
-/

namespace StructuredText

/-- The hexadecimal digit of a number below sixteen. -/
def hexDigit (n : Nat) : Char :=
  if n < 10 then Char.ofNat (48 + n) else Char.ofNat (87 + n)

/-- The last `width` hexadecimal digits of `n`. -/
def hexDigits (width n : Nat) : List Char :=
  match width with
  | 0 => []
  | width + 1 => hexDigits width (n / 16) ++ [hexDigit (n % 16)]

/-- The escape for a code point that cannot be printed. -/
def escapeSequence (c : Char) : List Char :=
  if c.toNat < 0x100 then ['\\', 'x'] ++ hexDigits 2 c.toNat
  else if c.toNat < 0x10000 then ['\\', 'u'] ++ hexDigits 4 c.toNat
  else ['\\', 'U'] ++ hexDigits 8 c.toNat

/-- A code point inside quotes. -/
def quotedChar (quote c : Char) : List Char :=
  if c == quote || c == '\\' then ['\\', c]
  else if c == '\t' then ['\\', 't']
  else if c == '\n' then ['\\', 'n']
  else if c == '\r' then ['\\', 'r']
  else if isPrintable c then [c]
  else escapeSequence c

/-- The quote that a text stands between. -/
def quoteFor (text : List Char) : Char :=
  if text.contains '\x27' && !text.contains '\x22' then '\x22' else '\x27'

/-- The text as messages quote it. -/
def quoted (text : List Char) : List Char :=
  let quote := quoteFor text
  [quote] ++ text.flatMap (quotedChar quote) ++ [quote]

/-- A string as messages quote it. -/
def quotedString (text : String) : String :=
  String.ofList (quoted text.toList)

end StructuredText
