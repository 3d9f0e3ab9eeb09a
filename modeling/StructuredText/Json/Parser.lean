import StructuredText.Host
import StructuredText.Json.Basic
import StructuredText.Text.Cursor

/-!
# Reading JSON

`Json.parse` reads one value, with nothing but JSON blanks around it. Beyond the standard it takes
`NaN` and the infinities as numbers. A fault has a cause and an offset. Two faults come from limits
of the reader: a whole number of too many digits, and values that are nested too deep.

Texts are made of code points. An escape for half of a surrogate pair stands for none; it is read as
the replacement character, and what becomes of it elsewhere is left out.
-/

namespace StructuredText.Json

inductive Cause where
  | value
  | propertyName
  | colon
  | comma
  | extraData
  | unterminatedString
  | controlCharacter
  | badEscape
  | badUnicodeEscape
  | byteOrderMark
  | excessDigits (count : Nat)
  | excessNesting (kind : String)
deriving Repr, DecidableEq

/-- Whether a cause is a limit of the reader. -/
def Cause.isLimit : Cause → Bool
  | .excessDigits _ | .excessNesting _ => true
  | _ => false

def Cause.message : Cause → String
  | .value => "Expecting value"
  | .propertyName => "Expecting property name enclosed in double quotes"
  | .colon => "Expecting ':' delimiter"
  | .comma => "Expecting ',' delimiter"
  | .extraData => "Extra data"
  | .unterminatedString => "Unterminated string starting at"
  | .controlCharacter => "Invalid control character at"
  | .badEscape => "Invalid \\escape"
  | .badUnicodeEscape => "Invalid \\uXXXX escape"
  | .byteOrderMark => "Unexpected UTF-8 BOM (decode using utf-8-sig)"
  | .excessDigits count =>
      "Exceeds the limit (4300 digits) for integer string conversion: value has " ++
        toString count ++ " digits; use sys.set_int_max_str_digits() to increase the limit"
  | .excessNesting kind =>
      "maximum recursion depth exceeded while decoding a JSON " ++ kind ++
        " from a unicode string"

structure Fault where
  cause : Cause
  offset : Nat
deriving Repr, DecidableEq

/-- The number of the line of `text` that the fault is in, from one. -/
def Fault.line (fault : Fault) (text : List Char) : Nat :=
  (text.take fault.offset).count '\n' + 1

def isJsonBlank (c : Char) : Bool :=
  c == ' ' || c == '\t' || c == '\n' || c == '\r'

def skipBlanks : Cursor → Cursor :=
  Cursor.run isJsonBlank

/-! ## Strings -/

def hexValue (c : Char) : Option Nat :=
  if '0' ≤ c && c ≤ '9' then some (c.toNat - 48)
  else if 'a' ≤ c && c ≤ 'f' then some (c.toNat - 87)
  else if 'A' ≤ c && c ≤ 'F' then some (c.toNat - 55)
  else none

/-- The number that four hexadecimal digits stand for. -/
def hexValue4 (a b c d : Char) : Option Nat := do
  return (((← hexValue a) * 16 + (← hexValue b)) * 16 + (← hexValue c)) * 16 + (← hexValue d)

def isHighSurrogate (n : Nat) : Bool :=
  0xD800 ≤ n && n ≤ 0xDBFF

def isLowSurrogate (n : Nat) : Bool :=
  0xDC00 ≤ n && n ≤ 0xDFFF

/-- The code point of a number; half of a surrogate pair is read as the replacement character. -/
def codePoint (n : Nat) : Char :=
  if isHighSurrogate n || isLowSurrogate n then Char.ofNat 0xFFFD else Char.ofNat n

def joinSurrogates (high low : Nat) : Char :=
  Char.ofNat (0x10000 + (high - 0xD800) * 1024 + (low - 0xDC00))

def simpleEscape : Char → Option Char
  | '\x22' => some '\x22'
  | '\\' => some '\\'
  | '/' => some '/'
  | 'b' => some '\x08'
  | 'f' => some '\x0c'
  | 'n' => some '\n'
  | 'r' => some '\r'
  | 't' => some '\t'
  | _ => none

/-- What the digits behind `\u` at `pos` stand for, and how many code points they take. A high
surrogate is joined with the escape for a low one that follows it. The digits are never the last
of a text. -/
def unicodeEscape (pos : Nat) : List Char → Except Fault (Char × Nat)
  | a :: b :: c :: d :: e :: more =>
      match hexValue4 a b c d with
      | none => .error ⟨.badUnicodeEscape, pos + 1⟩
      | some code =>
          match isHighSurrogate code, e :: more with
          | true, '\\' :: 'u' :: a' :: b' :: c' :: d' :: _ :: _ =>
              match hexValue4 a' b' c' d' with
              | none => .error ⟨.badUnicodeEscape, pos + 7⟩
              | some low =>
                  if isLowSurrogate low then .ok (joinSurrogates code low, 10)
                  else .ok (codePoint code, 4)
          | _, _ => .ok (codePoint code, 4)
  | _ => .error ⟨.badUnicodeEscape, pos + 1⟩

/-- The rest of a string whose opening quote is at `opened`: its text, and the offset and text
behind its closing quote. The next `skip` code points belong to an escape already read, and
`taken` holds the text so far, latest code point first. -/
def readString (opened pos skip : Nat) (taken : List Char) :
    List Char → Except Fault (List Char × Nat × List Char)
  | [] => .error ⟨.unterminatedString, opened⟩
  | c :: rest =>
      match skip with
      | skip + 1 => readString opened (pos + 1) skip taken rest
      | 0 =>
          if c = '\x22' then .ok (taken.reverse, pos + 1, rest)
          else if c = '\\' then
            match rest with
            | [] => .error ⟨.unterminatedString, opened⟩
            | 'u' :: digits =>
                match unicodeEscape pos digits with
                | .error fault => .error fault
                | .ok (d, size) => readString opened (pos + 1) (size + 1) (d :: taken) rest
            | e :: _ =>
                match simpleEscape e with
                | some d => readString opened (pos + 1) 1 (d :: taken) rest
                | none => .error ⟨.badEscape, pos⟩
          else if c.toNat ≤ 0x1F then .error ⟨.controlCharacter, pos⟩
          else readString opened (pos + 1) 0 (c :: taken) rest

/-! ## Numbers and words -/

def isJsonDigit (c : Char) : Bool :=
  '0' ≤ c && c ≤ '9'

/-- The digits before the point: no zero leads others. -/
def readWhole (cursor : Cursor) : Option Cursor :=
  match cursor.char '0' with
  | some further => some further
  | none => cursor.someRun isJsonDigit

def readFraction (cursor : Cursor) : Option Cursor :=
  (cursor.char '.').bind (Cursor.someRun isJsonDigit)

def readExponent (cursor : Cursor) : Option Cursor := do
  let cursor ← cursor.next fun c => c == 'e' || c == 'E'
  let cursor := cursor.optionally (Cursor.next fun c => c == '-' || c == '+')
  cursor.someRun isJsonDigit

/-- Whole numbers have no more digits. -/
def mostDigits : Nat :=
  4300

/-- A number that starts at a place. -/
def readNumber (cursor : Cursor) : Except Fault Cursor :=
  let first := cursor.optionally (Cursor.char '-')
  match readWhole first with
  | none => .error ⟨.value, cursor.pos⟩
  | some whole =>
      let stop := (whole.optionally readFraction).optionally readExponent
      let digits := whole.pos - first.pos
      if stop.pos = whole.pos && digits > mostDigits then
        .error ⟨.excessDigits digits, cursor.pos⟩
      else .ok stop

/-- Values that are written as one word. -/
def words : List (String × Json) :=
  [("null", .null), ("true", .bool true), ("false", .bool false), ("NaN", .number "NaN"),
   ("Infinity", .number "Infinity"), ("-Infinity", .number "-Infinity")]

/-- A value that is one word or a number. -/
def readSimple (cursor : Cursor) : Except Fault (Json × Cursor) :=
  match words.findSome? fun (word, value) =>
      (cursor.token word.toList).map fun stop => (value, stop) with
  | some found => .ok found
  | none => do
      let stop ← readNumber cursor
      return (.number (String.ofList (cursor.after.take (stop.pos - cursor.pos))), stop)

/-! ## Values -/

/-- The string whose opening quote has been read. -/
def readStringAt (cursor : Cursor) : Except Fault (String × Cursor) := do
  let (text, pos, after) ← readString (cursor.pos - 1) cursor.pos 0 [] cursor.after
  return (String.ofList text, ⟨pos, [], after⟩)

mutual

/-- A value. At most `room` lists and objects may be inside one another, and `tries` bounds how many
values, fields and items are read. -/
def readValue (tries room : Nat) (cursor : Cursor) : Except Fault (Json × Cursor) :=
  match tries with
  | 0 => .error ⟨.value, cursor.pos⟩
  | tries + 1 =>
      match cursor.char '\x22', cursor.char '{', cursor.char '[' with
      | some inside, _, _ => do
          let (text, stop) ← readStringAt inside
          return (.string text, stop)
      | none, some inside, _ =>
          let inside := skipBlanks inside
          match room, inside.char '}' with
          | 0, _ => .error ⟨.excessNesting "object", cursor.pos⟩
          | _ + 1, some stop => .ok (.object [], stop)
          | room + 1, none => readFields tries room [] inside
      | none, none, some inside =>
          let inside := skipBlanks inside
          match room, inside.char ']' with
          | 0, _ => .error ⟨.excessNesting "array", cursor.pos⟩
          | _ + 1, some stop => .ok (.array [], stop)
          | room + 1, none => readItems tries room [] inside
      | none, none, none => readSimple cursor
termination_by structural tries

/-- The fields of an object from the next name on. -/
def readFields (tries room : Nat) (fields : List (String × Json)) (cursor : Cursor) :
    Except Fault (Json × Cursor) :=
  match tries with
  | 0 => .error ⟨.propertyName, cursor.pos⟩
  | tries + 1 =>
      match cursor.char '\x22' with
      | none => .error ⟨.propertyName, cursor.pos⟩
      | some inside => do
          let (name, cursor) ← readStringAt inside
          let cursor := skipBlanks cursor
          match cursor.char ':' with
          | none => .error ⟨.colon, cursor.pos⟩
          | some cursor => do
              let (value, cursor) ← readValue tries room (skipBlanks cursor)
              let cursor := skipBlanks cursor
              let fields := setField fields name value
              match cursor.char '}', cursor.char ',' with
              | some stop, _ => return (.object fields, stop)
              | none, some cursor => readFields tries room fields (skipBlanks cursor)
              | none, none => .error ⟨.comma, cursor.pos⟩
termination_by structural tries

/-- The items of an array from the next one on. -/
def readItems (tries room : Nat) (items : List Json) (cursor : Cursor) :
    Except Fault (Json × Cursor) :=
  match tries with
  | 0 => .error ⟨.value, cursor.pos⟩
  | tries + 1 => do
      let (value, cursor) ← readValue tries room cursor
      let cursor := skipBlanks cursor
      let items := items ++ [value]
      match cursor.char ']', cursor.char ',' with
      | some stop, _ => return (.array items, stop)
      | none, some cursor => readItems tries room items (skipBlanks cursor)
      | none, none => .error ⟨.comma, cursor.pos⟩
termination_by structural tries

end

/-- Reads a text that is one JSON value. -/
def parse [Host] (text : List Char) : Except Fault Json :=
  if text.head? == some (Char.ofNat 0xFEFF) then .error ⟨.byteOrderMark, 0⟩
  else do
    let (value, cursor) ← readValue (text.length + 1) Host.nesting (skipBlanks (.start text))
    let cursor := skipBlanks cursor
    if cursor.atEnd then return value else .error ⟨.extraData, cursor.pos⟩

end StructuredText.Json
