import StructuredText.Text.Quoted

/-!
# UTF-8

`Utf8.decode` reads bytes as text. A fault covers the bytes that cannot begin or continue a code
point: the longest stretch that could have been the start of one, or a single byte.
-/

namespace StructuredText.Utf8

inductive Cause where
  | startByte
  | continuationByte
  | endOfData
deriving Repr, DecidableEq

def Cause.message : Cause → String
  | .startByte => "invalid start byte"
  | .continuationByte => "invalid continuation byte"
  | .endOfData => "unexpected end of data"

/-- What is wrong with `count` bytes from position `start` on, of which `first` is the first. -/
structure Fault where
  cause : Cause
  start : Nat
  count : Nat
  first : UInt8
deriving Repr, DecidableEq

def Fault.message (fault : Fault) : String :=
  let place :=
    if fault.count = 1 then
      "byte 0x" ++ String.ofList (hexDigits 2 fault.first.toNat) ++ " in position " ++
        toString fault.start
    else
      "bytes in position " ++ toString fault.start ++ "-" ++
        toString (fault.start + fault.count - 1)
  "'utf-8' codec can't decode " ++ place ++ ": " ++ fault.cause.message

/-- The number of bytes of the code point that a byte begins. -/
def sequenceLength (byte : UInt8) : Option Nat :=
  let n := byte.toNat
  if n < 0x80 then some 1
  else if 0xC2 ≤ n && n ≤ 0xDF then some 2
  else if 0xE0 ≤ n && n ≤ 0xEF then some 3
  else if 0xF0 ≤ n && n ≤ 0xF4 then some 4
  else none

def isContinuation (byte : UInt8) : Bool :=
  0x80 ≤ byte.toNat && byte.toNat ≤ 0xBF

/-- Whether `second` may follow `first`. Some second bytes would make a form that is too long, a
surrogate, or a number beyond the last code point. -/
def isSecond (first second : UInt8) : Bool :=
  isContinuation second &&
    match first.toNat with
    | 0xE0 => 0xA0 ≤ second.toNat
    | 0xED => second.toNat < 0xA0
    | 0xF0 => 0x90 ≤ second.toNat
    | 0xF4 => second.toNat < 0x90
    | _ => true

/-- How many of the bytes behind `first`, at most `most`, continue it. -/
def continuationCount (first : UInt8) (most : Nat) (rest : List UInt8) : Nat :=
  match most, rest with
  | most + 1, second :: others =>
      if isSecond first second then 1 + ((others.take most).takeWhile isContinuation).length
      else 0
  | _, _ => 0

/-- The code point of a complete sequence. -/
def codePoint (first : UInt8) (others : List UInt8) : Char :=
  let lead :=
    match others.length with
    | 0 => first.toNat
    | 1 => first.toNat % 32
    | 2 => first.toNat % 16
    | _ => first.toNat % 8
  Char.ofNat (others.foldl (fun n byte => n * 64 + byte.toNat % 64) lead)

/-- Decodes bytes that stand from `pos` on. The next `skip` bytes belong to a code point already
read, and `taken` holds the text so far, latest code point first. -/
def decodeFrom (pos skip : Nat) (taken : List Char) : List UInt8 → Except Fault (List Char)
  | [] => .ok taken.reverse
  | first :: rest =>
      match skip with
      | skip + 1 => decodeFrom (pos + 1) skip taken rest
      | 0 =>
          match sequenceLength first with
          | none => .error ⟨.startByte, pos, 1, first⟩
          | some length =>
              let count := continuationCount first (length - 1) rest
              if count + 1 = length then
                decodeFrom (pos + 1) count (codePoint first (rest.take count) :: taken) rest
              else if rest.length = count then .error ⟨.endOfData, pos, count + 1, first⟩
              else .error ⟨.continuationByte, pos, count + 1, first⟩

/-- The text that bytes stand for. -/
def decode (bytes : List UInt8) : Except Fault (List Char) :=
  decodeFrom 0 0 [] bytes

/-- The bytes of a text. -/
def encode (text : List Char) : List UInt8 :=
  (String.ofList text).toUTF8.toList

end StructuredText.Utf8
