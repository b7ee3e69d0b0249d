import ForkLog.Text.Utf8

/-! # Hexadecimal byte strings

Bytes are written with two lower-case digits each; upper-case digits are read as well. Faults
count in the bytes of the text, not in its characters.
-/

namespace ForkLog.Hex

set_option autoImplicit false

def digit (n : Nat) : Char := if n < 10 then Char.ofNat (48 + n) else Char.ofNat (87 + n)

def writeByte (b : UInt8) : List Char := [digit (b.toNat / 16), digit (b.toNat % 16)]

def write (bytes : Bytes) : List Char := bytes.flatMap writeByte

def encode (bytes : Bytes) : String := String.ofList (write bytes)

inductive Fault where
  | oddLength
  | invalidByte (b : UInt8) (index : Nat)
  deriving DecidableEq, Repr

/-- The byte as the character of the same number in quotes, escaped if it has no glyph of its
own. -/
def showByte (b : UInt8) : String :=
  let hex := String.ofList ((Nat.toDigits 16 b.toNat))
  if b = 0x00 then "'\\0'"
  else if b = 0x09 then "'\\t'"
  else if b = 0x0A then "'\\n'"
  else if b = 0x0D then "'\\r'"
  else if b = 0x27 then "'\\''"
  else if b = 0x5C then "'\\\\'"
  else if b < 0x20 || (0x7F ≤ b && b ≤ 0xA0) || b = 0xAD then "'\\u\x7b" ++ hex ++ "\x7d'"
  else String.ofList ['\'', Char.ofNat b.toNat, '\'']

def Fault.message : Fault → String
  | .oddLength => "Odd number of digits"
  | .invalidByte b index => "Invalid character " ++ showByte b ++ s!" at position {index}"

def value? (b : UInt8) : Option Nat :=
  if 0x30 ≤ b && b ≤ 0x39 then some (b.toNat - 0x30)
  else if 0x61 ≤ b && b ≤ 0x66 then some (b.toNat - 0x57)
  else if 0x41 ≤ b && b ≤ 0x46 then some (b.toNat - 0x37)
  else none

def readPairs : Nat → Bytes → Except Fault Bytes
  | _, [] => .ok []
  | _, [_] => .error .oddLength
  | index, a :: b :: rest =>
    match value? a, value? b with
    | none, _ => .error (.invalidByte a index)
    | some _, none => .error (.invalidByte b (index + 1))
    | some high, some low =>
      (readPairs (index + 2) rest).map (UInt8.ofNat (16 * high + low) :: ·)

/-- A text of odd length is refused before any digit is looked at. -/
def readBytes (text : Bytes) : Except Fault Bytes :=
  if text.length % 2 = 1 then .error .oddLength else readPairs 0 text

def decode (text : String) : Except Fault Bytes := readBytes (Utf8.encode text)

end ForkLog.Hex
