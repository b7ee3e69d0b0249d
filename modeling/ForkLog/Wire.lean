import ForkLog.Text.Utf8

/-! # Length-prefixed records

Counts and lengths are eight bytes, the lowest first. Byte strings and texts follow their
length, lists follow their count. What stands after a complete value is not looked at.
-/

namespace ForkLog.Wire

set_option autoImplicit false

def length (n : Nat) : Bytes := Bytes.littleEndian 8 n

def bytes (content : Bytes) : Bytes := length content.length ++ content

def text (content : String) : Bytes := bytes (Utf8.encode content)

inductive Fault where
  | unexpectedEnd
  /-- A text is longer than what is left. -/
  | shortText
  | invalidText (fault : Utf8.Fault)
  deriving DecidableEq, Repr

def Fault.message : Fault → String
  | .unexpectedEnd => "io error: unexpected end of file"
  | .shortText => "io error: "
  | .invalidText fault => "string is not valid utf8: " ++ fault.message

/-- Reads a value from the beginning of a byte string and returns what follows it. -/
abbrev Reader (α : Type) := Bytes → Except Fault (α × Bytes)

def readByte : Reader UInt8
  | [] => .error .unexpectedEnd
  | b :: rest => .ok (b, rest)

def splitAt? (n : Nat) (input : Bytes) : Option (Bytes × Bytes) :=
  if n ≤ input.length then some (input.take n, input.drop n) else none

def readLength : Reader Nat := fun input =>
  match splitAt? 8 input with
  | none => .error .unexpectedEnd
  | some (field, rest) => .ok (Bytes.ofLittleEndian field, rest)

def readBytes : Reader Bytes := fun input =>
  match readLength input with
  | .error fault => .error fault
  | .ok (n, rest) =>
    match splitAt? n rest with
    | none => .error .unexpectedEnd
    | some found => .ok found

def readText : Reader String := fun input =>
  match readLength input with
  | .error fault => .error fault
  | .ok (n, rest) =>
    match splitAt? n rest with
    | none => .error .shortText
    | some (content, rest) =>
      match Utf8.decode content with
      | .error fault => .error (.invalidText fault)
      | .ok s => .ok (s, rest)

def readPair {α β : Type} (first : Reader α) (second : Reader β) : Reader (α × β) := fun input =>
  match first input with
  | .error fault => .error fault
  | .ok (a, rest) =>
    match second rest with
    | .error fault => .error fault
    | .ok (b, rest) => .ok ((a, b), rest)

def readMany {α : Type} (item : Reader α) : Nat → Reader (List α)
  | 0, input => .ok ([], input)
  | n + 1, input =>
    match item input with
    | .error fault => .error fault
    | .ok (a, rest) =>
      match readMany item n rest with
      | .error fault => .error fault
      | .ok (as, rest) => .ok (a :: as, rest)

def readList {α : Type} (item : Reader α) : Reader (List α) := fun input =>
  match readLength input with
  | .error fault => .error fault
  | .ok (n, rest) => readMany item n rest

end ForkLog.Wire
