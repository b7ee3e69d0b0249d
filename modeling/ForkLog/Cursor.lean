import ForkLog.Error
import ForkLog.Text.Decimal
import ForkLog.Text.Utf8

/-! # Cursors

A cursor is the position in the chain up to which the user records are written. It is kept as
the text `token:block id:block number`, which is split from the right, so that only the token
may hold colons.
-/

namespace ForkLog

set_option autoImplicit false

structure Cursor where
  token : String
  blockId : String
  blockNumber : UInt64
  deriving DecidableEq, Repr

/-- The block number after `n`; the last one stands for what follows it. -/
def nextBlock (n : UInt64) : UInt64 := if n.toNat + 1 < UInt64.size then n + 1 else n

/-- The block number before `n`; zero stands for what precedes it. -/
def previousBlock (n : UInt64) : UInt64 := if n = 0 then 0 else n - 1

namespace Cursor

def blank (blockNumber : UInt64) : Cursor := ⟨"", "", blockNumber⟩

def isBlank (c : Cursor) : Bool := c.token.isEmpty

def resumeBlock (c : Cursor) : UInt64 := nextBlock c.blockNumber

def chars (c : Cursor) : List Char :=
  c.token.toList ++ ':' :: c.blockId.toList ++ ':' :: Decimal.write c.blockNumber

def text (c : Cursor) : String := String.ofList c.chars

def encode (c : Cursor) : Bytes := Utf8.encodeChars c.chars

def splitLast (mark : Char) : List Char → Option (List Char × List Char)
  | [] => none
  | c :: rest =>
    match splitLast mark rest with
    | some (before, after) => some (c :: before, after)
    | none => if c = mark then some ([], rest) else none

inductive Fault where
  | parts (text : List Char)
  | blockNumber (text : List Char) (fault : Decimal.Fault)
  deriving DecidableEq, Repr

def Fault.message : Fault → String
  | .parts text => "expected 3 ':'-separated parts in '" ++ String.ofList text ++ "'"
  | .blockNumber text fault =>
    "invalid block number '" ++ String.ofList text ++ "': " ++ fault.message

def readChars (text : List Char) : Except Fault Cursor :=
  match splitLast ':' text with
  | none => .error (.parts text)
  | some (front, number) =>
    match splitLast ':' front with
    | none => .error (.parts text)
    | some (token, blockId) =>
      match Decimal.read number with
      | .error fault => .error (.blockNumber number fault)
      | .ok n => .ok ⟨String.ofList token, String.ofList blockId, n⟩

def read (text : String) : Except Error Cursor :=
  (readChars text.toList).mapError fun fault => .invalidCursor fault.message

def decode (bytes : Bytes) : Except Error Cursor :=
  match Utf8.decodeChars bytes with
  | .error fault => .error (.invalidCursor ("cursor is not utf-8: " ++ fault.message))
  | .ok text => (readChars text).mapError fun fault => .invalidCursor fault.message

end Cursor

end ForkLog
