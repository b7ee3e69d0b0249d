import ForkLog.Text.Utf8

/-! # The physical key space

Three kinds of record share one ordered key space: user records under `k` and the key's UTF-8
bytes, the cursor under `xc`, and undo records under `xu` and the complement of their block
number, so that ascending key order is descending block order.
-/

namespace ForkLog.Key

set_option autoImplicit false

def userMark : UInt8 := 0x6B

def user (key : String) : Bytes := userMark :: Utf8.encode key

/-- The mark alone is the record of the empty key and is not counted as a user key. -/
def isUser : Bytes → Bool
  | mark :: _ :: _ => mark = userMark
  | _ => false

def userText (physical : Bytes) : String := Utf8.decodeLossy (physical.drop 1)

def undoMark : Bytes := [0x78, 0x75]

def undoEnd : Bytes := [0x78, 0x76]

def cursor : Bytes := [0x78, 0x63]

def openEnd : Bytes := List.replicate 128 0xFF

def undo (block : UInt64) : Bytes :=
  undoMark ++ Bytes.bigEndian 8 (UInt64.size - 1 - block.toNat)

def isUndo (physical : Bytes) : Bool :=
  physical.length = 10 && physical.take 2 = undoMark

def undoBlock? (physical : Bytes) : Option UInt64 :=
  if isUndo physical then
    some (UInt64.ofNat (UInt64.size - 1 - Bytes.ofBigEndian (physical.drop 2)))
  else none

end ForkLog.Key
