import ForkLog.Bytes

/-! # UTF-8

A byte string falls into pieces from left to right: well-formed sequences, and the longest
beginnings of sequences that are not continued. Strict decoding refuses the first malformed
piece and says where it stands; lossy decoding puts U+FFFD in the place of each one.
-/

namespace ForkLog.Utf8

set_option autoImplicit false

def encodeChars (text : List Char) : Bytes := text.flatMap String.utf8EncodeChar

def encode (text : String) : Bytes := encodeChars text.toList

/-- The length of the sequences that a byte begins; `0` for a byte that begins none. -/
def width (lead : UInt8) : Nat :=
  if lead < 0x80 then 1
  else if lead < 0xC2 then 0
  else if lead < 0xE0 then 2
  else if lead < 0xF0 then 3
  else if lead < 0xF5 then 4
  else 0

def isTail (b : UInt8) : Bool := 0x80 ≤ b && b ≤ 0xBF

/-- The bytes that may follow a lead byte. Overlong forms, surrogates and numbers above
U+10FFFF are ruled out here. -/
def isSecond (lead b : UInt8) : Bool :=
  if lead = 0xE0 then 0xA0 ≤ b && b ≤ 0xBF
  else if lead = 0xED then 0x80 ≤ b && b ≤ 0x9F
  else if lead = 0xF0 then 0x90 ≤ b && b ≤ 0xBF
  else if lead = 0xF4 then 0x80 ≤ b && b ≤ 0x8F
  else isTail b

inductive Piece where
  | scalar (c : Char) (size : Nat)
  /-- A beginning of a sequence, followed by a byte that does not continue it. -/
  | broken (size : Nat)
  /-- A beginning of a sequence, followed by the end of the text. -/
  | cut (size : Nat)
  deriving DecidableEq, Repr

namespace Piece

def size : Piece → Nat
  | scalar _ n => n
  | broken n => n
  | cut n => n

def shown : Piece → Char
  | scalar c _ => c
  | broken _ => Char.ofNat 0xFFFD
  | cut _ => Char.ofNat 0xFFFD

end Piece

def low (b : UInt8) : Nat := b.toNat % 64

/-- The piece at the beginning of `lead :: rest`. -/
def firstPiece (lead : UInt8) (rest : Bytes) : Piece :=
  match width lead, rest with
  | 1, _ => .scalar (Char.ofNat lead.toNat) 1
  | 2, [] => .cut 1
  | 2, b :: _ =>
    if isSecond lead b then .scalar (Char.ofNat (lead.toNat % 32 * 64 + low b)) 2 else .broken 1
  | 3, [] => .cut 1
  | 3, [b] => if isSecond lead b then .cut 2 else .broken 1
  | 3, b :: c :: _ =>
    if !isSecond lead b then .broken 1
    else if !isTail c then .broken 2
    else .scalar (Char.ofNat (lead.toNat % 16 * 4096 + low b * 64 + low c)) 3
  | 4, [] => .cut 1
  | 4, [b] => if isSecond lead b then .cut 2 else .broken 1
  | 4, [b, c] =>
    if !isSecond lead b then .broken 1
    else if !isTail c then .broken 2
    else .cut 3
  | 4, b :: c :: d :: _ =>
    if !isSecond lead b then .broken 1
    else if !isTail c then .broken 2
    else if !isTail d then .broken 3
    else .scalar (Char.ofNat (lead.toNat % 8 * 262144 + low b * 4096 + low c * 64 + low d)) 4
  | _, _ => .broken 1

/-- The pieces of a byte string of which the first `skip` bytes are already spoken for. -/
def piecesAfter : Nat → Bytes → List Piece
  | _, [] => []
  | skip + 1, _ :: rest => piecesAfter skip rest
  | 0, lead :: rest =>
    let piece := firstPiece lead rest
    piece :: piecesAfter (piece.size - 1) rest

def pieces (bytes : Bytes) : List Piece := piecesAfter 0 bytes

/-- The first malformed piece of a text: its size, unless the text ends in it, and where it
stands. -/
inductive Fault where
  | invalid (size index : Nat)
  | incomplete (index : Nat)
  deriving DecidableEq, Repr

def Fault.message : Fault → String
  | .invalid size index => s!"invalid utf-8 sequence of {size} bytes from index {index}"
  | .incomplete index => s!"incomplete utf-8 byte sequence from index {index}"

/-- The characters of a run of pieces that starts at byte `index`. -/
def charsAt : Nat → List Piece → Except Fault (List Char)
  | _, [] => .ok []
  | index, .scalar c size :: rest => (charsAt (index + size) rest).map (c :: ·)
  | index, .broken size :: _ => .error (.invalid size index)
  | index, .cut _ :: _ => .error (.incomplete index)

def decodeChars (bytes : Bytes) : Except Fault (List Char) := charsAt 0 (pieces bytes)

def decode (bytes : Bytes) : Except Fault String := (decodeChars bytes).map String.ofList

def decodeLossy (bytes : Bytes) : String := String.ofList ((pieces bytes).map Piece.shown)

end ForkLog.Utf8
