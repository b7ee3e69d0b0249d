import ForkLog.Http.Response
import ForkLog.Text.Decimal
import ForkLog.Text.Hex
import ForkLog.Text.Split

/-! # Query strings

Names and values stand in pairs `name=value` between ampersands. In both, `%` and two hexadecimal
digits stand for a byte; a plus sign stands for itself.
-/

namespace ForkLog.Http

set_option autoImplicit false

def percent : UInt8 := 0x25

def escaped? : Bytes → Option UInt8
  | a :: b :: _ =>
    match Hex.value? a, Hex.value? b with
    | some high, some low => some (UInt8.ofNat (16 * high + low))
    | _, _ => none
  | _ => none

/-- Decodes a text of which the first `skip` bytes are already spoken for. -/
def percentDecodeAfter : (skip : Nat) → Bytes → Bytes
  | _, [] => []
  | skip + 1, _ :: rest => percentDecodeAfter skip rest
  | 0, c :: rest =>
    match if c = percent then escaped? rest else none with
    | some b => b :: percentDecodeAfter 2 rest
    | none => c :: percentDecodeAfter 0 rest

/-- Puts bytes in the place of what stands for them. A percent sign without digits is kept. -/
def percentDecode (text : Bytes) : Bytes := percentDecodeAfter 0 text

def decodePart (text : List Char) : String :=
  Utf8.decodeLossy (percentDecode (Utf8.encodeChars text))

structure QueryString where
  pairs : List (String × String)
  deriving DecidableEq, Repr

namespace QueryString

/-- A pair without an equals sign has an empty value. -/
def readPair (text : List Char) : String × String :=
  let (name, value) := (splitFirst? '=' text).getD (text, [])
  (decodePart name, decodePart value)

def ofChars (text : List Char) : QueryString :=
  ⟨((splitAtEach '&' text).filter fun part => !part.isEmpty).map readPair⟩

def ofString (text : String) : QueryString := ofChars text.toList

def get? (q : QueryString) (name : String) : Option String :=
  (q.pairs.find? fun pair => pair.1 = name).map Prod.snd

def getAll (q : QueryString) (name : String) : List String :=
  (q.pairs.filter fun pair => pair.1 = name).map Prod.snd

def require (q : QueryString) (name : String) : Except Failure String :=
  match q.get? name with
  | some value => .ok value
  | none => .error (.badRequest ("Missing query parameter '" ++ name ++ "'"))

/-- The number of rows asked for. Nothing and zero ask for the default. -/
def limit (q : QueryString) (default : Nat) : Except Failure Nat :=
  match q.get? "limit" with
  | none => .ok default
  | some "" => .ok default
  | some text =>
    match Decimal.read text.toList with
    | .error fault =>
      .error (.badRequest ("Invalid limit value '" ++ text ++ "': " ++ fault.message))
    | .ok n => .ok (if n = 0 then default else n.toNat)

end QueryString

end ForkLog.Http
