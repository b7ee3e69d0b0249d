/-! # Decimal numbers of 64 bits

A number is written with the fewest digits. It is read from any digits, leading zeros
included, that may stand after one plus sign.
-/

namespace ForkLog.Decimal

set_option autoImplicit false

inductive Fault where
  | empty
  | invalidDigit
  | overflow
  deriving DecidableEq, Repr

def Fault.message : Fault → String
  | .empty => "cannot parse integer from empty string"
  | .invalidDigit => "invalid digit found in string"
  | .overflow => "number too large to fit in target type"

def digit? (c : Char) : Option Nat :=
  if '0' ≤ c && c ≤ '9' then some (c.toNat - '0'.toNat) else none

/-- Reads digits from left to right after those that made up `n`. The first character that is no
digit, or the first digit that makes the number too large, decides the fault. -/
def readDigits : Nat → List Char → Except Fault UInt64
  | n, [] => .ok (UInt64.ofNat n)
  | n, c :: rest =>
    match digit? c with
    | none => .error .invalidDigit
    | some d => if 10 * n + d < UInt64.size then readDigits (10 * n + d) rest else .error .overflow

def read : List Char → Except Fault UInt64
  | [] => .error .empty
  | ['+'] => .error .invalidDigit
  | '+' :: digits => readDigits 0 digits
  | digits => readDigits 0 digits

def write (n : UInt64) : List Char := Nat.toDigits 10 n.toNat

end ForkLog.Decimal
