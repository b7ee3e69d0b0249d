/-! # Numerals

A number is kept as it is written. Its value is only asked for where a natural number of 64 bits
is wanted; other numbers must merely not be too large for a binary number of double precision.
-/

namespace ForkLog.Json

set_option autoImplicit false

structure Exponent where
  /-- `e` or `E`, and the sign if there is one. -/
  mark : List Char
  negative : Bool
  digits : List Char
  deriving DecidableEq, Repr

structure Numeral where
  negative : Bool
  whole : List Char
  fraction : Option (List Char)
  exponent : Option Exponent
  deriving DecidableEq, Repr

def isDigit (c : Char) : Bool := '0' ≤ c && c ≤ '9'

def digitValue (c : Char) : Nat := c.toNat - '0'.toNat

def value (digits : List Char) : Nat := digits.foldl (fun n c => 10 * n + digitValue c) 0

namespace Numeral

def ofNat (n : Nat) : Numeral := ⟨false, Nat.toDigits 10 n, none, none⟩

def chars (n : Numeral) : List Char :=
  (if n.negative then ['-'] else []) ++ n.whole ++
    (match n.fraction with | none => [] | some digits => '.' :: digits) ++
    (match n.exponent with | none => [] | some e => e.mark ++ e.digits)

/-- The natural number that is meant, if it is written without sign, fraction and exponent. -/
def natural? (n : Numeral) : Option UInt64 :=
  if n.negative || n.fraction.isSome || n.exponent.isSome then none
  else if value n.whole < UInt64.size then some (.ofNat (value n.whole))
  else none

/-- Appends digits to `n` as long as it fits into 64 bits. The second result counts the digits
that were appended, the third those that were not. -/
def absorb : Nat → List Char → Nat × Nat × Nat
  | n, [] => (n, 0, 0)
  | n, c :: rest =>
    if 10 * n + digitValue c < UInt64.size then
      let (n, taken, left) := absorb (10 * n + digitValue c) rest
      (n, taken + 1, left)
    else (n, 0, rest.length + 1)

/-- A natural number rounded to 53 significant bits, ties to even. -/
def nearestDouble (n : Nat) : Nat :=
  if n.log2 < 53 then n
  else
    let unit := Nat.pow 2 (n.log2 - 52)
    let quotient := n / unit
    let up := unit < 2 * (n % unit) || (unit = 2 * (n % unit) && quotient % 2 = 1)
    (if up then quotient + 1 else quotient) * unit

/-- The numbers from here on round to infinity. -/
def doubleLimit : Nat := Nat.pow 2 1024 - Nat.pow 2 970

/-- Whether the number has a finite double: its leading digits and the power of ten that is left
are each rounded, then multiplied. -/
def isFinite (n : Numeral) : Bool :=
  let (whole, _, dropped) := absorb 0 n.whole
  let (significand, places, _) := absorb whole (n.fraction.getD [])
  let power : Int := (dropped : Int) - places
  let exponent : Int :=
    match n.exponent with
    | none => power
    | some e => if e.negative then power - value e.digits else power + value e.digits
  significand = 0 || exponent ≤ 0 ||
    (exponent ≤ 308 &&
      nearestDouble significand * nearestDouble (Nat.pow 10 exponent.toNat) < doubleLimit)

def readDigits (text : List Char) : Option (List Char × List Char) :=
  if (text.takeWhile isDigit).isEmpty then none
  else some (text.takeWhile isDigit, text.dropWhile isDigit)

/-- Reads digits that do not begin with a needless zero. -/
def readWhole (text : List Char) : Option (List Char × List Char) :=
  match readDigits text with
  | some (['0'], rest) => some (['0'], rest)
  | some ('0' :: _, _) => none
  | found => found

def readFraction : List Char → Option (Option (List Char) × List Char)
  | '.' :: text => (readDigits text).map fun (digits, rest) => (some digits, rest)
  | text => some (none, text)

def readExponent : List Char → Option (Option Exponent × List Char)
  | c :: text =>
    if c = 'e' || c = 'E' then
      match text with
      | '+' :: text => (readDigits text).map fun (digits, rest) =>
          (some ⟨[c, '+'], false, digits⟩, rest)
      | '-' :: text => (readDigits text).map fun (digits, rest) =>
          (some ⟨[c, '-'], true, digits⟩, rest)
      | text => (readDigits text).map fun (digits, rest) => (some ⟨[c], false, digits⟩, rest)
    else some (none, c :: text)
  | [] => some (none, [])

def readSign : List Char → Bool × List Char
  | '-' :: text => (true, text)
  | text => (false, text)

def read (text : List Char) : Option (Numeral × List Char) := do
  let (negative, text) := readSign text
  let (whole, text) ← readWhole text
  let (fraction, text) ← readFraction text
  let (exponent, text) ← readExponent text
  let n : Numeral := ⟨negative, whole, fraction, exponent⟩
  if n.isFinite then some (n, text) else none

end Numeral

end ForkLog.Json
