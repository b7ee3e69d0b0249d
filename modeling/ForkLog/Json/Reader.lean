import ForkLog.Json

/-! # Reading JSON

A reader takes a value from the beginning of a text and returns what follows it. It accepts what
the standard allows and nothing else; arrays and objects may be nested up to a given number of
levels.
-/

namespace ForkLog.Json

set_option autoImplicit false

variable {α : Type}

def isSpace (c : Char) : Bool := c = ' ' || c = '\t' || c = '\n' || c = '\r'

def skipSpace (text : List Char) : List Char := text.dropWhile isSpace

def hexValue? (c : Char) : Option Nat :=
  if '0' ≤ c && c ≤ '9' then some (c.toNat - 0x30)
  else if 'a' ≤ c && c ≤ 'f' then some (c.toNat - 0x57)
  else if 'A' ≤ c && c ≤ 'F' then some (c.toNat - 0x37)
  else none

def codeUnit? (a b c d : Char) : Option Nat :=
  match hexValue? a, hexValue? b, hexValue? c, hexValue? d with
  | some a, some b, some c, some d => some (4096 * a + 256 * b + 16 * c + d)
  | _, _, _, _ => none

def isHighSurrogate (n : Nat) : Bool := 0xD800 ≤ n && n < 0xDC00

def isLowSurrogate (n : Nat) : Bool := 0xDC00 ≤ n && n < 0xE000

def joinSurrogates (high low : Nat) : Char :=
  Char.ofNat (0x10000 + (high - 0xD800) * 1024 + (low - 0xDC00))

def unescape? (c : Char) : Option Char :=
  if c = '"' || c = '\\' || c = '/' then some c
  else if c = 'b' then some (Char.ofNat 0x08)
  else if c = 'f' then some (Char.ofNat 0x0C)
  else if c = 'n' then some '\n'
  else if c = 'r' then some '\r'
  else if c = 't' then some '\t'
  else none

def consFirst (c : Char) (found : Option (List Char × List Char)) :
    Option (List Char × List Char) :=
  found.map fun (chars, rest) => (c :: chars, rest)

/-- Reads the rest of a string of which the opening quote has been read. -/
def readStringRest : List Char → Option (List Char × List Char)
  | [] => none
  | '"' :: rest => some ([], rest)
  | '\\' :: 'u' :: a :: b :: c :: d :: rest =>
    match codeUnit? a b c d with
    | none => none
    | some n =>
      if isHighSurrogate n then
        match rest with
        | '\\' :: 'u' :: e :: f :: g :: h :: rest =>
          match codeUnit? e f g h with
          | none => none
          | some m =>
            if isLowSurrogate m then consFirst (joinSurrogates n m) (readStringRest rest)
            else none
        | _ => none
      else if isLowSurrogate n then none
      else consFirst (Char.ofNat n) (readStringRest rest)
  | '\\' :: c :: rest =>
    match unescape? c with
    | none => none
    | some c => consFirst c (readStringRest rest)
  | c :: rest => if c.toNat < 0x20 || c = '\\' then none else consFirst c (readStringRest rest)

def readString : List Char → Option (String × List Char)
  | '"' :: rest => (readStringRest rest).map fun (chars, rest) => (String.ofList chars, rest)
  | _ => none

def readScalar : List Char → Option (Json × List Char)
  | 'n' :: 'u' :: 'l' :: 'l' :: rest => some (null, rest)
  | 't' :: 'r' :: 'u' :: 'e' :: rest => some (bool true, rest)
  | 'f' :: 'a' :: 'l' :: 's' :: 'e' :: rest => some (bool false, rest)
  | '"' :: rest => (readStringRest rest).map fun (chars, rest) =>
      (string (String.ofList chars), rest)
  | text => (Numeral.read text).map fun (n, rest) => (number n, rest)

/-- Reads one or more items up to a closing bracket. Every item takes a character at least, so
`fuel` need not exceed the length of the text. -/
def readItems (item : List Char → Option (α × List Char)) (close : Char) :
    (fuel : Nat) → List Char → Option (List α × List Char)
  | 0, _ => none
  | fuel + 1, text =>
    match item text with
    | none => none
    | some (a, text) =>
      match skipSpace text with
      | [] => none
      | c :: text =>
        if c = ',' then
          (readItems item close fuel (skipSpace text)).map fun (as, rest) => (a :: as, rest)
        else if c = close then some ([a], text)
        else none

def readList (item : List Char → Option (α × List Char)) (close : Char) (text : List Char) :
    Option (List α × List Char) :=
  match skipSpace text with
  | [] => none
  | c :: rest =>
    if c = close then some ([], rest) else readItems item close (rest.length + 1) (c :: rest)

def readName (text : List Char) : Option (String × List Char) :=
  match readString text with
  | none => none
  | some (name, text) =>
    match skipSpace text with
    | ':' :: text => some (name, skipSpace text)
    | _ => none

def readMember (item : List Char → Option (Json × List Char)) (text : List Char) :
    Option ((String × Json) × List Char) :=
  match readName text with
  | none => none
  | some (name, text) => (item text).map fun (j, rest) => ((name, j), rest)

def readValue : (levels : Nat) → List Char → Option (Json × List Char)
  | 0, text => readScalar text
  | levels + 1, text =>
    match text with
    | '[' :: text => (readList (readValue levels) ']' text).map fun (items, rest) =>
        (array items, rest)
    | '\x7b' :: text =>
      (readList (readMember (readValue levels)) '\x7d' text).map fun (members, rest) =>
        (object members, rest)
    | text => readScalar text

end ForkLog.Json
