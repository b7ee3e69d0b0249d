import ForkLog.Text.Split

/-! # Socket addresses

Where a host listens: `127.0.0.1:8080` or `[::1]:8080`. An address is read in any of its spellings
and written in one.
-/

namespace ForkLog

set_option autoImplicit false

/-- An address of four octets, or of eight groups of sixteen bits within a scope. -/
inductive HostAddress where
  | version4 (octets : List UInt8)
  | version6 (groups : List UInt16) (scope : UInt32)
  deriving DecidableEq, Repr

structure SocketAddress where
  host : HostAddress
  portNumber : UInt16
  deriving DecidableEq, Repr

namespace HostAddress

def decimal? (limit : Nat) (text : List Char) : Option Nat :=
  let n := text.foldl (fun n c => 10 * n + (c.toNat - '0'.toNat)) 0
  if !text.isEmpty && text.all Char.isDigit && n < limit then some n else none

/-- An octet is written without needless zeros. -/
def octet? (text : List Char) : Option UInt8 :=
  if 1 < text.length && text.head? = some '0' then none
  else (decimal? UInt8.size text).map UInt8.ofNat

def octets? (text : List Char) : Option (List UInt8) :=
  ((splitAtEach '.' text).mapM octet?).filter fun octets => octets.length = 4

def hexDigit? (c : Char) : Option Nat :=
  if c.isDigit then some (c.toNat - 0x30)
  else if 'a' ≤ c && c ≤ 'f' then some (c.toNat - 0x57)
  else if 'A' ≤ c && c ≤ 'F' then some (c.toNat - 0x37)
  else none

/-- A group is one to four hexadecimal digits. -/
def group? (text : List Char) : Option UInt16 :=
  if text.isEmpty || 4 < text.length then none
  else (text.mapM hexDigit?).map fun digits => .ofNat (digits.foldl (fun n d => 16 * n + d) 0)

def groupsOfOctets : List UInt8 → List UInt16
  | a :: b :: rest => .ofNat (256 * a.toNat + b.toNat) :: groupsOfOctets rest
  | _ => []

def octetsOfGroups (groups : List UInt16) : List UInt8 :=
  groups.flatMap fun g => [.ofNat (g.toNat / 256), .ofNat g.toNat]

/-- The groups between the colons of a text. The last two may be written as octets. -/
def groups? (text : List Char) : Option (List UInt16) :=
  if text.isEmpty then some []
  else do
    let parts := splitAtEach ':' text
    let front ← parts.dropLast.mapM group?
    let last := parts.getLastD []
    let back ← ((group? last).map fun g => [g]).or ((octets? last).map groupsOfOctets)
    return front ++ back

def splitPair? : List Char → Option (List Char × List Char)
  | ':' :: ':' :: rest => some ([], rest)
  | c :: rest => (splitPair? rest).map fun (before, after) => (c :: before, after)
  | [] => none

/-- Eight groups, or fewer around a pair of colons that stands for the zeros between them. -/
def eightGroups? (text : List Char) : Option (List UInt16) :=
  match splitPair? text with
  | none => (groups? text).filter fun groups => groups.length = 8
  | some (before, after) => do
    let front ← if before.isEmpty then some [] else (splitAtEach ':' before).mapM group?
    let back ← groups? after
    if front.length + back.length < 8 then
      some (front ++ List.replicate (8 - front.length - back.length) 0 ++ back)
    else none

/-- Groups, and after a percent sign the scope unless that is zero. -/
def version6? (text : List Char) : Option HostAddress := do
  let (number, scope) := (splitFirst? '%' text).getD (text, ['0'])
  return version6 (← eightGroups? number) (.ofNat (← decimal? UInt32.size scope))

def octetsText (octets : List UInt8) : String :=
  String.intercalate "." (octets.map fun n => toString n.toNat)

def groupsText (groups : List UInt16) : String :=
  String.intercalate ":" (groups.map fun g => String.ofList (Nat.toDigits 16 g.toNat))

/-- Where the first of the longest runs of two or more zeros starts, and its length. -/
def zeroRun? (groups : List UInt16) : Option (Nat × Nat) :=
  (List.range' 2 7).reverse.findSome? fun length =>
    ((List.range (9 - length)).find? fun start =>
      (groups.drop start).take length = List.replicate length 0).map fun start => (start, length)

def eightGroupsText (groups : List UInt16) : String :=
  if groups.take 6 = [0, 0, 0, 0, 0, 0xFFFF] then
    "::ffff:" ++ octetsText (octetsOfGroups (groups.drop 6))
  else
    match zeroRun? groups with
    | none => groupsText groups
    | some (start, length) =>
      groupsText (groups.take start) ++ "::" ++ groupsText (groups.drop (start + length))

def text : HostAddress → String
  | version4 octets => octetsText octets
  | version6 groups scope =>
    let suffix := if scope = 0 then "" else s!"%{scope.toNat}"
    "[" ++ eightGroupsText groups ++ suffix ++ "]"

end HostAddress

namespace SocketAddress

def portNumber? (text : List Char) : Option UInt16 :=
  (HostAddress.decimal? UInt16.size text).map UInt16.ofNat

def read? (text : String) : Option SocketAddress :=
  match text.toList with
  | '[' :: rest =>
    match splitFirst? ']' rest with
    | some (host, ':' :: number) => do
      return ⟨← HostAddress.version6? host, ← portNumber? number⟩
    | _ => none
  | text =>
    match splitFirst? ':' text with
    | some (host, number) => do
      return ⟨.version4 (← HostAddress.octets? host), ← portNumber? number⟩
    | none => none

def text (address : SocketAddress) : String :=
  address.host.text ++ s!":{address.portNumber.toNat}"

end SocketAddress

end ForkLog
