import ForkLog.Bytes

/-! # Routes

A route is a path in which a name in braces stands for any part of a segment that is not empty, and
a name that begins with a star for all that follows. Double braces stand for braces.

A brace that is written twice right after a parameter is taken for a single one if the name of the
parameter has more than one byte: the parameter is shortened to a name of one byte before the rest
is looked at, and what is known of the byte next to it is left behind where it was.
-/

namespace ForkLog.Http

set_option autoImplicit false

inductive RoutePiece where
  | literal (b : UInt8)
  | parameter
  /-- A parameter that takes in slashes as well. -/
  | catchAll
  deriving DecidableEq, Repr

abbrev Route := List RoutePiece

namespace Route

inductive Fault where
  | parameterName
  | catchAll
  | parameterSegment
  | parameterCount
  deriving DecidableEq, Repr

def Fault.message : Fault → String
  | .parameterCount => "Too many route parameters."
  | .parameterName => "Parameters must be registered with a valid name"
  | .catchAll => "Catch-all parameters are only allowed at the end of a route"
  | .parameterSegment => "Only one parameter is allowed per path segment"

def opening : UInt8 := 0x7B

def closing : UInt8 := 0x7D

def star : UInt8 := 0x2A

def slash : UInt8 := 0x2F

/-- A byte of a route. A brace that was written twice is escaped. -/
structure Mark where
  byte : UInt8
  escaped : Bool
  deriving DecidableEq, Repr

namespace Mark

def isOpening (m : Mark) : Bool := m.byte = opening && !m.escaped

def isClosing (m : Mark) : Bool := m.byte = closing && !m.escaped

end Mark

def marks : Bytes → List Mark
  | [] => []
  | [b] => [⟨b, false⟩]
  | b :: c :: rest =>
    if b = c && (b = opening || b = closing) then ⟨b, true⟩ :: marks rest
    else ⟨b, false⟩ :: marks (c :: rest)

/-- Reads the rest of a name up to the brace that closes it. -/
def readNameRest : List Mark → Option (List Mark × List Mark)
  | [] => none
  | m :: rest =>
    if m.isClosing then some ([], rest)
    else if m.byte = star || m.byte = slash then none
    else (readNameRest rest).map fun (name, rest) => (m :: name, rest)

/-- Reads a name and the brace that closes it. A star may be its first byte, but not its only
one. -/
def readName : List Mark → Option (List Mark × List Mark)
  | [] => none
  | m :: rest =>
    if m.byte = closing then none
    else
      match readNameRest rest with
      | none => none
      | some (name, rest) =>
        if m.byte = star && name.isEmpty then none else some (m :: name, rest)

def isCatchAll (name : List Mark) : Bool := name.head?.any (·.byte = star)

def escapeAt (place : Nat) (rest : List Mark) : List Mark :=
  rest.modify place fun m => { m with escaped := true }

/-- What follows a parameter whose name has `size` bytes, after the name has been shortened to
one. -/
def shorten (size : Nat) : List Mark → List Mark
  | [] => []
  | m :: rest =>
    if m.escaped && 1 < size then { m with escaped := false } :: escapeAt (size - 2) rest
    else m :: rest

theorem length_readNameRest {text name rest : List Mark}
    (h : readNameRest text = some (name, rest)) : rest.length < text.length := by
  induction text generalizing name with
  | nil => cases h
  | cons m text ih =>
    rw [readNameRest] at h
    split at h
    · cases h
      simp
    · split at h
      · cases h
      · obtain ⟨⟨tail, rest'⟩, hTail, hEq⟩ := Option.map_eq_some_iff.mp h
        cases hEq
        have := ih hTail
        simp only [List.length_cons]
        omega

theorem length_readName {text name rest : List Mark} (h : readName text = some (name, rest)) :
    rest.length < text.length := by
  cases text with
  | nil => cases h
  | cons m text =>
    rw [readName] at h
    split at h
    · cases h
    · split at h
      · cases h
      · rename_i hRest
        split at h
        · cases h
        · cases h
          have := length_readNameRest hRest
          simp only [List.length_cons]
          omega

@[simp] theorem length_shorten (size : Nat) (rest : List Mark) :
    (shorten size rest).length = rest.length := by
  cases rest with
  | nil => rfl
  | cons m rest =>
    rw [shorten]
    split <;> simp [escapeAt]

/-- A route has at most so many parameters besides a catch-all: shortened names are letters, and the
last letter is not used. -/
def parameterLimit : Nat := 25

/-- Reads the pieces of a route with at most `room` parameters. -/
def readPieces (room : Nat) (text : List Mark) : Except Fault Route :=
  match text with
  | [] => .ok []
  | m :: text =>
    if m.isClosing then .error .parameterName
    else if m.isOpening then
      match h : readName text with
      | none => .error .parameterName
      | some (name, rest) =>
        have := length_readName h
        if isCatchAll name then (readPieces room rest).map (.catchAll :: ·)
        else if room = 0 then .error .parameterCount
        else (readPieces (room - 1) (shorten name.length rest)).map (.parameter :: ·)
    else (readPieces room text).map (.literal m.byte :: ·)
termination_by text.length
decreasing_by
  all_goals
    simp only [List.length_cons, length_shorten]
    omega

def meetsParameter : Route → Bool
  | [] => false
  | .literal b :: rest => b ≠ slash && meetsParameter rest
  | .parameter :: _ | .catchAll :: _ => true

/-- The first parameter that is not alone in its segment, or not the last thing if it takes in all
that follows, decides the fault. -/
def check : Route → Except Fault Unit
  | [] => .ok ()
  | .literal _ :: rest => check rest
  | .parameter :: rest => if meetsParameter rest then .error .parameterSegment else check rest
  | .catchAll :: rest => if rest.isEmpty then .ok () else .error .catchAll

/-- Reads a route. All names are read before a parameter is found to be in the wrong place. -/
def read (text : Bytes) : Except Fault Route :=
  match readPieces parameterLimit (marks text) with
  | .error fault => .error fault
  | .ok route => (check route).map fun _ => route

def accepts : Route → Bytes → Bool
  | [], [] => true
  | .literal b :: route, c :: path => b = c && accepts route path
  | .parameter :: route, c :: path =>
    c ≠ slash && (accepts route path || accepts (.parameter :: route) path)
  | .catchAll :: _, _ :: _ => true
  | _, _ => false

end Route

end ForkLog.Http
