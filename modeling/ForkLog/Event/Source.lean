import ForkLog.Disk
import ForkLog.Event.Line
import ForkLog.Text.Blank
import ForkLog.Text.Split

/-! # Sources of events

A byte string is a source of events, one for each line that is not blank. Lines are read
independently; only their numbers are counted from the beginning. A line that is not UTF-8 has no
number.
-/

namespace ForkLog.Event

set_option autoImplicit false

def newline : UInt8 := 0x0A

def carriageReturn : UInt8 := 0x0D

def chop (line : Bytes) : Bytes :=
  if line.getLast? = some carriageReturn then line.dropLast else line

/-- The lines among the pieces between newlines. What follows the last newline is a line if there
is something, and it keeps its carriage return. -/
def linesOfPieces : List Bytes → List Bytes
  | [] => []
  | [last] => if last.isEmpty then [] else [last]
  | piece :: rest => chop piece :: linesOfPieces rest

def lines (source : Bytes) : List Bytes := linesOfPieces (splitAtEach newline source)

def undecodable : Error := .store "Failed to read event: stream did not contain valid UTF-8"

def readLines : (number : Nat) → List Bytes → List (Except Error Event)
  | _, [] => []
  | number, line :: rest =>
    match Utf8.decodeChars line with
    | .error _ => .error undecodable :: readLines number rest
    | .ok text =>
      if text.all isBlank then readLines (number + 1) rest
      else readLine (number + 1) text :: readLines (number + 1) rest

/-- The events of a source, in order, each of them or why it cannot be read. -/
def readAll (source : Bytes) : List (Except Error Event) := readLines 0 (lines source)

/-- The events of the file at `path`. A file that can be opened but not read is a source that
fails at once. -/
def openFile {δ : Type} [Disk δ] (path : String) : Action δ (List (Except Error Event)) := do
  FileAction.inContext ("Failed to open " ++ path) (Disk.openFile path)
  fun disk =>
    match FileAction.inContext "Failed to read event" (Disk.read path) disk with
    | .ok source disk => .ok (readAll source) disk
    | .error e disk => .ok [.error e] disk

end ForkLog.Event
