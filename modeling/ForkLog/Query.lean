import ForkLog.Key
import ForkLog.Store

/-! # Queries

Questions about user records. A query sees what has been written to the store and nothing that
is pending.
-/

namespace ForkLog

set_option autoImplicit false

structure Row where
  key : String
  value : Bytes
  deriving DecidableEq, Repr

/-- A part of an answer, and whether there is more. -/
structure Page where
  rows : List Row
  limitReached : Bool
  deriving DecidableEq, Repr

/-- The questions whose answer is an `α`. -/
inductive Query : Type → Type where
  | get (key : String) : Query Bytes
  | getMany (keys : List String) : Query (List Bytes)
  | startingWith (beginning : String) (limit : Nat) : Query Page
  /-- The keys from `start` up to but not including `stop`; all that follow if that is empty. -/
  | range (start stop : String) (limit : Nat) : Query Page

namespace Query

variable {σ : Type} [Store σ]

def checkLimit (rowsLimit limit : Nat) : Except Error Unit :=
  if limit < 1 || rowsLimit < limit then
    .error (.invalidArguments s!"limit must be between 1 and {rowsLimit}, got {limit}")
  else .ok ()

/-- The page of the first `limit` entries. That there is no entry is a failure. -/
def toPage (entries : List Entry) (limit : Nat) : Except Error Page :=
  if entries.isEmpty then .error .notFound
  else
    .ok
      { rows := (entries.take limit).map fun e => ⟨Key.userText e.1, e.2⟩
        limitReached := limit < entries.length }

def allFound : List (Option Bytes) → Except Error (List Bytes)
  | [] => .ok []
  | none :: _ => .error .notFound
  | some value :: rest => (allFound rest).map (value :: ·)

def rangeEnd (stop : String) : Bytes := if stop.isEmpty then Key.openEnd else Key.user stop

def after (key : Bytes) : Bytes := key ++ [0]

/-- Gathers user entries, one call on the store at a time, until there are more than `limit` or
the range is at its end. Other entries are passed over, which is why one call may not do. There
is no result if `calls` calls do not do either. -/
def gather (stop : Bytes) (limit : Nat) :
    (calls : Nat) → (start : Bytes) → (found : List Entry) → Action σ (Option (List Entry))
  | 0, _, _ => pure none
  | calls + 1, start, found => do
    let wanted := limit + 1 - found.length
    let batch ← Store.range start stop wanted
    let found := found ++ batch.filter fun e => Key.isUser e.1
    if batch.length < wanted || limit < found.length then
      return some found
    match batch.getLast? with
    | none => gather stop limit calls start found
    | some last => gather stop limit calls (after last.1) found

/-- Every call but the last one meets an entry that no call met before. -/
def runRange (start stop : String) (limit : Nat) : Action σ Page := do
  let s ← MonadState.get
  match ← gather (rangeEnd stop) limit (Store.bound s + 1) (Key.user start) [] with
  | none => throw (.store "range is not at an end")
  | some found => Action.ofExcept (toPage found limit)

def run (rowsLimit : Nat) {α : Type} : Query α → Action σ α
  | .get key => do
    match ← Store.get (Key.user key) with
    | none => throw .notFound
    | some value => return value
  | .getMany keys =>
    if keys.isEmpty then throw (.invalidArguments "keys must not be empty")
    else do
      let found ← Store.getMany (keys.map Key.user)
      Action.ofExcept (allFound found)
  | .startingWith beginning limit =>
    if beginning.isEmpty then throw (.invalidArguments "prefix must not be empty")
    else do
      Action.ofExcept (checkLimit rowsLimit limit)
      let found ← Store.startingWith (Key.user beginning) (limit + 1)
      Action.ofExcept (toPage found limit)
  | .range start stop limit => do
    Action.ofExcept (checkLimit rowsLimit limit)
    runRange start stop limit

/-- So many rows of 48 bytes each are all that can be addressed with 63 bits. -/
def roomLimit : Nat := (Nat.pow 2 63 - 1) / 48

/-- Whether there is room for the rows of a query. A range sets it aside before it looks for any,
with one more row that tells whether the limit is reached. -/
def hasRoom (rowsLimit : Nat) {α : Type} : Query α → Bool
  | .range _ _ limit => rowsLimit < limit || limit < roomLimit
  | _ => true

def attempt (rowsLimit : Nat) {α : Type} (query : Query α) : Option (Action σ α) :=
  if query.hasRoom rowsLimit then some (query.run rowsLimit) else none

end Query

end ForkLog
