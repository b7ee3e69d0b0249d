import ForkLog.Config
import ForkLog.Event
import ForkLog.OperationLog
import ForkLog.Stats

/-! # Following a chain

A follower applies the events of a chain to an operation log. A block that may be taken back is
flushed at once; blocks that are final gather up to the flush interval. A follower that resumes
passes over what the log already holds, until it meets the first event that is new.
-/

namespace ForkLog

set_option autoImplicit false

structure Follower (σ : Type) where
  log : OperationLog σ
  config : Config
  stats : Stats
  stopRequested : Bool
  /-- The finalized height reported with the block applied last. -/
  lastFinalized : Option UInt64
  lastCursor : Option Cursor
  /-- Blocks below this one are passed over until the follower has caught up. -/
  resumeFrom : UInt64
  caughtUp : Bool

/-- What comes out of a source of events, and whether a stop was requested meanwhile. -/
structure Arrival where
  item : Except Error Event
  stopping : Bool

/-- How a run came to its end, and how many events it took from its source. -/
structure RunResult where
  outcome : Except Error Unit
  taken : Nat

namespace Follower

variable {σ α : Type}

def ofLog (log : OperationLog σ) (config : Config) : Follower σ where
  log
  config
  stats := .zero
  stopRequested := false
  lastFinalized := none
  lastCursor := none
  resumeFrom := config.startBlock
  caughtUp := false

def onLog (step : Action (OperationLog σ) α) : Action (Follower σ) α :=
  Action.within log (fun f log => { f with log }) step

def update (change : Follower σ → Follower σ) : Action (Follower σ) Unit := fun f =>
  .ok () (change f)

def requestStop (f : Follower σ) : Follower σ := { f with stopRequested := true }

def clearStop (f : Follower σ) : Follower σ := { f with stopRequested := false }

variable [Store σ]

/-- Finds out where to resume. Without a cursor it is the start block, which is then kept as the
blank cursor of the block before it. -/
def start : Action (Follower σ) Cursor := fun f =>
  match onLog OperationLog.getCursor f with
  | .ok cursor f => .ok cursor { f with resumeFrom := cursor.resumeBlock }
  | .error .cursorNotFound f =>
    let cursor := Cursor.blank (previousBlock f.config.startBlock)
    match onLog (OperationLog.writeCursor cursor) f with
    | .ok () f => .ok cursor { f with resumeFrom := f.config.startBlock }
    | .error e f => .error e f
  | .error e f => .error e f

def retrying (step : Action (OperationLog σ) α) : Action (Follower σ) α := fun f =>
  Action.retrying f.config.maxRetries (onLog step) f

def flushOnceIn (order : PendingSet.Order) (cursor : Cursor) : Action (Follower σ) Nat := do
  let count ← onLog (OperationLog.flushIn order cursor)
  update fun f => { f with stats := f.stats.recordFlush count 0 }
  return count

/-- Writes what is pending, each attempt in an order of its own. -/
def flushIn (orders : Nat → PendingSet.Order) (cursor : Cursor) : Action (Follower σ) Nat := fun f =>
  Action.attempting f.config.maxRetries (fun attempt => flushOnceIn (orders attempt) cursor) f

/-- Forgets how to take back the blocks that were final when the last block came. -/
def purge : Action (Follower σ) Unit := do
  match (← get).lastFinalized with
  | none => return
  | some height => let _ ← retrying (OperationLog.purge height)

/-- A block is flushed if it may be taken back or ends an interval. -/
def flushesAt (interval : UInt64) (block : Block) : Bool :=
  block.number % max interval 1 = 0 || block.finalizedHeight < block.number

def applyIn (orders : Nat → PendingSet.Order) (block : Block) : Action (Follower σ) Unit := do
  purge
  let _ ← retrying (OperationLog.record block.number block.operations)
  onLog (OperationLog.add block.operations)
  if flushesAt (← get).config.flushInterval block then
    let _ ← flushIn orders block.cursor
  update fun f =>
    { f with
      lastFinalized := some block.finalizedHeight
      lastCursor := some block.cursor
      stats := f.stats.recordBlock block.number block.finalizedHeight }

def onBlockIn (orders : Nat → PendingSet.Order) (block : Block) : Action (Follower σ) Unit := do
  let f ← get
  if !f.caughtUp && block.number < f.resumeFrom then
    return
  update fun f => { f with caughtUp := true }
  applyIn orders block

/-- Writes the records as they were before the blocks above a height, and only then forgets how
to take these back. -/
def takeBackIn (orders : Nat → PendingSet.Order) (fork : Fork) : Action (Follower σ) Unit := do
  let replayed ← retrying (OperationLog.replay fork.lastValidBlock)
  let _ ← flushIn orders fork.cursor
  let _ ← retrying (OperationLog.discardAbove fork.lastValidBlock)
  update fun f =>
    { f with
      resumeFrom := if f.caughtUp then f.resumeFrom else nextBlock fork.lastValidBlock
      caughtUp := true
      lastCursor := some fork.cursor
      stats := f.stats.recordUndo fork.lastValidBlock replayed }

def onForkIn (orders : Nat → PendingSet.Order) (fork : Fork) : Action (Follower σ) Unit := do
  let f ← get
  if !f.caughtUp && f.resumeFrom ≤ nextBlock fork.lastValidBlock then
    return
  takeBackIn orders fork

def handleIn (orders : Nat → PendingSet.Order) : Event → Action (Follower σ) Unit
  | .data block => onBlockIn orders block
  | .undo fork => onForkIn orders fork

def shutdownIn (orders : Nat → PendingSet.Order) : Action (Follower σ) Unit := do
  match (← get).lastCursor with
  | none => return
  | some cursor => let _ ← flushIn orders cursor

/-- Handles events until the source ends, a stop is requested or an event fails. `taken` events
were taken before. The orders of what each event flushes are told by its number. -/
def consumeIn (orders : Nat → Nat → PendingSet.Order) :
    List Arrival → Nat → Follower σ → RunResult × Follower σ
  | [], taken, f => (⟨.ok (), taken⟩, f)
  | arrival :: rest, taken, f =>
    let f := if arrival.stopping then f.requestStop else f
    if f.stopRequested then (⟨.ok (), taken + 1⟩, f)
    else
      match arrival.item with
      | .error e => (⟨.error e, taken + 1⟩, f)
      | .ok event =>
        match handleIn (orders taken) event f with
        | .ok () f => consumeIn orders rest (taken + 1) f
        | .error e f => (⟨.error e, taken + 1⟩, f)

/-- Whether what is pending is to be flushed at the end of a run. After a store failure the
pending changes may belong to a block that is applied in part. -/
def flushesAfter : Except Error Unit → Bool
  | .ok () => true
  | .error e => !e.isStoreFailure

/-- Handles the events of a source. The first failure is the outcome. -/
def runIn (orders : Nat → Nat → PendingSet.Order) (arrivals : List Arrival) (f : Follower σ) :
    RunResult × Follower σ :=
  match consumeIn orders arrivals 0 f with
  | (result, f) =>
    if flushesAfter result.outcome then
      match shutdownIn (orders result.taken) f with
      | .ok () f => (result, f)
      | .error e f =>
        match result.outcome with
        | .ok () => (⟨.error e, result.taken⟩, f)
        | .error _ => (result, f)
    else (result, f)

/-- Each attempt writes by the keys. -/
def sorted : Nat → PendingSet.Order := fun _ => .sorted

def flush (cursor : Cursor) : Action (Follower σ) Nat := flushIn sorted cursor

def apply (block : Block) : Action (Follower σ) Unit := applyIn sorted block

def onBlock (block : Block) : Action (Follower σ) Unit := onBlockIn sorted block

def onFork (fork : Fork) : Action (Follower σ) Unit := onForkIn sorted fork

def handle (event : Event) : Action (Follower σ) Unit := handleIn sorted event

def shutdown : Action (Follower σ) Unit := shutdownIn sorted

def consume (arrivals : List Arrival) (taken : Nat) (f : Follower σ) : RunResult × Follower σ :=
  consumeIn (fun _ => sorted) arrivals taken f

def run (arrivals : List Arrival) (f : Follower σ) : RunResult × Follower σ :=
  runIn (fun _ => sorted) arrivals f

end Follower

end ForkLog
