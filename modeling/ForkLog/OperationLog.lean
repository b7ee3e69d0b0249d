import ForkLog.Cursor
import ForkLog.PendingSet
import ForkLog.UndoLog

/-! # The operation log

Operations gather in the pending set until a flush writes them, together with the cursor that
they lead to. The undo log is written at once, against the records as they were last flushed.
-/

namespace ForkLog

set_option autoImplicit false

structure OperationLog (σ : Type) where
  store : σ
  pending : PendingSet
  /-- The cursor written last, if one was written. -/
  lastCursor : Option Cursor

namespace OperationLog

variable {σ α : Type}

def ofStore (store : σ) : OperationLog σ := ⟨store, ∅, none⟩

def onStore (step : Action σ α) : Action (OperationLog σ) α :=
  Action.within store (fun log store => { log with store }) step

def add (ops : List Operation) : Action (OperationLog σ) Unit := fun log =>
  .ok () { log with pending := log.pending.addAll ops }

def setLastCursor (cursor : Cursor) : Action (OperationLog σ) Unit := fun log =>
  .ok () { log with lastCursor := some cursor }

def clearPending : Action (OperationLog σ) Unit := fun log => .ok () { log with pending := ∅ }

variable [Store σ]

def purge (height : UInt64) : Action (OperationLog σ) Nat := onStore (UndoLog.purge height)

def record (block : UInt64) (ops : List Operation) : Action (OperationLog σ) Nat :=
  onStore (UndoLog.record block ops)

def discardAbove (height : UInt64) : Action (OperationLog σ) Nat :=
  onStore (UndoLog.discardAbove height)

def undoBlocks : Action (OperationLog σ) (List UInt64) := onStore UndoLog.blocks

/-- Adds the operations that take back the blocks above a height, and returns how many blocks
these are. Nothing is added if a record cannot be read. -/
def replay (height : UInt64) : Action (OperationLog σ) Nat := do
  let batches ← onStore (UndoLog.batchesAbove height)
  add batches.flatten
  return batches.length

def assignments (ops : List Operation) : List Operation := ops.filter fun op => op.kind = .set

def removals (ops : List Operation) : List Operation := ops.filter fun op => op.kind = .delete

def putAll : List Operation → Action σ Unit
  | [] => pure ()
  | op :: rest => do
    Store.put (Key.user op.key) op.value
    putAll rest

def putCursor (cursor : Cursor) : Action σ Unit := do
  Store.put Key.cursor cursor.encode
  Store.sync

/-- Writes operations on different keys, then the cursor. No call is made if one of the
operations has no valid kind. -/
def writeOut (ops : List Operation) (cursor : Cursor) : Action σ Nat := do
  Action.ofExcept (Operation.validateAll ops)
  putAll (assignments ops)
  let keys := (removals ops).map fun op => Key.user op.key
  if !keys.isEmpty then
    Store.deleteMany keys
  putCursor cursor
  return (assignments ops).length + keys.length

/-- Writes the pending changes in the order of `listing`, which holds each of them once. They
are pending until all is written; then `cursor` is the last cursor. -/
def flushListed (listing : List Operation) (cursor : Cursor) : Action (OperationLog σ) Nat := do
  let log ← get
  if log.pending.isEmpty && log.lastCursor = some cursor then
    return 0
  let count ← onStore (writeOut listing cursor)
  clearPending
  setLastCursor cursor
  return count

def flushIn (order : PendingSet.Order) (cursor : Cursor) : Action (OperationLog σ) Nat := do
  let log ← get
  flushListed (order.list log.pending) cursor

def flush (cursor : Cursor) : Action (OperationLog σ) Nat := flushIn .sorted cursor

def getCursor : Action (OperationLog σ) Cursor := do
  match ← onStore (Store.get Key.cursor) with
  | none => throw .cursorNotFound
  | some text => Action.ofExcept (Cursor.decode text)

def writeCursor (cursor : Cursor) : Action (OperationLog σ) Unit := do
  onStore (putCursor cursor)
  setLastCursor cursor

end OperationLog

end ForkLog
