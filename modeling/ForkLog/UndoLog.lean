import ForkLog.Key
import ForkLog.Operation.Record
import ForkLog.Store

/-! # The undo log

For every block that may still be taken back, the store holds the operations that take it back.
Undo keys count downwards, so the records of the blocks above a height come before its own, and
those at or below it follow.
-/

namespace ForkLog.UndoLog

set_option autoImplicit false

variable {σ : Type} [Store σ]

/-- The operation that takes `op` back where its key held `previous`. Removing a key that is not
there leaves nothing to take back. -/
def inverse? (op : Operation) (previous : Option Bytes) : Option Operation :=
  match op.kind, previous with
  | .set, some value | .delete, some value => some (.assign op.key value)
  | .set, none => some (.remove op.key)
  | .delete, none | .unset, _ => none

/-- Takes back a batch of which each operation found `previous` under its key, last one first. -/
def inverseOf (ops : List Operation) (previous : List (Option Bytes)) : List Operation :=
  ((ops.zip previous).filterMap fun (op, value) => inverse? op value).reverse

/-- The batch that takes `ops` back from the records as they are stored now. -/
def inverse (ops : List Operation) : Action σ (List Operation) := do
  Action.ofExcept (Operation.validateAll ops)
  let previous ← Store.getMany (ops.map fun op => Key.user op.key)
  return inverseOf ops previous

def record (block : UInt64) (ops : List Operation) : Action σ Nat := do
  let undo ← inverse ops
  Store.put (Key.undo block) (Operation.encodeBatch undo)
  return undo.length

def above (height : UInt64) : Action σ (List Entry) :=
  Store.range (Key.undo (.ofNat (UInt64.size - 1))) (Key.undo height) 0

def upTo (height : UInt64) : Action σ (List Entry) :=
  Store.range (Key.undo height) Key.undoEnd 0

def deleteEntries (entries : List Entry) : Action σ Nat :=
  if entries.isEmpty then pure 0
  else do
    Store.deleteMany (entries.map Prod.fst)
    return entries.length

def purge (height : UInt64) : Action σ Nat := do deleteEntries (← upTo height)

def discardAbove (height : UInt64) : Action σ Nat := do deleteEntries (← above height)

/-- The batches that take back the blocks above a height, to be applied in this order. -/
def batchesAbove (height : UInt64) : Action σ (List (List Operation)) := do
  let entries ← above height
  Action.ofExcept (entries.mapM fun e => Operation.decodeBatch e.2)

def blocks : Action σ (List UInt64) := do
  let entries ← Store.range Key.undoMark Key.undoEnd 0
  return entries.filterMap fun e => Key.undoBlock? e.1

def find? (block : UInt64) : Action σ (Option (List Operation)) := do
  match ← Store.get (Key.undo block) with
  | none => return none
  | some record => return some (← Action.ofExcept (Operation.decodeBatch record))

end ForkLog.UndoLog
