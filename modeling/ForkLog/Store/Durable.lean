import ForkLog.Disk
import ForkLog.Store.Contents
import ForkLog.Store.Snapshot

/-! # Durable stores

The contents are held in memory and written to one file as a whole when the store is synced. The
file is replaced by a rename, so that it holds the old contents or the new ones and never a part
of either.
-/

namespace ForkLog

set_option autoImplicit false

structure DurableStore (δ : Type) where
  contents : Contents
  /-- Something was written since the contents were last made durable. -/
  dirty : Bool
  disk : δ
  path : String
  maxRetries : Nat

namespace DurableStore

variable {δ α : Type} [Disk δ]

def joinPath (directory name : String) : String :=
  if directory.isEmpty then name
  else if directory.toList.getLast? = some '/' then directory ++ name
  else directory ++ "/" ++ name

def snapshotPath (directory : String) : String := joinPath directory "kv.snapshot"

def temporaryPath (path : String) : String := path ++ ".tmp"

def readSnapshot (path : String) : Action δ (List Entry) := do
  FileAction.inContext "Failed to open snapshot" (Disk.openFile path)
  let data ← FileAction.inContext "Failed to read snapshot" (Disk.read path)
  Action.ofExcept ((Snapshot.decode data).mapError (Snapshot.Fault.toError path))

def writeSnapshot (path : String) (entries : List Entry) : Action δ Unit := do
  let temporary := temporaryPath path
  FileAction.inContext "Failed to create temp file" (Disk.create temporary)
  FileAction.inContext "Failed to write snapshot" (Disk.write temporary (Snapshot.encode entries))
  FileAction.inContext "Failed to sync snapshot" (Disk.sync temporary)
  FileAction.inContext "Failed to rename snapshot" (Disk.rename temporary path)

/-- The contents that a directory holds; the directory is made if it is missing. -/
def load (directory : String) (maxRetries : Nat) : Action δ Contents := do
  FileAction.inContext "Failed to create data directory" (Disk.makeDirectories directory)
  let path := snapshotPath directory
  if Disk.isPresent path (← get) then
    return .ofEntries (← Action.retrying maxRetries (readSnapshot path))
  else
    return ∅

def mount (directory : String) (maxRetries : Nat) (disk : δ) :
    Except (Error × δ) (DurableStore δ) :=
  match load directory maxRetries disk with
  | .ok contents disk =>
    .ok { contents, dirty := false, disk, path := snapshotPath directory, maxRetries }
  | .error e disk => .error (e, disk)

def onContents (step : Action Contents α) : Action (DurableStore δ) α :=
  Action.within contents (fun s contents => { s with contents }) step

def onDisk (step : Action δ α) : Action (DurableStore δ) α :=
  Action.within disk (fun s disk => { s with disk }) step

def setDirty (dirty : Bool) : Action (DurableStore δ) Unit := fun s => .ok () { s with dirty }

/-- Writes a snapshot if there is something to write. After a failure it is still there to be
written. -/
def persist : Action (DurableStore δ) Unit := do
  let s ← get
  if s.dirty then
    onDisk (Action.retrying s.maxRetries (writeSnapshot s.path s.contents.entries))
    setDirty false

instance : Store (DurableStore δ) where
  get key := onContents (Store.get key)
  getMany keys := onContents (Store.getMany keys)
  put key value := do
    onContents (Store.put key value)
    setDirty true
  deleteMany keys :=
    if keys.isEmpty then pure ()
    else do
      onContents (Store.deleteMany keys)
      setDirty true
  range start stop limit := onContents (Store.range start stop limit)
  startingWith beginning limit := onContents (Store.startingWith beginning limit)
  sync := persist
  bound s := Store.bound s.contents

end DurableStore

end ForkLog
