import ForkLog.Action
import ForkLog.Bytes

/-! # Files

The steps on files that a durable store takes. Each may fail for a reason of the system's.
-/

namespace ForkLog

set_option autoImplicit false

inductive FileFault.Kind where
  | wouldBlock
  | timedOut
  | interrupted
  | permanent
  deriving DecidableEq, Repr

structure FileFault where
  kind : FileFault.Kind
  text : String
  deriving DecidableEq, Repr

namespace FileFault

/-- A fault that may pass is a transient store failure. -/
def toError (context : String) (fault : FileFault) : Error :=
  let reason := context ++ ": " ++ fault.text
  match fault.kind with
  | .wouldBlock | .timedOut | .interrupted => .transientStore reason
  | .permanent => .store reason

def missing : FileFault := ⟨.permanent, "No such file or directory (os error 2)"⟩

def present : FileFault := ⟨.permanent, "File exists (os error 17)"⟩

def notDirectory : FileFault := ⟨.permanent, "Not a directory (os error 20)"⟩

def isDirectory : FileFault := ⟨.permanent, "Is a directory (os error 21)"⟩

def nameTooLong : FileFault := ⟨.permanent, "File name too long (os error 36)"⟩

def zeroByte : FileFault := ⟨.permanent, "file name contained an unexpected NUL byte"⟩

end FileFault

abbrev FileAction (δ α : Type) := EStateM FileFault δ α

def FileAction.inContext {δ α : Type} (context : String) (step : FileAction δ α) : Action δ α :=
  fun disk =>
    match step disk with
    | .ok a disk => .ok a disk
    | .error fault disk => .error (fault.toError context) disk

class Disk (δ : Type) where
  isPresent : String → δ → Bool
  makeDirectories : String → FileAction δ Unit
  openFile : String → FileAction δ Unit
  read : String → FileAction δ Bytes
  /-- Makes an empty file, in the place of one that is there. -/
  create : String → FileAction δ Unit
  write : String → Bytes → FileAction δ Unit
  sync : String → FileAction δ Unit
  rename : (source target : String) → FileAction δ Unit

end ForkLog
