/-! # Causes of failure -/

namespace ForkLog

set_option autoImplicit false

inductive Error where
  | notFound
  | invalidArguments (reason : String)
  | cursorNotFound
  | invalidCursor (reason : String)
  | corruptOperation (reason : String)
  | store (reason : String)
  /-- A store failure that may be gone when the call is made again. -/
  | transientStore (reason : String)
  | serialization (reason : String)
  deriving DecidableEq, Repr

namespace Error

def message : Error → String
  | notFound => "not found"
  | invalidArguments reason => "invalid arguments: " ++ reason
  | cursorNotFound => "cursor not found"
  | invalidCursor reason => "invalid cursor: " ++ reason
  | corruptOperation reason => "corrupt operation: " ++ reason
  | store reason => "store failure: " ++ reason
  | transientStore reason => "transient store failure: " ++ reason
  | serialization reason => "serialization error: " ++ reason

/-- The caller's input is at fault and another call may succeed. -/
def isRecoverable : Error → Bool
  | notFound | invalidArguments _ => true
  | _ => false

/-- The store is at fault: what was to be written may be written in part. -/
def isStoreFailure : Error → Bool
  | store _ | transientStore _ => true
  | _ => false

def isTransient : Error → Bool
  | transientStore _ => true
  | _ => false

end Error

end ForkLog
