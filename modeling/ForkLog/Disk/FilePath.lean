import ForkLog.Disk
import ForkLog.Text.Split

/-! # File paths

A path is a list of names between slashes that are followed one by one, `.` and `..` among them.
Which file it leads to is for the file tree to say: `a/../b` leads nowhere if there is no `a`.
-/

namespace ForkLog

set_option autoImplicit false

structure FilePath where
  /-- It is followed from the root, not from the working directory. -/
  fromRoot : Bool
  names : List String
  /-- A slash follows the last name, so that only a directory is meant. -/
  closed : Bool
  deriving DecidableEq, Repr

namespace FilePath

/-- The bytes of a path, and one more that ends it, are at most so many. -/
def sizeLimit : Nat := 4096

def nameLimit : Nat := 255

def namesIn (text : List Char) : List String :=
  ((splitAtEach '/' text).filter (· ≠ [])).map String.ofList

/-- Reads a path. The empty text is the path of nothing. -/
def read (text : String) : Except FileFault FilePath :=
  if text.toList.contains '\x00' then .error .zeroByte
  else if text.isEmpty then .error .missing
  else if sizeLimit ≤ text.utf8ByteSize then .error .nameTooLong
  else
    .ok
      { fromRoot := text.toList.head? = some '/'
        names := namesIn text.toList
        closed := text.toList.getLast? = some '/' }

/-- The names of a path that does not linger: `.` is kept at the beginning only. -/
def briefNames (path : FilePath) : List String :=
  match path.fromRoot, path.names with
  | false, "." :: rest => "." :: rest.filter (· ≠ ".")
  | _, names => names.filter (· ≠ ".")

/-- The paths to the directories above, the nearest first. The working directory itself has no
path. -/
def above (path : FilePath) : List FilePath :=
  let beginnings := (List.range path.briefNames.length).reverse.map path.briefNames.take
  (beginnings.filter fun names => path.fromRoot || names ≠ []).map fun names =>
    ⟨path.fromRoot, names, false⟩

end FilePath

end ForkLog
