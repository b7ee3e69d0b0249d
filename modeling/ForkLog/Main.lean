import ForkLog.Command
import ForkLog.Disk.FileTree

/-! # Command line

The files that a command may touch are read into a file tree, the command runs on the tree, and
what it changed there is written back. Nothing is decided here.
-/

namespace ForkLog.CommandLine

set_option autoImplicit false

open FileTree

def nameOf (place : Place) : String := "/" ++ String.intercalate "/" place

/-- The places that the names of a path lead to from the given one, in this order. -/
def placesAlong : Place → List String → List Place
  | _, [] => []
  | place, name :: rest =>
    let next :=
      if name = "." then place else if name = ".." then place.dropLast else place ++ [name]
    next :: placesAlong next rest

def placesOf (home : Place) (text : String) : List Place :=
  match FilePath.read text with
  | .error _ => []
  | .ok path => placesAlong ((bare home).start path) path.names

def directoryPlaces (home : Place) (directory : String) : List Place :=
  let snapshot := DurableStore.snapshotPath directory
  placesOf home snapshot ++ placesOf home (DurableStore.temporaryPath snapshot)

def places (home : Place) : Command → List Place
  | .inject directory events _ _ _ _ => directoryPlaces home directory ++ placesOf home events
  | .serve directory _ _ => directoryPlaces home directory
  | .inspect directory => directoryPlaces home directory

def readNode (place : Place) : IO (Option Node) := do
  let file := (← IO.currentDir) / nameOf place
  if ← file.isDir then return some .directory
  else if ← file.pathExists then
    return some (.file (← IO.FS.readBinFile file).toList)
  else return none

def readTree (home : Place) (places : List Place) : IO FileTree :=
  places.foldlM (fun tree place => do
    match ← readNode place with
    | some node => return tree.setNode place node
    | none => return tree) (bare home)

/-- A file is replaced by a rename, so that it is never there in part. -/
def writeFile (name : String) (content : Bytes) : IO Unit := do
  let temporary := DurableStore.temporaryPath name
  IO.FS.writeBinFile temporary ⟨content.toArray⟩
  IO.FS.rename temporary name

def writeBack (old new : FileTree) (place : Place) : IO Unit :=
  if new.node? place = old.node? place then pure ()
  else
    match new.node? place with
    | some .directory => IO.FS.createDirAll (nameOf place)
    | some (.file content) => writeFile (nameOf place) content
    | none => IO.FS.removeFile (nameOf place)

def execute (command : Command) : IO UInt32 := do
  let home := FilePath.namesIn (← IO.currentDir).toString.toList
  let places := places home command
  let old ← readTree home places
  let (ending, new) := command.run old
  places.forM (writeBack old new)
  match ending with
  | .exited outcome =>
    IO.print outcome.stdout
    IO.eprint outcome.stderr
    return outcome.status.toUInt32
  | .serving =>
    IO.eprintln "Error: queries cannot be served without a network"
    return 1

end ForkLog.CommandLine

def main (args : List String) : IO UInt32 := do
  match ForkLog.Command.read? args with
  | some command => ForkLog.CommandLine.execute command
  | none =>
    IO.eprintln "Usage: inject DIRECTORY EVENTS [OPTIONS] | serve DIRECTORY [OPTIONS] | inspect DIRECTORY"
    return 2
