import Std.Data.ExtTreeMap
import ForkLog.Disk.FilePath

/-! # File trees

Files and directories by their place below the root. Paths are followed name by name, so that each
name but the last one must lead to a directory.
-/

namespace ForkLog

set_option autoImplicit false

namespace FileTree

inductive Node where
  | file (content : Bytes)
  | directory
  deriving DecidableEq, Repr

/-- The names that lead from the root to a file or a directory. -/
abbrev Place := List String

end FileTree

structure FileTree where
  nodes : Std.ExtTreeMap FileTree.Place FileTree.Node
  /-- The working directory. It and the directories above it are always there. -/
  home : FileTree.Place

namespace FileTree

def bare (home : Place) : FileTree := ⟨∅, home⟩

def node? (tree : FileTree) (place : Place) : Option Node :=
  if place.isPrefixOf tree.home then some .directory else tree.nodes[place]?

def setNode (tree : FileTree) (place : Place) (node : Node) : FileTree :=
  { tree with nodes := tree.nodes.insert place node }

/-- The place that a name leads to from another one, which must be a directory. Nothing need be
there. -/
def follow (tree : FileTree) (place : Place) (name : String) : Except FileFault Place :=
  match tree.node? place with
  | none => .error .missing
  | some (.file _) => .error .notDirectory
  | some .directory =>
    if name = "." then .ok place
    else if name = ".." then .ok place.dropLast
    else if FilePath.nameLimit < name.utf8ByteSize then .error .nameTooLong
    else .ok (place ++ [name])

def start (tree : FileTree) (path : FilePath) : Place := if path.fromRoot then [] else tree.home

def locate (tree : FileTree) (path : FilePath) : Except FileFault Place :=
  path.names.foldlM tree.follow (tree.start path)

/-- The place of what a path means: a directory if a slash ends it. -/
def resolve (tree : FileTree) (path : FilePath) : Except FileFault Place :=
  match tree.locate path with
  | .error fault => .error fault
  | .ok place => if path.closed then tree.follow place "." else .ok place

def find (tree : FileTree) (path : FilePath) : Except FileFault (Option Node) :=
  (tree.resolve path).map tree.node?

def isPresent (tree : FileTree) (path : FilePath) : Bool :=
  match tree.find path with
  | .ok (some _) => true
  | _ => false

def isDirectory (tree : FileTree) (path : FilePath) : Bool :=
  match tree.find path with
  | .ok (some .directory) => true
  | _ => false

def file? (tree : FileTree) (path : FilePath) : Option Bytes :=
  match tree.find path with
  | .ok (some (.file content)) => some content
  | _ => none

def makeDirectory (path : FilePath) : FileAction FileTree Unit := fun tree =>
  match tree.locate path with
  | .error fault => .error fault tree
  | .ok place =>
    match tree.node? place with
    | some _ => .error .present tree
    | none => .ok () (tree.setNode place .directory)

def ensureDirectory (path : FilePath) : FileAction FileTree Unit := fun tree =>
  match makeDirectory path tree with
  | .ok () tree => .ok () tree
  | .error fault tree => if tree.isDirectory path then .ok () tree else .error fault tree

/-- Makes the first directory of a list unless it is there. If it has nowhere to be, those that
follow, which are above it, are made before. -/
def makeDirectories : List FilePath → FileAction FileTree Unit
  | [], tree => .ok () tree
  | path :: above, tree =>
    match ensureDirectory path tree with
    | .ok () tree => .ok () tree
    | .error fault tree =>
      if fault = .missing then
        match makeDirectories above tree with
        | .ok () tree => ensureDirectory path tree
        | .error fault tree => .error fault tree
      else .error fault tree

def openFile (path : FilePath) : FileAction FileTree Unit := fun tree =>
  match tree.find path with
  | .error fault => .error fault tree
  | .ok none => .error .missing tree
  | .ok (some _) => .ok () tree

def read (path : FilePath) : FileAction FileTree Bytes := fun tree =>
  match tree.find path with
  | .error fault => .error fault tree
  | .ok none => .error .missing tree
  | .ok (some .directory) => .error .isDirectory tree
  | .ok (some (.file content)) => .ok content tree

/-- Puts a file with the given content at a path, which no slash may end. -/
def put (path : FilePath) (content : Bytes) : FileAction FileTree Unit := fun tree =>
  match tree.locate path with
  | .error fault => .error fault tree
  | .ok place =>
    if path.closed || tree.node? place = some .directory then .error .isDirectory tree
    else .ok () (tree.setNode place (.file content))

def rename (source target : FilePath) : FileAction FileTree Unit := fun tree =>
  match tree.resolve source, tree.resolve target with
  | .error fault, _ => .error fault tree
  | _, .error fault => .error fault tree
  | .ok source, .ok target =>
    match tree.node? source, tree.node? target with
    | none, _ => .error .missing tree
    | some (.file _), some .directory => .error .isDirectory tree
    | some node, _ => .ok () { tree with nodes := (tree.nodes.erase source).insert target node }

def remove (path : FilePath) (tree : FileTree) : FileTree :=
  match tree.resolve path with
  | .error _ => tree
  | .ok place => { tree with nodes := tree.nodes.filter fun other _ => !place.isPrefixOf other }

def named {α : Type} (step : FilePath → FileAction FileTree α) (text : String) :
    FileAction FileTree α := fun tree =>
  match FilePath.read text with
  | .error fault => .error fault tree
  | .ok path => step path tree

instance : Disk FileTree where
  isPresent text tree := (FilePath.read text).toOption.any tree.isPresent
  makeDirectories text :=
    if text.isEmpty then pure ()
    else named (fun path => makeDirectories (path :: path.above)) text
  openFile := named openFile
  read := named read
  create := named fun path => put path []
  write text content := named (fun path => put path content) text
  sync _ := pure ()
  rename source target := named (fun path => named (rename path) target) source

end FileTree

end ForkLog
