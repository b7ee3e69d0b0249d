import Mathlib
import ForkLog.Disk.FileTree
import ForkLog.Proofs.Store.Durable

/-! # A file tree serves a durable store

Where the data directory is there, the steps of a durable store on its two files succeed and leave
everything else alone.
-/

namespace ForkLog.FileTree

set_option autoImplicit false

variable {tree : FileTree} {place other : Place} {node : Node}

theorem node?_of_home (h : tree.home = []) (hPlace : place ≠ []) :
    tree.node? place = tree.nodes[place]? := by
  rw [node?, h, if_neg]
  simpa using hPlace

theorem nodes_setNode (tree : FileTree) (place other : Place) (node : Node) :
    (tree.setNode place node).nodes[other]? =
      if place = other then some node else tree.nodes[other]? := by
  simp [setNode, Std.ExtTreeMap.getElem?_insert]

/-- The tree that has an empty directory `data` below the root and nothing else. -/
def withData : FileTree := (bare []).setNode ["data"] .directory

/-- The directory `data` below the root, with the files of a durable store in it. -/
structure HoldsData (tree : FileTree) (snapshot draft : Option Bytes) : Prop where
  home : tree.home = []
  directory : tree.nodes[["data"]]? = some .directory
  snapshot : tree.nodes[["data", "kv.snapshot"]]? = snapshot.map .file
  draft : tree.nodes[["data", "kv.snapshot.tmp"]]? = draft.map .file

namespace HoldsData

variable {snapshot draft : Option Bytes}

theorem of_withData : HoldsData withData none none where
  home := rfl
  directory := by rw [withData, nodes_setNode, if_pos rfl]
  snapshot := by
    rw [withData, nodes_setNode, if_neg (by decide)]
    simp [bare]
  draft := by
    rw [withData, nodes_setNode, if_neg (by decide)]
    simp [bare]

theorem locate (h : HoldsData tree snapshot draft) (name : String)
    (hName : name ≠ "." ∧ name ≠ ".." ∧ ¬ FilePath.nameLimit < name.utf8ByteSize) :
    tree.locate ⟨false, ["data", name], false⟩ = .ok ["data", name] := by
  have hRoot : tree.node? [] = some .directory := by rw [node?, h.home]; rfl
  have hData : tree.node? ["data"] = some .directory := by
    rw [node?_of_home h.home (by decide), h.directory]
  have hFirst : tree.follow [] "data" = .ok ["data"] := by
    rw [follow, hRoot]
    decide
  have hSecond : tree.follow ["data"] name = .ok ["data", name] := by
    simp only [follow, hData, hName, if_false]
    rfl
  have hStart : tree.start ⟨false, ["data", name], false⟩ = [] := h.home
  rw [FileTree.locate, hStart]
  simp only [List.foldlM, hFirst, bind, Except.bind, hSecond]
  rfl

theorem resolve (h : HoldsData tree snapshot draft) (name : String)
    (hName : name ≠ "." ∧ name ≠ ".." ∧ ¬ FilePath.nameLimit < name.utf8ByteSize) :
    tree.resolve ⟨false, ["data", name], false⟩ = .ok ["data", name] := by
  simp only [FileTree.resolve, h.locate name hName, Bool.false_eq_true, if_false]

theorem node?_snapshot (h : HoldsData tree snapshot draft) :
    tree.node? ["data", "kv.snapshot"] = snapshot.map .file :=
  (node?_of_home h.home (by decide)).trans h.snapshot

theorem node?_draft (h : HoldsData tree snapshot draft) :
    tree.node? ["data", "kv.snapshot.tmp"] = draft.map .file :=
  (node?_of_home h.home (by decide)).trans h.draft

theorem find_snapshot (h : HoldsData tree snapshot draft) :
    tree.find ⟨false, ["data", "kv.snapshot"], false⟩ = .ok (snapshot.map .file) := by
  rw [find, h.resolve _ (by decide), ← h.node?_snapshot]
  rfl

theorem makeDirectories (h : HoldsData tree snapshot draft) (above : List FilePath) :
    FileTree.makeDirectories (⟨false, ["data"], false⟩ :: above) tree = .ok () tree := by
  have hRoot : tree.node? [] = some .directory := by rw [node?, h.home]; rfl
  have hData : tree.node? ["data"] = some .directory := by
    rw [node?_of_home h.home (by decide), h.directory]
  have hLocate : tree.locate ⟨false, ["data"], false⟩ = .ok ["data"] := by
    have hStart : tree.start ⟨false, ["data"], false⟩ = [] := h.home
    have hFollow : tree.follow [] "data" = .ok ["data"] := by
      rw [follow, hRoot]
      decide
    rw [FileTree.locate, hStart]
    simp only [List.foldlM, hFollow, bind, Except.bind]
    rfl
  have hThere : tree.isDirectory ⟨false, ["data"], false⟩ = true := by
    have hFind : tree.find ⟨false, ["data"], false⟩ = .ok (some .directory) := by
      rw [find, FileTree.resolve, hLocate, ← hData]
      rfl
    rw [isDirectory, hFind]
  simp only [FileTree.makeDirectories, ensureDirectory, makeDirectory, hLocate, hData, hThere,
    if_true]

theorem put (h : HoldsData tree snapshot draft) (content : Bytes) :
    ∃ tree', FileTree.put ⟨false, ["data", "kv.snapshot.tmp"], false⟩ content tree = .ok () tree' ∧
      HoldsData tree' snapshot (some content) := by
  refine ⟨tree.setNode ["data", "kv.snapshot.tmp"] (.file content), ?_, h.home, ?_, ?_, ?_⟩
  · have hNode : tree.node? ["data", "kv.snapshot.tmp"] ≠ some .directory := by
      rw [h.node?_draft]
      cases draft <;> simp
    simp [FileTree.put, h.locate "kv.snapshot.tmp" (by decide), hNode]
  · rw [nodes_setNode, if_neg (by decide), h.directory]
  · rw [nodes_setNode, if_neg (by decide), h.snapshot]
  · rw [nodes_setNode, if_pos rfl]
    rfl

theorem rename {content : Bytes} (h : HoldsData tree snapshot (some content)) :
    ∃ tree', FileTree.rename ⟨false, ["data", "kv.snapshot.tmp"], false⟩
        ⟨false, ["data", "kv.snapshot"], false⟩ tree = .ok () tree' ∧
      HoldsData tree' (some content) none := by
  let moved := (tree.nodes.erase ["data", "kv.snapshot.tmp"]).insert ["data", "kv.snapshot"]
    (.file content)
  refine ⟨{ tree with nodes := moved }, ?_, h.home, ?_, ?_, ?_⟩
  · have hSource := h.resolve "kv.snapshot.tmp" (by decide)
    have hTarget := h.resolve "kv.snapshot" (by decide)
    simp only [FileTree.rename, hSource, hTarget, h.node?_draft, h.node?_snapshot]
    cases snapshot <;> rfl
  · simp [moved, Std.ExtTreeMap.getElem?_insert, Std.ExtTreeMap.getElem?_erase, h.directory]
  · simp [moved]
  · simp [moved]

theorem read_snapshotPath : FilePath.read (DurableStore.snapshotPath "data") =
    .ok ⟨false, ["data", "kv.snapshot"], false⟩ := by decide

theorem read_temporaryPath :
    FilePath.read (DurableStore.temporaryPath (DurableStore.snapshotPath "data")) =
      .ok ⟨false, ["data", "kv.snapshot.tmp"], false⟩ := by decide

theorem named_eq_of_read {α : Type} {step : FilePath → FileAction FileTree α} {text : String}
    {path : FilePath} (h : FilePath.read text = .ok path) : named step text = step path := by
  funext tree
  rw [named, h]

/-- The steps of a durable store in the directory. -/
theorem serves : Disk.Serves "data" HoldsData where
  isPresent tree snapshot draft h := by
    have hPresent : tree.isPresent ⟨false, ["data", "kv.snapshot"], false⟩ = snapshot.isSome := by
      rw [FileTree.isPresent, h.find_snapshot]
      cases snapshot <;> rfl
    rw [← hPresent]
    change (FilePath.read _).toOption.any tree.isPresent = _
    rw [read_snapshotPath]
    rfl
  makeDirectories tree snapshot draft h := by
    have hRead : FilePath.read "data" = .ok ⟨false, ["data"], false⟩ := by decide
    refine ⟨tree, ?_, h⟩
    change named (fun path => FileTree.makeDirectories (path :: path.above)) "data" tree = _
    rw [named_eq_of_read hRead]
    exact h.makeDirectories _
  openFile tree data draft h := by
    refine ⟨tree, ?_, h⟩
    change named FileTree.openFile _ tree = _
    rw [named_eq_of_read read_snapshotPath, FileTree.openFile, h.find_snapshot]
    rfl
  read tree data draft h := by
    refine ⟨tree, ?_, h⟩
    change named FileTree.read _ tree = _
    rw [named_eq_of_read read_snapshotPath, FileTree.read, h.find_snapshot]
    rfl
  create tree snapshot draft h := by
    obtain ⟨tree', hPut, h'⟩ := h.put []
    exact ⟨tree', (congrFun (named_eq_of_read read_temporaryPath) tree).trans hPut, h'⟩
  write tree snapshot data h := by
    obtain ⟨tree', hPut, h'⟩ := h.put data
    exact ⟨tree', (congrFun (named_eq_of_read read_temporaryPath) tree).trans hPut, h'⟩
  sync tree snapshot draft h := ⟨tree, rfl, h⟩
  rename tree snapshot data h := by
    obtain ⟨tree', hRename, h'⟩ := h.rename
    refine ⟨tree', ?_, h'⟩
    change named _ _ tree = _
    rw [named_eq_of_read read_temporaryPath, named_eq_of_read read_snapshotPath, hRename]

theorem keptBy_withData : DurableStore.KeptBy HoldsData withData ∅ :=
  ⟨none, none, .of_withData, rfl, nofun⟩

end HoldsData

end ForkLog.FileTree
