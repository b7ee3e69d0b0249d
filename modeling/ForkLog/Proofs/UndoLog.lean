import Mathlib
import ForkLog.Proofs.Store.Checkpointed

/-! # What the undo log does

On a store that never fails every step of the undo log succeeds and its effect is an equation. The
batches above a height are found in the order of their blocks, the highest first.
-/

namespace ForkLog

set_option autoImplicit false

theorem eq_of_descending {blocks others : List UInt64} (h : blocks.Pairwise fun a b => b < a)
    (h' : others.Pairwise fun a b => b < a) (hMem : ∀ block, block ∈ blocks ↔ block ∈ others) :
    blocks = others := by
  have hNodup {list : List UInt64} (hList : list.Pairwise fun a b => b < a) : list.Nodup :=
    List.nodup_iff_pairwise_ne.mpr (hList.imp fun hab => (UInt64.ne_of_lt hab).symm)
  have hPerm := (List.perm_ext_iff_of_nodup (hNodup h) (hNodup h')).mpr hMem
  refine hPerm.eq_of_pairwise ?_ h h'
  intro a b _ _ hab hba
  exact absurd (UInt64.lt_trans hab hba) (UInt64.lt_irrefl b)

/-- Blocks above a height, the highest first, and among them all that have something to take
back. -/
structure Covers (undo : UInt64 → List Operation) (height : UInt64) (blocks : List UInt64) :
    Prop where
  descending : blocks.Pairwise fun a b => b < a
  above : ∀ block ∈ blocks, height < block
  complete : ∀ block, height < block → undo block ≠ [] → block ∈ blocks

theorem Covers.congr {undo other : UInt64 → List Operation} {height : UInt64} {blocks : List UInt64}
    (h : Covers undo height blocks) (hSame : ∀ block, height < block → other block = undo block) :
    Covers other height blocks :=
  { h with
    complete := fun block hAbove hSome => h.complete block hAbove (hSame block hAbove ▸ hSome) }

/-- Which blocks without operations are listed makes no difference. -/
theorem Covers.flatMap_eq {undo : UInt64 → List Operation} {height : UInt64}
    {blocks others : List UInt64} (h : Covers undo height blocks) (h' : Covers undo height others) :
    blocks.flatMap undo = others.flatMap undo := by
  have hDrop (list : List UInt64) :
      list.flatMap undo = (list.filter fun block => undo block ≠ []).flatMap undo := by
    induction list with
    | nil => rfl
    | cons block list ih =>
      by_cases hEmpty : undo block = []
      · rw [List.flatMap_cons, hEmpty, List.nil_append, ih,
          List.filter_cons_of_neg (by simpa using hEmpty)]
      · rw [List.flatMap_cons, ih, List.filter_cons_of_pos (by simpa using hEmpty),
          List.flatMap_cons]
  rw [hDrop blocks, hDrop others]
  congr 1
  have hMem : ∀ {list : List UInt64}, Covers undo height list → ∀ block,
      (block ∈ list.filter fun block => undo block ≠ []) ↔ height < block ∧ undo block ≠ [] := by
    intro list hList block
    simp only [List.mem_filter, decide_eq_true_eq]
    exact ⟨fun hb => ⟨hList.above block hb.1, hb.2⟩,
      fun hb => ⟨hList.complete block hb.1 hb.2, hb.2⟩⟩
  exact eq_of_descending (h.descending.filter _) (h'.descending.filter _)
    fun block => (hMem h block).trans (hMem h' block).symm

namespace Contents

/-- What stands in the contents for a block. -/
def undoEntry (contents : Contents) (block : UInt64) : Entry :=
  (Key.undo block, contents[Key.undo block]?.getD [])

/-- Where there are none but undo keys, a range lists the records of its blocks, the highest first. -/
theorem between_eq_map_undo {contents : Contents} (low high : Bytes)
    (hProper : ∀ key, contents[key]?.isSome → low ≤ key → key < high → ∃ block, key = Key.undo block) :
    ∃ blocks : List UInt64, contents.between low high = blocks.map contents.undoEntry ∧
      (blocks.Pairwise fun a b => b < a) ∧
      ∀ block, block ∈ blocks ↔
        contents[Key.undo block]?.isSome ∧ low ≤ Key.undo block ∧ Key.undo block < high := by
  have hRange : contents.between low high ∈ Set.range (List.map contents.undoEntry) := by
    rw [Set.range_list_map]
    rintro ⟨key, value⟩ hMem
    obtain ⟨hValue, hLow, hHigh⟩ := mem_between_iff.mp hMem
    obtain ⟨block, rfl⟩ := hProper key (by simp [hValue]) hLow hHigh
    exact ⟨block, by rw [undoEntry, hValue, Option.getD_some]⟩
  obtain ⟨blocks, hBlocks⟩ := hRange
  refine ⟨blocks, hBlocks.symm, ?_, fun block => ?_⟩
  · have hSorted := contents.pairwise_between low high
    rw [← hBlocks, List.pairwise_map] at hSorted
    exact hSorted.imp fun hab => (Key.undo_lt_undo_iff _ _).mp hab
  · rw [← mem_map_between_iff, ← hBlocks, List.map_map]
    exact (List.mem_map_of_injective Key.undo_injective).symm

end Contents

namespace UndoLog

variable (current saved : Contents)

theorem inverse_records (ops : List Operation) :
    current.records.inverse ops =
      inverseOf ops ((ops.map fun op => Key.user op.key).map fun key => current[key]?) := by
  rw [List.map_map]
  rfl

theorem inverse_eq {ops : List Operation} (hOps : ∀ op ∈ ops, op.kind ≠ .unset) :
    inverse ops (⟨current, saved⟩ : Checkpointed) =
      .ok (current.records.inverse ops) ⟨current, saved⟩ := by
  rw [inverse, (Operation.validateAll_eq_ok_iff ops).mpr hOps, inverse_records]
  rfl

theorem record_eq (block : UInt64) {ops : List Operation}
    (hOps : ∀ op ∈ ops, op.kind ≠ .unset) :
    record block ops (⟨current, saved⟩ : Checkpointed) =
      .ok (current.records.inverse ops).length
        ⟨current.insert (Key.undo block) (Operation.encodeBatch (current.records.inverse ops)),
          saved⟩ := by
  simp only [record, bind, EStateM.bind, inverse_eq current saved hOps]
  rfl

theorem deleteEntries_eq (entries : List Entry) :
    deleteEntries entries (⟨current, saved⟩ : Checkpointed) =
      .ok entries.length ⟨current.eraseAll (entries.map Prod.fst), saved⟩ := by
  cases entries <;> rfl

theorem purge_eq (height : UInt64) :
    purge height (⟨current, saved⟩ : Checkpointed) =
      .ok (current.between (Key.undo height) Key.undoEnd).length
        ⟨current.eraseAll ((current.between (Key.undo height) Key.undoEnd).map Prod.fst),
          saved⟩ :=
  deleteEntries_eq current saved _

theorem discardAbove_eq (height : UInt64) :
    discardAbove height (⟨current, saved⟩ : Checkpointed) =
      .ok (current.between (Key.undo Key.lastBlock) (Key.undo height)).length
        ⟨current.eraseAll
          ((current.between (Key.undo Key.lastBlock) (Key.undo height)).map Prod.fst), saved⟩ :=
  deleteEntries_eq current saved _

theorem between_eq_map {contents : Contents} {stop : Bytes}
    {batches : UInt64 → Option (List Operation)} (h : contents.Undoes stop batches)
    {height : UInt64} (hStop : Key.undo height ≤ stop) :
    ∃ blocks : List UInt64,
      (contents.between (Key.undo Key.lastBlock) (Key.undo height) =
        blocks.map fun block => (Key.undo block, Operation.encodeBatch ((batches block).getD []))) ∧
      (blocks.Pairwise fun a b => b < a) ∧
      ∀ block, block ∈ blocks ↔ height < block ∧ (batches block).isSome := by
  obtain ⟨blocks, hEntries, hSorted, hMem⟩ :=
    Contents.between_eq_map_undo _ _ fun key hSome hLow hHigh =>
      h.proper key hSome hLow (Bytes.lt_of_lt_of_le hHigh hStop)
  have hBlock (block : UInt64) : block ∈ blocks ↔ height < block ∧ (batches block).isSome := by
    rw [hMem, Key.undo_lt_undo_iff, and_iff_right (Key.undo_lastBlock_le block), and_comm]
    refine and_congr_right fun hAbove => ?_
    rw [h.lookup block (Key.undo_lt_of_undo_le hAbove hStop), Option.isSome_map]
  refine ⟨blocks, hEntries.trans (List.map_congr_left fun block hIn => ?_), hSorted, hBlock⟩
  obtain ⟨hAbove, hSome⟩ := (hBlock block).mp hIn
  obtain ⟨ops, hOps⟩ := Option.isSome_iff_exists.mp hSome
  rw [Contents.undoEntry, h.lookup block (Key.undo_lt_of_undo_le hAbove hStop), hOps,
    Option.map_some, Option.getD_some, Option.getD_some]

theorem batchesAbove_eq {stop : Bytes} {batches : UInt64 → Option (List Operation)}
    (h : current.Undoes stop batches) {height : UInt64} (hStop : Key.undo height ≤ stop) :
    ∃ blocks : List UInt64,
      batchesAbove height (⟨current, saved⟩ : Checkpointed) =
        .ok (blocks.map fun block => (batches block).getD []) ⟨current, saved⟩ ∧
      (blocks.Pairwise fun a b => b < a) ∧
      ∀ block, block ∈ blocks ↔ height < block ∧ (batches block).isSome := by
  obtain ⟨blocks, hEntries, hSorted, hMem⟩ := between_eq_map h hStop
  refine ⟨blocks, ?_, hSorted, hMem⟩
  have hDecode : ((blocks.map fun block =>
      (Key.undo block, Operation.encodeBatch ((batches block).getD []))).mapM fun e : Entry =>
        Operation.decodeBatch e.2) = .ok (blocks.map fun block => (batches block).getD []) := by
    refine Action.mapM_map_eq_ok fun block hBlock => Operation.decodeBatch_encodeBatch ?_
    obtain ⟨hAbove, hSome⟩ := (hMem block).mp hBlock
    obtain ⟨ops, hOps⟩ := Option.isSome_iff_exists.mp hSome
    rw [hOps]
    exact h.recordable block ops (Key.undo_lt_of_undo_le hAbove hStop) hOps
  have hRun : batchesAbove height (⟨current, saved⟩ : Checkpointed) =
      Action.ofExcept ((current.between (Key.undo Key.lastBlock) (Key.undo height)).mapM
        fun e : Entry => Operation.decodeBatch e.2) ⟨current, saved⟩ := rfl
  rw [hRun, hEntries, hDecode]
  rfl

/-- The blocks that have a record are listed, the highest first. -/
theorem blocks_eq {batches : UInt64 → Option (List Operation)}
    (h : current.Undoes Key.undoEnd batches) :
    ∃ numbers : List UInt64,
      blocks (⟨current, saved⟩ : Checkpointed) = .ok numbers ⟨current, saved⟩ ∧
      (numbers.Pairwise fun a b => b < a) ∧
      ∀ block, block ∈ numbers ↔ (batches block).isSome := by
  refine ⟨(current.between Key.undoMark Key.undoEnd).filterMap fun e => Key.undoBlock? e.1, rfl,
    ?_, fun block => ?_⟩
  · rw [List.pairwise_filterMap]
    refine (Contents.pairwise_between current Key.undoMark Key.undoEnd).imp ?_
    intro e e' hLess block hBlock other hOther
    rw [Key.undoBlock?_eq_some_iff] at hBlock hOther
    rwa [hBlock, hOther, Key.undo_lt_undo_iff] at hLess
  · have hSome : block ∈ (current.between Key.undoMark Key.undoEnd).filterMap
          (fun e => Key.undoBlock? e.1) ↔
        Key.undo block ∈ (current.between Key.undoMark Key.undoEnd).map Prod.fst := by
      simp only [List.mem_filterMap, List.mem_map, Key.undoBlock?_eq_some_iff]
    have hBelow := Key.undo_lt_undoEnd block
    rw [hSome, Contents.mem_map_between_iff, h.lookup block hBelow, Option.isSome_map]
    exact and_iff_left ⟨Key.undoMark_le_undo block, hBelow⟩

end UndoLog

end ForkLog
