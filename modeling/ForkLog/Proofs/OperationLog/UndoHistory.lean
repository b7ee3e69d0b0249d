import Mathlib
import ForkLog.Proofs.Ledger

/-! # The undo history at a height

A height splits the blocks that have an undo record. What is purged are those at or below it, what is
discarded or taken back are those above it, the highest first, and nothing else in the store is touched.
-/

namespace ForkLog

set_option autoImplicit false

namespace Contents

/-- User records under any bytes, a cursor, and the records of some blocks, each of which is read as the
batch of its block. -/
structure Logged (contents : Contents) (batch : UInt64 → List Operation) : Prop where
  keys : ∀ key, contents[key]?.isSome →
    (∃ rest, key = Key.userMark :: rest) ∨ key = Key.cursor ∨ ∃ block, key = Key.undo block
  readable : ∀ block record, contents[Key.undo block]? = some record →
    Operation.decodeBatch record = .ok (batch block)

/-- The blocks that have an undo record, the highest first. -/
structure UndoBlocks (contents : Contents) (numbers : List UInt64) : Prop where
  descending : numbers.Pairwise fun a b => b < a
  mem_iff : ∀ number, number ∈ numbers ↔ contents[Key.undo number]?.isSome

/-- The undo records of the blocks that are gone are removed. All else is what it was: the other undo
records, the user records and the cursor. -/
structure Loses (contents after : Contents) (gone : UInt64 → Prop) : Prop where
  removed : ∀ block, gone block → after[Key.undo block]? = none
  kept : ∀ block, ¬ gone block → after[Key.undo block]? = contents[Key.undo block]?
  others : ∀ key, (∀ block, key ≠ Key.undo block) → after[key]? = contents[key]?

variable {contents : Contents} {batch : UInt64 → List Operation} {numbers : List UInt64}

namespace UndoBlocks

theorem mem_filter_iff (h : contents.UndoBlocks numbers) {picks : UInt64 → Prop}
    [DecidablePred picks] (block : UInt64) :
    block ∈ numbers.filter picks ↔ contents[Key.undo block]?.isSome ∧ picks block := by
  rw [List.mem_filter, h.mem_iff, decide_eq_true_eq]

theorem loses (h : contents.UndoBlocks numbers) (gone : UInt64 → Prop) [DecidablePred gone] :
    contents.Loses (contents.eraseAll ((numbers.filter gone).map Key.undo)) gone where
  removed block hGone := by
    rw [getElem?_eraseAll]
    split
    · rfl
    · rename_i hNone
      rw [List.mem_map_of_injective Key.undo_injective, h.mem_filter_iff, and_iff_left hGone]
        at hNone
      exact Option.not_isSome_iff_eq_none.mp hNone
  kept block hKept := by
    rw [getElem?_eraseAll, if_neg]
    rw [List.mem_map_of_injective Key.undo_injective, h.mem_filter_iff]
    exact fun hBoth => hKept hBoth.2
  others key hKey := by
    rw [getElem?_eraseAll, if_neg]
    intro hMem
    obtain ⟨block, -, rfl⟩ := List.mem_map.mp hMem
    exact hKey block rfl

end UndoBlocks

namespace Logged

/-- Where undo records stand there is nothing else. -/
theorem proper (h : contents.Logged batch) {key : Bytes} (hSome : contents[key]?.isSome)
    (hLow : Key.undoMark ≤ key) : ∃ block, key = Key.undo block := by
  obtain ⟨rest, rfl⟩ | rfl | hBlock := h.keys key hSome
  · refine absurd hLow (List.not_le.mpr ?_)
    rw [Key.undoMark, List.cons_lt_cons_iff]
    exact .inl (by decide)
  · exact absurd hLow (by decide)
  · exact hBlock

theorem exists_undoBlocks (h : contents.Logged batch) : ∃ numbers, contents.UndoBlocks numbers := by
  obtain ⟨numbers, -, hSorted, hMem⟩ := Contents.between_eq_map_undo Key.undoMark Key.undoEnd
    fun key hSome hLow _ => h.proper hSome hLow
  refine ⟨numbers, hSorted, fun number => (hMem number).trans (and_iff_left ?_)⟩
  exact ⟨Key.undoMark_le_undo number, Key.undo_lt_undoEnd number⟩

/-- A range of undo keys holds the records of the blocks whose keys are in it. -/
theorem between_eq (h : contents.Logged batch) (hNumbers : contents.UndoBlocks numbers)
    {low high : Bytes} (hLow : Key.undoMark ≤ low) {picks : UInt64 → Prop} [DecidablePred picks]
    (hPicks : ∀ number, low ≤ Key.undo number ∧ Key.undo number < high ↔ picks number) :
    contents.between low high = (numbers.filter picks).map contents.undoEntry := by
  obtain ⟨blocks, hEntries, hSorted, hMem⟩ := Contents.between_eq_map_undo low high
    fun key hSome hKey _ => h.proper hSome (List.le_trans hLow hKey)
  rw [hEntries]
  congr 1
  refine eq_of_descending hSorted (hNumbers.descending.filter _) fun block => ?_
  rw [hMem, hPicks, hNumbers.mem_filter_iff]

end Logged

end Contents

namespace UndoLog

variable {contents : Contents} {batch : UInt64 → List Operation} {numbers : List UInt64}

theorem deleteEntries_contents (entries : List Entry) :
    deleteEntries entries contents =
      .ok entries.length (contents.eraseAll (entries.map Prod.fst)) := by
  cases entries <;> rfl

theorem deleteEntries_undo (hNumbers : contents.UndoBlocks numbers) (gone : UInt64 → Prop)
    [DecidablePred gone] :
    ∃ after, deleteEntries ((numbers.filter gone).map contents.undoEntry) contents =
        .ok (numbers.filter gone).length after ∧ contents.Loses after gone := by
  refine ⟨_, ?_, hNumbers.loses gone⟩
  rw [deleteEntries_contents, List.length_map, List.map_map]
  rfl

theorem blocks_contents (h : contents.Logged batch) (hNumbers : contents.UndoBlocks numbers) :
    blocks contents = .ok numbers contents := by
  have hRun : blocks contents = .ok
      ((contents.between Key.undoMark Key.undoEnd).filterMap fun e => Key.undoBlock? e.1) contents :=
    rfl
  have hPicks (number : UInt64) :
      Key.undoMark ≤ Key.undo number ∧ Key.undo number < Key.undoEnd ↔ True :=
    iff_of_true ⟨Key.undoMark_le_undo number, Key.undo_lt_undoEnd number⟩ trivial
  have hAll := h.between_eq hNumbers (List.le_refl _) hPicks
  have hRead : (fun e : Entry => Key.undoBlock? e.1) ∘ contents.undoEntry = some :=
    funext Key.undoBlock?_undo
  rw [hRun, hAll, List.filterMap_map, hRead, List.filterMap_some]
  simp

theorem between_upTo (h : contents.Logged batch) (hNumbers : contents.UndoBlocks numbers)
    (height : UInt64) :
    contents.between (Key.undo height) Key.undoEnd =
      (numbers.filter (· ≤ height)).map contents.undoEntry := by
  refine h.between_eq hNumbers (Key.undoMark_le_undo height) fun number => ?_
  rw [Key.undo_le_undo_iff]
  exact and_iff_left (Key.undo_lt_undoEnd number)

theorem between_above (h : contents.Logged batch) (hNumbers : contents.UndoBlocks numbers)
    (height : UInt64) :
    contents.between (Key.undo Key.lastBlock) (Key.undo height) =
      (numbers.filter (height < ·)).map contents.undoEntry := by
  refine h.between_eq hNumbers (Key.undoMark_le_undo Key.lastBlock) fun number => ?_
  rw [Key.undo_lt_undo_iff]
  exact and_iff_right (Key.undo_lastBlock_le number)

theorem purge_contents (h : contents.Logged batch) (hNumbers : contents.UndoBlocks numbers)
    (height : UInt64) :
    ∃ after, purge height contents = .ok (numbers.filter (· ≤ height)).length after ∧
      contents.Loses after (· ≤ height) := by
  have hRun : purge height contents =
      deleteEntries (contents.between (Key.undo height) Key.undoEnd) contents := rfl
  rw [hRun, between_upTo h hNumbers]
  exact deleteEntries_undo hNumbers (· ≤ height)

theorem discardAbove_contents (h : contents.Logged batch) (hNumbers : contents.UndoBlocks numbers)
    (height : UInt64) :
    ∃ after, discardAbove height contents = .ok (numbers.filter (height < ·)).length after ∧
      contents.Loses after (height < ·) := by
  have hRun : discardAbove height contents =
      deleteEntries (contents.between (Key.undo Key.lastBlock) (Key.undo height)) contents := rfl
  rw [hRun, between_above h hNumbers]
  exact deleteEntries_undo hNumbers (height < ·)

theorem batchesAbove_contents (h : contents.Logged batch) (hNumbers : contents.UndoBlocks numbers)
    (height : UInt64) :
    batchesAbove height contents =
      .ok ((numbers.filter (height < ·)).map batch) contents := by
  have hRun : batchesAbove height contents = Action.ofExcept
      ((contents.between (Key.undo Key.lastBlock) (Key.undo height)).mapM
        fun e : Entry => Operation.decodeBatch e.2) contents := rfl
  have hDecode : ((numbers.filter (height < ·)).map contents.undoEntry).mapM
      (fun e : Entry => Operation.decodeBatch e.2) =
        .ok ((numbers.filter (height < ·)).map batch) := by
    refine Action.mapM_map_eq_ok fun block hBlock => ?_
    obtain ⟨hSome, -⟩ := (hNumbers.mem_filter_iff block).mp hBlock
    obtain ⟨record, hRecord⟩ := Option.isSome_iff_exists.mp hSome
    rw [Contents.undoEntry, hRecord, Option.getD_some]
    exact h.readable block record hRecord
  rw [hRun, between_above h hNumbers, hDecode]
  rfl

end UndoLog

namespace OperationLog

variable {σ : Type} {R : σ → Contents → Prop} {log : OperationLog σ} {contents : Contents}
  {batch : UInt64 → List Operation}

theorem exists_onStore {α : Type} {step : Action σ α} {other : Action Contents α} {a : α}
    {after : Contents} (hSim : Action.Simulates R step other) (hStore : R log.store contents)
    (h : other contents = .ok a after) :
    ∃ store, onStore step log = .ok a { log with store } ∧ R store after := by
  obtain ⟨store, hRun, hAfter⟩ := hSim.exists_of_ok hStore h
  exact ⟨store, onStore_eq_ok hRun, hAfter⟩

variable [Store σ]

theorem undoBlocks_ofStore (contents : Contents) :
    undoBlocks (ofStore contents) =
      .ok ((contents.between Key.undoMark Key.undoEnd).filterMap fun e => Key.undoBlock? e.1)
        (ofStore contents) :=
  rfl

theorem replay_eq_of_batches {height : UInt64} {batches : List (List Operation)} {store : σ}
    (h : UndoLog.batchesAbove height log.store = .ok batches store) :
    replay height log = .ok batches.length
      { log with store, pending := batches.foldl PendingSet.addAll log.pending } := by
  have hAdd : log.pending.addAll batches.flatten =
      batches.foldl PendingSet.addAll log.pending := by
    rw [PendingSet.addAll, List.foldl_flatten]
    rfl
  rw [← hAdd]
  exact Action.bind_eq_of_ok (onStore_eq_ok h) _

/-- The blocks with an undo record are listed from the highest one, and a height splits them: those at
or below it are purged, those above it are discarded, and the batches of these are what a replay adds,
the highest first and each once. -/
theorem undo_history_splits (hR : Store.Simulation R) (hStore : R log.store contents)
    (h : contents.Logged batch) (height : UInt64) :
    ∃ numbers, contents.UndoBlocks numbers ∧
      (∃ store, undoBlocks log = .ok numbers { log with store } ∧ R store contents) ∧
      (∃ store after, purge height log =
          .ok (numbers.filter (· ≤ height)).length { log with store } ∧
        R store after ∧ contents.Loses after (· ≤ height)) ∧
      (∃ store after, discardAbove height log =
          .ok (numbers.filter (height < ·)).length { log with store } ∧
        R store after ∧ contents.Loses after (height < ·)) ∧
      ∃ store, R store contents ∧
        UndoLog.batchesAbove height log.store =
          .ok ((numbers.filter (height < ·)).map batch) store ∧
        replay height log = .ok (numbers.filter (height < ·)).length
          { log with
            store
            pending := ((numbers.filter (height < ·)).map batch).foldl PendingSet.addAll
              log.pending } := by
  obtain ⟨numbers, hNumbers⟩ := h.exists_undoBlocks
  refine ⟨numbers, hNumbers, ?_, ?_, ?_, ?_⟩
  · exact exists_onStore (UndoLog.simulates_blocks hR) hStore (UndoLog.blocks_contents h hNumbers)
  · obtain ⟨after, hPurge, hLoses⟩ := UndoLog.purge_contents h hNumbers height
    obtain ⟨store, hRun, hAfter⟩ := exists_onStore (UndoLog.simulates_purge hR height) hStore hPurge
    exact ⟨store, after, hRun, hAfter, hLoses⟩
  · obtain ⟨after, hDiscard, hLoses⟩ := UndoLog.discardAbove_contents h hNumbers height
    obtain ⟨store, hRun, hAfter⟩ :=
      exists_onStore (UndoLog.simulates_discardAbove hR height) hStore hDiscard
    exact ⟨store, after, hRun, hAfter, hLoses⟩
  · obtain ⟨store, hRun, hAfter⟩ := (UndoLog.simulates_batchesAbove hR height).exists_of_ok hStore
      (UndoLog.batchesAbove_contents h hNumbers height)
    refine ⟨store, hAfter, hRun, ?_⟩
    rw [replay_eq_of_batches hRun, List.length_map]

/-- The batches of three blocks, the lowest and the highest number among them. -/
def outerBatches (block : UInt64) : List Operation :=
  if block = 5 then [.assign "a" [0x30]] else if block = Key.lastBlock then [.remove "a"] else []

/-- The records of these blocks among others: one that is no text, and a cursor that is none. -/
def outerBlocks : Contents :=
  .ofEntries [(Key.user "a", [0x31]), ([Key.userMark, 0xFF], [0x32]), (Key.cursor, [0xFF]),
    (Key.undo 0, Operation.encodeBatch (outerBatches 0)),
    (Key.undo 5, Operation.encodeBatch (outerBatches 5) ++ [0x33]),
    (Key.undo Key.lastBlock, Operation.encodeBatch (outerBatches Key.lastBlock))]

theorem logged_outerBlocks : outerBlocks.Logged outerBatches where
  keys key hSome := by
    have hKeys : ∀ e ∈ outerBlocks.entries, e.1.head? = some Key.userMark ∨ e.1 = Key.cursor ∨
        (Key.undoBlock? e.1).isSome := by
      decide +kernel
    obtain ⟨value, hValue⟩ := Option.isSome_iff_exists.mp hSome
    obtain hUser | hCursor | hUndo := hKeys (key, value) (Contents.mem_entries_iff.mpr hValue)
    · exact .inl ⟨key.tail, List.eq_cons_of_mem_head? hUser⟩
    · exact .inr (.inl hCursor)
    · obtain ⟨block, hBlock⟩ := Option.isSome_iff_exists.mp hUndo
      exact .inr (.inr ⟨block, (Key.undoBlock?_eq_some_iff ..).mp hBlock⟩)
  readable block record hRecord := by
    -- a quantifier over block numbers would be decided by going through all of them
    have hRead : ∀ e ∈ outerBlocks.entries, (Key.undoBlock? e.1).all fun block =>
        Operation.decodeBatch e.2 = .ok (outerBatches block) := by
      decide +kernel
    have hBlock := hRead (Key.undo block, record) (Contents.mem_entries_iff.mpr hRecord)
    rwa [Key.undoBlock?_undo, Option.all_some, decide_eq_true_eq] at hBlock

/-- Two blocks at or below the height and one above it. -/
theorem undo_history_splits_outer_blocks :
    Store.Simulation (Eq : Contents → Contents → Prop) ∧ outerBlocks.Logged outerBatches ∧
      undoBlocks (ofStore outerBlocks) = .ok [Key.lastBlock, 5, 0] (ofStore outerBlocks) ∧
      (∃ after, purge 5 (ofStore outerBlocks) = .ok 2 (ofStore after) ∧
        outerBlocks.Loses after (· ≤ 5)) ∧
      (∃ after, discardAbove 5 (ofStore outerBlocks) = .ok 1 (ofStore after) ∧
        outerBlocks.Loses after (5 < ·)) ∧
      replay 5 (ofStore outerBlocks) =
        .ok 1 { ofStore outerBlocks with pending := PendingSet.addAll ∅ [.remove "a"] } := by
  have hStore : (ofStore outerBlocks).store = outerBlocks := rfl
  obtain ⟨numbers, -, ⟨_, hBlocks, rfl⟩, ⟨_, _, hPurge, rfl, hPurged⟩,
    ⟨_, _, hDiscard, rfl, hDiscarded⟩, _, rfl, -, hReplay⟩ :=
    undo_history_splits Store.simulation_contents hStore logged_outerBlocks 5
  have hNumbers : numbers = [Key.lastBlock, 5, 0] := by
    rw [undoBlocks_ofStore] at hBlocks
    injection hBlocks with hNumbers
    rw [← hNumbers]
    decide +kernel
  have hLow : numbers.filter (· ≤ 5) = [5, 0] := by
    rw [hNumbers]
    decide +kernel
  have hHigh : numbers.filter (5 < ·) = [Key.lastBlock] := by
    rw [hNumbers]
    decide +kernel
  rw [hLow] at hPurge
  rw [hHigh] at hDiscard hReplay
  rw [hNumbers] at hBlocks
  exact ⟨Store.simulation_contents, logged_outerBlocks, hBlocks, ⟨_, hPurge, hPurged⟩,
    ⟨_, hDiscard, hDiscarded⟩, hReplay⟩

end OperationLog

end ForkLog
