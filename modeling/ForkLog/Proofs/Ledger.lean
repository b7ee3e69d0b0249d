import Mathlib
import ForkLog.Proofs.Action
import ForkLog.Proofs.UndoLog

/-! # What an operation log shows

A log on a store that never fails is told by a ledger: the user records as they are written, what
they will be when the pending changes are written too, and the batches that take blocks back. Every
step of the log succeeds and does one thing to the ledger.
-/

namespace ForkLog

set_option autoImplicit false

structure Ledger where
  records : Records
  /-- The records as they will be after a flush. -/
  upcoming : Records
  undo : UInt64 → Option (List Operation)

namespace Ledger

/-- What takes a block back; nothing if there is no record of it. -/
def undone (l : Ledger) (block : UInt64) : List Operation := (l.undo block).getD []

def record (l : Ledger) (block : UInt64) (ops : List Operation) : Ledger :=
  { l with undo := Function.update l.undo block (some (l.records.inverse ops)) }

def add (l : Ledger) (ops : List Operation) : Ledger :=
  { l with upcoming := l.upcoming.afterAll ops }

def flush (l : Ledger) : Ledger := { l with records := l.upcoming }

def purge (l : Ledger) (height : UInt64) : Ledger :=
  { l with undo := fun block => if block ≤ height then none else l.undo block }

/-- Purges what was final when the last block came, if there was one. -/
def purgeFinal (l : Ledger) : Option UInt64 → Ledger
  | none => l
  | some height => l.purge height

def discard (l : Ledger) (height : UInt64) : Ledger :=
  { l with undo := fun block => if height < block then none else l.undo block }

variable (l : Ledger) (block : UInt64)

@[simp] theorem undone_add (ops : List Operation) : (l.add ops).undone block = l.undone block := rfl

@[simp] theorem undone_flush : l.flush.undone block = l.undone block := rfl

@[simp] theorem undone_record_self (ops : List Operation) :
    (l.record block ops).undone block = l.records.inverse ops := by
  simp [undone, record]

theorem undone_record_of_ne {other : UInt64} (h : other ≠ block) (ops : List Operation) :
    (l.record block ops).undone other = l.undone other := by
  simp [undone, record, h]

theorem undone_purge (height : UInt64) :
    (l.purge height).undone block = if block ≤ height then [] else l.undone block := by
  simp only [undone, purge]
  split <;> rfl

theorem undone_discard (height : UInt64) :
    (l.discard height).undone block = if height < block then [] else l.undone block := by
  simp only [undone, discard]
  split <;> rfl

end Ledger

/-- Contents whose undo records before `stop` are those of a ledger, and whose user records are the
written ones. -/
structure Contents.Shows (contents : Contents) (stop : Bytes) (l : Ledger) : Prop where
  records : contents.records = l.records
  undo : contents.Undoes stop l.undo
  addressable : l.records.Addressable

def Ledger.ofContents (contents : Contents) : Ledger :=
  ⟨contents.records, contents.records, fun _ => none⟩

theorem Contents.NoUndo.shows {contents : Contents} (h : contents.NoUndo)
    (hValues : contents.records.Addressable) :
    contents.Shows Key.undoEnd (.ofContents contents) :=
  ⟨rfl, h.undoes, hValues⟩

structure OperationLog.Shows (log : OperationLog Checkpointed) (stop : Bytes) (l : Ledger) :
    Prop where
  store : log.store.current.Shows stop l
  upcoming : log.pending.appliedTo l.records = l.upcoming
  valid : log.pending.Valid
  addressable : l.upcoming.Addressable

theorem OperationLog.shows_ofStore {contents : Contents} {stop : Bytes} {l : Ledger}
    (h : contents.Shows stop l) (hUpcoming : l.upcoming = l.records) :
    (OperationLog.ofStore (Checkpointed.ofContents contents)).Shows stop l where
  store := h
  upcoming := by rw [hUpcoming, OperationLog.ofStore, PendingSet.empty_appliedTo]
  valid := PendingSet.valid_empty
  addressable := hUpcoming ▸ h.addressable

namespace OperationLog

/-- Nothing was made durable, and the cursor is what it was. -/
structure Steady (before log : OperationLog Checkpointed) : Prop where
  saved : log.store.saved = before.store.saved
  lastCursor : log.lastCursor = before.lastCursor
  cursor : log.store.current[Key.cursor]? = before.store.current[Key.cursor]?

theorem Steady.trans {first second third : OperationLog Checkpointed} (h : Steady first second)
    (h' : Steady second third) : Steady first third :=
  ⟨h'.saved.trans h.saved, h'.lastCursor.trans h.lastCursor, h'.cursor.trans h.cursor⟩

/-- The step succeeds, the log then shows `after`, and only a flush can make that durable. -/
def Leads {α : Type} (step : Action (OperationLog Checkpointed) α)
    (log : OperationLog Checkpointed) (stop : Bytes) (after : Ledger) : Prop :=
  ∃ a log', step log = .ok a log' ∧ log'.Shows stop after ∧ Steady log log'

/-- The cursor written last is the one in the store. -/
def InSync (log : OperationLog Checkpointed) : Prop :=
  ∀ cursor, log.lastCursor = some cursor → log.store.current[Key.cursor]? = some cursor.encode

/-- The log after a flush: nothing is pending, the cursor is there, and all is durable if the cursor
is a new one. -/
structure Flushed (cursor : Cursor) (before log : OperationLog Checkpointed) : Prop where
  pending : log.pending = ∅
  lastCursor : log.lastCursor = some cursor
  inSync : before.InSync → log.InSync
  saved : before.lastCursor ≠ some cursor → log.store.saved = log.store.current

variable {log : OperationLog Checkpointed} {stop : Bytes} {l : Ledger} {ops : List Operation}

theorem Steady.inSync {before log : OperationLog Checkpointed} (h : Steady before log)
    (hInSync : before.InSync) : log.InSync := by
  intro cursor hCursor
  rw [h.lastCursor] at hCursor
  rw [h.cursor]
  exact hInSync cursor hCursor

theorem Flushed.of_steady {first second third : OperationLog Checkpointed} {cursor : Cursor}
    (h : Flushed cursor second third) (hSteady : Steady first second) :
    Flushed cursor first third :=
  { h with
    inSync := fun hInSync => h.inSync (hSteady.inSync hInSync)
    saved := fun hNew => h.saved (hSteady.lastCursor ▸ hNew) }

theorem onStore_eq_ok {σ α : Type} {log : OperationLog σ} {step : Action σ α} {a : α} {store : σ}
    (h : step log.store = .ok a store) : onStore step log = .ok a { log with store } :=
  Action.within_eq_of_ok h

theorem pending_eq_of_onStore {α : Type} {step : Action Checkpointed α} {a : α}
    {log' : OperationLog Checkpointed} (h : onStore step log = .ok a log') :
    log'.pending = log.pending := by
  rw [onStore, Action.within] at h
  split at h <;> cases h
  rfl

theorem Shows.record (h : log.Shows stop l) (block : UInt64)
    (hOps : Operation.RecordableAll ops) :
    Leads (OperationLog.record block ops) log stop (l.record block ops) := by
  have hRun := UndoLog.record_eq log.store.current log.store.saved block hOps.kinds
  rw [h.store.records] at hRun
  refine ⟨_, _, onStore_eq_ok hRun, ?_, rfl, rfl, Contents.cursor_insert_undo _ block _⟩
  exact
    { h with
      store :=
        { records := (Contents.records_insert_undo _ block _).trans h.store.records
          undo := h.store.undo.insert block (h.store.addressable.inverse hOps)
          addressable := h.store.addressable } }

theorem Shows.erase (h : log.Shows stop l) (low : UInt64) (high : Bytes)
    (forgets : UInt64 → Prop) [DecidablePred forgets]
    (hForgets : ∀ block, forgets block ↔ Key.undo low ≤ Key.undo block ∧ Key.undo block < high) :
    Shows { log with
        store := ⟨log.store.current.eraseAll
          ((log.store.current.between (Key.undo low) high).map Prod.fst), log.store.saved⟩ } stop
      { l with undo := fun block => if forgets block then none else l.undo block } :=
  { h with
    store :=
      { records := (Contents.records_eraseAll_between _ low high).trans h.store.records
        undo := h.store.undo.erase (Key.undo low) high hForgets
        addressable := h.store.addressable } }

theorem Shows.purge (h : log.Shows stop l) (height : UInt64) :
    Leads (OperationLog.purge height) log stop (l.purge height) := by
  have hShows := h.erase height Key.undoEnd (fun block => block ≤ height) fun block => by
    rw [Key.undo_le_undo_iff]
    exact ⟨fun hb => ⟨hb, Key.undo_lt_undoEnd block⟩, And.left⟩
  exact ⟨_, _, onStore_eq_ok (UndoLog.purge_eq _ _ height), hShows, rfl, rfl,
    Contents.cursor_eraseAll_between _ height _⟩

theorem Shows.discardAbove (h : log.Shows stop l) (height : UInt64) :
    Leads (OperationLog.discardAbove height) log stop (l.discard height) := by
  have hShows := h.erase Key.lastBlock (Key.undo height) (fun block => height < block)
    fun block => by
      rw [Key.undo_lt_undo_iff]
      exact ⟨fun hb => ⟨Key.undo_lastBlock_le block, hb⟩, And.right⟩
  exact ⟨_, _, onStore_eq_ok (UndoLog.discardAbove_eq _ _ height), hShows, rfl, rfl,
    Contents.cursor_eraseAll_between _ Key.lastBlock _⟩

theorem Shows.undoBlocks (h : log.Shows Key.undoEnd l) :
    ∃ numbers : List UInt64, OperationLog.undoBlocks log = .ok numbers log ∧
      (numbers.Pairwise fun a b => b < a) ∧ ∀ block, block ∈ numbers ↔ (l.undo block).isSome := by
  obtain ⟨numbers, hRun, hNumbers⟩ :=
    UndoLog.blocks_eq log.store.current log.store.saved h.store.undo
  exact ⟨numbers, onStore_eq_ok hRun, hNumbers⟩

theorem Shows.add (h : log.Shows stop l) (hOps : ∀ op ∈ ops, op.Recordable) :
    Leads (OperationLog.add ops) log stop (l.add ops) := by
  have hKinds : ∀ op ∈ ops, op.kind ≠ .unset := fun op hOp => (hOps op hOp).kind
  refine ⟨(), { log with pending := log.pending.addAll ops }, rfl, ?_, rfl, rfl, rfl⟩
  exact
    { h with
      store := { h.store with }
      upcoming := by
        rw [PendingSet.addAll_appliedTo hKinds, Ledger.add]
        exact congrArg (Records.afterAll · ops) h.upcoming
      valid := h.valid.addAll hKinds
      addressable := h.addressable.afterAll hOps }

theorem Shows.replay (h : log.Shows stop l) {height : UInt64} (hStop : Key.undo height ≤ stop) :
    ∃ blocks, Covers l.undone height blocks ∧
      Leads (OperationLog.replay height) log stop (l.add (blocks.flatMap l.undone)) := by
  obtain ⟨blocks, hRun, hSorted, hMem⟩ :=
    UndoLog.batchesAbove_eq log.store.current log.store.saved h.store.undo hStop
  have hRecordable : ∀ op ∈ blocks.flatMap l.undone, op.Recordable := by
    intro op hOp
    obtain ⟨block, hBlock, hOp⟩ := List.mem_flatMap.mp hOp
    obtain ⟨hAbove, hSome⟩ := (hMem block).mp hBlock
    obtain ⟨found, hFound⟩ := Option.isSome_iff_exists.mp hSome
    have hBelow := Key.undo_lt_of_undo_le hAbove hStop
    rw [Ledger.undone, hFound] at hOp
    exact (h.store.undo.recordable block found hBelow hFound).each op hOp
  refine ⟨blocks, ⟨hSorted, fun block hb => ((hMem block).mp hb).1, ?_⟩, ?_⟩
  · intro block hAbove hSome
    refine (hMem block).mpr ⟨hAbove, ?_⟩
    rw [Option.isSome_iff_ne_none]
    intro hNone
    exact hSome (by rw [Ledger.undone, hNone, Option.getD_none])
  · obtain ⟨a, log', hAdd, hShows⟩ := h.add hRecordable
    refine ⟨blocks.length, log', ?_, hShows⟩
    refine (Action.bind_eq_of_ok (onStore_eq_ok hRun) _).trans
      ((Action.bind_eq_of_ok hAdd _).trans ?_)
    rw [List.length_map, Action.pure_eq]

theorem mem_operations_iff {pending : PendingSet} {op : Operation} :
    op ∈ pending.operations ↔ pending[op.key]? = some op.toChange := by
  simp only [PendingSet.operations, List.mem_map, Prod.exists,
    Std.ExtTreeMap.mem_toList_iff_getElem?_eq_some]
  constructor
  · rintro ⟨key, change, hChange, rfl⟩
    exact hChange
  · intro h
    exact ⟨op.key, op.toChange, h, rfl⟩

theorem afterAll_operations {pending : PendingSet} (h : pending.Valid) (records : Records) :
    records.afterAll (assignments pending.operations ++ removals pending.operations) =
      pending.appliedTo records := by
  have hMem (op : Operation) :
      op ∈ assignments pending.operations ++ removals pending.operations ↔
        pending[op.key]? = some op.toChange := by
    rw [List.mem_append, assignments, removals, List.mem_filter, List.mem_filter,
      mem_operations_iff, ← and_or_left, and_iff_left_iff_imp]
    intro hChange
    have hKind := h op.key op.toChange hChange
    cases hOp : op.kind <;> simp_all
  funext key
  rw [PendingSet.appliedTo]
  cases hKey : pending[key]? with
  | none =>
    apply Records.afterAll_of_not_mem
    rintro op hOp rfl
    rw [hMem, hKey] at hOp
    cases hOp
  | some change =>
    apply Records.afterAll_eq_of_outcome
    · rintro op hOp rfl
      rw [hMem, hKey] at hOp
      obtain rfl := Option.some.inj hOp
      exact ⟨h op.key op.toChange hKey, rfl⟩
    · exact .inl ⟨{ change with key }, (hMem _).mpr hKey, rfl⟩

def writtenContents (contents : Contents) (ops : List Operation) (cursor : Cursor) : Contents :=
  ((contents.insertAll (assignments ops)).eraseAll
    ((removals ops).map fun op => Key.user op.key)).insert Key.cursor cursor.encode

/-- Nothing is written under a key that is neither that of an operation nor that of the cursor. -/
theorem getElem?_writtenContents_of_not_mem {contents : Contents} {ops : List Operation}
    {cursor : Cursor} {key : Bytes} (hUser : ∀ op ∈ ops, Key.user op.key ≠ key)
    (hCursor : Key.cursor ≠ key) : (writtenContents contents ops cursor)[key]? = contents[key]? := by
  have hAssigned : ∀ op ∈ assignments ops, Key.user op.key ≠ key := fun op hOp =>
    hUser op (List.mem_of_mem_filter hOp)
  have hRemoved : ∀ op ∈ removals ops, Key.user op.key ≠ key := fun op hOp =>
    hUser op (List.mem_of_mem_filter hOp)
  rw [writtenContents, Contents.getElem?_insert, if_neg hCursor,
    Contents.getElem?_eraseAll_of_not_mem hRemoved,
    Contents.getElem?_insertAll_of_not_mem hAssigned]

theorem putAll_eq (current saved : Contents) (ops : List Operation) :
    putAll ops (⟨current, saved⟩ : Checkpointed) = .ok () ⟨current.insertAll ops, saved⟩ := by
  induction ops generalizing current with
  | nil => rfl
  | cons op ops ih => exact ih _

theorem writeOut_eq (current saved : Contents) (hKinds : ∀ op ∈ ops, op.kind ≠ .unset)
    (cursor : Cursor) :
    writeOut ops cursor (⟨current, saved⟩ : Checkpointed) =
      .ok ((assignments ops).length + (removals ops).length)
        (.ofContents (writtenContents current ops cursor)) := by
  have hLength : (removals ops).length = ((removals ops).map fun op => Key.user op.key).length := by
    rw [List.length_map]
  rw [hLength]
  simp only [writeOut, (Operation.validateAll_eq_ok_iff ops).mpr hKinds, bind, EStateM.bind,
    Action.ofExcept, putAll_eq]
  rw [writtenContents]
  cases (removals ops).map fun op => Key.user op.key <;> rfl

theorem shows_insertCursor {contents : Contents} (h : contents.Shows stop l) (cursor : Cursor) :
    Contents.Shows (contents.insert Key.cursor cursor.encode) stop l where
  records := by
    refine Eq.trans ?_ h.records
    funext key
    rw [Contents.records, Contents.getElem?_insert, if_neg (Key.user_ne_cursor key).symm,
      Contents.records]
  undo := by
    apply h.undo.congr
    intro key hLow
    rw [Contents.getElem?_insert, if_neg (Key.cursor_ne_of_undo_le hLow)]
  addressable := h.addressable

theorem shows_writtenContents {contents : Contents} (h : contents.Shows stop l)
    {pending : PendingSet} (hValid : pending.Valid)
    (hUpcoming : pending.appliedTo l.records = l.upcoming)
    (hAddressable : l.upcoming.Addressable) (cursor : Cursor) :
    (writtenContents contents pending.operations cursor).Shows stop l.flush := by
  have hUpdated : Contents.Shows ((contents.insertAll (assignments pending.operations)).eraseAll
      ((removals pending.operations).map fun op => Key.user op.key)) stop l.flush := by
    refine ⟨?_, h.undo.congr fun key hLow => ?_, hAddressable⟩
    · rw [Contents.records_eraseAll (by simp [removals]),
        Contents.records_insertAll (by simp [assignments]), ← Records.afterAll_append,
        afterAll_operations hValid, h.records, hUpcoming, Ledger.flush]
    · have hUser (op : Operation) := Key.user_ne_of_undo_le hLow op.key
      rw [Contents.getElem?_eraseAll_of_not_mem fun op _ => hUser op,
        Contents.getElem?_insertAll_of_not_mem fun op _ => hUser op]
  exact shows_insertCursor hUpdated cursor

theorem flushListed_eq_of_idle {σ : Type} [Store σ] {log : OperationLog σ} {cursor : Cursor}
    (hPending : log.pending = ∅) (hCursor : log.lastCursor = some cursor)
    (listing : List Operation) : flushListed listing cursor log = .ok 0 log := by
  simp only [flushListed, Action.get_bind_eq]
  rw [if_pos (by simpa using ⟨hPending, hCursor⟩)]
  rfl

theorem flushListed_eq_of_busy {σ : Type} [Store σ] {log : OperationLog σ} {cursor : Cursor}
    (hBusy : ¬ (log.pending = ∅ ∧ log.lastCursor = some cursor)) (listing : List Operation) :
    flushListed listing cursor log = (onStore (writeOut listing cursor) >>= fun count => do
      clearPending
      setLastCursor cursor
      return count) log := by
  simp only [flushListed, Action.get_bind_eq]
  rw [if_neg (by simpa using hBusy)]

theorem flush_eq_of_idle {σ : Type} [Store σ] {log : OperationLog σ} {cursor : Cursor}
    (hPending : log.pending = ∅) (hCursor : log.lastCursor = some cursor) :
    OperationLog.flush cursor log = .ok 0 log :=
  flushListed_eq_of_idle hPending hCursor _

theorem flushListed_eq_of_valid {cursor : Cursor} {listing : List Operation}
    (hKinds : ∀ op ∈ listing, op.kind ≠ .unset)
    (hBusy : ¬ (log.pending = ∅ ∧ log.lastCursor = some cursor)) :
    flushListed listing cursor log =
      .ok ((assignments listing).length + (removals listing).length)
        ⟨.ofContents (writtenContents log.store.current listing cursor), ∅, some cursor⟩ := by
  refine (flushListed_eq_of_busy hBusy _).trans ?_
  exact (Action.bind_eq_of_ok (onStore_eq_ok
    (writeOut_eq log.store.current log.store.saved hKinds cursor)) _).trans rfl

theorem flush_eq_of_busy {cursor : Cursor} (hValid : log.pending.Valid)
    (hBusy : ¬ (log.pending = ∅ ∧ log.lastCursor = some cursor)) :
    OperationLog.flush cursor log =
      .ok ((assignments log.pending.operations).length + (removals log.pending.operations).length)
        ⟨.ofContents (writtenContents log.store.current log.pending.operations cursor), ∅,
          some cursor⟩ :=
  flushListed_eq_of_valid
    (fun op hOp => hValid op.key op.toChange (mem_operations_iff.mp hOp)) hBusy

theorem inSync_of_insert {contents : Contents} {pending : PendingSet} {cursor : Cursor} :
    InSync ⟨.ofContents (contents.insert Key.cursor cursor.encode), pending, some cursor⟩ := by
  intro other hOther
  obtain rfl := Option.some.inj hOther
  exact (Contents.getElem?_insert contents Key.cursor cursor.encode Key.cursor).trans (if_pos rfl)

theorem Shows.flush (h : log.Shows stop l) (cursor : Cursor) :
    ∃ count log', OperationLog.flush cursor log = .ok count log' ∧ log'.Shows stop l.flush ∧
      Flushed cursor log log' := by
  by_cases hIdle : log.pending = ∅ ∧ log.lastCursor = some cursor
  · obtain ⟨hPending, hCursor⟩ := hIdle
    have hUpcoming := h.upcoming
    rw [hPending, PendingSet.empty_appliedTo] at hUpcoming
    have hSame : l.flush = l := by
      obtain ⟨records, upcoming, undo⟩ := l
      obtain rfl : records = upcoming := hUpcoming
      rfl
    exact ⟨0, log, flush_eq_of_idle hPending hCursor, hSame ▸ h, hPending, hCursor, id,
      fun hNew => absurd hCursor hNew⟩
  · have hShows := shows_writtenContents h.store h.valid h.upcoming h.addressable cursor
    refine ⟨_, _, flush_eq_of_busy h.valid hIdle, ?_, rfl, rfl, fun _ => inSync_of_insert,
      fun _ => rfl⟩
    exact
      { store := hShows
        upcoming := by rw [PendingSet.empty_appliedTo, Ledger.flush]
        valid := PendingSet.valid_empty
        addressable := h.addressable }

theorem Shows.writeCursor (h : log.Shows stop l) (cursor : Cursor) :
    ∃ log', OperationLog.writeCursor cursor log = .ok () log' ∧ log'.Shows stop l ∧
      log'.pending = log.pending ∧ log'.lastCursor = some cursor ∧ log'.InSync ∧
      log'.store.saved = log'.store.current := by
  let written : Contents := log.store.current.insert Key.cursor cursor.encode
  refine ⟨⟨.ofContents written, log.pending, some cursor⟩, rfl, ?_, rfl, rfl, inSync_of_insert, rfl⟩
  exact { h with store := shows_insertCursor h.store cursor }

theorem getCursor_eq_of_none (h : log.store.current[Key.cursor]? = none) :
    OperationLog.getCursor log = .error .cursorNotFound log := by
  have hGet : onStore (Store.get Key.cursor) log = .ok none log := by
    rw [← h]
    rfl
  exact Action.bind_eq_of_ok hGet _

theorem getCursor_eq_of_some {text : Bytes} (h : log.store.current[Key.cursor]? = some text) :
    OperationLog.getCursor log = Action.ofExcept (Cursor.decode text) log := by
  have hGet : onStore (Store.get Key.cursor) log = .ok (some text) log := by
    rw [← h]
    rfl
  exact Action.bind_eq_of_ok hGet _

/-- What reading the cursor comes to where this text stands. -/
def reading : Option Bytes → Except Error Cursor
  | none => .error .cursorNotFound
  | some text => Cursor.decode text

theorem outcome_getCursor (log : OperationLog Checkpointed) :
    getCursor.outcome log = reading log.store.current[Key.cursor]? := by
  rw [Action.outcome]
  cases hText : log.store.current[Key.cursor]? with
  | none => rw [getCursor_eq_of_none hText]; rfl
  | some text =>
    rw [getCursor_eq_of_some hText, reading]
    cases Cursor.decode text <;> rfl

end OperationLog

end ForkLog
