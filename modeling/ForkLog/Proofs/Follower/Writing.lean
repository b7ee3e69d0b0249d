import Mathlib
import ForkLog.Proofs.Cursor
import ForkLog.Proofs.Follower
import ForkLog.Proofs.OperationLog.Faltering

/-! # What a follower writes

Whatever a store holds, only a flush writes user records and the cursor, and what it writes is made
durable. The other steps change at most what stands where undo records are.
-/

namespace ForkLog

set_option autoImplicit false

/-- A flush changes nothing where undo records stand. -/
theorem OperationLog.getElem?_writtenContents_of_undo (contents : Contents) (ops : List Operation)
    (cursor : Cursor) {key : Bytes} (hKey : Key.undo Key.lastBlock ≤ key) :
    (writtenContents contents ops cursor)[key]? = contents[key]? :=
  getElem?_writtenContents_of_not_mem (fun op _ => Key.user_ne_of_undo_le hKey op.key)
    (Key.cursor_ne_of_undo_le hKey)

namespace OperationLog

/-- Nothing is pending that was not before, nothing was made durable, and user records and cursor are
what they were. -/
structure Quiet (before log : OperationLog Checkpointed) : Prop where
  pending : log.pending = before.pending
  lastCursor : log.lastCursor = before.lastCursor
  saved : log.store.saved = before.store.saved
  accords : before.store.current.Accords log.store.current

theorem Quiet.trans {first second third : OperationLog Checkpointed} (h : Quiet first second)
    (h' : Quiet second third) : Quiet first third :=
  ⟨h'.pending.trans h.pending, h'.lastCursor.trans h.lastCursor, h'.saved.trans h.saved,
    h.accords.trans h'.accords⟩

variable {log log' : OperationLog Checkpointed} {cursor : Cursor} {count : Nat}

theorem quiet_of_onStore {step : Action Checkpointed Nat} {contents : Contents} {found : Nat}
    (hStep : step log.store = .ok found ⟨contents, log.store.saved⟩)
    (hAccords : log.store.current.Accords contents) (h : onStore step log = .ok count log') :
    Quiet log log' := by
  rw [onStore_eq_ok hStep] at h
  cases h
  exact ⟨rfl, rfl, rfl, hAccords⟩

theorem quiet_purge {height : UInt64} (h : purge height log = .ok count log') : Quiet log log' :=
  quiet_of_onStore (UndoLog.purge_eq _ _ height) (.eraseAll_between _ (List.le_refl _)) h

/-- A batch that is not valid is refused before any call. -/
theorem record_eq_of_invalid {σ : Type} [Store σ] {log : OperationLog σ} {ops : List Operation}
    {e : Error} (hInvalid : Operation.validateAll ops = .error e) (block : UInt64) :
    record block ops log = .error e log := by
  have hRecord : UndoLog.record block ops log.store = .error e log.store := by
    rw [UndoLog.record, UndoLog.inverse, hInvalid]
    rfl
  simp only [record, onStore, Action.within, hRecord]

theorem kinds_of_record {block : UInt64} {ops : List Operation}
    (h : record block ops log = .ok count log') : ∀ op ∈ ops, op.kind ≠ .unset := by
  rw [← Operation.validateAll_eq_ok_iff]
  cases hCheck : Operation.validateAll ops with
  | ok _ => rfl
  | error e =>
    rw [record_eq_of_invalid hCheck] at h
    cases h

theorem quiet_record {block : UInt64} {ops : List Operation}
    (h : record block ops log = .ok count log') : Quiet log log' :=
  quiet_of_onStore (UndoLog.record_eq _ _ block (kinds_of_record h)) (.insert_undo _ _ _) h

/-- The log after the undo records of the blocks above a height were deleted. -/
def discarded (log : OperationLog Checkpointed) (height : UInt64) : OperationLog Checkpointed :=
  { log with
    store := ⟨log.store.current.eraseAll ((log.store.current.between (Key.undo Key.lastBlock)
      (Key.undo height)).map Prod.fst), log.store.saved⟩ }

theorem discardAbove_of_ok {height : UInt64} (h : discardAbove height log = .ok count log') :
    log' = log.discarded height := by
  rw [discardAbove, onStore_eq_ok (UndoLog.discardAbove_eq _ _ height)] at h
  cases h
  rfl

/-- The log after a flush. -/
def flushed (log : OperationLog Checkpointed) (cursor : Cursor) : OperationLog Checkpointed :=
  if log.pending = ∅ ∧ log.lastCursor = some cursor then log
  else ⟨.ofContents (writtenContents log.store.current log.pending.operations cursor), ∅,
    some cursor⟩

theorem flushed_of_idle (hPending : log.pending = ∅) (hCursor : log.lastCursor = some cursor) :
    log.flushed cursor = log := if_pos ⟨hPending, hCursor⟩

theorem flushed_of_busy (hBusy : ¬ (log.pending = ∅ ∧ log.lastCursor = some cursor)) :
    log.flushed cursor =
      ⟨.ofContents (writtenContents log.store.current log.pending.operations cursor), ∅,
        some cursor⟩ := if_neg hBusy

theorem pending_flushed (log : OperationLog Checkpointed) (cursor : Cursor) :
    (log.flushed cursor).pending = ∅ := by
  rw [flushed]
  split
  case isTrue hIdle => exact hIdle.1
  case isFalse => rfl

theorem lastCursor_flushed (log : OperationLog Checkpointed) (cursor : Cursor) :
    (log.flushed cursor).lastCursor = some cursor := by
  rw [flushed]
  split
  case isTrue hIdle => exact hIdle.2
  case isFalse => rfl

theorem flushed_flushed (log : OperationLog Checkpointed) (cursor : Cursor) :
    (log.flushed cursor).flushed cursor = log.flushed cursor :=
  flushed_of_idle (log.pending_flushed cursor) (log.lastCursor_flushed cursor)

theorem flushed_accords (h : log.store.saved.Accords log.store.current) (cursor : Cursor) :
    (log.flushed cursor).store.saved.Accords (log.flushed cursor).store.current := by
  rw [flushed]
  split
  case isTrue => exact h
  case isFalse => exact .refl _

theorem saved_flushed (h : log.store.saved = log.store.current) (cursor : Cursor) :
    (log.flushed cursor).store.saved = (log.flushed cursor).store.current := by
  rw [flushed]
  split
  case isTrue => exact h
  case isFalse => rfl

theorem records_flushed (hValid : log.pending.Valid) (cursor : Cursor) :
    (log.flushed cursor).store.current.records =
      log.pending.appliedTo log.store.current.records := by
  rw [flushed]
  split
  case isTrue hIdle => rw [hIdle.1, PendingSet.empty_appliedTo]
  case isFalse =>
    exact records_writtenContents.trans (afterAll_operations hValid log.store.current.records)

theorem inSync_flushed (h : log.InSync) (cursor : Cursor) : (log.flushed cursor).InSync := by
  rw [flushed]
  split
  case isTrue => exact h
  case isFalse =>
    rintro _ ⟨⟩
    exact getElem?_writtenContents_cursor

theorem cursor_flushed (h : log.InSync) (cursor : Cursor) :
    (log.flushed cursor).store.current[Key.cursor]? = some cursor.encode :=
  inSync_flushed h cursor cursor (log.lastCursor_flushed cursor)

theorem flush_eq_flushed (h : log.pending.Valid) (cursor : Cursor) :
    ∃ count, flush cursor log = .ok count (log.flushed cursor) := by
  rw [flushed]
  split
  case isTrue hIdle => exact ⟨0, flush_eq_of_idle hIdle.1 hIdle.2⟩
  case isFalse hBusy => exact ⟨_, flush_eq_of_busy h hBusy⟩

theorem valid_of_flush (h : flush cursor log = .ok count log') : log.pending.Valid := by
  cases hCheck : Operation.validateAll log.pending.operations with
  | ok _ => exact valid_of_validateAll hCheck
  | error e =>
    rw [flush_eq_of_invalid hCheck] at h
    cases h

theorem flush_of_ok (h : flush cursor log = .ok count log') :
    log' = log.flushed cursor := by
  obtain ⟨_, hFlush⟩ := flush_eq_flushed (valid_of_flush h) cursor
  rw [hFlush] at h
  cases h
  rfl

end OperationLog

namespace Follower

variable {f f' : Follower Checkpointed} {block : Block} {fork : Fork} {cursor : Cursor}

theorem retrying_eq_onLog {α : Type} {step : Action (OperationLog Checkpointed) α}
    (h : Action.Lasting step) : retrying step = onLog step := by
  funext f
  have hOnLog : Action.Lasting (onLog step) := h.within
  rw [retrying, hOnLog.retrying_eq]

theorem onLog_of_ok {σ α : Type} {step : Action (OperationLog σ) α} {a : α} {f f' : Follower σ}
    (h : onLog step f = .ok a f') : ∃ log, step f.log = .ok a log ∧ f' = { f with log } := by
  simp only [onLog, Action.within] at h
  cases hStep : step f.log with
  | ok b log =>
    rw [hStep] at h
    cases h
    exact ⟨log, rfl, rfl⟩
  | error e log =>
    rw [hStep] at h
    cases h

theorem lasting_flushOnceIn (order : PendingSet.Order) (cursor : Cursor) :
    Action.Lasting (flushOnceIn order cursor : Action (Follower Checkpointed) Nat) := by
  have hOnLog : Action.Lasting (onLog (OperationLog.flushIn order cursor)) :=
    (OperationLog.lasting_flushIn order cursor).within
  exact hOnLog.bind fun _ => .bind (.of_ok fun f => ⟨_, _, rfl⟩) fun _ => .pure _

theorem flushIn_eq_flushOnceIn (orders : Nat → PendingSet.Order) (cursor : Cursor) :
    (flushIn orders cursor : Action (Follower Checkpointed) Nat) =
      flushOnceIn (orders 0) cursor := by
  funext f
  rw [flushIn, (lasting_flushOnceIn (orders 0) cursor).attempting_eq]

theorem flush_eq_flushOnceIn (cursor : Cursor) :
    (flush cursor : Action (Follower Checkpointed) Nat) = flushOnceIn .sorted cursor :=
  flushIn_eq_flushOnceIn sorted cursor

theorem flush_of_ok {count : Nat} (h : flush cursor f = .ok count f') :
    f' = { f with log := f.log.flushed cursor, stats := f'.stats } := by
  rw [flush_eq_flushOnceIn] at h
  obtain ⟨_, _, hFlush, hRest⟩ := Action.exists_of_bind h
  obtain ⟨log, hLog, rfl⟩ := onLog_of_ok hFlush
  cases hRest
  rw [OperationLog.flush_of_ok hLog]

theorem flush_ok (h : f.log.pending.Valid) (cursor : Cursor) :
    ∃ count f', flush cursor f = .ok count f' := by
  obtain ⟨count, hFlush⟩ := OperationLog.flush_eq_flushed h cursor
  rw [flush_eq_flushOnceIn]
  exact ⟨count, _, Action.bind_eq_of_ok (Action.within_eq_of_ok hFlush) _⟩

/-- The event is passed over, as the log holds it already. -/
def Skips {σ : Type} (f : Follower σ) : Event → Prop
  | .data block => f.caughtUp = false ∧ block.number < f.resumeFrom
  | .undo fork => f.caughtUp = false ∧ f.resumeFrom ≤ nextBlock fork.lastValidBlock

/-- What is left to do for a block when its operations are pending. -/
def settleIn {σ : Type} [Store σ] (orders : Nat → PendingSet.Order) (block : Block) :
    Action (Follower σ) Unit := do
  if flushesAt (← get).config.flushInterval block then
    let _ ← flushIn orders block.cursor
  update fun f =>
    { f with
      lastFinalized := some block.finalizedHeight
      lastCursor := some block.cursor
      stats := f.stats.recordBlock block.number block.finalizedHeight }

def settle {σ : Type} [Store σ] (block : Block) : Action (Follower σ) Unit := settleIn sorted block

theorem purge_of_ok (h : purge f = .ok () f') :
    f' = { f with log := f'.log } ∧ OperationLog.Quiet f.log f'.log := by
  obtain hNone | ⟨height, hSome⟩ := Option.eq_none_or_eq_some f.lastFinalized
  · rw [purge_eq_of_none hNone] at h
    cases h
    exact ⟨rfl, rfl, rfl, rfl, .refl _⟩
  · rw [purge_eq_of_some hSome, retrying_eq_onLog (OperationLog.lasting_purge height)] at h
    obtain ⟨_, _, hPurge, hRest⟩ := Action.exists_of_bind h
    obtain ⟨log, hLog, rfl⟩ := onLog_of_ok hPurge
    cases hRest
    exact ⟨rfl, OperationLog.quiet_purge hLog⟩

theorem record_of_ok {count : Nat}
    (h : retrying (OperationLog.record block.number block.operations) f = .ok count f') :
    f' = { f with log := f'.log } ∧ OperationLog.Quiet f.log f'.log ∧
      ∀ op ∈ block.operations, op.kind ≠ .unset := by
  rw [retrying_eq_onLog (OperationLog.lasting_record _ _)] at h
  obtain ⟨log, hLog, rfl⟩ := onLog_of_ok h
  exact ⟨rfl, OperationLog.quiet_record hLog, OperationLog.kinds_of_record hLog⟩

theorem settle_of_ok (h : settle block f = .ok () f') :
    f' = { f with
      log := if flushesAt f.config.flushInterval block then f.log.flushed block.cursor else f.log
      stats := f'.stats
      lastFinalized := some block.finalizedHeight
      lastCursor := some block.cursor } := by
  simp only [settle, settleIn, Action.get_bind_eq] at h
  split
  case isTrue hFlushes =>
    rw [if_pos hFlushes] at h
    obtain ⟨_, g, hFlush, hRest⟩ := Action.exists_of_bind h
    cases hRest
    rw [flush_of_ok hFlush]
  case isFalse hWaits =>
    rw [if_neg hWaits] at h
    cases h
    rfl

theorem apply_of_ok (h : apply block f = .ok () f') :
    (∀ op ∈ block.operations, op.kind ≠ .unset) ∧
      ∃ log, OperationLog.Quiet f.log log ∧
        settle block { f with
          log := { log with pending := log.pending.addAll block.operations } } = .ok () f' := by
  obtain ⟨_, f₁, hPurge, hRest⟩ := Action.exists_of_bind h
  obtain ⟨_, f₂, hRecord, hRest⟩ := Action.exists_of_bind hRest
  obtain ⟨_, f₃, hAdd, hSettle⟩ := Action.exists_of_bind hRest
  obtain ⟨hFields₁, hQuiet₁⟩ := purge_of_ok hPurge
  obtain ⟨hFields₂, hQuiet₂, hKinds⟩ := record_of_ok hRecord
  cases hAdd
  refine ⟨hKinds, f₂.log, hQuiet₁.trans hQuiet₂, ?_⟩
  rw [hFields₂, hFields₁] at hSettle
  exact hSettle

theorem purge_ok (f : Follower Checkpointed) : ∃ f', purge f = .ok () f' := by
  obtain hNone | ⟨height, hSome⟩ := Option.eq_none_or_eq_some f.lastFinalized
  · exact ⟨f, purge_eq_of_none hNone⟩
  · have hPurge := OperationLog.onStore_eq_ok
      (UndoLog.purge_eq f.log.store.current f.log.store.saved height)
    rw [purge_eq_of_some hSome, retrying_eq_onLog (OperationLog.lasting_purge height)]
    exact ⟨_, Action.bind_eq_of_ok (Action.within_eq_of_ok hPurge) _⟩

theorem record_ok (f : Follower Checkpointed) (number : UInt64) {ops : List Operation}
    (hKinds : ∀ op ∈ ops, op.kind ≠ .unset) :
    ∃ count f', retrying (OperationLog.record number ops) f = .ok count f' := by
  have hRecord := OperationLog.onStore_eq_ok
    (UndoLog.record_eq f.log.store.current f.log.store.saved number hKinds)
  rw [retrying_eq_onLog (OperationLog.lasting_record number ops)]
  exact ⟨_, _, Action.within_eq_of_ok hRecord⟩

theorem settle_ok (h : f.log.pending.Valid) (block : Block) : ∃ f', settle block f = .ok () f' := by
  simp only [settle, settleIn, Action.get_bind_eq]
  split
  case isTrue =>
    obtain ⟨count, g, hFlush⟩ := flush_ok h block.cursor
    exact ⟨_, Action.bind_eq_of_ok hFlush _⟩
  case isFalse => exact ⟨_, rfl⟩

theorem apply_ok (h : f.log.pending.Valid) (hKinds : ∀ op ∈ block.operations, op.kind ≠ .unset) :
    ∃ f', apply block f = .ok () f' := by
  obtain ⟨f₁, hPurge⟩ := purge_ok f
  obtain ⟨count, f₂, hRecord⟩ := record_ok f₁ block.number hKinds
  obtain ⟨-, hQuiet₁⟩ := purge_of_ok hPurge
  obtain ⟨-, hQuiet₂, -⟩ := record_of_ok hRecord
  let added : OperationLog Checkpointed :=
    { f₂.log with pending := f₂.log.pending.addAll block.operations }
  have hPending : added.pending = f.log.pending.addAll block.operations := by
    rw [← (hQuiet₁.trans hQuiet₂).pending]
  have hValid : added.pending.Valid := hPending ▸ h.addAll hKinds
  obtain ⟨f', hSettle⟩ := settle_ok (f := { f₂ with log := added }) hValid block
  exact ⟨f', (Action.bind_eq_of_ok hPurge _).trans ((Action.bind_eq_of_ok hRecord _).trans hSettle)⟩

theorem handleIn_eq_of_skips {σ : Type} [Store σ] (orders : Nat → PendingSet.Order)
    {f : Follower σ} {event : Event} (h : f.Skips event) : handleIn orders event f = .ok () f := by
  cases event with
  | data block => exact onBlockIn_eq_of_passes orders h.1 h.2
  | undo fork => exact onForkIn_eq_of_passes orders h.1 h.2

theorem onBlockIn_eq_of_not_skips {σ : Type} [Store σ] (orders : Nat → PendingSet.Order)
    {f : Follower σ} (h : ¬ f.Skips (.data block)) :
    onBlockIn orders block f = applyIn orders block { f with caughtUp := true } := by
  apply onBlockIn_eq_applyIn
  rw [Skips, not_and, UInt64.not_lt] at h
  cases hCaughtUp : f.caughtUp with
  | true => exact .inl rfl
  | false => exact .inr (h hCaughtUp)

theorem onForkIn_eq_of_not_skips {σ : Type} [Store σ] (orders : Nat → PendingSet.Order)
    {f : Follower σ} (h : ¬ f.Skips (.undo fork)) :
    onForkIn orders fork f = takeBackIn orders fork f := by
  apply onForkIn_eq_takeBackIn
  rw [Skips, not_and, UInt64.not_le] at h
  cases hCaughtUp : f.caughtUp with
  | true => exact .inl rfl
  | false => exact .inr (h hCaughtUp)

theorem handle_eq_of_skips {σ : Type} [Store σ] {f : Follower σ} {event : Event}
    (h : f.Skips event) : handle event f = .ok () f :=
  handleIn_eq_of_skips sorted h

theorem onBlock_eq_of_not_skips {σ : Type} [Store σ] {f : Follower σ}
    (h : ¬ f.Skips (.data block)) : onBlock block f = apply block { f with caughtUp := true } :=
  onBlockIn_eq_of_not_skips sorted h

theorem onFork_eq_of_not_skips {σ : Type} [Store σ] {f : Follower σ}
    (h : ¬ f.Skips (.undo fork)) : onFork fork f = takeBackIn sorted fork f :=
  onForkIn_eq_of_not_skips sorted h

theorem onBlock_of_ok (hApplies : ¬ f.Skips (.data block)) (h : onBlock block f = .ok () f') :
    (∀ op ∈ block.operations, op.kind ≠ .unset) ∧
      ∃ log, OperationLog.Quiet f.log log ∧ settle block { f with
        log := { log with pending := log.pending.addAll block.operations }
        caughtUp := true } = .ok () f' := by
  rw [onBlock_eq_of_not_skips hApplies] at h
  exact apply_of_ok h

/-- The operations that take back the blocks above a height, as far as they can be read. -/
def undoing (f : Follower Checkpointed) (height : UInt64) : List Operation :=
  match UndoLog.batchesAbove height f.log.store with
  | .ok batches _ => batches.flatten
  | .error _ _ => []

theorem replay_of_ok {height : UInt64} {count : Nat}
    (h : retrying (OperationLog.replay height) f = .ok count f') :
    f' = { f with log := { f.log with pending := f.log.pending.addAll (f.undoing height) } } := by
  rw [retrying_eq_onLog (OperationLog.lasting_replay height)] at h
  obtain ⟨log, hLog, rfl⟩ := onLog_of_ok h
  obtain ⟨batches, log₁, hBatches, hRest⟩ := Action.exists_of_bind hLog
  cases hRest
  have hStore : UndoLog.batchesAbove height f.log.store = .ok batches f.log.store := by
    simp only [OperationLog.onStore, Action.within] at hBatches
    cases hRun : UndoLog.batchesAbove height f.log.store with
    | error e s => rw [hRun] at hBatches; cases hBatches
    | ok found s =>
      rw [hRun] at hBatches
      cases hBatches
      rw [UndoLog.looks_batchesAbove height f.log.store _ _ hRun]
  simp only [OperationLog.onStore, Action.within, hStore] at hBatches
  cases hBatches
  rw [undoing, hStore]

theorem onFork_of_ok (hApplies : ¬ f.Skips (.undo fork)) (h : onFork fork f = .ok () f') :
    f' = { f with
      log := (({ f.log with
        pending := f.log.pending.addAll (f.undoing fork.lastValidBlock) } :
          OperationLog Checkpointed).flushed fork.cursor).discarded fork.lastValidBlock
      stats := f'.stats
      resumeFrom := f'.resumeFrom
      caughtUp := true
      lastCursor := some fork.cursor } := by
  rw [onFork_eq_of_not_skips hApplies] at h
  obtain ⟨_, f₁, hReplay, hRest⟩ := Action.exists_of_bind h
  obtain ⟨_, f₂, hFlush, hRest⟩ := Action.exists_of_bind hRest
  obtain ⟨_, f₃, hDiscard, hRest⟩ := Action.exists_of_bind hRest
  rw [retrying_eq_onLog (OperationLog.lasting_discardAbove _)] at hDiscard
  obtain ⟨log, hLog, rfl⟩ := onLog_of_ok hDiscard
  cases hRest
  rw [OperationLog.discardAbove_of_ok hLog, flush_of_ok hFlush, replay_of_ok hReplay]

theorem start_of_ok (h : start f = .ok cursor f') :
    (∃ text, f.log.store.current[Key.cursor]? = some text ∧ Cursor.decode text = .ok cursor ∧
      f' = { f with resumeFrom := cursor.resumeBlock }) ∨
    f.log.store.current[Key.cursor]? = none ∧
      cursor = .blank (previousBlock f.config.startBlock) ∧
      f' = { f with
        log := ⟨.ofContents (f.log.store.current.insert Key.cursor cursor.encode), f.log.pending,
          some cursor⟩
        resumeFrom := f.config.startBlock } := by
  cases hCursor : f.log.store.current[Key.cursor]? with
  | none =>
    rw [start_eq_of_none hCursor] at h
    cases h
    exact .inr ⟨rfl, rfl, rfl⟩
  | some text =>
    cases hDecode : Cursor.decode text with
    | ok found =>
      rw [start_of_some hCursor hDecode] at h
      cases h
      exact .inl ⟨text, rfl, hDecode, rfl⟩
    | error e =>
      simp only [start, onLog, Action.within, OperationLog.getCursor_eq_of_some hCursor, hDecode,
        Action.ofExcept] at h
      obtain ⟨reason, rfl⟩ := Cursor.decode_error hDecode
      cases h

/-- The log after a run has ended, its last events being flushed. -/
def ended (f : Follower Checkpointed) : OperationLog Checkpointed :=
  match f.lastCursor with
  | none => f.log
  | some cursor => f.log.flushed cursor

theorem ended_of_none (h : f.lastCursor = none) : f.ended = f.log := by rw [ended, h]

theorem ended_of_some (h : f.lastCursor = some cursor) : f.ended = f.log.flushed cursor := by
  rw [ended, h]

theorem shutdown_of_ok (h : shutdown f = .ok () f') :
    f' = { f with log := f.ended, stats := f'.stats } := by
  obtain hNone | ⟨cursor, hSome⟩ := Option.eq_none_or_eq_some f.lastCursor
  · rw [shutdown_eq_of_none hNone] at h
    cases h
    rw [ended_of_none hNone]
  · rw [shutdown_eq_of_some hSome] at h
    obtain ⟨_, g, hFlush, hRest⟩ := Action.exists_of_bind h
    cases hRest
    rw [flush_of_ok hFlush, ended_of_some hSome]

end Follower

end ForkLog
