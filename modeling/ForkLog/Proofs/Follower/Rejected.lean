import Mathlib
import ForkLog.Proofs.Follower.BadLine
import ForkLog.Proofs.Follower.RetriedFork

/-! # Events that are rejected

A block with an operation of no valid kind is rejected, and so is a fork if one of the undo records
it looks up cannot be read. Both are found out before anything is pending, and a run that ends there
leaves the user records and the cursor that it would have left without the event.
-/

namespace ForkLog

set_option autoImplicit false

/-- A block is rejected for an operation of no valid kind, and a fork for something that is no undo
record among what is looked up to take blocks back. -/
def Contents.Rejects (contents : Contents) : Event → Prop
  | .data block => ∃ op ∈ block.operations, op.kind = .unset
  | .undo fork =>
    ∃ entry ∈ contents.between (Key.undo Key.lastBlock) (Key.undo fork.lastValidBlock),
      ∃ e, Operation.decodeBatch entry.2 = .error e

theorem Contents.rejects_fork {contents : Contents} {fork : Fork} {number : UInt64} {record : Bytes}
    {e : Error} (hAbove : fork.lastValidBlock < number)
    (hRecord : contents[Key.undo number]? = some record)
    (hUnreadable : Operation.decodeBatch record = .error e) : contents.Rejects (.undo fork) :=
  ⟨(Key.undo number, record), mem_between_iff.mpr ⟨hRecord, Key.undo_lastBlock_le number,
    (Key.undo_lt_undo_iff _ _).mpr hAbove⟩, e, hUnreadable⟩

theorem Operation.exists_validateAll_eq_error {ops : List Operation}
    (h : ∃ op ∈ ops, op.kind = .unset) :
    ∃ reason, validateAll ops = .error (.corruptOperation reason) := by
  cases hCheck : validateAll ops with
  | ok _ =>
    obtain ⟨op, hOp, hKind⟩ := h
    exact absurd hKind ((validateAll_eq_ok_iff ops).mp hCheck op hOp)
  | error e =>
    obtain ⟨op, -, -, rfl⟩ := exists_of_validateAll_eq_error hCheck
    exact ⟨_, rfl⟩

theorem UndoLog.exists_readAbove_eq_error {contents : Contents} {fork : Fork}
    (h : contents.Rejects (.undo fork)) :
    ∃ reason, readAbove contents fork.lastValidBlock = .error (.corruptOperation reason) := by
  obtain ⟨entry, hEntry, e, hUnreadable⟩ := h
  obtain ⟨refusal, hRead⟩ : ∃ refusal, readAbove contents fork.lastValidBlock = .error refusal :=
    Action.exists_mapM_eq_error hEntry hUnreadable
  obtain ⟨reason, rfl⟩ := corrupt_of_decodeAll hRead
  exact ⟨reason, hRead⟩

/-- Stores that differ at most where undo records stand, also in what is durable. -/
structure Checkpointed.Accords (s t : Checkpointed) : Prop where
  current : s.current.Accords t.current
  saved : s.saved.Accords t.saved

theorem Contents.Accords.writtenContents {contents other : Contents} (h : contents.Accords other)
    (ops : List Operation) (cursor : Cursor) :
    (OperationLog.writtenContents contents ops cursor).Accords
      (OperationLog.writtenContents other ops cursor) := by
  intro key hKey
  obtain ⟨value, hValue⟩ | hSame := OperationLog.writtenContents_decides ops cursor key
  · rw [hValue, hValue]
  · rw [hSame, hSame]
    exact h key hKey

namespace OperationLog

/-- A flush neither reads nor writes undo records. -/
theorem accords_flush (cursor : Cursor) :
    Action.Simulates (Alike Checkpointed.Accords) (flush cursor) (flush cursor) := by
  rintro ⟨store, pending, last⟩ ⟨other, _, _⟩ ⟨hStore, rfl, rfl⟩
  by_cases hIdle : pending = ∅ ∧ last = some cursor
  · rw [flush_eq_of_idle hIdle.1 hIdle.2, flush_eq_of_idle hIdle.1 hIdle.2]
    exact .ok 0 ⟨hStore, rfl, rfl⟩
  · cases hCheck : Operation.validateAll pending.operations with
    | ok _ =>
      have hValid := valid_of_validateAll hCheck
      have hWritten := hStore.current.writtenContents pending.operations cursor
      rw [flush_eq_of_busy hValid hIdle, flush_eq_of_busy hValid hIdle]
      exact .ok _ ⟨⟨hWritten, hWritten⟩, rfl, rfl⟩
    | error e =>
      rw [flush_eq_of_invalid hCheck, flush_eq_of_invalid hCheck]
      exact .error e ⟨hStore, rfl, rfl⟩

theorem getElem?_purge_of_lt {log log' : OperationLog Checkpointed} {height number : UInt64}
    {count : Nat} (h : purge height log = .ok count log') (hAbove : height < number) :
    log'.store.current[Key.undo number]? = log.store.current[Key.undo number]? := by
  rw [purge, onStore_eq_ok (UndoLog.purge_eq _ _ height)] at h
  cases h
  refine (Contents.getElem?_eraseAll_between _ _ _ _).trans (if_neg ?_)
  exact fun hRange => hRange.1 ((Key.undo_lt_undo_iff _ _).mpr hAbove)

end OperationLog

namespace Follower

section

variable {o o' : Follower Checkpointed} {event : Event}

/-- Followers that make the same of the end of a run. -/
structure EndsAlike (o o' : Follower Checkpointed) : Prop where
  log : OperationLog.Alike Checkpointed.Accords o.log o'.log
  lastCursor : o.lastCursor = o'.lastCursor

theorem EndsAlike.findsSame (h : EndsAlike o o') : FindsSame o o' := by
  have hCurrent := h.log.store.current
  refine ⟨⟨o.log.store.current.records, Store.holds_checkpointed_iff.mpr rfl,
    Store.holds_checkpointed_iff.mpr hCurrent.records_eq⟩, ?_⟩
  rw [OperationLog.outcome_getCursor, OperationLog.outcome_getCursor, hCurrent.cursor_eq]

theorem endsAlike_shutdown :
    Action.Simulates EndsAlike (shutdown : Action (Follower Checkpointed) Unit) shutdown := by
  intro o o' h
  obtain hNone | ⟨cursor, hSome⟩ := Option.eq_none_or_eq_some o.lastCursor
  · rw [shutdown_eq_of_none hNone, shutdown_eq_of_none (h.lastCursor ▸ hNone)]
    exact .ok () h
  · have hOnLog : Action.Simulates EndsAlike (onLog (OperationLog.flush cursor))
        (onLog (OperationLog.flush cursor)) :=
      .within (fun _ _ h => h.log) (fun _ _ _ _ h hLog => { h with log := hLog })
        (OperationLog.accords_flush cursor)
    have hFlush : Action.Simulates EndsAlike (flushOnceIn .sorted cursor)
        (flushOnceIn .sorted cursor) :=
      hOnLog.bind fun count =>
        .bind (fun _ _ h => .ok () ⟨h.log, h.lastCursor⟩) fun _ => .pure count
    rw [shutdown_eq_of_some hSome, shutdown_eq_of_some (h.lastCursor ▸ hSome),
      flush_eq_flushOnceIn]
    exact (hFlush.bind fun _ => .pure ()) o o' h

/-- What handling an event leaves as it was: what is pending, user records, cursor and what is
durable. Of the undo records at most those of blocks that were final are gone, and none if the event
is a fork. -/
structure Spared (event : Event) (o o' : Follower Checkpointed) : Prop where
  log : OperationLog.Quiet o.log o'.log
  lastCursor : o'.lastCursor = o.lastCursor
  undo : ∀ number, (∀ height, o.lastFinalized = some height → height < number) →
    o'.log.store.current[Key.undo number]? = o.log.store.current[Key.undo number]?
  fork : ∀ fork, event = .undo fork → o' = o

theorem Spared.endsAlike (h : Spared event o o') : EndsAlike o o' :=
  ⟨⟨⟨h.log.accords, h.log.saved ▸ .refl _⟩, h.log.pending.symm, h.log.lastCursor.symm⟩,
    h.lastCursor.symm⟩

theorem undo_of_purge (h : purge o = .ok () o') {number : UInt64}
    (hAbove : ∀ height, o.lastFinalized = some height → height < number) :
    o'.log.store.current[Key.undo number]? = o.log.store.current[Key.undo number]? := by
  obtain hNone | ⟨height, hSome⟩ := Option.eq_none_or_eq_some o.lastFinalized
  · rw [purge_eq_of_none hNone] at h
    cases h
    rfl
  · rw [purge_eq_of_some hSome, retrying_eq_onLog (OperationLog.lasting_purge height)] at h
    obtain ⟨_, _, hPurge, hRest⟩ := Action.exists_of_bind h
    obtain ⟨log, hLog, rfl⟩ := onLog_of_ok hPurge
    cases hRest
    exact OperationLog.getElem?_purge_of_lt hLog (hAbove height hSome)

theorem onBlock_rejects {block : Block} (hNew : ¬ o.Skips (.data block))
    (hRejects : ∃ op ∈ block.operations, op.kind = .unset) :
    ∃ reason o', onBlock block o = .error (.corruptOperation reason) o' ∧
      Spared (.data block) o o' := by
  obtain ⟨reason, hInvalid⟩ := Operation.exists_validateAll_eq_error hRejects
  obtain ⟨o', hPurge⟩ := purge_ok { o with caughtUp := true }
  obtain ⟨hFields, hQuiet⟩ := purge_of_ok hPurge
  have hRecord : retrying (OperationLog.record block.number block.operations) o' =
      .error (.corruptOperation reason) o' := by
    rw [retrying_eq_onLog (OperationLog.lasting_record _ _)]
    exact Action.within_eq_of_error (OperationLog.record_eq_of_invalid hInvalid block.number)
  refine ⟨reason, o', ?_, hQuiet, ?_, fun number hAbove => undo_of_purge hPurge hAbove, nofun⟩
  · rw [onBlock_eq_of_not_skips hNew]
    exact (Action.bind_eq_of_ok hPurge _).trans (Action.bind_eq_of_error hRecord _)
  · rw [hFields]

theorem onFork_rejects {fork : Fork} (hNew : ¬ o.Skips (.undo fork))
    (hRejects : o.log.store.current.Rejects (.undo fork)) :
    ∃ reason, onFork fork o = .error (.corruptOperation reason) o := by
  obtain ⟨reason, hRead⟩ := UndoLog.exists_readAbove_eq_error hRejects
  have hReplay : OperationLog.replay fork.lastValidBlock o.log =
      .error (.corruptOperation reason) o.log := by
    rw [OperationLog.replay_eq, hRead]
  have hRetrying : retrying (OperationLog.replay fork.lastValidBlock) o =
      .error (.corruptOperation reason) o := by
    rw [retrying_eq_onLog (OperationLog.lasting_replay _)]
    exact Action.within_eq_of_error hReplay
  refine ⟨reason, ?_⟩
  rw [onFork_eq_of_not_skips hNew]
  exact Action.bind_eq_of_error hRetrying _

theorem handle_rejects (hNew : ¬ o.Skips event) (hRejects : o.log.store.current.Rejects event) :
    ∃ reason o', handle event o = .error (.corruptOperation reason) o' ∧ Spared event o o' := by
  cases event with
  | data block => exact onBlock_rejects hNew hRejects
  | undo fork =>
    obtain ⟨reason, hFork⟩ := onFork_rejects hNew hRejects
    exact ⟨reason, o, hFork, ⟨rfl, rfl, rfl, .refl _⟩, rfl, fun _ _ => rfl, fun _ _ => rfl⟩

end

section

variable {σ : Type} [Store σ] {R : σ → Checkpointed → Prop} {f g : Follower σ}
  {o : Follower Checkpointed} {event : Event}

/-- An event that is rejected leaves no trace. It fails and changes neither what is pending nor user
records nor cursor nor what is durable, and it takes no undo record but such as are deleted with any
block. A run that it stops leaves the user records and the cursor that a run over only the events
before it leaves, and what of them is durable is the same too. -/
theorem rejected_event_leaves_no_trace (h : Store.Simulation R) (hf : Alike R f o)
    (hNew : ¬ f.Skips event) (hRejects : o.log.store.current.Rejects event) :
    ∃ reason f' o', handle event f = .error (.corruptOperation reason) f' ∧ Alike R f' o' ∧
      Spared event o o' ∧
      ∃ f₁ f₂ o₁ o₂, Alike R f₁ o₁ ∧ Alike R f₂ o₂ ∧ o₁.log.store.Accords o₂.log.store ∧
        FindsSame f₁ f₂ ∧
        ∀ front rest f₀ taken, consume front 0 f₀ = (⟨.ok (), taken⟩, f) →
          f.stopRequested = false →
            run front f₀ = (⟨shutdown.outcome f, taken⟩, f₁) ∧
              run (front ++ ⟨.ok event, false⟩ :: rest) f₀ =
                (⟨.error (.corruptOperation reason), taken + 1⟩, f₂) := by
  obtain ⟨reason, o', hHandle', hSpared⟩ :=
    handle_rejects (mt (hf.skips_iff event).mpr hNew) hRejects
  obtain ⟨f', hHandle, hf'⟩ := (simulates_handle h event).exists_of_error hf hHandle'
  have hFirst := (simulates_shutdown h).leave hf
  have hSecond := (simulates_shutdown h).leave hf'
  have hEnds := endsAlike_shutdown.leave hSpared.endsAlike
  refine ⟨reason, f', o', hHandle, hf', hSpared, shutdown.leave f, shutdown.leave f',
    shutdown.leave o, shutdown.leave o', hFirst, hSecond, hEnds.log.store,
    (hFirst.findsSame_iff h hSecond).mpr hEnds.findsSame, ?_⟩
  intro front rest f₀ taken hFront hGoing
  have hLonger : consume (front ++ ⟨.ok event, false⟩ :: rest) 0 f₀ =
      (⟨.error (.corruptOperation reason), taken + 1⟩, f') := by
    have hHandleIn : handleIn sorted event f = .error (.corruptOperation reason) f' := hHandle
    rw [consume, consumeIn_append hFront hGoing, consumeIn]
    simp [hGoing, hHandleIn]
  exact ⟨runIn_eq_of_flushes hFront rfl, runIn_eq_of_flushes hLonger rfl⟩

end

/-- Of three undo records the highest cannot be read, and the lowest is of a block that is final. -/
def garbled : Checkpointed :=
  .ofContents (.ofEntries [(Key.user "a", [0x30]), (Key.undo 3, Operation.encodeBatch []),
    (Key.undo 5, Operation.encodeBatch [.remove "a"]), (Key.undo 6, [0xFF])])

def finalBlock : Arrival :=
  ⟨.ok (.data ⟨4, 4, [.assign "a" [0x31], .assign "b" [0x32]], .blank 4⟩), false⟩

def invalidBlock : Event :=
  .data ⟨7, 4, [.assign "a" [0x33], ⟨⟨.unset, []⟩, "c"⟩, .remove "b"], .blank 7⟩

/-- A final block is pending when the events come. -/
def afterFinal (events : List Event) : RunResult × Follower Checkpointed :=
  run (finalBlock :: events.map fun event => ⟨.ok event, false⟩) (ofLog (.ofStore garbled) {})

/-- The block deletes undo records before it is rejected, and the fork meets the one that cannot be
read. After either the operations of the final block are flushed, and nothing else. -/
theorem rejected_event_leaves_no_trace_garbled :
    (∃ reason, (afterFinal [invalidBlock]).1 = ⟨.error (.corruptOperation reason), 2⟩) ∧
      (∃ reason, (afterFinal [.undo ⟨4, .blank 4⟩]).1 = ⟨.error (.corruptOperation reason), 2⟩) ∧
      FindsSame (afterFinal []).2 (afterFinal [invalidBlock]).2 ∧
      FindsSame (afterFinal []).2 (afterFinal [.undo ⟨4, .blank 4⟩]).2 ∧
      (afterFinal [invalidBlock]).2.log.store.current.entries.map Prod.fst =
        [Key.user "a", Key.user "b", Key.cursor, Key.undo 6, Key.undo 5] ∧
      (afterFinal [.undo ⟨4, .blank 4⟩]).2.log.store.current.entries.map Prod.fst =
        [Key.user "a", Key.user "b", Key.cursor, Key.undo 6, Key.undo 5, Key.undo 4,
          Key.undo 3] := by
  obtain ⟨f, hFront⟩ : ∃ f, consume [finalBlock] 0 (ofLog (.ofStore garbled) {}) =
      (⟨.ok (), 1⟩, f) := ⟨_, eq_of_result (by decide +kernel) (by decide +kernel)⟩
  obtain ⟨hCaughtUp, hGoing, hRecord⟩ : f.caughtUp = true ∧ f.stopRequested = false ∧
      f.log.store.current[Key.undo 6]? = some [0xFF] := by
    have hLeft : f = (consume [finalBlock] 0 (ofLog (.ofStore garbled) {})).2 := by rw [hFront]
    rw [hLeft]
    decide +kernel
  have hEnds (event : Event) (hRejects : f.log.store.current.Rejects event) :
      (∃ reason, (afterFinal [event]).1 = ⟨.error (.corruptOperation reason), 2⟩) ∧
        FindsSame (afterFinal []).2 (afterFinal [event]).2 := by
    have hNew : ¬ f.Skips event := by
      cases event <;> exact fun hSkips => Bool.false_ne_true (hSkips.1.symm.trans hCaughtUp)
    have hAlike : Alike Eq f f := ⟨⟨rfl, rfl, rfl⟩, rfl, rfl, rfl, rfl, rfl, rfl, rfl⟩
    obtain ⟨reason, _, _, -, -, -, f₁, f₂, _, _, -, -, -, hSame, hRuns⟩ :=
      rejected_event_leaves_no_trace Store.Simulation.refl hAlike hNew hRejects
    obtain ⟨hShorter, hLonger⟩ := hRuns [finalBlock] [] _ 1 hFront hGoing
    have hBefore : afterFinal [] = _ := hShorter
    have hAfter : afterFinal [event] = _ := hLonger
    rw [hBefore, hAfter]
    exact ⟨⟨reason, rfl⟩, hSame⟩
  obtain ⟨hBlock, hSameBlock⟩ :=
    hEnds invalidBlock ⟨⟨⟨.unset, []⟩, "c"⟩, by decide, rfl⟩
  obtain ⟨hFork, hSameFork⟩ := hEnds (.undo ⟨4, .blank 4⟩)
    (Contents.rejects_fork (by decide : (4 : UInt64) < 6) hRecord rfl)
  exact ⟨hBlock, hFork, hSameBlock, hSameFork, by decide +kernel, by decide +kernel⟩

end Follower

end ForkLog
