import Mathlib
import ForkLog.Proofs.Follower.Faltering
import ForkLog.Proofs.Follower.Retry
import ForkLog.Proofs.OperationLog.Convergence

/-! # Forks that fail and come again

Taking blocks back fails before its operations are pending, in the middle of writing them, or when
they are written and the undo records are still there. These records are read again when the fork
comes again, and the same operations on top of themselves change nothing.
-/

namespace ForkLog

set_option autoImplicit false

open Operation (latest?)

namespace PendingSet

variable {pending : PendingSet}

theorem getElem?_addAll (pending : PendingSet) (ops : List Operation) (key : String) :
    (pending.addAll ops)[key]? = ((latest? ops key).map Operation.toChange).or pending[key]? := by
  induction ops using List.reverseRecOn with
  | nil => rfl
  | append_singleton ops last ih =>
    have hLast : pending.addAll (ops ++ [last]) = (pending.addAll ops).add last :=
      List.foldl_concat _ _ _ _
    rw [hLast, getElem?_add, ih, Operation.latest?_concat]
    split <;> rfl

theorem addAll_addAll (pending : PendingSet) (ops : List Operation) :
    (pending.addAll ops).addAll ops = pending.addAll ops := by
  apply Std.ExtTreeMap.ext_getElem?
  intro key
  simp only [getElem?_addAll]
  cases latest? ops key <;> rfl

theorem getElem?_addAll_of_empty {ops : List Operation} {key : String} {change : Change}
    (h : ((∅ : PendingSet).addAll ops)[key]? = some change) :
    (pending.addAll ops)[key]? = some change := by
  rw [getElem?_addAll, Std.ExtTreeMap.getElem?_empty, Option.or_none] at h
  rw [getElem?_addAll, h]
  rfl

end PendingSet

/-- What stands in a range depends on nothing outside of it. -/
theorem Contents.between_congr {contents other : Contents} {start stop : Bytes}
    (h : ∀ key, start ≤ key → other[key]? = contents[key]?) :
    other.between start stop = contents.between start stop := by
  have hNodup (contents : Contents) : (contents.between start stop).Nodup := by
    refine (contents.pairwise_between start stop).imp ?_
    rintro a _ hLess rfl
    exact List.lt_irrefl _ hLess
  have hPerm : (other.between start stop).Perm (contents.between start stop) := by
    rw [List.perm_ext_iff_of_nodup (hNodup other) (hNodup contents)]
    rintro ⟨key, value⟩
    rw [mem_between_iff, mem_between_iff]
    refine and_congr_left fun hRange => ?_
    rw [h key hRange.1]
  refine hPerm.eq_of_pairwise ?_ (other.pairwise_between start stop)
    (contents.pairwise_between start stop)
  intro a b _ _ hLess hGreater
  exact absurd (List.lt_trans hLess hGreater) (List.lt_irrefl _)

/-- The batches that take back the blocks above a height, as these contents have them. -/
def UndoLog.readAbove (contents : Contents) (height : UInt64) :
    Except Error (List (List Operation)) :=
  (contents.between (Key.undo Key.lastBlock) (Key.undo height)).mapM
    fun e : Entry => Operation.decodeBatch e.2

theorem UndoLog.readAbove_congr {contents other : Contents} (height : UInt64)
    (h : ∀ key, Key.undo Key.lastBlock ≤ key → other[key]? = contents[key]?) :
    readAbove other height = readAbove contents height := by
  rw [readAbove, Contents.between_congr h, readAbove]

theorem UndoLog.exists_flatten_eq (contents : Contents) (height : UInt64) :
    ∃ ops, ∀ batches, readAbove contents height = .ok batches → batches.flatten = ops := by
  cases readAbove contents height with
  | ok batches => exact ⟨batches.flatten, fun _ hOk => by cases hOk; rfl⟩
  | error e => exact ⟨[], nofun⟩

theorem UndoLog.batchesAbove_eq_readAbove (s : Checkpointed) (height : UInt64) :
    batchesAbove height s = Action.ofExcept (readAbove s.current height) s := rfl

namespace OperationLog

/-- Writing some of the same operations again changes nothing. -/
theorem writtenContents_again {ops again : List Operation} (contents : Contents) (cursor : Cursor)
    (hDistinct : Distinct ops) (hKinds : ∀ op ∈ ops, op.kind ≠ .unset)
    (hAgain : ∀ op ∈ again, op ∈ ops) :
    writtenContents (writtenContents contents ops cursor) again cursor =
      writtenContents contents ops cursor := by
  have hDistinctAgain : Distinct again := fun op hOp other hOther =>
    hDistinct op (hAgain op hOp) other (hAgain other hOther)
  apply Std.ExtTreeMap.ext_getElem?
  intro key
  by_cases hCursor : Key.cursor = key
  · rw [← hCursor, getElem?_writtenContents_cursor, getElem?_writtenContents_cursor]
  by_cases hUser : ∃ op ∈ again, Key.user op.key = key
  · obtain ⟨op, hOp, rfl⟩ := hUser
    have hMem := hAgain op hOp
    rw [written_of_mem hDistinctAgain hOp (hKinds op hMem),
      written_of_mem hDistinct hMem (hKinds op hMem)]
  · exact getElem?_writtenContents_of_not_mem (fun op hOp hKey => hUser ⟨op, hOp, hKey⟩) hCursor

/-- The log when operations that take blocks back were added. -/
def rewinding {σ : Type} (log : OperationLog σ) (ops : List Operation) : OperationLog σ :=
  { log with pending := log.pending.addAll ops }

theorem rewinding_rewinding {σ : Type} (log : OperationLog σ) (ops : List Operation) :
    (log.rewinding ops).rewinding ops = log.rewinding ops := by
  simp only [rewinding, PendingSet.addAll_addAll]

theorem replay_eq (log : OperationLog Checkpointed) (height : UInt64) :
    replay height log =
      match UndoLog.readAbove log.store.current height with
      | .ok batches => .ok batches.length (log.rewinding batches.flatten)
      | .error e => .error e log := by
  simp only [replay, onStore, Action.within, bind, EStateM.bind, UndoLog.batchesAbove_eq_readAbove]
  cases UndoLog.readAbove log.store.current height <;> rfl

/-- The logs, on a store that never fails, that are as good as `log` for a fork: that in which its
operations are pending, and the one in which they are written and pending once more. -/
inductive Station (log : OperationLog Checkpointed) (ops : List Operation) (cursor : Cursor) :
    OperationLog Checkpointed → Prop
  | begun : Station log ops cursor (log.rewinding ops)
  | flushed {count : Nat} {final : OperationLog Checkpointed}
      (hFlush : flush cursor (log.rewinding ops) = .ok count final) :
      Station log ops cursor (final.rewinding ops)

theorem getElem?_flushed_of_undo (log : OperationLog Checkpointed) (cursor : Cursor) {key : Bytes}
    (hKey : Key.undo Key.lastBlock ≤ key) :
    (log.flushed cursor).store.current[key]? = log.store.current[key]? := by
  rw [flushed]
  split
  case isTrue => rfl
  case isFalse => exact getElem?_writtenContents_of_undo _ _ cursor hKey

/-- Flushing what is written already changes nothing but that it is no longer pending. -/
theorem flush_of_written {written : Contents} {pending : PendingSet} {cursor : Cursor}
    (hValid : pending.Valid) (hSame : writtenContents written pending.operations cursor = written) :
    ∃ count, flush cursor
        (⟨.ofContents written, pending, some cursor⟩ : OperationLog Checkpointed) =
      .ok count ⟨.ofContents written, ∅, some cursor⟩ := by
  by_cases hNone : pending = ∅
  · subst hNone
    exact ⟨0, flush_eq_of_idle rfl rfl⟩
  · have hFinal : (⟨.ofContents (writtenContents written pending.operations cursor), ∅,
        some cursor⟩ : OperationLog Checkpointed) = ⟨.ofContents written, ∅, some cursor⟩ := by
      rw [hSame]
    exact ⟨_, (flush_eq_of_busy hValid fun hIdle => hNone hIdle.1).trans (congrArg _ hFinal)⟩

/-- When its operations are written, a fork that adds them once more writes the same. -/
theorem flush_rewinding_of_flush {log final : OperationLog Checkpointed} {ops : List Operation}
    {cursor : Cursor} {count : Nat} (h : flush cursor (log.rewinding ops) = .ok count final) :
    ∃ again, flush cursor (final.rewinding ops) = .ok again final := by
  have hValid := valid_of_flush h
  obtain rfl := flush_of_ok h
  by_cases hIdle : (log.rewinding ops).pending = ∅ ∧ (log.rewinding ops).lastCursor = some cursor
  · rw [flushed_of_idle hIdle.1 hIdle.2, rewinding_rewinding]
    exact ⟨0, flush_eq_of_idle hIdle.1 hIdle.2⟩
  · have hKinds : ∀ op ∈ (log.rewinding ops).pending.operations, op.kind ≠ .unset := fun op hOp =>
      hValid op.key op.toChange (mem_operations_iff.mp hOp)
    have hAgain : ∀ op ∈ ((∅ : PendingSet).addAll ops).operations,
        op ∈ (log.rewinding ops).pending.operations := fun op hOp =>
      mem_operations_iff.mpr (PendingSet.getElem?_addAll_of_empty (mem_operations_iff.mp hOp))
    have hAgainValid : ((∅ : PendingSet).addAll ops).Valid := fun key change hChange =>
      hValid key change (PendingSet.getElem?_addAll_of_empty hChange)
    rw [flushed_of_busy hIdle]
    exact flush_of_written hAgainValid
      (writtenContents_again log.store.current cursor (distinct_operations _) hKinds hAgain)

namespace Station

variable {log r : OperationLog Checkpointed} {ops : List Operation} {cursor : Cursor}

theorem rewinding_eq (h : Station log ops cursor r) : r.rewinding ops = r := by
  cases h with
  | begun => exact rewinding_rewinding log ops
  | flushed _ => exact rewinding_rewinding _ ops

/-- Where undo records stand nothing has changed. -/
theorem readAbove_eq (h : Station log ops cursor r) (height : UInt64) :
    UndoLog.readAbove r.store.current height = UndoLog.readAbove log.store.current height := by
  cases h with
  | begun => rfl
  | @flushed _ final hFlush =>
    obtain rfl := OperationLog.flush_of_ok hFlush
    exact UndoLog.readAbove_congr height fun key hKey =>
      getElem?_flushed_of_undo (log.rewinding ops) cursor hKey

/-- A flush leads from any of these logs to what it leads to from the first one. -/
theorem flush_of_ok (h : Station log ops cursor r) {count : Nat} {final : OperationLog Checkpointed}
    (hFlush : flush cursor r = .ok count final) :
    ∃ first, flush cursor (log.rewinding ops) = .ok first final := by
  cases h with
  | begun => exact ⟨count, hFlush⟩
  | @flushed first reached hFirst =>
    obtain ⟨again, hAgain⟩ := flush_rewinding_of_flush hFirst
    rw [hAgain] at hFlush
    cases hFlush
    exact ⟨first, hFirst⟩

theorem flush_of_error (h : Station log ops cursor r) {e : Error}
    {failed : OperationLog Checkpointed} (hFails : flush cursor r = .error e failed) :
    flush cursor (log.rewinding ops) = .error e failed := by
  cases h with
  | begun => exact hFails
  | flushed hFirst =>
    obtain ⟨again, hAgain⟩ := flush_rewinding_of_flush hFirst
    rw [hAgain] at hFails
    cases hFails

end Station

section

variable {σ : Type} [Store σ]

/-- The log is on the way of a fork from `start`, on a store with calls that fail: once the
operations of the fork are pending in it, it is partway from one of the stations. -/
def OnTheWay (R : σ → Checkpointed → Prop) (start : OperationLog Checkpointed)
    (ops : List Operation) (cursor : Cursor) (log : OperationLog σ) : Prop :=
  ∃ r, Station start ops cursor r ∧ Partway R cursor (log.rewinding ops) r

variable {R : σ → Checkpointed → Prop} {errs : Error → Prop} {log : OperationLog σ}
  {start r : OperationLog Checkpointed} {ops : List Operation} {cursor : Cursor} {height : UInt64}

theorem Station.onTheWay (h : Station start ops cursor r) (hLog : Partway R cursor log r) :
    OnTheWay R start ops cursor log := by
  have hAgain : Partway R cursor (log.rewinding ops) (r.rewinding ops) := hLog.add ops
  rw [h.rewinding_eq] at hAgain
  exact ⟨r, h, hAgain⟩

/-- What undo records hold is read as on a store that never fails, or a call failed. -/
theorem lands_batchesAbove (h : Store.Falters R errs) {contents saved : Contents} {store : σ}
    (hStore : R store ⟨contents, saved⟩) (height : UInt64) :
    Action.Lands (UndoLog.batchesAbove height)
      (fun batches s => UndoLog.readAbove contents height = .ok batches ∧ R s ⟨contents, saved⟩)
      (fun e s => (errs e ∨ UndoLog.readAbove contents height = .error e) ∧
        R s ⟨contents, saved⟩) store := by
  have hFalters := UndoLog.falters_batchesAbove h height store _ hStore
  rw [UndoLog.batchesAbove_eq_readAbove] at hFalters
  rw [Action.Lands]
  obtain hAgree | ⟨e, s, hFails, hError, hs⟩ := hFalters
  · generalize UndoLog.batchesAbove height store = result at hAgree
    simp only [] at hAgree
    cases hRead : UndoLog.readAbove contents height with
    | ok batches =>
      rw [hRead] at hAgree
      cases hAgree with
      | ok _ hs => exact ⟨rfl, hs⟩
    | error e =>
      rw [hRead] at hAgree
      cases hAgree with
      | error _ hs => exact ⟨.inr rfl, hs⟩
  · rw [hFails]
    exact ⟨.inl hError, hs⟩

theorem lands_replay (h : Store.Falters R errs) (hStation : Station start ops cursor r)
    (hOps : ∀ batches, UndoLog.readAbove start.store.current height = .ok batches →
      batches.flatten = ops)
    (hLog : Partway R cursor (log.rewinding ops) r) :
    Action.Lands (replay height)
      (fun _ log' => (∃ batches, UndoLog.readAbove start.store.current height = .ok batches) ∧
        Partway R cursor log' r)
      (fun e failed => Partway R cursor (failed.rewinding ops) r ∧
        (errs e ∨ UndoLog.readAbove start.store.current height = .error e)) log := by
  obtain ⟨contents, hStore, hWithin, hSame⟩ := hLog.store
  -- Changes that are partly written stand under user keys, and undo records do not.
  have hRead : UndoLog.readAbove contents height =
      UndoLog.readAbove start.store.current height :=
    (UndoLog.readAbove_congr height fun key hKey => hWithin key
      (fun text _ => Key.user_ne_of_undo_le hKey text) (Key.cursor_ne_of_undo_le hKey)).trans
        (hStation.readAbove_eq height)
  have hStored : R log.store ⟨contents, r.store.saved⟩ := hStore
  have hBatches := lands_batchesAbove h hStored height
  rw [hRead] at hBatches
  have hOnLog : Action.Lands (onStore (UndoLog.batchesAbove height))
      (fun batches log' => UndoLog.readAbove start.store.current height = .ok batches ∧
        ∃ store, log' = { log with store } ∧ R store ⟨contents, r.store.saved⟩)
      (fun e failed => Partway R cursor (failed.rewinding ops) r ∧
        (errs e ∨ UndoLog.readAbove start.store.current height = .error e)) log := by
    refine hBatches.within (fun batches store hOk => ⟨hOk.1, store, rfl, hOk.2⟩)
      fun e store hFailed => ⟨?_, hFailed.1⟩
    exact ⟨hLog.pending, hLog.lastCursor, contents, hFailed.2, hWithin, hSame⟩
  refine hOnLog.bind ?_
  rintro batches _ ⟨hOk, store, rfl, hs⟩
  obtain rfl := hOps batches hOk
  exact ⟨⟨batches, hOk⟩, hLog.pending, hLog.lastCursor, contents, hs, hWithin, hSame⟩

theorem lands_flushIn (h : Store.Falters R errs) (order : PendingSet.Order)
    (hLog : Partway R cursor log r) :
    Action.Lands (flushIn order cursor)
      (fun _ final => ∃ count reference, flush cursor r = .ok count reference ∧
        Alike R final reference)
      (fun e failed => Partway R cursor failed r ∧
        (errs e ∨ ∃ refusal, flush cursor r = .error refusal r)) log := by
  have hListing : (order.list log.pending).Perm r.pending.operations :=
    hLog.pending ▸ order.perm log.pending
  have hFlush : Action.Lands (flushListed (order.list log.pending) cursor) _ _ log :=
    hLog.lands h hListing
  refine hFlush.imp ?_ ?_
  · rintro count final ⟨-, hReference⟩
    obtain ⟨reference, hOk, hAlike⟩ := hReference r.pending.operations (.refl _)
    exact ⟨count, reference, hOk, hAlike⟩
  · rintro e failed ⟨hPart, hError | ⟨op, hOp, hKind, -⟩⟩
    · exact ⟨hPart, .inl hError⟩
    · refine ⟨hPart, .inr ?_⟩
      cases hCheck : Operation.validateAll r.pending.operations with
      | error refusal => exact ⟨refusal, flush_eq_of_invalid hCheck⟩
      | ok _ =>
        have hKinds := (Operation.validateAll_eq_ok_iff _).mp hCheck
        exact absurd hKind (hKinds op (hListing.mem_iff.mp hOp))

theorem lands_discardAbove (h : Store.Falters R errs) {final : OperationLog Checkpointed}
    (hLog : Alike R log final) (height : UInt64) :
    Action.Lands (discardAbove height) (fun _ log' => Alike R log' (final.discarded height))
      (fun e failed => errs e ∧ Alike R failed final) log := by
  have hDiscard := onStore_eq_ok
    (UndoLog.discardAbove_eq final.store.current final.store.saved height)
  exact ((falters_onStore (UndoLog.falters_discardAbove h height)).lands_of_ok hLog hDiscard).imp
    (fun _ _ hOk => hOk.2) fun _ _ => id

end

end OperationLog

namespace Follower

section

variable {σ : Type} [Store σ]

/-- Attempts of one fork that failed, each of which wrote in orders of its own. -/
inductive FailedForks (fork : Fork) (f : Follower σ) : Follower σ → Prop
  | none : FailedForks fork f f
  | fail {now failed : Follower σ} {orders : Nat → PendingSet.Order} {e : Error}
      (h : FailedForks fork f now) (hFails : onForkIn orders fork now = .error e failed) :
      FailedForks fork f failed

end

section

variable {σ α : Type} {f g : Follower σ} {P : OperationLog σ → Prop}
  {ok : α → OperationLog σ → Prop} {failed : Error → OperationLog σ → Prop}

/-- The follower is as `f` but for its statistics and its log, of which `P` holds. -/
def Along (f : Follower σ) (P : OperationLog σ → Prop) (g : Follower σ) : Prop :=
  ∃ log stats, g = { f with log, stats } ∧ P log

theorem Along.imp {Q : OperationLog σ → Prop} (h : Along f P g) (hImp : ∀ log, P log → Q log) :
    Along f Q g := by
  obtain ⟨log, stats, hFields, hLog⟩ := h
  exact ⟨log, stats, hFields, hImp log hLog⟩

theorem Along.skips_iff (h : Along f P g) (event : Event) :
    g.Skips event ↔ f.Skips event := by
  obtain ⟨log, stats, rfl, -⟩ := h
  cases event <;> rfl

theorem lands_onLog {step : Action (OperationLog σ) α}
    (h : ∀ log, P log → step.Lands ok failed log) (hg : Along f P g) :
    (onLog step).Lands (fun a => Along f (ok a)) (fun e => Along f (failed e)) g := by
  obtain ⟨log, stats, rfl, hLog⟩ := hg
  exact (h log hLog).within (fun a log' hOk => ⟨log', stats, rfl, hOk⟩)
    fun e log' hFailed => ⟨log', stats, rfl, hFailed⟩

/-- A step that is made again wherever it failed. -/
theorem lands_retrying {step : Action (OperationLog σ) α}
    (h : ∀ log, P log → step.Lands ok failed log) (hAgain : ∀ e log, failed e log → P log)
    (hg : Along f P g) :
    (retrying step).Lands (fun a => Along f (ok a)) (fun e => Along f (failed e)) g :=
  Action.Lands.retrying (fun _ hg => lands_onLog h hg) (fun e _ hFailed => hFailed.imp (hAgain e))
    g.config.maxRetries hg

end

section

variable {σ : Type} {R : σ → Checkpointed → Prop} {f g : Follower σ} {o o' : Follower Checkpointed}
  {fork : Fork} {start : OperationLog Checkpointed} {ops : List Operation}

/-- The undo records cannot be read, or what would be pending cannot be written. -/
def Refused (start : OperationLog Checkpointed) (ops : List Operation) (fork : Fork) : Prop :=
  (∃ e, UndoLog.readAbove start.store.current fork.lastValidBlock = .error e) ∨
    ∃ e failed, OperationLog.flush fork.cursor (start.rewinding ops) = .error e failed

/-- What handling the fork leaves, when its operations are written and the undo records are gone. -/
def Arrived (R : σ → Checkpointed → Prop) (start : OperationLog Checkpointed)
    (ops : List Operation) (fork : Fork) (f g : Follower σ) : Prop :=
  ∃ count final log stats,
    OperationLog.flush fork.cursor (start.rewinding ops) = .ok count final ∧
      OperationLog.Alike R log (final.discarded fork.lastValidBlock) ∧
      g = { f with
        log
        stats
        resumeFrom := if f.caughtUp then f.resumeFrom else nextBlock fork.lastValidBlock
        caughtUp := true
        lastCursor := some fork.cursor }

/-- What a fork leaves depends on nothing but what it began from, statistics apart. -/
theorem Arrived.alike (h : Arrived R start ops fork f g)
    (h' : Arrived Eq start ops fork o o') (hf : Alike R f o) :
    Alike R { g with stats := o'.stats } o' := by
  obtain ⟨count, final, log, stats, hFlush, hLog, rfl⟩ := h
  obtain ⟨count', final', log', stats', hFlush', hLog', rfl⟩ := h'
  rw [hFlush] at hFlush'
  cases hFlush'
  have hSame : OperationLog.Alike R log log' :=
    ⟨hLog'.store.symm ▸ hLog.store, hLog.pending.trans hLog'.pending.symm,
      hLog.lastCursor.trans hLog'.lastCursor.symm⟩
  exact { hf with
    log := hSame
    stats := rfl
    resumeFrom := by simp only [hf.caughtUp, hf.resumeFrom]
    caughtUp := rfl
    lastCursor := rfl }

end

section

variable {σ : Type} [Store σ] {R : σ → Checkpointed → Prop} {errs : Error → Prop}
  {f g : Follower σ} {fork : Fork} {start r : OperationLog Checkpointed} {ops : List Operation}

open OperationLog (Partway Station OnTheWay)

theorem lands_flushIn (h : Store.Falters R errs) (orders : Nat → PendingSet.Order) {cursor : Cursor}
    (hg : Along f (fun log => Partway R cursor log r) g) :
    (flushIn orders cursor).Lands
      (fun _ => Along f fun final => ∃ count reference,
        OperationLog.flush cursor r = .ok count reference ∧ OperationLog.Alike R final reference)
      (fun e => Along f fun failed => Partway R cursor failed r ∧
        (errs e ∨ ∃ refusal, OperationLog.flush cursor r = .error refusal r)) g := by
  refine Action.Lands.attempting (fun attempt g hg => ?_)
    (fun e g hFailed => hFailed.imp fun _ => And.left) g.config.maxRetries hg
  refine (lands_onLog (fun _ hLog => OperationLog.lands_flushIn h (orders attempt) hLog) hg).bind ?_
  rintro count _ ⟨log, stats, rfl, hFinal⟩
  exact ⟨log, stats.recordFlush count 0, rfl, hFinal⟩

/-- From anywhere on the way the fork arrives, or it fails and is still on the way. -/
theorem lands_takeBackIn (h : Store.Falters R errs) (orders : Nat → PendingSet.Order)
    (hOps : ∀ batches, UndoLog.readAbove start.store.current fork.lastValidBlock = .ok batches →
      batches.flatten = ops)
    (hg : Along f (OnTheWay R start ops fork.cursor) g) :
    (takeBackIn orders fork).Lands
      (fun _ g' => ¬ Refused start ops fork ∧ Arrived R start ops fork f g')
      (fun e g' => Along f (OnTheWay R start ops fork.cursor) g' ∧
        (errs e ∨ Refused start ops fork)) g := by
  obtain ⟨log, stats, rfl, r, hStation, hLog⟩ := hg
  have hBegun : Along f (fun log => Partway R fork.cursor (log.rewinding ops) r)
      { f with log, stats } := ⟨log, stats, rfl, hLog⟩
  have hReplay := lands_retrying (fun _ hLog => OperationLog.lands_replay h hStation hOps hLog)
    (fun _ _ => And.left) hBegun
  refine (hReplay.imp_failed fun e g' hFailed => ?_).bind fun _ g₁ hg₁ => ?_
  · obtain ⟨log', stats', rfl, hPart, hCause⟩ := hFailed
    exact ⟨⟨log', stats', rfl, r, hStation, hPart⟩, hCause.imp_right fun hRead => .inl ⟨e, hRead⟩⟩
  obtain ⟨log₁, stats₁, rfl, hRead, hLog₁⟩ := hg₁
  have hReplayed : Along f (fun log => Partway R fork.cursor log r)
      { f with log := log₁, stats := stats₁ } := ⟨log₁, stats₁, rfl, hLog₁⟩
  refine ((lands_flushIn h orders hReplayed).imp_failed fun e g' hFailed => ?_).bind
    fun _ g₂ hg₂ => ?_
  · obtain ⟨log', stats', rfl, hPart, hCause⟩ := hFailed
    refine ⟨⟨log', stats', rfl, hStation.onTheWay hPart⟩, hCause.imp_right ?_⟩
    rintro ⟨refusal, hRefused⟩
    exact .inr ⟨refusal, r, hStation.flush_of_error hRefused⟩
  obtain ⟨log₂, stats₂, rfl, _, reference, hFlush, hAlike⟩ := hg₂
  obtain ⟨count, hFirst⟩ := hStation.flush_of_ok hFlush
  have hFlushed : Along f (fun log => OperationLog.Alike R log reference)
      { f with log := log₂, stats := stats₂ } := ⟨log₂, stats₂, rfl, hAlike⟩
  have hDiscard := lands_retrying
    (fun _ hLog => OperationLog.lands_discardAbove h hLog fork.lastValidBlock)
    (fun _ _ => And.right) hFlushed
  refine (hDiscard.imp_failed fun e g' hFailed => ?_).bind fun _ g₃ hg₃ => ?_
  · obtain ⟨log', stats', rfl, hError, hAlike'⟩ := hFailed
    have hPart : Partway R fork.cursor (log'.rewinding ops) (reference.rewinding ops) :=
      (hAlike'.partway fork.cursor).add ops
    exact ⟨⟨log', stats', rfl, _, .flushed hFirst, hPart⟩, .inl hError⟩
  obtain ⟨log₃, stats₃, rfl, hAlike₃⟩ := hg₃
  refine ⟨?_, count, reference, log₃, _, hFirst, hAlike₃, rfl⟩
  obtain ⟨batches, hRead⟩ := hRead
  rintro (⟨e, hUnread⟩ | ⟨e, failed, hRefused⟩)
  · rw [hRead] at hUnread
    cases hUnread
  · rw [hFirst] at hRefused
    cases hRefused

/-- After any number of failed attempts the log is still on the way. -/
theorem FailedForks.along (h : Store.Falters R errs) (hStart : OperationLog.Alike R f.log start)
    (hApplies : ¬ f.Skips (.undo fork))
    (hOps : ∀ batches, UndoLog.readAbove start.store.current fork.lastValidBlock = .ok batches →
      batches.flatten = ops)
    (hAttempts : FailedForks fork f g) : Along f (OnTheWay R start ops fork.cursor) g := by
  induction hAttempts with
  | none =>
    have hPart : Partway R fork.cursor (f.log.rewinding ops) (start.rewinding ops) :=
      (hStart.partway fork.cursor).add ops
    exact ⟨f.log, f.stats, rfl, _, .begun, hPart⟩
  | @fail now failed orders e _ hFails ih =>
    have hLands := lands_takeBackIn h orders hOps ih
    rw [onForkIn_eq_of_not_skips orders (mt (ih.skips_iff _).mp hApplies)] at hFails
    rw [Action.Lands, hFails] at hLands
    exact hLands.1

theorem FailedForks.eq_of_skips (hAttempts : FailedForks fork f g) (hSkips : f.Skips (.undo fork)) :
    g = f := by
  induction hAttempts with
  | none => rfl
  | fail _ hFails ih =>
    rw [ih, onForkIn_eq_of_passes _ hSkips.1 hSkips.2] at hFails
    cases hFails

variable {o : Follower Checkpointed}

/-- On a store that never fails the fork arrives unless it is refused. -/
theorem takeBack_lands (hOps : ∀ batches,
      UndoLog.readAbove o.log.store.current fork.lastValidBlock = .ok batches →
        batches.flatten = ops) :
    (takeBackIn sorted fork).Lands (fun _ o' => ¬ Refused o.log ops fork ∧ Arrived Eq o.log ops fork o o')
      (fun _ _ => Refused o.log ops fork) o := by
  have hFalters : Store.Falters (Eq : Checkpointed → Checkpointed → Prop) fun _ => False :=
    Store.Simulation.refl.falters _
  have hPart : Partway Eq fork.cursor (o.log.rewinding ops) (o.log.rewinding ops) :=
    OperationLog.Alike.partway ⟨rfl, rfl, rfl⟩ fork.cursor
  have hLands := lands_takeBackIn hFalters sorted hOps
    (⟨o.log, o.stats, rfl, _, .begun, hPart⟩ : Along o (OnTheWay Eq o.log ops fork.cursor) o)
  exact hLands.imp_failed fun e o' hFailed => hFailed.2.resolve_left id

/-- Any number of attempts of a fork failed, each at any call of the store and having written in any
orders. The first one that succeeds, in whatever orders it writes, leaves what the fork would have
left had no call failed, statistics apart; and an attempt fails only because a call fails or because
the fork would fail anyway. -/
theorem failed_forks_converge (h : Store.Falters R errs) (hf : Alike R f o)
    (hAttempts : FailedForks fork f g) (orders : Nat → PendingSet.Order) :
    onForkIn sorted fork g = onFork fork g ∧
      (∀ e failed, onForkIn orders fork g = .error e failed →
        errs e ∨ ∃ refusal o', onFork fork o = .error refusal o') ∧
      ∀ g', onForkIn orders fork g = .ok () g' →
        ∃ o', onFork fork o = .ok () o' ∧ Alike R { g' with stats := o'.stats } o' := by
  refine ⟨rfl, ?_⟩
  by_cases hSkips : f.Skips (.undo fork)
  · have hOther := (hf.skips_iff _).mp hSkips
    rw [hAttempts.eq_of_skips hSkips, onForkIn_eq_of_passes orders hSkips.1 hSkips.2]
    constructor
    · intro e failed hFails
      cases hFails
    · intro g' hOk
      cases hOk
      exact ⟨o, onFork_eq_of_passes hOther.1 hOther.2, { hf with stats := rfl }⟩
  obtain ⟨ops, hOps⟩ := UndoLog.exists_flatten_eq o.log.store.current fork.lastValidBlock
  have hAlong := hAttempts.along h hf.log hSkips hOps
  have hLands := lands_takeBackIn h orders hOps hAlong
  have hReference := takeBack_lands hOps
  rw [onForkIn_eq_of_not_skips orders (mt (hAlong.skips_iff _).mp hSkips),
    onFork_eq_of_not_skips (mt (hf.skips_iff _).mpr hSkips)]
  rw [Action.Lands] at hReference
  cases hRun : takeBackIn sorted fork o with
  | error refusal o' =>
    rw [hRun] at hReference
    refine ⟨fun _ _ _ => .inr ⟨refusal, o', rfl⟩, fun g' hOk => ?_⟩
    rw [Action.Lands, hOk] at hLands
    exact absurd hReference hLands.1
  | ok _ o' =>
    rw [hRun] at hReference
    refine ⟨fun e failed hFails => .inl ?_, fun g' hOk => ⟨o', rfl, ?_⟩⟩
    · rw [Action.Lands, hFails] at hLands
      exact hLands.2.resolve_right hReference.1
    · rw [Action.Lands, hOk] at hLands
      exact hLands.2.alike hReference.2 hf

end

theorem alike_onContents {f : Follower (Faulty Contents)} (errs : Error → Prop)
    (hFaults : ∀ fault ∈ f.log.store.faults, errs fault.error) :
    Alike (fun s (t : Checkpointed) => Faulty.Above (σ := Contents) Eq errs s t.current)
      f (f.onContents f.log.store.inner) :=
  ⟨⟨⟨rfl, hFaults⟩, rfl, rfl⟩, rfl, rfl, rfl, rfl, rfl, rfl, rfl⟩

/-- A block on two keys is to be taken back, and a change of a third key is pending. The store fails
in the middle of the first flush, at the end of the second one and when the undo record is
deleted. -/
def beset : Follower (Faulty Contents) :=
  { ofLog ⟨{
      inner := .ofEntries [(Key.user "a", [0x31]), (Key.user "b", [0x32]),
        (Key.undo 5, Operation.encodeBatch [.assign "a" [0x30], .remove "b"])]
      faults := [⟨.deleteMany, none, 0, 1, .store "disk full"⟩,
        ⟨.sync, none, 0, 1, .store "disk full"⟩, ⟨.deleteMany, none, 2, 1, .store "disk full"⟩]
      counts := .zero }, (∅ : PendingSet).addAll [.assign "c" [0x33]], some (.blank 5)⟩ {} with
    caughtUp := true }

def besetOnce : Follower (Faulty Contents) :=
  (onForkIn (fun _ => .reversed) ⟨4, .blank 4⟩).leave beset

def besetTwice : Follower (Faulty Contents) := (onForkIn sorted ⟨4, .blank 4⟩).leave besetOnce

def besetThrice : Follower (Faulty Contents) :=
  (onForkIn (fun _ => .reversed) ⟨4, .blank 4⟩).leave besetTwice

theorem failedForks_besetThrice : FailedForks ⟨4, .blank 4⟩ beset besetThrice := by
  have hFirst : (onForkIn (fun _ => .reversed) ⟨4, .blank 4⟩).outcome beset =
      .error (.store "disk full") := by decide +kernel
  have hSecond : (onForkIn sorted ⟨4, .blank 4⟩).outcome besetOnce =
      .error (.store "disk full") := by decide +kernel
  have hThird : (onForkIn (fun _ => .reversed) ⟨4, .blank 4⟩).outcome besetTwice =
      .error (.store "disk full") := by decide +kernel
  have hOnce : FailedForks ⟨4, .blank 4⟩ beset besetOnce :=
    .fail .none (Action.eq_error_of_outcome hFirst)
  have hTwice : FailedForks ⟨4, .blank 4⟩ beset besetTwice :=
    .fail hOnce (Action.eq_error_of_outcome hSecond)
  exact .fail hTwice (Action.eq_error_of_outcome hThird)

/-- When the third attempt has failed all is written, and the undo record is still there. -/
theorem failed_forks_converge_beset :
    besetThrice.log.store.inner.entries.map Prod.fst =
        [Key.user "a", Key.user "c", Key.cursor, Key.undo 5] ∧
      ∃ g' o', onFork ⟨4, .blank 4⟩ besetThrice = .ok () g' ∧
        onFork ⟨4, .blank 4⟩ (beset.onContents beset.log.store.inner) = .ok () o' ∧
        g'.log.store.inner = o'.log.store.current ∧ g'.log.pending = o'.log.pending ∧
        g'.resumeFrom = o'.resumeFrom := by
  have hAlike := alike_onContents (f := beset) (fun e => e.isStoreFailure = true) (by decide)
  have hOk : (onFork ⟨4, .blank 4⟩).outcome besetThrice = .ok () := by decide +kernel
  obtain ⟨g', hRun⟩ := Action.exists_of_outcome_eq_ok hOk
  obtain ⟨hSame, -, hConverges⟩ :=
    failed_forks_converge (Faulty.falters Store.simulation_contents).checkpointed hAlike
      failedForks_besetThrice sorted
  obtain ⟨o', hReference, hEnd⟩ := hConverges g' (hSame.trans hRun)
  exact ⟨by decide +kernel, g', o', hRun, hReference, hEnd.log.store.1, hEnd.log.pending,
    hEnd.resumeFrom⟩

end Follower

end ForkLog
