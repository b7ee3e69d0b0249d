import Mathlib
import ForkLog.Proofs.OperationLog.KeySpace
import ForkLog.Proofs.Store.Faulty

/-! # The cursor that is found

The last call of a flush makes durable what the others have written, the cursor with it, and only
then the log remembers the cursor. Where this call fails the new cursor is found although the flush
has failed. A flush to the cursor that is still remembered may then be passed over, and the other
one stays.
-/

namespace ForkLog

set_option autoImplicit false

namespace OperationLog

section

variable {σ : Type} [Store σ]

/-- All calls of a flush but the last one. -/
def writeUnsynced (ops : List Operation) (cursor : Cursor) : Action σ Nat := do
  Action.ofExcept (Operation.validateAll ops)
  putAll (assignments ops)
  let keys := (removals ops).map fun op => Key.user op.key
  if !keys.isEmpty then
    Store.deleteMany keys
  Store.put Key.cursor cursor.encode
  return (assignments ops).length + keys.length

theorem writeOut_eq_writeUnsynced (ops : List Operation) (cursor : Cursor) :
    (writeOut ops cursor : Action σ Nat) = (do
      let count ← writeUnsynced ops cursor
      Store.sync
      return count) := by
  simp only [writeOut, writeUnsynced, putCursor, bind_assoc]
  split <;> simp only [bind_assoc, pure_bind]

/-- The cursor that a flush puts, whatever becomes of its last call. -/
def flushPuts? (listing : List Operation) (cursor : Cursor) (log : OperationLog σ) :
    Option Cursor :=
  if log.pending.isEmpty && log.lastCursor = some cursor then none
  else
    match writeUnsynced listing cursor log.store with
    | .ok _ _ => some cursor
    | .error _ _ => none

variable {listing : List Operation} {cursor : Cursor} {log : OperationLog σ}

theorem flushPuts?_of_busy (hBusy : ¬ (log.pending = ∅ ∧ log.lastCursor = some cursor)) :
    flushPuts? listing cursor log =
      match writeUnsynced listing cursor log.store with
      | .ok _ _ => some cursor
      | .error _ _ => none := by
  rw [flushPuts?, if_neg (by simpa using hBusy)]

theorem flushPuts?_of_idle (hPending : log.pending = ∅) (hCursor : log.lastCursor = some cursor) :
    flushPuts? listing cursor log = none := by
  rw [flushPuts?, if_pos (by simpa using ⟨hPending, hCursor⟩)]

theorem eq_of_flushPuts? {put : Cursor} (h : flushPuts? listing cursor log = some put) :
    put = cursor := by
  rw [flushPuts?] at h
  split at h
  · cases h
  · split at h
    · exact (Option.some.inj h).symm
    · cases h

theorem flushListed_eq_of_unsynced (hBusy : ¬ (log.pending = ∅ ∧ log.lastCursor = some cursor)) :
    flushListed listing cursor log =
      match writeUnsynced listing cursor log.store with
      | .error e store => .error e { log with store }
      | .ok count store =>
        match (Store.sync : Action σ Unit) store with
        | .error e store => .error e { log with store }
        | .ok _ store => .ok count ⟨store, ∅, some cursor⟩ := by
  rw [flushListed_eq_of_busy hBusy, writeOut_eq_writeUnsynced]
  simp only [onStore, Action.within, bind, EStateM.bind]
  cases writeUnsynced listing cursor log.store with
  | error e store => rfl
  | ok count store =>
    simp only []
    cases (Store.sync : Action σ Unit) store <;> rfl

end

/-- The text that stands under the key of the cursor. -/
def Finds {σ : Type} (R : σ → Checkpointed → Prop) (text : Option Bytes) (store : σ) : Prop :=
  ∃ s, R store s ∧ s.current[Key.cursor]? = text

/-- The text that is found after a cursor was put, if one was. -/
def found (put : Option Cursor) (text : Option Bytes) : Option Bytes :=
  (put.map Cursor.encode).or text

theorem found_or (put earlier : Option Cursor) (text : Option Bytes) :
    found (put.or earlier) text = found put (found earlier text) := by
  cases put <;> rfl

section

variable {σ : Type} [Store σ] {R : σ → Checkpointed → Prop} {errs : Error → Prop}
  {text : Option Bytes}

theorem overlooks_cursor (text : Option Bytes) :
    Checkpointed.Overlooks fun s => s.current[Key.cursor]? = text :=
  fun _ _ hAccords hs => hAccords.cursor_eq.trans hs

theorem meets_put_cursor (h : Store.Falters R errs) (cursor : Cursor) :
    Action.Meets (Finds R text) (Store.put Key.cursor cursor.encode)
      (fun _ => Finds R (some cursor.encode)) (Finds R text) := by
  refine (h.put Key.cursor cursor.encode).meets ?_
  intro s _
  exact (Contents.getElem?_insert s.current _ _ _).trans (if_pos rfl)

theorem keeps_sync_finds (h : Store.Falters R errs) : Action.Keeps (Finds R text) Store.sync :=
  h.sync.meets fun _ => id

theorem meets_writeUnsynced (h : Store.Falters R errs) (ops : List Operation) (cursor : Cursor) :
    Action.Meets (Finds R text) (writeUnsynced ops cursor)
      (fun _ => Finds R (some cursor.encode)) (Finds R text) := by
  have hAssign : Action.Keeps (Finds R text) (putAll (assignments ops)) := by
    refine keeps_putAll fun op _ => (h.put _ _).meets fun s hs => ?_
    exact (Contents.getElem?_insert s.current _ _ _).trans
      ((if_neg (Key.user_ne_cursor op.key)).trans hs)
  have hRemove : Action.Keeps (Finds R text)
      (Store.deleteMany ((removals ops).map fun op => Key.user op.key)) := by
    refine (h.deleteMany _).meets fun s hs => ?_
    exact (Contents.getElem?_eraseAll_of_not_mem fun op _ => Key.user_ne_cursor op.key).trans hs
  have hPut (count : Nat) : Action.Meets (Finds R text) (do
      Store.put Key.cursor cursor.encode
      return count) (fun _ => Finds R (some cursor.encode)) (Finds R text) :=
    (meets_put_cursor h cursor).bind fun _ => .pure fun _ => id
  refine .bind (.ofExcept (fun _ _ _ => id) fun _ => id) fun _ => ?_
  refine .bind hAssign fun _ => ?_
  simp only []
  split
  · exact .bind hRemove fun _ => hPut _
  · exact hPut _

variable {log : OperationLog σ}

/-- Whether a flush succeeds or fails, the cursor that it put is found, or the one from before. A
flush that succeeds has put its cursor, or it was passed over. -/
theorem lands_flushListed_finds (h : Store.Falters R errs) (hFinds : Finds R text log.store)
    (listing : List Operation) (cursor : Cursor) :
    Action.Lands (flushListed listing cursor)
      (fun _ final => Finds R (found (flushPuts? listing cursor log) text) final.store ∧
        final.pending = ∅ ∧ final.lastCursor = some cursor ∧
        (flushPuts? listing cursor log = some cursor ∨
          log.pending = ∅ ∧ log.lastCursor = some cursor))
      (fun _ failed => Finds R (found (flushPuts? listing cursor log) text) failed.store ∧
        failed.lastCursor = log.lastCursor) log := by
  by_cases hIdle : log.pending = ∅ ∧ log.lastCursor = some cursor
  · rw [Action.Lands, flushListed_eq_of_idle hIdle.1 hIdle.2, flushPuts?_of_idle hIdle.1 hIdle.2]
    exact ⟨hFinds, hIdle.1, hIdle.2, .inr hIdle⟩
  · rw [Action.Lands, flushListed_eq_of_unsynced hIdle, flushPuts?_of_busy hIdle]
    have hWrite := meets_writeUnsynced h listing cursor log.store hFinds
    cases hRun : writeUnsynced listing cursor log.store with
    | error e store =>
      rw [hRun] at hWrite
      exact ⟨hWrite, rfl⟩
    | ok count store =>
      rw [hRun] at hWrite
      have hSync := keeps_sync_finds h store hWrite
      simp only []
      generalize (Store.sync : Action σ Unit) store = result at hSync
      cases result with
      | error e store => exact ⟨hSync, rfl⟩
      | ok _ store => exact ⟨hSync, rfl, rfl, .inl trivial⟩

end

/-- The log on a store of which these faults are to come. -/
def facing {σ : Type} (faults : List Fault) (log : OperationLog (Faulty σ)) :
    OperationLog (Faulty σ) :=
  { log with store := { log.store with faults } }

section

variable {σ : Type} [Store σ] {R : σ → Contents → Prop} {log failed : OperationLog (Faulty σ)}
  {text : Option Bytes} {listing : List Operation} {cursor : Cursor}

/-- The store under the faults has these contents, and any errors may come of the faults. -/
def Under (R : σ → Contents → Prop) (store : Faulty σ) (s : Checkpointed) : Prop :=
  Faulty.Above R (fun _ => True) store s.current

theorem falters_under (hR : Store.Simulation R) : Store.Falters (Under R) fun _ => True :=
  (Faulty.falters hR).checkpointed

theorem outcome_getCursor_of_finds (hR : Store.Simulation R)
    (hFinds : Finds (Under R) text log.store) :
    getCursor.outcome (log.facing []) = reading text := by
  obtain ⟨s, hStore, hText⟩ := hFinds
  have hAlike : Alike (fun s (t : Checkpointed) => Faulty.Mended R s t.current) (log.facing [])
      ⟨s, log.pending, log.lastCursor⟩ := ⟨⟨rfl, hStore.1⟩, rfl, rfl⟩
  have hGet := simulates_getCursor (Faulty.simulation_mended hR).checkpointed
  rw [hGet.outcome_eq hAlike, outcome_getCursor, hText]

/-- After a flush that failed, in whatever order it wrote, the cursor reads as before if and only if
the flush failed before it had put its own, or its own reads the same. -/
theorem failed_flush_keeps_cursor_iff (hR : Store.Simulation R) {contents : Contents}
    (hStore : R log.store.inner contents) {e : Error}
    (hFails : flushListed listing cursor log = .error e failed) :
    getCursor.outcome (failed.facing []) = getCursor.outcome (log.facing []) ↔
      flushPuts? listing cursor log = none ∨
        getCursor.outcome (log.facing []) = Cursor.decode cursor.encode := by
  have hFinds : Finds (Under R) contents[Key.cursor]? log.store :=
    ⟨.ofContents contents, ⟨hStore, fun _ _ => trivial⟩, rfl⟩
  have hLands := lands_flushListed_finds (falters_under hR) hFinds listing cursor
  rw [Action.Lands, hFails] at hLands
  rw [outcome_getCursor_of_finds hR hLands.1, outcome_getCursor_of_finds hR hFinds]
  cases hPut : flushPuts? listing cursor log with
  | none => simp [found]
  | some put =>
    rw [eq_of_flushPuts? hPut, eq_comm]
    simp [found, reading]

/-- A log on a store of which one call fails, the next one of its kind, with two changes pending. -/
def struckAt (call : StoreCall) : OperationLog (Faulty Contents) where
  store :=
    { inner := .ofEntries [(Key.cursor, (Cursor.blank 6).encode), (Key.user "b", [0x30])]
      faults := [⟨call, none, 0, 1, .store "disk full"⟩]
      counts := .zero }
  pending := (∅ : PendingSet).addAll [.assign "a" [0x31], .remove "b"]
  lastCursor := some (.blank 6)

/-- Where the removals fail, one of the changes is written and the cursor is not. -/
theorem failed_flush_keeps_cursor_before_removal :
    ∃ failed, flushListed (struckAt .deleteMany).pending.operations (.blank 7)
        (struckAt .deleteMany) = .error (.store "disk full") failed ∧
      failed.store.inner[Key.user "a"]? = some [0x31] ∧
      getCursor.outcome (failed.facing []) =
        getCursor.outcome ((struckAt .deleteMany).facing []) := by
  have hFails : (flushListed (struckAt .deleteMany).pending.operations (.blank 7)).outcome
      (struckAt .deleteMany) = .error (.store "disk full") := by decide +kernel
  have hRun := Action.eq_error_of_outcome hFails
  refine ⟨_, hRun, by decide +kernel, ?_⟩
  exact (failed_flush_keeps_cursor_iff Store.simulation_contents rfl hRun).mpr
    (.inl (by decide +kernel))

/-- Where the last call fails, the flush fails and its cursor is found. -/
theorem failed_sync_moves_cursor :
    ∃ failed, flush (.blank 7) (struckAt .sync) = .error (.store "disk full") failed ∧
      getCursor.outcome ((struckAt .sync).facing []) = .ok (.blank 6) ∧
      getCursor.outcome (failed.facing []) = .ok (.blank 7) := by
  have hFails : (flush (.blank 7)).outcome (struckAt .sync) = .error (.store "disk full") := by
    decide +kernel
  exact ⟨_, Action.eq_error_of_outcome hFails, by decide +kernel, by decide +kernel⟩

end

section

variable {σ : Type} [Store σ]

/-- The cursor that a request puts, whatever becomes of its last call. -/
def Request.puts? : Request → OperationLog σ → Option Cursor
  | .plain (.flush cursor), log => flushPuts? log.pending.operations cursor log
  | .flushIn order cursor, log => flushPuts? (order log.pending.operations) cursor log
  | .plain (.writeCursor cursor), log =>
    match (Store.put Key.cursor cursor.encode : Action σ Unit) log.store with
    | .ok _ _ => some cursor
    | .error _ _ => none
  | .plain _, _ => none

/-- What requests lead to, some of which may have failed, and the cursor that was put last. Which
calls of the store fail is settled anew before each request. -/
inductive Reached (store : σ) : Option Cursor → OperationLog (Faulty σ) → Prop
  | begun : Reached store none (ofStore (.ofStore store))
  | request {put : Option Cursor} {log : OperationLog (Faulty σ)} (h : Reached store put log)
      (faults : List Fault) (request : Request) :
      Reached store ((request.puts? (log.facing faults)).or put) (request.leave (log.facing faults))
  | getCursor {put : Option Cursor} {log : OperationLog (Faulty σ)} (h : Reached store put log)
      (faults : List Fault) :
      Reached store put ((OperationLog.getCursor : Action _ Cursor).leave (log.facing faults))
  | undoBlocks {put : Option Cursor} {log : OperationLog (Faulty σ)} (h : Reached store put log)
      (faults : List Fault) :
      Reached store put ((OperationLog.undoBlocks : Action _ _).leave (log.facing faults))

end

section

variable {σ : Type} {R : σ → Checkpointed → Prop} {text : Option Bytes} {last : Option Cursor}
  {log : OperationLog σ}

/-- The cursor that is found, and the one that the log remembers. -/
def Recalls (R : σ → Checkpointed → Prop) (text : Option Bytes) (last : Option Cursor)
    (log : OperationLog σ) : Prop :=
  Finds R text log.store ∧ log.lastCursor = last

theorem keeps_onStore_recalls {α : Type} {step : Action σ α}
    (h : Action.Keeps (Finds R text) step) : Action.Keeps (Recalls R text last) (onStore step) :=
  Action.Meets.within (fun _ _ => rfl) (fun _ _ => id) h

/-- What a request leaves of a log: the cursor that it put, if it put one, is found, and otherwise
nothing has changed about either cursor. -/
def Follows (R : σ → Checkpointed → Prop) (text : Option Bytes) (log : OperationLog σ)
    (put : Option Cursor) (left : OperationLog σ) : Prop :=
  Finds R (found put text) left.store ∧ (put = none → left.lastCursor = log.lastCursor)

theorem follows_of_keeps {step : Action (OperationLog σ) Unit} (hFinds : Finds R text log.store)
    (h : Action.Keeps (Recalls R text log.lastCursor) step) :
    Action.Lands step (fun _ => Follows R text log none) (fun _ => Follows R text log none)
      log := by
  have hStep := h log ⟨hFinds, rfl⟩
  rw [Action.Lands]
  generalize step log = result at hStep
  cases result with
  | ok _ left => exact ⟨hStep.1, fun _ => hStep.2⟩
  | error e left => exact ⟨hStep.1, fun _ => hStep.2⟩

theorem Finds.facing {R : σ → Contents → Prop} {log : OperationLog (Faulty σ)}
    (h : Finds (Under R) text log.store) (faults : List Fault) :
    Finds (Under R) text (log.facing faults).store := by
  obtain ⟨s, hStore, hText⟩ := h
  exact ⟨s, ⟨hStore.1, fun _ _ => trivial⟩, hText⟩

end

section

variable {σ : Type} [Store σ] {R : σ → Checkpointed → Prop} {errs : Error → Prop}
  {text : Option Bytes} {last : Option Cursor} {log : OperationLog σ}

theorem follows_flushListed (h : Store.Falters R errs) (hFinds : Finds R text log.store)
    (listing : List Operation) (cursor : Cursor) :
    Action.Lands (flushListed listing cursor)
      (fun _ => Follows R text log (flushPuts? listing cursor log))
      (fun _ => Follows R text log (flushPuts? listing cursor log)) log := by
  refine (lands_flushListed_finds h hFinds listing cursor).imp ?_ ?_
  · rintro count final ⟨hFinal, -, hCursor, hPut⟩
    refine ⟨hFinal, fun hNone => ?_⟩
    obtain hSome | hIdle := hPut
    · rw [hNone] at hSome
      cases hSome
    · exact hCursor.trans hIdle.2.symm
  · rintro e failed ⟨hFailed, hCursor⟩
    exact ⟨hFailed, fun _ => hCursor⟩

theorem follows_writeCursor (h : Store.Falters R errs) (hFinds : Finds R text log.store)
    (cursor : Cursor) :
    Action.Lands (writeCursor cursor)
      (fun _ => Follows R text log ((Request.plain (.writeCursor cursor)).puts? log))
      (fun _ => Follows R text log ((Request.plain (.writeCursor cursor)).puts? log)) log := by
  have hPut := meets_put_cursor h cursor log.store hFinds
  simp only [Action.Lands, writeCursor, putCursor, onStore, Action.within, bind, EStateM.bind,
    Request.puts?]
  generalize (Store.put Key.cursor cursor.encode : Action σ Unit) log.store = result at hPut
  cases result with
  | error e store => exact ⟨hPut, fun _ => rfl⟩
  | ok _ store =>
    have hSync := keeps_sync_finds h store hPut
    simp only []
    generalize (Store.sync : Action σ Unit) store = result at hSync
    cases result with
    | error e store => exact ⟨hSync, fun hNone => absurd hNone (Option.some_ne_none cursor)⟩
    | ok _ store => exact ⟨hSync, fun hNone => absurd hNone (Option.some_ne_none cursor)⟩

theorem follows_call (h : Store.Falters R errs) (hFinds : Finds R text log.store) (call : Call) :
    Action.Lands (call.make : Action (OperationLog σ) Unit)
      (fun _ => Follows R text log ((Request.plain call).puts? log))
      (fun _ => Follows R text log ((Request.plain call).puts? log)) log := by
  have hKept := overlooks_cursor text
  cases call with
  | add ops => exact follows_of_keeps hFinds fun _ => id
  | record block ops =>
    refine follows_of_keeps hFinds (.bind (keeps_onStore_recalls ?_) fun _ => .pure fun _ => id)
    exact (UndoLog.falters_record h block ops).meets (hKept.record block ops)
  | flush cursor =>
    exact (follows_flushListed h hFinds log.pending.operations cursor).bind fun _ _ hLeft =>
      .pure hLeft
  | purge height =>
    refine follows_of_keeps hFinds (.bind (keeps_onStore_recalls ?_) fun _ => .pure fun _ => id)
    exact (UndoLog.falters_purge h height).meets (hKept.purge height)
  | replay height =>
    refine follows_of_keeps hFinds
      (.bind (.bind (keeps_onStore_recalls ?_) fun batches => ?_) fun _ => .pure fun _ => id)
    · exact (UndoLog.falters_batchesAbove h height).meets
        (Checkpointed.keeps_batchesAbove _ height)
    · exact .bind (fun _ => id) fun _ => .pure fun _ => id
  | discardAbove height =>
    refine follows_of_keeps hFinds (.bind (keeps_onStore_recalls ?_) fun _ => .pure fun _ => id)
    exact (UndoLog.falters_discardAbove h height).meets (hKept.discardAbove height)
  | writeCursor cursor => exact follows_writeCursor h hFinds cursor

theorem follows_request (h : Store.Falters R errs) (hFinds : Finds R text log.store)
    (request : Request) : Follows R text log (request.puts? log) (request.leave log) := by
  cases request with
  | plain call => exact (follows_call h hFinds call).leave
  | flushIn order cursor =>
    have hFlush := follows_flushListed h hFinds (order log.pending.operations) cursor
    have hMake : Action.Lands (Request.flushIn order cursor).make
        (fun _ => Follows R text log ((Request.flushIn order cursor).puts? log))
        (fun _ => Follows R text log ((Request.flushIn order cursor).puts? log)) log :=
      hFlush.bind fun _ _ hLeft => .pure hLeft
    exact hMake.leave

/-- Reading changes nothing about either cursor. -/
theorem keeps_getCursor (h : Store.Falters R errs) :
    Action.Keeps (Recalls R text last) (getCursor : Action (OperationLog σ) Cursor) := by
  refine .bind (keeps_onStore_recalls ((h.get Key.cursor).meets fun _ => id)) fun text => ?_
  cases text with
  | none => exact fun _ => id
  | some text => exact .ofExcept (fun _ _ _ => id) fun _ => id

theorem keeps_undoBlocks (h : Store.Falters R errs) :
    Action.Keeps (Recalls R text last) (undoBlocks : Action (OperationLog σ) (List UInt64)) := by
  have hRange : Action.Keeps (Finds R text) (Store.range Key.undoMark Key.undoEnd 0) :=
    (h.range _ _ _).meets fun _ => id
  exact keeps_onStore_recalls (hRange.bind fun _ => .pure fun _ => id)

end

section

variable {σ : Type} [Store σ] {R : σ → Contents → Prop} {store : σ} {contents : Contents}
  {put : Option Cursor} {log : OperationLog (Faulty σ)}

/-- The cursor that is found is the one that was put last, and none is remembered before one was
put. -/
theorem Reached.finds (hR : Store.Simulation R) (hStore : R store contents)
    (h : Reached store put log) :
    Finds (Under R) (found put contents[Key.cursor]?) log.store ∧
      (put = none → log.lastCursor = none) := by
  induction h with
  | begun => exact ⟨⟨.ofContents contents, ⟨hStore, nofun⟩, rfl⟩, fun _ => rfl⟩
  | @request put log _ faults request ih =>
    obtain ⟨hFinds, hLast⟩ := follows_request (falters_under hR) (ih.1.facing faults) request
    rw [found_or]
    refine ⟨hFinds, fun hNone => ?_⟩
    obtain ⟨hNew, hOld⟩ := Option.or_eq_none_iff.mp hNone
    exact (hLast hNew).trans (ih.2 hOld)
  | @getCursor put log _ faults ih =>
    have hKeeps := (keeps_getCursor (falters_under hR)).leave
      (⟨ih.1.facing faults, rfl⟩ : Recalls (Under R) _ log.lastCursor (log.facing faults))
    exact ⟨hKeeps.1, fun hNone => hKeeps.2.trans (ih.2 hNone)⟩
  | @undoBlocks put log _ faults ih =>
    have hKeeps := (keeps_undoBlocks (falters_under hR)).leave
      (⟨ih.1.facing faults, rfl⟩ : Recalls (Under R) _ log.lastCursor (log.facing faults))
    exact ⟨hKeeps.1, fun hNone => hKeeps.2.trans (ih.2 hNone)⟩

/-- Whatever requests went before, some of which may have failed: after a flush that succeeded
nothing is pending. The cursor reads as its own if and only if the flush was not passed over, or
what was put last has the text of its cursor. -/
theorem flush_checkpoints_iff (hR : Store.Simulation R) (hStore : R store contents)
    (h : Reached store put log) {cursor : Cursor} (hClean : ':' ∉ cursor.blockId.toList)
    {faults : List Fault} {listing : List Operation} {count : Nat} {final : OperationLog (Faulty σ)}
    (hOk : flushListed listing cursor (log.facing faults) = .ok count final) :
    final.pending = ∅ ∧
      (getCursor.outcome (final.facing []) = .ok cursor ↔
        ¬ (log.pending = ∅ ∧ log.lastCursor = some cursor) ∨
          put.map Cursor.text = some cursor.text) := by
  obtain ⟨hFinds, hNone⟩ := h.finds hR hStore
  have hLands := lands_flushListed_finds (falters_under hR) (hFinds.facing faults) listing cursor
  rw [Action.Lands, hOk] at hLands
  obtain ⟨hFinal, hPending, -, hPut⟩ := hLands
  refine ⟨hPending, ?_⟩
  rw [outcome_getCursor_of_finds hR hFinal]
  by_cases hIdle : log.pending = ∅ ∧ log.lastCursor = some cursor
  · have hNotPut : flushPuts? listing cursor (log.facing faults) = none :=
      flushPuts?_of_idle hIdle.1 hIdle.2
    rw [hNotPut]
    cases put with
    | none =>
      rw [hNone rfl] at hIdle
      cases hIdle.2
    | some last => simpa [hIdle, found, reading] using Cursor.decode_encode_eq_iff hClean
  · rw [hPut.resolve_right hIdle]
    simpa [hIdle, found, reading] using (Cursor.decode_encode_eq_iff hClean).mpr rfl

/-- The log of an empty store after a flush to one cursor, and one to the next of which the last
call failed. -/
def strayed : OperationLog (Faulty Contents) :=
  (Request.plain (.flush (.blank 7))).leave
    (((Request.plain (.flush (.blank 6))).leave
      ((ofStore (.ofStore ∅)).facing [])).facing [⟨.sync, none, 0, 1, .store "disk full"⟩])

theorem reached_strayed : Reached (∅ : Contents) (some (.blank 7)) strayed := by
  have hBegun : Reached (∅ : Contents) none (ofStore (.ofStore ∅)) := .begun
  have hFirst := hBegun.request [] (.plain (.flush (.blank 6)))
  have hSecond := hFirst.request [⟨.sync, none, 0, 1, .store "disk full"⟩]
    (.plain (.flush (.blank 7)))
  rw [strayed]
  convert hSecond
  decide +kernel

/-- The flush that failed is made again. -/
theorem flush_checkpoints_failed_one_again :
    ∃ final, flushListed strayed.pending.operations (.blank 7) (strayed.facing []) = .ok 0 final ∧
      final.pending = ∅ ∧ getCursor.outcome (final.facing []) = .ok (.blank 7) := by
  have hOk : (flushListed strayed.pending.operations (.blank 7)).outcome (strayed.facing []) =
      .ok 0 := by decide +kernel
  have hRun := Action.eq_ok_of_outcome hOk
  obtain ⟨hPending, hCursor⟩ :=
    flush_checkpoints_iff Store.simulation_contents rfl reached_strayed (by decide) hRun
  refine ⟨_, hRun, hPending, hCursor.mpr (.inl ?_)⟩
  decide +kernel

/-- The flush before it, made again, is passed over, and the cursor of the one that failed is
found. -/
theorem flush_passed_over_leaves_other_cursor :
    Reached (∅ : Contents) (some (.blank 7)) strayed ∧
      ∃ final, flush (.blank 6) (strayed.facing []) = .ok 0 final ∧
        getCursor.outcome (final.facing []) = .ok (.blank 7) := by
  have hOk : (flush (.blank 6)).outcome (strayed.facing []) = .ok 0 := by decide +kernel
  exact ⟨reached_strayed, _, Action.eq_ok_of_outcome hOk, by decide +kernel⟩

end

end OperationLog

end ForkLog
