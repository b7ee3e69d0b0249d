import Mathlib
import ForkLog.Proofs.Ledger
import ForkLog.Proofs.Store.Faltering

/-! # The operation log on a store with calls that fail

Of the steps of the log only a flush changes a store by more than one call. Where it fails in between
it has written a part of what it was about to write, and made again from there it writes the rest.
-/

namespace ForkLog

set_option autoImplicit false

namespace UndoLog

variable {σ : Type} [Store σ] {R : σ → Checkpointed → Prop} {errs : Error → Prop}

theorem corrupt_of_decodeAll {entries : List Entry} {e : Error}
    (h : (entries.mapM fun e => Operation.decodeBatch e.2) = .error e) :
    ∃ reason, e = .corruptOperation reason := by
  obtain ⟨entry, -, hFails⟩ := Action.exists_of_mapM_error h
  exact Operation.decodeBatch_error hFails

theorem lasting_decodeAll {entries : List Entry} {e : Error}
    (h : (entries.mapM fun e => Operation.decodeBatch e.2) = .error e) : e.isTransient = false := by
  obtain ⟨reason, rfl⟩ := corrupt_of_decodeAll h
  rfl

theorem falters_inverse (h : Store.Falters R errs) (ops : List Operation) :
    Action.Falters R errs (inverse ops) (inverse ops) :=
  (Action.Falters.of_simulates (.ofExcept _)).bind_of_looks (.ofExcept _) fun _ =>
    (h.getMany _).bind_simulates fun _ => .pure _

theorem looks_inverse (ops : List Operation) :
    Action.Looks (inverse ops : Action Checkpointed (List Operation)) :=
  (Action.Looks.ofExcept _).bind fun _ t _ _ hRun => by cases hRun; rfl

theorem falters_record (h : Store.Falters R errs) (block : UInt64) (ops : List Operation) :
    Action.Falters R errs (record block ops) (record block ops) :=
  (falters_inverse h ops).bind_of_looks (looks_inverse ops) fun _ =>
    (h.put _ _).bind_simulates fun _ => .pure _

theorem falters_deleteEntries (h : Store.Falters R errs) (entries : List Entry) :
    Action.Falters R errs (deleteEntries entries) (deleteEntries entries) := by
  unfold deleteEntries
  split
  · exact .of_simulates (.pure 0)
  · exact (h.deleteMany _).bind_simulates fun _ => .pure _

theorem looks_range (start stop : Bytes) :
    Action.Looks (Store.range start stop 0 : Action Checkpointed (List Entry)) := by
  intro t _ _ hRun
  cases hRun
  rfl

theorem falters_purge (h : Store.Falters R errs) (height : UInt64) :
    Action.Falters R errs (purge height) (purge height) :=
  (h.range _ _ _).bind_of_looks (looks_range _ _) fun entries => falters_deleteEntries h entries

theorem looks_batchesAbove (height : UInt64) :
    Action.Looks (batchesAbove height : Action Checkpointed (List (List Operation))) :=
  (looks_range _ _).bind fun _ => .ofExcept _

theorem falters_discardAbove (h : Store.Falters R errs) (height : UInt64) :
    Action.Falters R errs (discardAbove height) (discardAbove height) :=
  (h.range _ _ _).bind_of_looks (looks_range _ _) fun entries => falters_deleteEntries h entries

theorem falters_batchesAbove (h : Store.Falters R errs) (height : UInt64) :
    Action.Falters R errs (batchesAbove height) (batchesAbove height) :=
  (h.range _ _ _).bind_simulates fun _ => .ofExcept _

end UndoLog

namespace Checkpointed

/-- The condition says nothing of undo records. -/
def Overlooks (kept : Checkpointed → Prop) : Prop :=
  ∀ s contents, s.current.Accords contents → kept s → kept { s with current := contents }

namespace Overlooks

variable {kept : Checkpointed → Prop}

theorem purge (h : Overlooks kept) (height : UInt64) :
    Action.Keeps kept (UndoLog.purge height) := by
  intro s hs
  rw [UndoLog.purge_eq s.current s.saved height]
  exact h s _ (Contents.Accords.eraseAll_between _ (List.le_refl _)) hs

theorem discardAbove (h : Overlooks kept) (height : UInt64) :
    Action.Keeps kept (UndoLog.discardAbove height) := by
  intro s hs
  rw [UndoLog.discardAbove_eq s.current s.saved height]
  exact h s _ (Contents.Accords.eraseAll_between _ (List.le_of_lt (Key.undo_lt_undoEnd height))) hs

theorem record (h : Overlooks kept) (block : UInt64) (ops : List Operation) :
    Action.Keeps kept (UndoLog.record block ops) := by
  intro s hs
  cases hCheck : Operation.validateAll ops with
  | ok _ =>
    rw [UndoLog.record_eq s.current s.saved block ((Operation.validateAll_eq_ok_iff ops).mp hCheck)]
    exact h s _ (Contents.Accords.insert_undo _ _ _) hs
  | error e =>
    simp only [UndoLog.record, UndoLog.inverse, hCheck, bind, EStateM.bind, Action.ofExcept]
    exact hs

end Overlooks

theorem keeps_batchesAbove (kept : Checkpointed → Prop) (height : UInt64) :
    Action.Keeps kept (UndoLog.batchesAbove height) := by
  have hAbove : Action.Keeps kept (UndoLog.above height) := fun _ hs => hs
  exact .bind hAbove fun _ => .ofExcept (fun _ _ _ => id) fun _ => id

end Checkpointed

/-- A part of what leads from the contents `before` to `written` is done. The cursor comes last. -/
structure Contents.Underway (before written contents : Contents) : Prop where
  each : ∀ key : Bytes, contents[key]? = before[key]? ∨ contents[key]? = written[key]?
  cursor : contents[Key.cursor]? = before[Key.cursor]? ∨ contents = written

namespace Contents.Underway

variable {before written contents : Contents}

theorem refl (before written : Contents) : Underway before written before :=
  ⟨fun _ => .inl rfl, .inl rfl⟩

theorem all (before written : Contents) : Underway before written written :=
  ⟨fun _ => .inr rfl, .inr rfl⟩

theorem insert (h : Underway before written contents) {key value : Bytes}
    (hKey : key ≠ Key.cursor) (hValue : written[key]? = some value) :
    Underway before written (contents.insert key value) where
  each other := by
    rw [getElem?_insert]
    split
    case isTrue hSame => exact .inr (hSame ▸ hValue.symm)
    case isFalse => exact h.each other
  cursor := by
    refine h.cursor.imp (fun hBefore => ?_) fun hWritten => ?_
    · rwa [getElem?_insert, if_neg hKey]
    · apply Std.ExtTreeMap.ext_getElem?
      intro other
      rw [getElem?_insert, hWritten]
      split
      case isTrue hSame => exact hSame ▸ hValue.symm
      case isFalse => rfl

theorem eraseAll (h : Underway before written contents) {keys : List Bytes}
    (hKeys : ∀ key ∈ keys, key ≠ Key.cursor ∧ written[key]? = none) :
    Underway before written (contents.eraseAll keys) where
  each key := by
    rw [getElem?_eraseAll]
    split
    case isTrue hMem => exact .inr (hKeys key hMem).2.symm
    case isFalse => exact h.each key
  cursor := by
    refine h.cursor.imp (fun hBefore => ?_) fun hWritten => ?_
    · rwa [getElem?_eraseAll, if_neg fun hMem => (hKeys _ hMem).1 rfl]
    · apply Std.ExtTreeMap.ext_getElem?
      intro key
      rw [getElem?_eraseAll, hWritten]
      split
      case isTrue hMem => exact (hKeys key hMem).2.symm
      case isFalse => rfl

end Contents.Underway

namespace OperationLog

/-- No two operations have one key. -/
def Distinct (ops : List Operation) : Prop :=
  ∀ op ∈ ops, ∀ other ∈ ops, op.key = other.key → op = other

theorem distinct_operations (pending : PendingSet) : Distinct pending.operations := by
  intro op hOp other hOther hKey
  rw [mem_operations_iff] at hOp hOther
  rw [hKey, hOther] at hOp
  obtain ⟨change, key⟩ := op
  obtain ⟨change', key'⟩ := other
  obtain rfl : change' = change := Option.some.inj hOp
  obtain rfl : key = key' := hKey
  rfl

theorem insertAll_decides (ops : List Operation) (key : Bytes) :
    (∃ value, ∀ contents : Contents, (contents.insertAll ops)[key]? = some value) ∨
      ∀ contents : Contents, (contents.insertAll ops)[key]? = contents[key]? := by
  induction ops with
  | nil => exact .inr fun _ => rfl
  | cons op ops ih =>
    have hFold (contents : Contents) : contents.insertAll (op :: ops) =
        Contents.insertAll (contents.insert (Key.user op.key) op.value) ops := rfl
    simp only [hFold]
    obtain ⟨value, hValue⟩ | hSame := ih
    · exact .inl ⟨value, fun _ => hValue _⟩
    · simp only [hSame, Contents.getElem?_insert]
      split
      · exact .inl ⟨op.value, fun _ => rfl⟩
      · exact .inr fun _ => rfl

/-- What is written settles a key or leaves it as it is. -/
theorem writtenContents_decides (ops : List Operation) (cursor : Cursor) (key : Bytes) :
    (∃ value, ∀ contents : Contents, (writtenContents contents ops cursor)[key]? = value) ∨
      ∀ contents : Contents, (writtenContents contents ops cursor)[key]? = contents[key]? := by
  simp only [writtenContents, Contents.getElem?_insert, Contents.getElem?_eraseAll]
  split
  · exact .inl ⟨_, fun _ => rfl⟩
  · split
    · exact .inl ⟨_, fun _ => rfl⟩
    · refine (insertAll_decides (assignments ops) key).imp_left ?_
      rintro ⟨value, hValue⟩
      exact ⟨_, hValue⟩

variable {ops listing : List Operation} {before contents : Contents} {cursor : Cursor}

theorem Distinct.perm (h : Distinct ops) (hPerm : listing.Perm ops) : Distinct listing :=
  fun op hOp other hOther => h op (hPerm.mem_iff.mp hOp) other (hPerm.mem_iff.mp hOther)

theorem length_assignments_add_removals (h : ∀ op ∈ ops, op.kind ≠ .unset) :
    (assignments ops).length + (removals ops).length = ops.length := by
  induction ops with
  | nil => rfl
  | cons op ops ih =>
    obtain ⟨hOp, hOps⟩ := List.forall_mem_cons.mp h
    have hRest := ih hOps
    simp only [assignments, removals] at hRest ⊢
    cases hKind : op.kind with
    | unset => exact absurd hKind hOp
    | set =>
      simp [hKind]
      omega
    | delete =>
      simp [hKind]
      omega

theorem writtenContents_of_underway
    (h : Contents.Underway before (writtenContents before ops cursor) contents) :
    writtenContents contents ops cursor = writtenContents before ops cursor := by
  apply Std.ExtTreeMap.ext_getElem?
  intro key
  -- A key that is written has the same value whatever was there, and the others are as before.
  obtain ⟨value, hValue⟩ | hSame := writtenContents_decides ops cursor key
  · rw [hValue, hValue]
  · rw [hSame]
    exact (h.each key).elim (fun hBefore => hBefore.trans (hSame before).symm) id

theorem getElem?_writtenContents_cursor :
    (writtenContents before ops cursor)[Key.cursor]? = some cursor.encode := by
  rw [writtenContents, Contents.getElem?_insert, if_pos rfl]

theorem records_writtenContents :
    (writtenContents before ops cursor).records =
      before.records.afterAll (assignments ops ++ removals ops) := by
  rw [Records.afterAll_append, ← Contents.records_insertAll (by simp [assignments]),
    ← Contents.records_eraseAll (by simp [removals])]
  funext key
  rw [Contents.records, writtenContents, Contents.getElem?_insert,
    if_neg (Key.user_ne_cursor key).symm, Contents.records]

theorem written_of_mem (hDistinct : Distinct ops) {op : Operation} (hOp : op ∈ ops)
    (hKind : op.kind ≠ .unset) :
    (writtenContents before ops cursor)[Key.user op.key]? = op.outcome := by
  have hRecords : Contents.records (writtenContents before ops cursor) op.key =
      before.records.afterAll (assignments ops ++ removals ops) op.key :=
    congrFun records_writtenContents op.key
  rw [Contents.records] at hRecords
  rw [hRecords]
  apply Records.afterAll_eq_of_outcome
  · intro other hOther hKey
    have hMem : other ∈ ops := by
      obtain hOther | hOther := List.mem_append.mp hOther <;> exact (List.mem_filter.mp hOther).1
    obtain rfl := hDistinct other hMem op hOp hKey
    exact ⟨hKind, rfl⟩
  · refine .inl ⟨op, ?_, rfl⟩
    rw [List.mem_append, assignments, removals, List.mem_filter, List.mem_filter]
    cases hCase : op.kind <;> simp_all

/-- What is written does not depend on the order in which it is listed. -/
theorem writtenContents_perm (hDistinct : Distinct ops) (hKinds : ∀ op ∈ ops, op.kind ≠ .unset)
    (hPerm : listing.Perm ops) (contents : Contents) (cursor : Cursor) :
    writtenContents contents listing cursor = writtenContents contents ops cursor := by
  apply Std.ExtTreeMap.ext_getElem?
  intro key
  by_cases hCursor : Key.cursor = key
  · rw [← hCursor, getElem?_writtenContents_cursor, getElem?_writtenContents_cursor]
  by_cases hUser : ∃ op ∈ ops, Key.user op.key = key
  · obtain ⟨op, hOp, rfl⟩ := hUser
    rw [written_of_mem (hDistinct.perm hPerm) (hPerm.mem_iff.mpr hOp) (hKinds op hOp),
      written_of_mem hDistinct hOp (hKinds op hOp)]
  · have hUnlisted : ∀ op ∈ ops, Key.user op.key ≠ key := fun op hOp hKey => hUser ⟨op, hOp, hKey⟩
    rw [getElem?_writtenContents_of_not_mem hUnlisted hCursor,
      getElem?_writtenContents_of_not_mem (fun op hOp => hUnlisted op (hPerm.mem_iff.mp hOp)) hCursor]

/-- The first log is in the middle of a flush of what is pending in both. -/
structure Flushing {σ : Type} (R : σ → Checkpointed → Prop) (cursor : Cursor)
    (log : OperationLog σ) (other : OperationLog Checkpointed) : Prop where
  pending : log.pending = other.pending
  lastCursor : log.lastCursor = other.lastCursor
  store : ∃ contents, R log.store ⟨contents, other.store.saved⟩ ∧
    Contents.Underway other.store.current
      (writtenContents other.store.current other.pending.operations cursor) contents ∧
    (contents = other.store.current ∨
      other.pending.Valid ∧ ¬ (other.pending = ∅ ∧ other.lastCursor = some cursor))

theorem Alike.flushing {σ : Type} {R : σ → Checkpointed → Prop} {log : OperationLog σ}
    {other : OperationLog Checkpointed} (h : Alike R log other) (cursor : Cursor) :
    Flushing R cursor log other :=
  ⟨h.pending, h.lastCursor, other.store.current, h.store, .refl _ _, .inl rfl⟩

variable {σ : Type} [Store σ] {R : σ → Checkpointed → Prop} {errs : Error → Prop}
  {written saved : Contents} {s : σ}

/-- A call failed, and the store has a part of what was to be written. -/
def Broken (R : σ → Checkpointed → Prop) (errs : Error → Prop) (before written saved : Contents)
    (e : Error) (s : σ) : Prop :=
  errs e ∧ ∃ contents, R s ⟨contents, saved⟩ ∧ Contents.Underway before written contents

theorem lands_putAll (h : Store.Falters R errs) {ops : List Operation}
    (hOps : ∀ op ∈ ops, written[Key.user op.key]? = some op.value) (hs : R s ⟨contents, saved⟩)
    (hContents : Contents.Underway before written contents) :
    Action.Lands (putAll ops)
      (fun _ s' => R s' ⟨contents.insertAll ops, saved⟩ ∧
        Contents.Underway before written (contents.insertAll ops))
      (Broken R errs before written saved) s := by
  induction ops generalizing s contents with
  | nil => exact .pure ⟨hs, hContents⟩
  | cons op ops ih =>
    obtain ⟨hOp, hOps⟩ := List.forall_mem_cons.mp hOps
    have hPut := (h.put (Key.user op.key) op.value).lands_of_ok hs rfl
    refine (hPut.imp_failed fun e s' hFails => ?_).bind fun _ s' hs' => ?_
    · exact ⟨hFails.1, contents, hFails.2, hContents⟩
    · exact ih hOps hs'.2 (hContents.insert (Key.user_ne_cursor op.key) hOp)

theorem lands_deleteMany (h : Store.Falters R errs) {keys : List Bytes}
    (hKeys : ∀ key ∈ keys, key ≠ Key.cursor ∧ written[key]? = none) (hs : R s ⟨contents, saved⟩)
    (hContents : Contents.Underway before written contents) :
    Action.Lands (Store.deleteMany keys)
      (fun _ s' => R s' ⟨contents.eraseAll keys, saved⟩ ∧
        Contents.Underway before written (contents.eraseAll keys))
      (Broken R errs before written saved) s :=
  ((h.deleteMany keys).lands_of_ok hs rfl).imp
    (fun _ _ hs' => ⟨hs'.2, hContents.eraseAll hKeys⟩)
    fun _ _ hFails => ⟨hFails.1, contents, hFails.2, hContents⟩

theorem lands_putCursor (h : Store.Falters R errs) (hs : R s ⟨contents, saved⟩)
    (hContents : Contents.Underway before written contents) {cursor : Cursor}
    (hWritten : contents.insert Key.cursor cursor.encode = written) :
    Action.Lands (putCursor cursor) (fun _ s' => R s' (.ofContents written))
      (Broken R errs before written saved) s := by
  have hPut := (h.put Key.cursor cursor.encode).lands_of_ok hs rfl
  refine (hPut.imp_failed fun e s' hFails => ?_).bind fun _ s' hs' => ?_
  · exact ⟨hFails.1, contents, hFails.2, hContents⟩
  · obtain ⟨_, hs'⟩ := hs'
    have hSync := h.sync.lands_of_ok hs' rfl
    refine hSync.imp (fun _ s'' hs'' => ?_) fun e s'' hFails => ?_
    · exact hWritten ▸ hs''.2
    · exact ⟨hFails.1, written, hWritten ▸ hFails.2, .all _ _⟩

theorem lands_writeOut (h : Store.Falters R errs) (hDistinct : Distinct ops)
    (hKinds : ∀ op ∈ ops, op.kind ≠ .unset) (hs : R s ⟨contents, saved⟩)
    (hContents : Contents.Underway before (writtenContents before ops cursor) contents) :
    Action.Lands (writeOut ops cursor)
      (fun count s' => count = (assignments ops).length + (removals ops).length ∧
        R s' (.ofContents (writtenContents before ops cursor)))
      (Broken R errs before (writtenContents before ops cursor) saved) s := by
  have hAssigned : ∀ op ∈ assignments ops,
      (writtenContents before ops cursor)[Key.user op.key]? = some op.value := by
    intro op hOp
    obtain ⟨hMem, hKind⟩ := List.mem_filter.mp hOp
    rw [written_of_mem hDistinct hMem (hKinds op hMem), Change.outcome, of_decide_eq_true hKind]
  have hRemoved : ∀ key ∈ (removals ops).map fun op => Key.user op.key,
      key ≠ Key.cursor ∧ (writtenContents before ops cursor)[key]? = none := by
    intro key hKey
    obtain ⟨op, hOp, rfl⟩ := List.mem_map.mp hKey
    obtain ⟨hMem, hKind⟩ := List.mem_filter.mp hOp
    rw [written_of_mem hDistinct hMem (hKinds op hMem), Change.outcome, of_decide_eq_true hKind]
    exact ⟨Key.user_ne_cursor op.key, rfl⟩
  have hLength : ((removals ops).map fun op => Key.user op.key).length = (removals ops).length :=
    List.length_map _
  have hWritten := writtenContents_of_underway hContents
  rw [writtenContents] at hWritten
  unfold writeOut
  rw [(Operation.validateAll_eq_ok_iff ops).mpr hKinds]
  have hChecked : Action.Lands (Action.ofExcept (.ok ())) (fun _ s' => R s' ⟨contents, saved⟩)
      (Broken R errs before (writtenContents before ops cursor) saved) s := hs
  refine hChecked.bind fun _ s₀ hs₀ => ?_
  refine (lands_putAll h hAssigned hs₀ hContents).bind ?_
  rintro _ s₁ ⟨hs₁, hContents₁⟩
  simp only []
  split
  case isTrue =>
    refine (lands_deleteMany h hRemoved hs₁ hContents₁).bind ?_
    rintro _ s₂ ⟨hs₂, hContents₂⟩
    refine (lands_putCursor h hs₂ hContents₂ hWritten).bind fun _ s₃ hs₃ => ?_
    exact .pure ⟨by rw [hLength], hs₃⟩
  case isFalse hNone =>
    rw [Bool.not_eq_true, Bool.not_eq_false', List.isEmpty_iff] at hNone
    rw [hNone] at hWritten
    refine (lands_putCursor h hs₁ hContents₁ hWritten).bind fun _ s₃ hs₃ => ?_
    exact .pure ⟨by rw [hLength], hs₃⟩

variable {log : OperationLog σ} {other : OperationLog Checkpointed}

theorem lands_flushListed (h : Store.Falters R errs) (hDistinct : Distinct listing)
    (hKinds : ∀ op ∈ listing, op.kind ≠ .unset)
    (hBusy : ¬ (log.pending = ∅ ∧ log.lastCursor = some cursor))
    (hStore : R log.store ⟨contents, saved⟩)
    (hContents : Contents.Underway before (writtenContents before listing cursor) contents) :
    Action.Lands (flushListed listing cursor)
      (fun count log' => count = (assignments listing).length + (removals listing).length ∧
        R log'.store (.ofContents (writtenContents before listing cursor)) ∧ log'.pending = ∅ ∧
        log'.lastCursor = some cursor)
      (fun e log' => ∃ store, log' = { log with store } ∧
        Broken R errs before (writtenContents before listing cursor) saved e store) log := by
  have hWrite := lands_writeOut h hDistinct hKinds hStore hContents
  rw [Action.Lands, flushListed_eq_of_busy hBusy]
  simp only [Action.Lands] at hWrite
  simp only [bind, EStateM.bind, onStore, Action.within]
  generalize writeOut listing cursor log.store = result at hWrite
  cases result with
  | ok count store => exact ⟨hWrite.1, hWrite.2, rfl, rfl⟩
  | error e store => exact ⟨store, rfl, hWrite⟩

theorem kinds_of_valid {pending : PendingSet} (h : pending.Valid) :
    ∀ op ∈ pending.operations, op.kind ≠ .unset := fun op hOp =>
  h op.key op.toChange (mem_operations_iff.mp hOp)

/-- A flush of what is pending arrives in whatever order it writes, or it breaks off. -/
theorem agree_or_breaks_flushIn (h : Store.Falters R errs) (order : PendingSet.Order)
    (hValid : other.pending.Valid)
    (hBusy : ¬ (other.pending = ∅ ∧ other.lastCursor = some cursor))
    (hPending : log.pending = other.pending) (hCursor : log.lastCursor = other.lastCursor)
    (hStore : R log.store ⟨contents, other.store.saved⟩)
    (hContents : Contents.Underway other.store.current
      (writtenContents other.store.current other.pending.operations cursor) contents) :
    Action.Agree (Alike R) (flushIn order cursor log) (flush cursor other) ∨
      ∃ e store, flushIn order cursor log = .error e { log with store } ∧
        Broken R errs other.store.current
          (writtenContents other.store.current other.pending.operations cursor) other.store.saved
          e store := by
  have hListing := order.perm other.pending
  have hKinds := kinds_of_valid hValid
  have hListed : ∀ op ∈ order.list other.pending, op.kind ≠ .unset := fun op hOp =>
    hKinds op (hListing.mem_iff.mp hOp)
  have hDistinct := distinct_operations other.pending
  rw [← writtenContents_perm hDistinct hKinds hListing] at hContents ⊢
  have hFlush := lands_flushListed h (hDistinct.perm hListing) hListed
    (by rwa [hPending, hCursor]) hStore hContents
  have hRun : flushIn order cursor log = flushListed (order.list other.pending) cursor log := by
    rw [← hPending]
    rfl
  rw [flush_eq_of_busy hValid hBusy, hRun]
  rw [Action.Lands] at hFlush
  generalize flushListed (order.list other.pending) cursor log = result at hFlush
  cases result with
  | ok count log' =>
    obtain ⟨rfl, hWritten, hEmpty, hLast⟩ := hFlush
    left
    rw [length_assignments_add_removals hListed, hListing.length_eq,
      ← length_assignments_add_removals hKinds, ← writtenContents_perm hDistinct hKinds hListing]
    exact .ok _ ⟨hWritten, hEmpty, hLast⟩
  | error e log' =>
    obtain ⟨store, rfl, hBroken⟩ := hFlush
    exact .inr ⟨e, store, rfl, hBroken⟩

theorem flushListed_eq_of_invalid {e : Error}
    (hBusy : ¬ (log.pending = ∅ ∧ log.lastCursor = some cursor))
    (hInvalid : Operation.validateAll listing = .error e) :
    flushListed listing cursor log = .error e log := by
  have hWrite : onStore (writeOut listing cursor) log = .error e log := by
    simp only [onStore, Action.within, writeOut, bind, EStateM.bind, hInvalid, Action.ofExcept]
  exact (flushListed_eq_of_busy hBusy listing).trans (Action.bind_eq_of_error hWrite _)

theorem flushIn_eq_of_invalid {order : PendingSet.Order} {e : Error}
    (hInvalid : Operation.validateAll (order.list log.pending) = .error e) :
    flushIn order cursor log = .error e log := by
  refine flushListed_eq_of_invalid ?_ hInvalid
  rintro ⟨hEmpty, -⟩
  have hNone : order.list log.pending = [] := by
    rw [hEmpty]
    exact (order.perm ∅).eq_nil
  rw [hNone] at hInvalid
  cases hInvalid

theorem flush_eq_of_invalid {e : Error}
    (hInvalid : Operation.validateAll log.pending.operations = .error e) :
    flush cursor log = .error e log :=
  flushIn_eq_of_invalid hInvalid

/-- What an order lists is valid if everything that is pending is. -/
theorem validateAll_list_eq_ok_iff (order : PendingSet.Order) (pending : PendingSet) :
    Operation.validateAll (order.list pending) = .ok () ↔ pending.Valid := by
  rw [Operation.validateAll_eq_ok_iff]
  constructor
  · exact fun hKinds key change hChange => hKinds { change with key }
      ((order.perm pending).mem_iff.mpr (mem_operations_iff.mpr hChange))
  · exact fun hValid op hOp => kinds_of_valid hValid op ((order.perm pending).mem_iff.mp hOp)

theorem valid_of_validateAll {pending : PendingSet}
    (h : Operation.validateAll pending.operations = .ok ()) : pending.Valid :=
  (validateAll_list_eq_ok_iff .sorted pending).mp h

/-- On a store that never fails it makes no difference in which order a flush writes. -/
theorem flushIn_eq_flush (hValid : other.pending.Valid) (order : PendingSet.Order)
    (cursor : Cursor) : flushIn order cursor other = flush cursor other := by
  by_cases hIdle : other.pending = ∅ ∧ other.lastCursor = some cursor
  · rw [flush_eq_of_idle hIdle.1 hIdle.2]
    exact flushListed_eq_of_idle hIdle.1 hIdle.2 _
  · have hKinds := kinds_of_valid hValid
    have hListing := order.perm other.pending
    have hListed : ∀ op ∈ order.list other.pending, op.kind ≠ .unset := fun op hOp =>
      hKinds op (hListing.mem_iff.mp hOp)
    rw [flush_eq_of_busy hValid hIdle, length_assignments_add_removals hKinds, ← hListing.length_eq,
      ← length_assignments_add_removals hListed,
      ← writtenContents_perm (distinct_operations _) hKinds hListing]
    exact flushListed_eq_of_valid hListed hIdle

/-- A flush of pending operations that are all valid may write in any order. One of invalid ones
fails at the first of these in its order. -/
theorem flushIn_falters (h : Store.Falters R errs) {order otherOrder : PendingSet.Order}
    (hOrders : other.pending.Valid ∨ order = otherOrder)
    (hFlushing : Flushing R cursor log other) :
    Action.AgreeOr (Alike R) (fun e log' => errs e ∧ Flushing R cursor log' other)
      (flushIn order cursor log) (flushIn otherOrder cursor other) := by
  obtain ⟨hPending, hCursor, contents, hStore, hUnderway, hBegun⟩ := hFlushing
  by_cases hWrites : other.pending.Valid ∧ ¬ (other.pending = ∅ ∧ other.lastCursor = some cursor)
  · obtain ⟨hValid, hBusy⟩ := hWrites
    rw [flushIn_eq_flush hValid]
    refine (agree_or_breaks_flushIn h order hValid hBusy hPending hCursor hStore
      hUnderway).imp_right ?_
    rintro ⟨e, store, hFails, hError, left, hLeft, hUnderway⟩
    exact ⟨e, _, hFails, hError, hPending, hCursor, left, hLeft, hUnderway, .inr ⟨hValid, hBusy⟩⟩
  · left
    obtain rfl := hBegun.resolve_right hWrites
    have hAlike : Alike R log other := ⟨hStore, hPending, hCursor⟩
    by_cases hIdle : other.pending = ∅ ∧ other.lastCursor = some cursor
    · have hFlush : flushIn order cursor log = .ok 0 log :=
        flushListed_eq_of_idle (hPending.trans hIdle.1) (hCursor.trans hIdle.2) _
      have hOther : flushIn otherOrder cursor other = .ok 0 other :=
        flushListed_eq_of_idle hIdle.1 hIdle.2 _
      rw [hFlush, hOther]
      exact .ok 0 hAlike
    · have hInvalid : ¬ other.pending.Valid := fun hValid => hWrites ⟨hValid, hIdle⟩
      obtain rfl := hOrders.resolve_left hInvalid
      cases hCheck : Operation.validateAll (order.list other.pending) with
      | ok _ => exact absurd ((validateAll_list_eq_ok_iff order _).mp hCheck) hInvalid
      | error e =>
        rw [flushIn_eq_of_invalid hCheck, flushIn_eq_of_invalid (hPending ▸ hCheck)]
        exact .error e hAlike

theorem lasting_validateAll {ops : List Operation} {e : Error}
    (h : Operation.validateAll ops = .error e) : e.isTransient = false := by
  obtain ⟨op, -, -, rfl⟩ := Operation.exists_of_validateAll_eq_error h
  rfl

theorem lasting_flushIn (order : PendingSet.Order) (cursor : Cursor) :
    Action.Lasting (flushIn order cursor : Action (OperationLog Checkpointed) Nat) := by
  intro log
  rw [Action.Lands]
  cases hCheck : Operation.validateAll (order.list log.pending) with
  | error e =>
    rw [flushIn_eq_of_invalid hCheck]
    exact lasting_validateAll hCheck
  | ok _ =>
    have hValid := (validateAll_list_eq_ok_iff order _).mp hCheck
    rw [flushIn_eq_flush hValid]
    by_cases hIdle : log.pending = ∅ ∧ log.lastCursor = some cursor
    · rw [flush_eq_of_idle hIdle.1 hIdle.2]
      trivial
    · rw [flush_eq_of_busy hValid hIdle]
      trivial

theorem lasting_purge (height : UInt64) :
    Action.Lasting (purge height : Action (OperationLog Checkpointed) Nat) :=
  .within (.of_ok fun s => ⟨_, _, UndoLog.purge_eq s.current s.saved height⟩)

theorem lasting_discardAbove (height : UInt64) :
    Action.Lasting (discardAbove height : Action (OperationLog Checkpointed) Nat) :=
  .within (.of_ok fun s => ⟨_, _, UndoLog.discardAbove_eq s.current s.saved height⟩)

theorem lasting_record (block : UInt64) (ops : List Operation) :
    Action.Lasting (record block ops : Action (OperationLog Checkpointed) Nat) := by
  refine .within (.bind (.bind (.ofExcept fun e => lasting_validateAll) fun _ =>
    .bind (.of_ok fun s => ⟨_, _, rfl⟩) fun _ => .pure _) fun undo => ?_)
  exact .bind (.of_ok fun s => ⟨_, _, rfl⟩) fun _ => .pure _

theorem lasting_replay (height : UInt64) :
    Action.Lasting (replay height : Action (OperationLog Checkpointed) Nat) := by
  refine .bind (.within (.bind (.of_ok fun s => ⟨_, _, rfl⟩) fun _ =>
    .ofExcept fun e => UndoLog.lasting_decodeAll)) fun batches => ?_
  exact .bind (.of_ok fun log => ⟨_, _, rfl⟩) fun _ => .pure _

theorem falters_onStore {σ α : Type} {R : σ → Checkpointed → Prop} {errs : Error → Prop}
    {step : Action σ α} {other : Action Checkpointed α} (h : Action.Falters R errs step other) :
    Action.Falters (Alike R) errs (onStore step) (onStore other) :=
  .within (fun _ _ hLog => hLog.store) (fun _ _ _ _ hLog hStore => { hLog with store := hStore })
    (fun _ => rfl) h

theorem falters_replay (h : Store.Falters R errs) (height : UInt64) :
    Action.Falters (Alike R) errs (replay height) (replay height) := by
  refine (falters_onStore (UndoLog.falters_batchesAbove h height)).bind_simulates fun batches => ?_
  exact (simulates_add batches.flatten).bind fun _ => .pure _

theorem falters_getCursor (h : Store.Falters R errs) :
    Action.Falters (Alike R) errs (getCursor : Action (OperationLog σ) Cursor) getCursor := by
  refine (falters_onStore (h.get Key.cursor)).bind_simulates fun text => ?_
  cases text with
  | none => exact .throw _
  | some text => exact .ofExcept _

theorem writeCursor_falters (h : Store.Falters R errs) (hLog : Alike R log other)
    (cursor : Cursor) :
    Action.AgreeOr (Alike R)
      (fun e log' => Broken R errs other.store.current
        (other.store.current.insert Key.cursor cursor.encode) other.store.saved e log'.store)
      (writeCursor cursor log) (writeCursor cursor other) := by
  let written : Contents := other.store.current.insert Key.cursor cursor.encode
  have hPut : Action.Lands (putCursor cursor) (fun _ s' => R s' (.ofContents written))
      (Broken R errs other.store.current written other.store.saved) log.store :=
    lands_putCursor h hLog.store (.refl _ _) rfl
  have hOther : writeCursor cursor other =
      .ok () ⟨.ofContents written, other.pending, some cursor⟩ := rfl
  simp only [Action.Lands] at hPut
  rw [hOther]
  simp only [writeCursor, bind, EStateM.bind, onStore, Action.within]
  generalize putCursor cursor log.store = result at hPut
  cases result with
  | ok _ store => exact .inl (.ok () ⟨hPut, hLog.pending, rfl⟩)
  | error e store => exact .inr ⟨e, _, rfl, hPut⟩

end OperationLog

end ForkLog
