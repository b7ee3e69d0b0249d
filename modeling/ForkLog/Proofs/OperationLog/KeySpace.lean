import Mathlib
import ForkLog.Proofs.Cursor
import ForkLog.Proofs.OperationLog.Faltering
import ForkLog.Proofs.OperationLog.Reachable

/-! # The key space of a log

User records, the cursor and undo records share one key space. Whatever calls are made of a log, and
wherever a call on its store fails, each entry is of one of these kinds and can be read as such; and
no call touches the records that are none of its business.
-/

namespace ForkLog

set_option autoImplicit false

namespace Key

/-- The records that share the key space. -/
inductive Kind where
  | user (text : String)
  | cursor
  | undo (block : UInt64)
  deriving DecidableEq, Repr

def Kind.key : Kind → Bytes
  | .user text => Key.user text
  | .cursor => Key.cursor
  | .undo block => Key.undo block

theorem Kind.key_injective : Function.Injective Kind.key := by
  intro kind other h
  cases kind with
  | user text =>
    cases other with
    | user text' => exact congrArg Kind.user (user_injective h)
    | cursor => exact absurd h (user_ne_cursor text)
    | undo block => exact absurd h (user_ne_undo text block)
  | cursor =>
    cases other with
    | user text => exact absurd h.symm (user_ne_cursor text)
    | cursor => rfl
    | undo block => exact absurd h.symm (undo_ne_cursor block)
  | undo block =>
    cases other with
    | user text => exact absurd h.symm (user_ne_undo text block)
    | cursor => exact absurd h (undo_ne_cursor block)
    | undo block' => exact congrArg Kind.undo (undo_injective h)

end Key

namespace OperationLog.Puts

variable {key value : Bytes}

theorem exists_kind (h : Puts key value) : ∃ kind : Key.Kind, kind.key = key := by
  cases h with
  | user text value => exact ⟨.user text, rfl⟩
  | cursor cursor => exact ⟨.cursor, rfl⟩
  | undo block ops hKinds => exact ⟨.undo block, rfl⟩

theorem exists_of_undo {block : UInt64} (h : Puts (Key.undo block) value) :
    ∃ ops : List Operation, (∀ op ∈ ops, op.kind ≠ .unset) ∧
      value = Operation.encodeBatch ops := by
  generalize hKey : Key.undo block = key at h
  cases h with
  | user text value => exact absurd hKey.symm (Key.user_ne_undo text block)
  | cursor cursor => exact absurd hKey (Key.undo_ne_cursor block)
  | undo other ops hKinds => exact ⟨ops, hKinds, rfl⟩

theorem exists_of_cursor (h : Puts Key.cursor value) : ∃ cursor : Cursor, value = cursor.encode := by
  generalize hKey : Key.cursor = key at h
  cases h with
  | user text value => exact absurd hKey.symm (Key.user_ne_cursor text)
  | cursor cursor => exact ⟨cursor, rfl⟩
  | undo block ops hKinds => exact absurd hKey.symm (Key.undo_ne_cursor block)

end OperationLog.Puts

namespace Contents

variable {contents : Contents}

/-- Each entry is one that an operation log puts. -/
def PutByLog (contents : Contents) : Prop :=
  ∀ key value, contents[key]? = some value → OperationLog.Puts key value

theorem putByLog_empty : (∅ : Contents).PutByLog := by
  intro key value hValue
  simp at hValue

theorem PutByLog.insert (h : contents.PutByLog) {key value : Bytes}
    (hPuts : OperationLog.Puts key value) : PutByLog (contents.insert key value) := by
  intro other found hFound
  rw [getElem?_insert] at hFound
  split at hFound
  case isTrue hSame => exact hSame ▸ Option.some.inj hFound ▸ hPuts
  case isFalse => exact h other found hFound

theorem PutByLog.eraseAll (h : contents.PutByLog) (keys : List Bytes) :
    (contents.eraseAll keys).PutByLog := by
  intro key value hValue
  rw [getElem?_eraseAll] at hValue
  split at hValue
  case isTrue => cases hValue
  case isFalse => exact h key value hValue

/-- Each key is of one kind, the undo records are batches of valid operations, and the cursor is
one. -/
structure WellFormed (contents : Contents) : Prop where
  keys : ∀ key, contents[key]?.isSome → ∃! kind : Key.Kind, kind.key = key
  undo : ∀ block record, contents[Key.undo block]? = some record →
    record.length < Wire.lengthLimit →
      ∃ ops, Operation.decodeBatch record = .ok ops ∧ ∀ op ∈ ops, op.kind = .set ∨ op.kind = .delete
  cursor : ∀ text, contents[Key.cursor]? = some text → ∃ cursor, Cursor.decode text = .ok cursor

theorem PutByLog.wellFormed (h : contents.PutByLog) : contents.WellFormed where
  keys key hSome := by
    obtain ⟨value, hValue⟩ := Option.isSome_iff_exists.mp hSome
    obtain ⟨kind, hKind⟩ := (h key value hValue).exists_kind
    exact ⟨kind, hKind, fun other hOther => Key.Kind.key_injective (hOther.trans hKind.symm)⟩
  undo block record hRecord hLength := by
    obtain ⟨ops, hKinds, rfl⟩ := (h _ _ hRecord).exists_of_undo
    refine ⟨ops, Operation.decodeBatch_encodeBatch
      (Operation.recordableAll_of_length hKinds hLength), fun op hOp => ?_⟩
    have hKind := hKinds op hOp
    cases hCase : op.kind with
    | unset => exact absurd hCase hKind
    | set => exact .inl rfl
    | delete => exact .inr rfl
  cursor text hText := by
    obtain ⟨cursor, rfl⟩ := (h _ _ hText).exists_of_cursor
    obtain ⟨found, hDecode, -⟩ := Cursor.decode_encode cursor
    exact ⟨found, hDecode⟩

end Contents

namespace OperationLog

/-- A call of a log, or a flush that writes what is pending in an order of its own. -/
inductive Request where
  | plain (call : Call)
  | flushIn (order : List Operation → List Operation) (cursor : Cursor)

section

variable {σ : Type} [Store σ]

def Request.make : Request → Action (OperationLog σ) Unit
  | .plain call => call.make
  | .flushIn order cursor => do
    let log ← get
    let _ ← flushListed (order log.pending.operations) cursor

/-- The log after a request, which may have failed. -/
def Request.leave (request : Request) (log : OperationLog σ) : OperationLog σ :=
  request.make.leave log

/-- The log after requests, some of which may have failed. -/
def afterRequests (requests : List Request) (log : OperationLog σ) : OperationLog σ :=
  requests.foldl (fun log request => request.leave log) log

/-- What a request has no business with is what it was: the undo records if it is a flush, the user
records if it is not. -/
def Request.Spares : Request → Contents → Contents → Prop
  | .plain (.flush _), before, after | .flushIn _ _, before, after =>
    ∀ block, after[Key.undo block]? = before[Key.undo block]?
  | .plain _, before, after => after.records = before.records

theorem keepsStore_request {kept : σ → Prop} (h : Guards kept) (request : Request) :
    KeepsStore kept (request.make : Action (OperationLog σ) Unit) := by
  cases request with
  | plain call => exact keepsStore_make h call
  | flushIn order cursor =>
    exact .get_bind fun _ _ => .bind
      (keepsStore_flushListed (keeps_writeOut_of_guards h cursor _)) fun _ => .pure fun _ => id

theorem kept_afterRequests {kept : σ → Prop} (h : Guards kept) (requests : List Request)
    {log : OperationLog σ} (hLog : kept log.store) : kept (afterRequests requests log).store := by
  induction requests generalizing log with
  | nil => exact hLog
  | cons request requests ih => exact ih ((keepsStore_request h request).leave hLog)

end

theorem Guards.of_falters {σ τ : Type} [Store σ] [Store τ] {R : σ → τ → Prop}
    {errs : Error → Prop} (h : Store.Falters R errs) {kept : τ → Prop} (hGuards : Guards kept) :
    Guards fun s => ∃ t, R s t ∧ kept t where
  get key := (h.get key).meets (hGuards.get key)
  getMany keys := (h.getMany keys).meets (hGuards.getMany keys)
  put key value hPuts := (h.put key value).meets (hGuards.put key value hPuts)
  deleteMany keys := (h.deleteMany keys).meets (hGuards.deleteMany keys)
  range start stop limit := (h.range start stop limit).meets (hGuards.range start stop limit)
  sync := h.sync.meets hGuards.sync

theorem guards_putByLog :
    Guards fun s : Checkpointed => s.current.PutByLog ∧ s.saved.PutByLog where
  get _ _ := id
  getMany _ _ := id
  put _ _ hPuts _ hs := ⟨hs.1.insert hPuts, hs.2⟩
  deleteMany keys _ hs := ⟨hs.1.eraseAll keys, hs.2⟩
  range _ _ _ _ := id
  sync _ hs := ⟨hs.1, hs.1⟩

theorem overlooks_records (records : Records) :
    Checkpointed.Overlooks fun s => s.current.records = records :=
  fun _ _ hAccords hs => hAccords.records_eq.trans hs

section

variable {σ : Type} [Store σ] {R : σ → Checkpointed → Prop} {errs : Error → Prop}

/-- A flush writes under user keys and the cursor key. -/
theorem keeps_writeOut_undo (h : Store.Falters R errs) (before : Contents) (ops : List Operation)
    (cursor : Cursor) :
    Action.Keeps (fun s => ∃ t, R s t ∧
      ∀ block, t.current[Key.undo block]? = before[Key.undo block]?) (writeOut ops cursor) := by
  refine keeps_writeOut (fun op _ => (h.put _ _).meets ?_) ((h.deleteMany _).meets ?_)
    (keeps_putCursor ((h.put _ _).meets ?_) (h.sync.meets ?_))
  · intro s hs block
    exact (Contents.getElem?_insert s.current _ _ _).trans
      ((if_neg (Key.user_ne_undo op.key block)).trans (hs block))
  · intro s hs block
    exact (Contents.getElem?_eraseAll_of_not_mem fun op _ =>
      Key.user_ne_undo op.key block).trans (hs block)
  · intro s hs block
    exact (Contents.getElem?_insert s.current _ _ _).trans
      ((if_neg (Key.undo_ne_cursor block).symm).trans (hs block))
  · exact fun _ => id

/-- What says nothing of undo records, of the cursor and of what was saved is kept by every call but a
flush. -/
theorem keepsStore_of_overlooks (h : Store.Falters R errs) {kept : Checkpointed → Prop}
    (hKept : Checkpointed.Overlooks kept)
    (hCursor : ∀ s text, kept s → kept { s with current := s.current.insert Key.cursor text })
    (hSync : ∀ s, kept s → kept (.ofContents s.current)) {call : Call}
    (hCall : call.flushes = false) :
    KeepsStore (fun s => ∃ t, R s t ∧ kept t) (call.make : Action (OperationLog σ) Unit) := by
  cases call with
  | add ops => exact fun _ => id
  | record block ops =>
    have hRecord := (UndoLog.falters_record h block ops).meets (hKept.record block ops)
    exact .bind (keepsStore_onStore hRecord) fun _ => .pure fun _ => id
  | flush cursor => cases hCall
  | purge height =>
    have hPurge := (UndoLog.falters_purge h height).meets (hKept.purge height)
    exact .bind (keepsStore_onStore hPurge) fun _ => .pure fun _ => id
  | replay height =>
    have hBatches := (UndoLog.falters_batchesAbove h height).meets
      (Checkpointed.keeps_batchesAbove kept height)
    exact .bind (keepsStore_replay hBatches) fun _ => .pure fun _ => id
  | discardAbove height =>
    have hDiscard := (UndoLog.falters_discardAbove h height).meets (hKept.discardAbove height)
    exact .bind (keepsStore_onStore hDiscard) fun _ => .pure fun _ => id
  | writeCursor cursor =>
    refine keepsStore_writeCursor (keeps_putCursor ((h.put _ _).meets ?_) (h.sync.meets ?_))
    · exact fun s hs => hCursor s _ hs
    · exact fun s hs => hSync s hs

theorem Request.spares_plain_iff {call : Call} (hCall : call.flushes = false)
    {before after : Contents} :
    (Request.plain call).Spares before after ↔ after.records = before.records := by
  cases call with
  | flush cursor => cases hCall
  | _ => exact .rfl

theorem keepsStore_spares (h : Store.Falters R errs) (request : Request) (before : Contents) :
    KeepsStore (fun s => ∃ t, R s t ∧ request.Spares before t.current)
      (request.make : Action (OperationLog σ) Unit) := by
  have hWrite (cursor : Cursor) (ops : List Operation) := keeps_writeOut_undo h before ops cursor
  have hSpares (call : Call) (hCall : call.flushes = false) :=
    keepsStore_of_overlooks h (overlooks_records before.records)
      (fun s text hs => (Contents.records_insert_cursor s.current text).trans hs) (fun _ => id) hCall
  cases request with
  | flushIn order cursor =>
    exact .get_bind fun _ _ => .bind (keepsStore_flushListed (hWrite cursor _)) fun _ =>
      .pure fun _ => id
  | plain call =>
    cases hFlushes : call.flushes with
    | false =>
      simp only [Request.spares_plain_iff hFlushes]
      exact hSpares call hFlushes
    | true =>
      cases call with
      | flush cursor => exact .bind (keepsStore_flush (hWrite cursor)) fun _ => .pure fun _ => id
      | _ => cases hFlushes

theorem Request.spares_self (request : Request) (contents : Contents) :
    request.Spares contents contents := by
  cases request with
  | flushIn order cursor => exact fun _ => rfl
  | plain call =>
    cases call with
    | flush cursor => exact fun _ => rfl
    | _ => exact rfl

theorem exists_spared (h : Store.Falters R errs) (request : Request) {log : OperationLog σ}
    {s : Checkpointed} (hLog : R log.store s) :
    ∃ t, R (request.leave log).store t ∧ request.Spares s.current t.current :=
  (keepsStore_spares h request s.current).leave ⟨s, hLog, request.spares_self s.current⟩

theorem batchesAbove_ok {s : Checkpointed} (hPut : s.current.PutByLog)
    (hShort : ∀ block record, s.current[Key.undo block]? = some record →
      record.length < Wire.lengthLimit)
    (height : UInt64) : ∃ batches, UndoLog.batchesAbove height s = .ok batches s := by
  have hRun : UndoLog.batchesAbove height s =
      Action.ofExcept ((s.current.between (Key.undo Key.lastBlock) (Key.undo height)).mapM
        fun e : Entry => Operation.decodeBatch e.2) s := rfl
  rw [hRun]
  cases hDecode : (s.current.between (Key.undo Key.lastBlock) (Key.undo height)).mapM
      fun e : Entry => Operation.decodeBatch e.2 with
  | ok batches => exact ⟨batches, rfl⟩
  | error e =>
    obtain ⟨⟨key, record⟩, hMem, hFails⟩ := Action.exists_of_mapM_error hDecode
    obtain ⟨hRecord, hLow, -⟩ := Contents.mem_between_iff.mp hMem
    -- Between undo keys there is no other key.
    obtain ⟨block, rfl⟩ : ∃ block, key = Key.undo block := by
      cases hPut key record hRecord with
      | user text value => exact absurd (Key.user_lt_undo text Key.lastBlock) hLow
      | cursor cursor => exact absurd (Key.cursor_lt_undo Key.lastBlock) hLow
      | undo block ops hKinds => exact ⟨block, rfl⟩
    obtain ⟨ops, hOk, -⟩ := hPut.wellFormed.undo block record hRecord (hShort _ _ hRecord)
    rw [hOk] at hFails
    cases hFails

theorem replay_fails (h : Store.Falters R errs) {log log' : OperationLog σ} {s : Checkpointed}
    (hLog : R log.store s) (hPut : s.current.PutByLog)
    (hShort : ∀ block record, s.current[Key.undo block]? = some record →
      record.length < Wire.lengthLimit)
    {height : UInt64} {e : Error} (hFails : replay height log = .error e log') : errs e := by
  obtain ⟨batches, hBatches⟩ := batchesAbove_ok hPut hShort height
  have hOther : onStore (UndoLog.batchesAbove height)
      (⟨s, log.pending, log.lastCursor⟩ : OperationLog Checkpointed) = .ok batches _ :=
    Action.within_eq_of_ok hBatches
  have hAgree := falters_replay h height log ⟨s, log.pending, log.lastCursor⟩ ⟨hLog, rfl, rfl⟩
  rw [hFails, replay, Action.bind_eq_of_ok hOther] at hAgree
  obtain hAgree | ⟨e', _, hFails', hError, -⟩ := hAgree
  · cases hAgree
  · cases hFails'
    exact hError

theorem getCursor_fails (h : Store.Falters R errs) {log log' : OperationLog σ} {s : Checkpointed}
    (hLog : R log.store s) (hPut : s.current.PutByLog) {e : Error}
    (hFails : getCursor log = .error e log') : e = .cursorNotFound ∨ errs e := by
  have hAgree := falters_getCursor h log ⟨s, log.pending, log.lastCursor⟩ ⟨hLog, rfl, rfl⟩
  rw [hFails] at hAgree
  obtain hAgree | ⟨e', _, hFails', hError, -⟩ := hAgree
  · left
    cases hText : s.current[Key.cursor]? with
    | none =>
      rw [getCursor_eq_of_none hText] at hAgree
      cases hAgree
      rfl
    | some text =>
      obtain ⟨cursor, hDecode⟩ := hPut.wellFormed.cursor text hText
      rw [getCursor_eq_of_some hText, hDecode] at hAgree
      cases hAgree
  · cases hFails'
    exact .inr hError

/-- A log begins on an empty store of which any call may fail without effect, and any requests are
made of it. Then every key is of exactly one kind, every undo record is a batch of valid operations
and the cursor is one, in memory as in what was saved; so a replay finds no corrupt record and no
invalid cursor is read. The next request spares the records that are none of its business. -/
theorem key_space_well_formed (h : Store.Falters R fun e => e.isStoreFailure = true) {store : σ}
    (hEmpty : R store (.ofContents ∅)) (requests : List Request) :
    ∃ s, R (afterRequests requests (ofStore store)).store s ∧
      s.current.WellFormed ∧ s.saved.WellFormed ∧
      ((∀ block record, s.current[Key.undo block]? = some record →
          record.length < Wire.lengthLimit) →
        ∀ height e log, replay height (afterRequests requests (ofStore store)) = .error e log →
          e.isStoreFailure = true) ∧
      (∀ e log, getCursor (afterRequests requests (ofStore store)) = .error e log →
        e = .cursorNotFound ∨ e.isStoreFailure = true) ∧
      ∀ request : Request, ∃ t,
        R (request.leave (afterRequests requests (ofStore store))).store t ∧
          request.Spares s.current t.current := by
  have hBegun : ∃ s : Checkpointed, R (ofStore store).store s ∧
      s.current.PutByLog ∧ s.saved.PutByLog :=
    ⟨_, hEmpty, Contents.putByLog_empty, Contents.putByLog_empty⟩
  obtain ⟨s, hStore, hCurrent, hSaved⟩ :=
    kept_afterRequests (Guards.of_falters h guards_putByLog) requests hBegun
  exact ⟨s, hStore, hCurrent.wellFormed, hSaved.wellFormed,
    fun hShort _ _ _ hFails => replay_fails h hStore hCurrent hShort hFails,
    fun _ _ hFails => getCursor_fails h hStore hCurrent hFails,
    fun request => exists_spared h request hStore⟩

end

def brokenFlush : List Request :=
  [.plain (.add [⟨⟨.unset, []⟩, "b"⟩]), .plain (.flush (.blank 1)),
    .plain (.record 7 [.assign "a" [0x31], .remove "b"]),
    .plain (.add [.assign "a" [0x31], .remove "b"]), .flushIn List.reverse ⟨"t:1", "id", 7⟩]

/-- The cursor cannot be put the first time. -/
def noCursorOnce : Faulty Contents :=
  ⟨∅, [⟨.put, some Key.cursor, 0, 1, .transientStore "timed out"⟩], .zero⟩

/-- The first flush is refused and the second one breaks off before it has put the cursor. -/
theorem key_space_well_formed_after_broken_flush :
    (afterRequests brokenFlush (ofStore noCursorOnce)).store.inner.entries =
        [(Key.user "a", [0x31]), (Key.undo 7, Operation.encodeBatch [.remove "a"])] ∧
      (afterRequests brokenFlush (ofStore noCursorOnce)).store.inner.WellFormed ∧
      ∀ height e log, replay height (afterRequests brokenFlush (ofStore noCursorOnce)) =
        .error e log → e.isStoreFailure = true := by
  have hEmpty : Faulty.Above (σ := Contents) Eq (fun e => e.isStoreFailure = true) noCursorOnce
      (Checkpointed.ofContents ∅).current := ⟨rfl, by decide⟩
  obtain ⟨s, ⟨hInner, -⟩, hFormed, -, hReplay, -⟩ :=
    key_space_well_formed (Faulty.falters Store.simulation_contents).checkpointed hEmpty brokenFlush
  have hEntries : (afterRequests brokenFlush (ofStore noCursorOnce)).store.inner.entries =
      [(Key.user "a", [0x31]), (Key.undo 7, Operation.encodeBatch [.remove "a"])] := by
    decide +kernel
  refine ⟨hEntries, hInner ▸ hFormed, hReplay fun block record hRecord => ?_⟩
  have hMem := Contents.mem_entries_iff.mpr hRecord
  rw [← hInner, hEntries] at hMem
  have hShort : ∀ entry ∈ [(Key.user "a", [0x31]),
      (Key.undo 7, Operation.encodeBatch [.remove "a"])], entry.2.length < Wire.lengthLimit := by
    decide +kernel
  exact hShort _ hMem

end OperationLog

end ForkLog
