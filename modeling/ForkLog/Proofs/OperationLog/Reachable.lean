import Mathlib
import ForkLog.OperationLog
import ForkLog.Proofs.Action
import ForkLog.Proofs.Store.Contents

/-! # What a log can come to hold

The calls of an operation log put entries under keys of three kinds only. Whatever is true of a store
and stays true when such an entry is put, or when anything is removed, is true after all calls, whether
they succeed or fail.
-/

namespace ForkLog

set_option autoImplicit false

namespace OperationLog

/-- The entries that an operation log puts. -/
inductive Puts : Bytes → Bytes → Prop
  | user (key : String) (value : Bytes) : Puts (Key.user key) value
  | cursor (cursor : Cursor) : Puts Key.cursor cursor.encode
  | undo (block : UInt64) (ops : List Operation) (hKinds : ∀ op ∈ ops, op.kind ≠ .unset) :
      Puts (Key.undo block) (Operation.encodeBatch ops)

/-- No call on the store breaks the condition, as long as an operation log makes it. -/
structure Guards {σ : Type} [Store σ] (kept : σ → Prop) : Prop where
  get : ∀ key, Action.Keeps kept (Store.get key)
  getMany : ∀ keys, Action.Keeps kept (Store.getMany keys)
  put : ∀ key value, Puts key value → Action.Keeps kept (Store.put key value)
  deleteMany : ∀ keys, Action.Keeps kept (Store.deleteMany keys)
  range : ∀ start stop limit, Action.Keeps kept (Store.range start stop limit)
  sync : Action.Keeps kept Store.sync

end OperationLog

namespace UndoLog

variable {σ : Type} [Store σ] {kept : σ → Prop}

theorem kinds_inverseOf (ops : List Operation) (previous : List (Option Bytes)) :
    ∀ op ∈ inverseOf ops previous, op.kind ≠ .unset := by
  intro undo hUndo
  rw [inverseOf, List.mem_reverse, List.mem_filterMap] at hUndo
  obtain ⟨⟨op, value⟩, -, hEq⟩ := hUndo
  exact (Records.inverse?_eq_some hEq).2.1

theorem keeps_record (h : OperationLog.Guards kept) (block : UInt64) (ops : List Operation) :
    Action.Keeps kept (record block ops) := by
  have hInverse : Action.Meets kept (inverse ops)
      (fun undo s => kept s ∧ ∀ op ∈ undo, op.kind ≠ .unset) kept := by
    refine .bind (.ofExcept (fun _ _ _ => id) fun _ => id) fun _ => ?_
    refine .bind (h.getMany _) fun previous => .pure fun s hs => ⟨hs, kinds_inverseOf ops previous⟩
  refine .bind hInverse fun undo => .of_fact (∀ op ∈ undo, op.kind ≠ .unset) (fun _ => And.right) ?_
  intro hKinds
  have hPut := h.put _ _ (.undo block undo hKinds)
  exact (Action.Meets.bind hPut fun _ => .pure fun _ => id).imp (fun _ => And.left)
    (fun _ _ => id) fun _ => id

theorem keeps_deleteEntries (h : OperationLog.Guards kept) (entries : List Entry) :
    Action.Keeps kept (deleteEntries entries) := by
  unfold deleteEntries
  split
  · exact .pure fun _ => id
  · exact .bind (h.deleteMany _) fun _ => .pure fun _ => id

theorem keeps_purge (h : OperationLog.Guards kept) (height : UInt64) :
    Action.Keeps kept (purge height) :=
  .bind (h.range _ _ _) fun entries => keeps_deleteEntries h entries

theorem keeps_discardAbove (h : OperationLog.Guards kept) (height : UInt64) :
    Action.Keeps kept (discardAbove height) :=
  .bind (h.range _ _ _) fun entries => keeps_deleteEntries h entries

theorem keeps_batchesAbove (h : OperationLog.Guards kept) (height : UInt64) :
    Action.Keeps kept (batchesAbove height) :=
  .bind (h.range _ _ _) fun _ => .ofExcept (fun _ _ _ => id) fun _ => id

end UndoLog

namespace OperationLog

variable {σ : Type} {kept : σ → Prop}

/-- The step of the log keeps what is true of the store. -/
abbrev KeepsStore {α : Type} (kept : σ → Prop) (step : Action (OperationLog σ) α) : Prop :=
  Action.Keeps (fun log => kept log.store) step

theorem keepsStore_onStore {α : Type} {step : Action σ α} (h : Action.Keeps kept step) :
    KeepsStore kept (onStore step) := by
  intro log hLog
  have hStep := h log.store hLog
  simp only [onStore, Action.within]
  generalize step log.store = result at hStep
  cases result <;> exact hStep

variable [Store σ]

theorem keeps_putAll {ops : List Operation}
    (hPut : ∀ op ∈ ops, Action.Keeps kept (Store.put (Key.user op.key) op.value)) :
    Action.Keeps kept (putAll ops) := by
  induction ops with
  | nil => exact .pure fun _ => id
  | cons op ops ih =>
    obtain ⟨hFirst, hRest⟩ := List.forall_mem_cons.mp hPut
    exact .bind hFirst fun _ => ih hRest

theorem keeps_putCursor {cursor : Cursor}
    (hPut : Action.Keeps kept (Store.put Key.cursor cursor.encode))
    (hSync : Action.Keeps kept Store.sync) : Action.Keeps kept (putCursor cursor) :=
  .bind hPut fun _ => hSync

theorem keeps_writeOut {ops : List Operation} {cursor : Cursor}
    (hPut : ∀ op ∈ assignments ops, Action.Keeps kept (Store.put (Key.user op.key) op.value))
    (hDelete : Action.Keeps kept
      (Store.deleteMany ((removals ops).map fun op => Key.user op.key)))
    (hCursor : Action.Keeps kept (putCursor cursor)) : Action.Keeps kept (writeOut ops cursor) := by
  refine .bind (.ofExcept (fun _ _ _ => id) fun _ => id) fun _ => ?_
  refine .bind (keeps_putAll hPut) fun _ => ?_
  simp only []
  split
  · exact .bind hDelete fun _ => .bind hCursor fun _ => .pure fun _ => id
  · exact .bind hCursor fun _ => .pure fun _ => id

theorem keepsStore_flushListed {listing : List Operation} {cursor : Cursor}
    (hWrite : Action.Keeps kept (writeOut listing cursor)) :
    KeepsStore kept (flushListed listing cursor : Action (OperationLog σ) Nat) := by
  refine .get_bind fun _ _ => ?_
  split
  · exact .pure fun _ => id
  · refine .bind (keepsStore_onStore hWrite) fun count => ?_
    exact .bind (fun _ => id) fun _ => .bind (fun _ => id) fun _ => .pure fun _ => id

theorem keepsStore_flush {cursor : Cursor}
    (hWrite : ∀ ops, Action.Keeps kept (writeOut ops cursor)) :
    KeepsStore kept (flush cursor : Action (OperationLog σ) Nat) :=
  .get_bind fun _ _ => keepsStore_flushListed (hWrite _)

theorem keepsStore_replay {height : UInt64}
    (hBatches : Action.Keeps kept (UndoLog.batchesAbove height)) :
    KeepsStore kept (replay height) := by
  refine .bind (keepsStore_onStore hBatches) fun batches => ?_
  exact .bind (fun _ => id) fun _ => .pure fun _ => id

theorem keepsStore_writeCursor {cursor : Cursor} (hPut : Action.Keeps kept (putCursor cursor)) :
    KeepsStore kept (writeCursor cursor) :=
  .bind (keepsStore_onStore hPut) fun _ => fun _ => id

/-- What can be asked of an operation log, with any arguments. -/
inductive Call where
  | add (ops : List Operation)
  | record (block : UInt64) (ops : List Operation)
  | flush (cursor : Cursor)
  | purge (height : UInt64)
  | replay (height : UInt64)
  | discardAbove (height : UInt64)
  | writeCursor (cursor : Cursor)

def Call.flushes : Call → Bool
  | .flush _ => true
  | _ => false

def Call.make : Call → Action (OperationLog σ) Unit
  | .add ops => OperationLog.add ops
  | .record block ops => do let _ ← OperationLog.record block ops
  | .flush cursor => do let _ ← OperationLog.flush cursor
  | .purge height => do let _ ← OperationLog.purge height
  | .replay height => do let _ ← OperationLog.replay height
  | .discardAbove height => do let _ ← OperationLog.discardAbove height
  | .writeCursor cursor => OperationLog.writeCursor cursor

/-- The log after a call, which may have failed. -/
def Call.leave (call : Call) (log : OperationLog σ) : OperationLog σ :=
  match call.make log with
  | .ok _ log | .error _ log => log

theorem Call.leave_eq (call : Call) (log : OperationLog σ) :
    call.leave log = call.make.leave log := by
  rw [Call.leave, Action.leave]
  cases call.make log <;> rfl

/-- The log after calls, some of which may have failed. -/
def afterCalls (calls : List Call) (log : OperationLog σ) : OperationLog σ :=
  calls.foldl (fun log call => call.leave log) log

theorem keeps_writeOut_of_guards (h : Guards kept) (cursor : Cursor) (ops : List Operation) :
    Action.Keeps kept (writeOut ops cursor) :=
  keeps_writeOut (fun op _ => h.put _ _ (.user op.key op.value)) (h.deleteMany _)
    (keeps_putCursor (h.put _ _ (.cursor cursor)) h.sync)

theorem keepsStore_make (h : Guards kept) (call : Call) :
    KeepsStore kept (call.make : Action (OperationLog σ) Unit) := by
  cases call with
  | add ops => exact fun _ => id
  | record block ops =>
    exact .bind (keepsStore_onStore (UndoLog.keeps_record h block ops)) fun _ => .pure fun _ => id
  | flush cursor =>
    exact .bind (keepsStore_flush (keeps_writeOut_of_guards h cursor)) fun _ => .pure fun _ => id
  | purge height =>
    exact .bind (keepsStore_onStore (UndoLog.keeps_purge h height)) fun _ => .pure fun _ => id
  | replay height =>
    exact .bind (keepsStore_replay (UndoLog.keeps_batchesAbove h height)) fun _ => .pure fun _ => id
  | discardAbove height =>
    exact .bind (keepsStore_onStore (UndoLog.keeps_discardAbove h height)) fun _ => .pure fun _ => id
  | writeCursor cursor =>
    exact keepsStore_writeCursor (keeps_putCursor (h.put _ _ (.cursor cursor)) h.sync)

/-- Induction over the calls that were made of a log. -/
theorem kept_afterCalls (h : Guards kept) (calls : List Call) {log : OperationLog σ}
    (hLog : kept log.store) : kept (afterCalls calls log).store := by
  induction calls generalizing log with
  | nil => exact hLog
  | cons call calls ih =>
    have hCall := (keepsStore_make h call).leave hLog
    rw [← Call.leave_eq] at hCall
    exact ih hCall

end OperationLog

namespace Contents

/-- Every key is that of a user record, of the cursor or of an undo record. -/
def WellKeyed (contents : Contents) : Prop :=
  ∀ key, contents[key]?.isSome →
    (∃ text, key = Key.user text) ∨ key = Key.cursor ∨ ∃ block, key = Key.undo block

theorem wellKeyed_empty : (∅ : Contents).WellKeyed := by
  intro key hSome
  simp at hSome

theorem WellKeyed.insert {contents : Contents} (h : contents.WellKeyed) {key value : Bytes}
    (hPuts : OperationLog.Puts key value) : WellKeyed (contents.insert key value) := by
  intro other hSome
  rw [getElem?_insert] at hSome
  split at hSome
  case isTrue hSame =>
    subst hSame
    cases hPuts with
    | user text => exact .inl ⟨text, rfl⟩
    | cursor => exact .inr (.inl rfl)
    | undo block => exact .inr (.inr ⟨block, rfl⟩)
  case isFalse => exact h other hSome

theorem WellKeyed.eraseAll {contents : Contents} (h : contents.WellKeyed) (keys : List Bytes) :
    (contents.eraseAll keys).WellKeyed := by
  intro key hSome
  rw [getElem?_eraseAll] at hSome
  split at hSome
  case isTrue => cases hSome
  case isFalse => exact h key hSome

theorem guards_wellKeyed : OperationLog.Guards WellKeyed where
  get _ _ := id
  getMany _ _ := id
  put _ _ hPuts _ h := h.insert hPuts
  deleteMany keys _ h := h.eraseAll keys
  range _ _ _ _ := id
  sync _ := id

end Contents

end ForkLog
