import Mathlib
import ForkLog.Proofs.Follower.Writing

/-! # What waits to be written

Operations wait only when they have passed the check of their block or were read from an undo record.
Whatever a store does, then, what a follower has pending can be written.
-/

namespace ForkLog

set_option autoImplicit false

namespace OperationLog

variable {σ α : Type}

theorem meets_onStore {before failed : σ → Prop} {after : α → σ → Prop} {step : Action σ α}
    (h : Action.Meets before step after failed) :
    Action.Meets (fun log => before log.store ∧ log.pending.Valid) (onStore step)
      (fun a log => after a log.store ∧ log.pending.Valid)
      (fun log => failed log.store ∧ log.pending.Valid) :=
  h.within (fun _ _ => rfl) fun _ _ => id

theorem keeps_valid_onStore (step : Action σ α) :
    Action.Keeps (fun log : OperationLog σ => log.pending.Valid) (onStore step) :=
  (meets_onStore (Action.keeps_true step)).imp (fun _ hLog => ⟨trivial, hLog⟩)
    (fun _ _ => And.right) fun _ => And.right

theorem meets_add (ops : List Operation) :
    Action.Meets (fun log : OperationLog σ => (∀ op ∈ ops, op.kind ≠ .unset) ∧ log.pending.Valid)
      (add ops) (fun _ log => log.pending.Valid) fun log => log.pending.Valid :=
  fun _ hLog => PendingSet.Valid.addAll hLog.2 hLog.1

theorem keeps_valid_setLastCursor (cursor : Cursor) :
    Action.Keeps (fun log : OperationLog σ => log.pending.Valid) (setLastCursor cursor) := fun _ => id

theorem keeps_valid_clearPending :
    Action.Keeps (fun log : OperationLog σ => log.pending.Valid) clearPending :=
  fun _ _ => PendingSet.valid_empty

variable [Store σ]

theorem meets_record (block : UInt64) (ops : List Operation) :
    Action.Meets (fun log : OperationLog σ => log.pending.Valid) (record block ops)
      (fun _ log => (∀ op ∈ ops, op.kind ≠ .unset) ∧ log.pending.Valid)
      fun log => log.pending.Valid := by
  cases hCheck : Operation.validateAll ops with
  | ok _ =>
    have hKinds := (Operation.validateAll_eq_ok_iff ops).mp hCheck
    exact (keeps_valid_onStore _).imp (fun _ => id) (fun _ _ hLog => ⟨hKinds, hLog⟩) fun _ => id
  | error e =>
    intro log hLog
    rw [record_eq_of_invalid hCheck]
    exact hLog

theorem meets_batchesAbove (height : UInt64) :
    Action.Meets (fun _ : σ => True) (UndoLog.batchesAbove height)
      (fun batches _ => ∀ op ∈ batches.flatten, op.kind ≠ .unset) fun _ => True := by
  refine (Action.keeps_true (UndoLog.above height)).bind fun entries =>
    .ofExcept (fun batches _ hFound _ op hOp => ?_) fun _ => id
  obtain ⟨ops, hMem, hOp⟩ := List.mem_flatten.mp hOp
  have hDecoded := Action.forall_mem_of_mapM_ok
    (fun _ ops hDecode => (Operation.decodeBatch_eq_ok_iff.mp hDecode).1) hFound
  exact (hDecoded ops hMem).kinds op hOp

theorem keeps_valid_replay (height : UInt64) :
    Action.Keeps (fun log : OperationLog σ => log.pending.Valid) (replay height) := by
  have hRead := (meets_onStore (meets_batchesAbove (σ := σ) height)).imp
    (fun log (hLog : log.pending.Valid) => ⟨trivial, hLog⟩) (fun _ _ => id) fun _ => And.right
  exact hRead.bind fun batches => (meets_add batches.flatten).bind fun _ => .pure fun _ => id

theorem keeps_valid_flushIn (order : PendingSet.Order) (cursor : Cursor) :
    Action.Keeps (fun log : OperationLog σ => log.pending.Valid) (flushIn order cursor) := by
  refine .get_bind fun _ _ => .get_bind fun _ _ => ?_
  split
  · exact .pure fun _ => id
  · exact (keeps_valid_onStore _).bind fun _ => keeps_valid_clearPending.bind fun _ =>
      (keeps_valid_setLastCursor cursor).bind fun _ => .pure fun _ => id

end OperationLog

namespace Follower

variable {σ α : Type}

theorem keeps_valid_update {change : Follower σ → Follower σ}
    (h : ∀ f, (change f).log = f.log) :
    Action.Keeps (fun f : Follower σ => f.log.pending.Valid) (update change) := by
  intro f (hf : f.log.pending.Valid)
  rw [← h f] at hf
  exact hf

theorem meets_retrying_of_onLog {before : Follower σ → Prop} {after : α → Follower σ → Prop}
    {step : Action (OperationLog σ) α} (h : Action.Meets before (onLog step) after before) :
    Action.Meets before (retrying step) after before :=
  fun f => h.retrying f.config.maxRetries f

theorem meets_onLog {before failed : OperationLog σ → Prop} {after : α → OperationLog σ → Prop}
    {step : Action (OperationLog σ) α} (h : Action.Meets before step after failed) :
    Action.Meets (fun f => before f.log) (onLog step) (fun a f => after a f.log)
      fun f => failed f.log := by
  intro f hf
  have hStep := h f.log hf
  simp only [onLog, Action.within]
  generalize step f.log = result at hStep
  cases result <;> exact hStep

variable [Store σ]

theorem meets_flushIn_of_flushOnceIn {before : Follower σ → Prop} {after : Nat → Follower σ → Prop}
    {orders : Nat → PendingSet.Order} {cursor : Cursor}
    (h : ∀ attempt, Action.Meets before (flushOnceIn (orders attempt) cursor) after before) :
    Action.Meets before (flushIn orders cursor) after before :=
  fun f => Action.Meets.attempting h f.config.maxRetries f

theorem keeps_purge_of_onLog {kept : Follower σ → Prop}
    (h : ∀ height, Action.Keeps kept (onLog (OperationLog.purge height))) :
    Action.Keeps kept purge := by
  refine .get_bind fun f _ => ?_
  cases f.lastFinalized with
  | none => exact .pure fun _ => id
  | some height => exact .bind (meets_retrying_of_onLog (h height)) fun _ => .pure fun _ => id

theorem valid_of_replay {f f' : Follower σ} {height : UInt64} {count : Nat}
    (hValid : f.log.pending.Valid)
    (h : retrying (OperationLog.replay height) f = .ok count f') : f'.log.pending.Valid :=
  (meets_retrying_of_onLog (meets_onLog (OperationLog.keeps_valid_replay height))).after_of_ok
    hValid h

theorem keeps_valid_flushIn (orders : Nat → PendingSet.Order) (cursor : Cursor) :
    Action.Keeps (fun f : Follower σ => f.log.pending.Valid) (flushIn orders cursor) :=
  meets_flushIn_of_flushOnceIn fun attempt =>
    (meets_onLog (OperationLog.keeps_valid_flushIn (orders attempt) cursor)).bind fun _ =>
      (keeps_valid_update fun _ => by rfl).bind fun _ => .pure fun _ => id

theorem keeps_valid_applyIn (orders : Nat → PendingSet.Order) (block : Block) :
    Action.Keeps (fun f : Follower σ => f.log.pending.Valid) (applyIn orders block) := by
  have hRecord : Action.Meets (fun f : Follower σ => f.log.pending.Valid)
      (retrying (OperationLog.record block.number block.operations))
      (fun _ f => (∀ op ∈ block.operations, op.kind ≠ .unset) ∧ f.log.pending.Valid)
      fun f => f.log.pending.Valid :=
    meets_retrying_of_onLog (meets_onLog (OperationLog.meets_record _ _))
  refine .bind (keeps_purge_of_onLog fun _ => meets_onLog (OperationLog.keeps_valid_onStore _))
    fun _ => hRecord.bind fun _ => (meets_onLog (OperationLog.meets_add _)).bind fun _ =>
      .get_bind fun f _ => ?_
  split
  · exact (keeps_valid_flushIn orders block.cursor).bind fun _ => keeps_valid_update fun _ => by rfl
  · exact keeps_valid_update fun _ => by rfl

theorem keeps_valid_takeBackIn (orders : Nat → PendingSet.Order) (fork : Fork) :
    Action.Keeps (fun f : Follower σ => f.log.pending.Valid) (takeBackIn orders fork) :=
  .bind (meets_retrying_of_onLog (meets_onLog (OperationLog.keeps_valid_replay _))) fun _ =>
    .bind (keeps_valid_flushIn orders fork.cursor) fun _ =>
      .bind (meets_retrying_of_onLog (meets_onLog (OperationLog.keeps_valid_onStore _)))
        fun _ => keeps_valid_update fun _ => by rfl

/-- Whatever comes of an event, what is pending can still be written. -/
theorem keeps_valid_handleIn (orders : Nat → PendingSet.Order) (event : Event) :
    Action.Keeps (fun f : Follower σ => f.log.pending.Valid) (handleIn orders event) := by
  cases event with
  | data block =>
    refine .get_bind fun f _ => ?_
    split
    · exact .pure fun _ => id
    · exact (keeps_valid_update fun _ => by rfl).bind fun _ => keeps_valid_applyIn orders block
  | undo fork =>
    refine .get_bind fun f _ => ?_
    split
    · exact .pure fun _ => id
    · exact keeps_valid_takeBackIn orders fork

theorem valid_of_handleIn {f f' : Follower σ} {orders : Nat → PendingSet.Order} {event : Event}
    (hValid : f.log.pending.Valid) (h : handleIn orders event f = .ok () f') :
    f'.log.pending.Valid :=
  (keeps_valid_handleIn orders event).after_of_ok hValid h

/-- The events of a run leave no other changes pending than such as can be written. -/
theorem valid_consumeIn (orders : Nat → Nat → PendingSet.Order) {f : Follower σ}
    (hValid : f.log.pending.Valid) (arrivals : List Arrival) (taken : Nat) :
    (consumeIn orders arrivals taken f).2.log.pending.Valid := by
  induction arrivals generalizing f taken with
  | nil => exact hValid
  | cons arrival rest ih =>
    obtain ⟨item, stopping⟩ := arrival
    have hBegun : (if stopping then f.requestStop else f).log.pending.Valid := by
      split <;> exact hValid
    simp only [consumeIn]
    generalize (if stopping then f.requestStop else f) = g at hBegun
    split
    · exact hBegun
    · cases item with
      | error e => exact hBegun
      | ok event =>
        simp only []
        cases hHandle : handleIn (orders taken) event g with
        | ok _ f' => exact ih (valid_of_handleIn hBegun hHandle) (taken + 1)
        | error e f' => exact (keeps_valid_handleIn _ event).failed_of_error hBegun hHandle

end Follower

end ForkLog
