import Mathlib
import ForkLog.Proofs.Cursor
import ForkLog.Proofs.Follower.Faltering
import ForkLog.Proofs.OperationLog.Reachable
import ForkLog.Proofs.Store.Faulty
import ForkLog.Proofs.Unwind

/-! # Blocks that come again after a failure

A call that fails in the middle of a block leaves behind what was written before it. When the block
comes again it is recorded against that, and this is where taking it back then leads.
-/

namespace ForkLog

set_option autoImplicit false

/-- Contents in the middle of a block: under each key there is what was there before or what the
block leaves, and no later block has an undo record. -/
structure Contents.Midway (before after : Records) (block : UInt64) (contents : Contents) :
    Prop where
  records : ∀ key, contents.records key = before key ∨ contents.records key = after key
  undo : ∃ batches, contents.Undoes (Key.undo (block - 1)) batches ∧
    ∀ later, block < later → batches later = none

namespace Contents.Midway

variable {before after : Records} {block : UInt64} {contents : Contents}

theorem addressable (h : contents.Midway before after block) (hBefore : before.Addressable)
    (hAfter : after.Addressable) : contents.records.Addressable := by
  intro key value hValue
  obtain hSame | hSame := h.records key
  · exact hBefore key value (hSame.symm.trans hValue)
  · exact hAfter key value (hSame.symm.trans hValue)

theorem of_undo_eq (h : contents.Midway before after block) {other : Contents}
    (hRecords : ∀ key, other.records key = contents.records key ∨ other.records key = after key)
    (hUndo : ∀ key, Key.undo Key.lastBlock ≤ key → other[key]? = contents[key]?) :
    other.Midway before after block where
  records key := by
    obtain hSame | hAfter := hRecords key
    · rw [hSame]
      exact h.records key
    · exact .inr hAfter
  undo := by
    obtain ⟨batches, hUndoes, hLater⟩ := h.undo
    exact ⟨batches, hUndoes.congr hUndo, hLater⟩

theorem assign (h : contents.Midway before after block) {op : Operation}
    (hOp : after op.key = some op.value) :
    Midway before after block (contents.insert (Key.user op.key) op.value) := by
  apply h.of_undo_eq
  · intro key
    rw [Contents.records, getElem?_insert]
    by_cases hKey : op.key = key
    · subst hKey
      rw [if_pos rfl, hOp]
      exact .inr rfl
    · rw [if_neg fun hEq => hKey (Key.user_injective hEq)]
      exact .inl rfl
  · intro key hLow
    rw [getElem?_insert, if_neg (Key.user_ne_of_undo_le hLow op.key)]

theorem remove (h : contents.Midway before after block) {ops : List Operation}
    (hOps : ∀ op ∈ ops, after op.key = none) :
    Midway before after block (contents.eraseAll (ops.map fun op => Key.user op.key)) := by
  apply h.of_undo_eq
  · intro key
    rw [Contents.records, getElem?_eraseAll]
    split
    case isTrue hTouched =>
      obtain ⟨op, hOp, hKey⟩ := List.mem_map.mp hTouched
      rw [← Key.user_injective hKey, hOps op hOp]
      exact .inr rfl
    case isFalse => exact .inl rfl
  · intro key hLow
    exact getElem?_eraseAll_of_not_mem fun op _ => Key.user_ne_of_undo_le hLow op.key

theorem putCursor (h : contents.Midway before after block) (cursor : Cursor) :
    Midway before after block (contents.insert Key.cursor cursor.encode) := by
  apply h.of_undo_eq
  · intro key
    rw [Contents.records, getElem?_insert, if_neg (Key.user_ne_cursor key).symm]
    exact .inl rfl
  · intro key hLow
    rw [getElem?_insert, if_neg (Key.cursor_ne_of_undo_le hLow)]

theorem putUndo (h : contents.Midway before after block) {undo : List Operation}
    (hUndo : Operation.RecordableAll undo) :
    Midway before after block
      (contents.insert (Key.undo block) (Operation.encodeBatch undo)) where
  records := by
    rw [records_insert_undo]
    exact h.records
  undo := by
    obtain ⟨batches, hUndoes, hLater⟩ := h.undo
    refine ⟨_, hUndoes.insert block hUndo, fun later hAbove => ?_⟩
    rw [Function.update_of_ne (UInt64.ne_of_lt hAbove).symm]
    exact hLater later hAbove

theorem purge (h : contents.Midway before after block) {height : UInt64} {keys : List Bytes}
    (hKeys : ∀ key ∈ keys, Key.undo height ≤ key) :
    (contents.eraseAll keys).Midway before after block where
  records key := by
    rw [Contents.records, getElem?_eraseAll, if_neg]
    · exact h.records key
    · exact fun hMem => hKeys _ hMem (Key.user_lt_undo key height)
  undo := by
    obtain ⟨batches, hUndoes, hLater⟩ := h.undo
    refine ⟨_, hUndoes.eraseAll keys, fun later hAbove => ?_⟩
    rw [hLater later hAbove]
    split <;> rfl

end Contents.Midway

theorem Contents.NoUndoAbove.midway {contents : Contents} {block : UInt64}
    (h : contents.NoUndoAbove (block - 1)) (after : Records) :
    contents.Midway contents.records after block where
  records _ := .inl rfl
  undo := ⟨_, h.undoes, fun _ _ => rfl⟩

namespace Faulty

variable {σ : Type} {R : σ → Contents → Prop} {before after : Records} {block : UInt64}

def Midway (R : σ → Contents → Prop) (before after : Records) (block : UInt64) (s : Faulty σ) :
    Prop :=
  Holding R (Contents.Midway before after block) s

variable [Store σ]

theorem keeps_deleteEntries (h : Store.Simulation R) {height : UInt64} {entries : List Entry}
    (hKeys : ∀ key ∈ entries.map Prod.fst, Key.undo height ≤ key) :
    Action.Keeps (Midway R before after block) (UndoLog.deleteEntries entries) := by
  unfold UndoLog.deleteEntries
  split
  · exact .pure fun _ => id
  · exact (meets_deleteMany h fun _ hMidway => hMidway.purge hKeys).bind fun _ => .pure fun _ => id

theorem keeps_purge (h : Store.Simulation R) (height : UInt64) :
    Action.Keeps (Midway R before after block) (UndoLog.purge height) := by
  refine (meets_range h (Key.undo height) Key.undoEnd).bind fun entries => ?_
  refine .of_fact (∀ key ∈ entries.map Prod.fst, Key.undo height ≤ key) ?_ fun hKeys => ?_
  · rintro s ⟨contents, _, _, rfl⟩ key hKey
    exact (Contents.mem_map_between_iff.mp hKey).2.1
  · refine (keeps_deleteEntries h hKeys).imp ?_ (fun _ _ => id) fun _ => id
    rintro s ⟨contents, hInner, hMidway, _⟩
    exact ⟨contents, hInner, hMidway⟩

theorem keeps_record (h : Store.Simulation R) (hBefore : before.Addressable)
    (hAfter : after.Addressable) {ops : List Operation} (hOps : Operation.RecordableAll ops) :
    Action.Keeps (Midway R before after block) (UndoLog.record block ops) := by
  have hInverse : Action.Meets (Midway R before after block) (UndoLog.inverse ops)
      (fun undo s => Midway R before after block s ∧ Operation.RecordableAll undo)
      (Midway R before after block) := by
    refine .bind (.ofExcept (fun _ _ _ => id) fun _ => id) fun _ => ?_
    refine (meets_getMany h _).bind fun values => .pure ?_
    rintro s ⟨contents, hInner, hMidway, rfl⟩
    refine ⟨⟨contents, hInner, hMidway⟩, ?_⟩
    rw [← UndoLog.inverse_records]
    exact (hMidway.addressable hBefore hAfter).inverse hOps
  refine hInverse.bind fun undo => .of_fact _ (fun s hs => hs.2) fun hUndo => ?_
  have hPut := meets_put h fun contents (hMidway : contents.Midway before after block) =>
    hMidway.putUndo hUndo
  exact (hPut.imp (fun _ hs => hs.1) (fun _ _ => id) fun _ => id).bind fun _ => .pure fun _ => id

theorem keeps_writeOut (h : Store.Simulation R) {ops : List Operation}
    (hOps : ∀ op ∈ ops, op.outcome = after op.key) (cursor : Cursor) :
    Action.Keeps (Midway R before after block) (OperationLog.writeOut ops cursor) := by
  have hAssign : ∀ op ∈ OperationLog.assignments ops, after op.key = some op.value := by
    intro op hOp
    obtain ⟨hMem, hKind⟩ := List.mem_filter.mp hOp
    rw [← hOps op hMem, Change.outcome, of_decide_eq_true hKind]
  have hRemove : ∀ op ∈ OperationLog.removals ops, after op.key = none := by
    intro op hOp
    obtain ⟨hMem, hKind⟩ := List.mem_filter.mp hOp
    rw [← hOps op hMem, Change.outcome, of_decide_eq_true hKind]
  refine OperationLog.keeps_writeOut (fun op hOp => ?_) ?_ (OperationLog.keeps_putCursor ?_ ?_)
  · exact meets_put h fun _ hMidway => hMidway.assign (hAssign op hOp)
  · exact meets_deleteMany h fun _ hMidway => hMidway.remove hRemove
  · exact meets_put h fun _ hMidway => hMidway.putCursor cursor
  · exact meets_sync h

end Faulty

namespace OperationLog

variable {σ : Type} {R : σ → Contents → Prop} {before after : Records} {block : UInt64}
  {pending : PendingSet}

/-- A log in the middle of a block, in which `pending` waits. -/
def Midway (R : σ → Contents → Prop) (before after : Records) (block : UInt64)
    (pending : PendingSet) (log : OperationLog (Faulty σ)) : Prop :=
  log.store.Midway R before after block ∧ log.pending = pending

theorem keeps_onStore {α : Type} {step : Action (Faulty σ) α}
    (h : Action.Keeps (Faulty.Midway R before after block) step) :
    Action.Keeps (Midway R before after block pending) (onStore step) :=
  h.within (fun _ _ => rfl) fun _ _ => id

variable [Store σ]

theorem meets_flushIn (h : Store.Simulation R)
    (hPending : ∀ (key : String) (change : Change), pending[key]? = some change →
      change.outcome = after key) (order : PendingSet.Order) (cursor : Cursor) :
    Action.Meets (Midway R before after block pending) (flushIn order cursor) (fun _ _ => True)
      (Midway R before after block pending) := by
  refine .get_bind fun log hLog => .get_bind fun _ _ => ?_
  have hOps : ∀ op ∈ order.list log.pending, op.outcome = after op.key := by
    intro op hOp
    rw [(order.perm log.pending).mem_iff, hLog.2] at hOp
    exact hPending op.key op.toChange (mem_operations_iff.mp hOp)
  split
  · exact .pure fun _ _ => trivial
  · exact (keeps_onStore (Faulty.keeps_writeOut h hOps cursor)).bind fun _ _ _ => trivial

end OperationLog

namespace Follower

variable {σ : Type} {R : σ → Contents → Prop} {before after : Records} {block : Block}
  {pending : PendingSet}

def Midway (R : σ → Contents → Prop) (before after : Records) (block : Block)
    (pending : PendingSet) (f : Follower (Faulty σ)) : Prop :=
  f.log.Midway R before after block.number pending ∧ f.caughtUp = true

def mend (f : Follower (Faulty σ)) : Follower (Faulty σ) :=
  { f with log := { f.log with store := f.log.store.clearFaults } }

def onContents (f : Follower σ) (contents : Contents) : Follower Checkpointed :=
  { f with log := { f.log with store := .ofContents contents } }

theorem alike_mend {f : Follower (Faulty σ)} {contents : Contents}
    (hInner : R f.log.store.inner contents) :
    Alike (fun s (t : Checkpointed) => Faulty.Mended R s t.current) f.mend
      (f.onContents contents) :=
  ⟨⟨⟨rfl, hInner⟩, rfl, rfl⟩, rfl, rfl, rfl, rfl, rfl, rfl, rfl⟩

theorem meets_onLog_caughtUp {α : Type} {step : Action (OperationLog (Faulty σ)) α}
    {P failed : OperationLog (Faulty σ) → Prop} {Q : α → OperationLog (Faulty σ) → Prop}
    (h : Action.Meets P step Q failed) :
    Action.Meets (fun f => P f.log ∧ f.caughtUp = true) (onLog step)
      (fun a f => Q a f.log ∧ f.caughtUp = true) (fun f => failed f.log ∧ f.caughtUp = true) :=
  h.within (fun _ _ => rfl) fun _ _ => id

/-- The operations become pending, and from here on some of them may be written. -/
theorem meets_add (R : σ → Contents → Prop) (before : Records) (block : Block) :
    Action.Meets (Midway R before before block ∅) (onLog (OperationLog.add block.operations))
      (fun _ => Midway R before (before.afterAll block.operations) block
        ((∅ : PendingSet).addAll block.operations)) (Midway R before before block ∅) := by
  rintro f ⟨⟨⟨contents, hInner, hMidway⟩, hEmpty⟩, hCaughtUp⟩
  have hMixed : contents.Midway before (before.afterAll block.operations) block.number :=
    ⟨fun key => .inl ((hMidway.records key).elim id id), hMidway.undo⟩
  exact ⟨⟨⟨contents, hInner, hMixed⟩, congrArg (PendingSet.addAll · block.operations) hEmpty⟩,
    hCaughtUp⟩

variable [Store σ]

theorem meets_flushIn (h : Store.Simulation R)
    (hPending : ∀ (key : String) (change : Change), pending[key]? = some change →
      change.outcome = after key) (orders : Nat → PendingSet.Order) (cursor : Cursor) :
    Action.Meets (Midway R before after block pending) (flushIn orders cursor) (fun _ _ => True)
      (Midway R before after block pending) :=
  meets_flushIn_of_flushOnceIn fun attempt =>
    (meets_onLog_caughtUp (OperationLog.meets_flushIn h hPending (orders attempt) cursor)).bind
      fun _ _ _ => trivial

theorem keeps_purge (h : Store.Simulation R) :
    Action.Keeps (Midway R before after block pending) purge :=
  keeps_purge_of_onLog fun height =>
    meets_onLog_caughtUp (OperationLog.keeps_onStore (Faulty.keeps_purge h height))

/-- Where a block fails, either nothing has happened to the user records yet or its operations are
pending and some of them may be written. -/
theorem meets_applyIn (h : Store.Simulation R) (hBefore : before.Addressable)
    (hOps : Operation.RecordableAll block.operations) (orders : Nat → PendingSet.Order) :
    Action.Meets (Midway R before before block ∅) (applyIn orders block) (fun _ _ => True)
      (fun f => Midway R before before block ∅ f ∨
        Midway R before (before.afterAll block.operations) block
          ((∅ : PendingSet).addAll block.operations) f) := by
  have hPending : ∀ (key : String) (change : Change),
      ((∅ : PendingSet).addAll block.operations)[key]? = some change →
        change.outcome = before.afterAll block.operations key := by
    intro key change hChange
    rw [← PendingSet.appliedTo_addAll_empty hOps.kinds, PendingSet.appliedTo, hChange]
  have hRecord : Action.Keeps (Midway R before before block ∅)
      (retrying (OperationLog.record block.number block.operations)) :=
    meets_retrying_of_onLog (meets_onLog_caughtUp
      (OperationLog.keeps_onStore (Faulty.keeps_record h hBefore hBefore hOps)))
  refine ((keeps_purge h).imp_failed fun _ => .inl).bind fun _ => ?_
  refine (hRecord.imp_failed fun _ => .inl).bind fun _ => ?_
  refine ((meets_add R before block).imp_failed fun _ => .inl).bind fun _ => ?_
  refine .get_bind fun f _ => ?_
  split
  · exact ((meets_flushIn h hPending orders block.cursor).imp_failed fun _ => .inr).bind
      fun _ _ _ => trivial
  · exact fun _ _ => trivial

theorem meets_onBlockIn (h : Store.Simulation R) (hBefore : before.Addressable)
    (hOps : Operation.RecordableAll block.operations) (orders : Nat → PendingSet.Order) :
    Action.Meets
      (fun f => f.log.Midway R before before block.number ∅ ∧
        (f.caughtUp = true ∨ f.resumeFrom ≤ block.number))
      (onBlockIn orders block) (fun _ _ => True)
      (fun f => Midway R before before block ∅ f ∨
        Midway R before (before.afterAll block.operations) block
          ((∅ : PendingSet).addAll block.operations) f) := by
  refine .get_bind fun f hf => ?_
  split
  · exact .pure fun _ _ => trivial
  · refine Action.Meets.bind ?_ fun _ => meets_applyIn h hBefore hOps orders
    exact fun f hf => ⟨hf.1, rfl⟩

/-- What may be left pending by a block makes no difference to a key that the block spares. -/
theorem taken_back_exactly {l : Ledger} {ops : List Operation}
    (hKinds : ∀ op ∈ ops, op.kind ≠ .unset)
    (hUpcoming : l.upcoming = l.records ∨ l.upcoming = l.records.afterAll ops) :
    (l.upcoming.afterAll ops).afterAll (l.records.inverse ops) = l.records := by
  funext key
  obtain hBack | ⟨hSpares, hSame⟩ :=
    Records.takesBack_inverse l.records hKinds (l.upcoming.afterAll ops) key
  · exact hBack
  · have hKey : l.upcoming key = l.records key := by
      obtain hUpcoming | hUpcoming := hUpcoming
      · rw [hUpcoming]
      · rw [hUpcoming, hSpares.afterAll rfl]
    rw [hSame, hSpares.afterAll hKey, hKey]

theorem onBlock_onFork_spec {f : Follower Checkpointed} {l : Ledger} {block : Block}
    (h : f.log.Shows (Key.undo (block.number - 1)) l) (hNumber : 0 < block.number)
    (hOps : Operation.RecordableAll block.operations)
    (hApplies : f.caughtUp = true ∨ f.resumeFrom ≤ block.number)
    (hLater : ∀ later, block.number < later → l.undo later = none)
    (hUpcoming : l.upcoming = l.records ∨ l.upcoming = l.records.afterAll block.operations)
    (cursor : Cursor) :
    ∃ f₁ f₂, onBlock block f = .ok () f₁ ∧ onFork ⟨block.number - 1, cursor⟩ f₁ = .ok () f₂ ∧
      f₂.log.store.current.records = l.records := by
  obtain ⟨f₁, hBlock, hFields, h₁, _⟩ := onBlock_spec h hOps hApplies
  let fork : Fork := ⟨block.number - 1, cursor⟩
  have hStop : Key.undo fork.lastValidBlock ≤ Key.undo (block.number - 1) := List.le_refl _
  obtain ⟨blocks, f₂, hCovers, hFork, _, h₂, _⟩ := takeBack_spec h₁ hStop
  have hCaughtUp : f₁.caughtUp = true := by rw [hFields]
  refine ⟨f₁, f₂, hBlock, (onFork_eq_takeBackIn (.inl hCaughtUp)).trans hFork, ?_⟩
  have hOnly : Covers (l.block f.lastFinalized f.config.flushInterval block).undone
      (block.number - 1) [block.number] := by
    refine ⟨List.pairwise_singleton _ _, ?_, ?_⟩
    · rintro number hMem
      rw [List.mem_singleton.mp hMem, sub_one_lt_iff hNumber]
      exact UInt64.le_refl _
    · intro number hAbove hSome
      by_contra hNot
      have hNe : number ≠ block.number := fun hEq => hNot (List.mem_singleton.mpr hEq)
      rw [sub_one_lt_iff hNumber] at hAbove
      apply hSome
      apply Ledger.undone_block_of_ne _ _ _ _ hNe
      rw [Ledger.undone, hLater number (UInt64.lt_of_le_of_ne hAbove hNe.symm)]
      rfl
  rw [h₂.store.records, hCovers.flatMap_eq hOnly, List.flatMap_singleton,
    Ledger.undone_block_self]
  have hExact := taken_back_exactly hOps.kinds hUpcoming
  rw [← Ledger.upcoming_block l f.lastFinalized f.config.flushInterval block] at hExact
  exact hExact

/-- A follower in the middle of a block, mended, applies the block and takes it back, and then holds
the user records that it held before. -/
theorem mend_spec (hR : Store.Simulation R) {f : Follower (Faulty σ)}
    (hMidway : Midway R before after block pending f) (hBefore : before.Addressable)
    (hAfter : after.Addressable) (hNumber : 0 < block.number)
    (hOps : Operation.RecordableAll block.operations)
    (hPending : pending = ∅ ∨ pending = (∅ : PendingSet).addAll block.operations)
    (again back : Nat → PendingSet.Order) (cursor : Cursor) :
    ∃ left f₁ f₂, Store.Holds f.log.store.inner left ∧
      (∀ key, left key = before key ∨ left key = after key) ∧
      onBlockIn again block f.mend = .ok () f₁ ∧
      onForkIn back ⟨block.number - 1, cursor⟩ f₁ = .ok () f₂ ∧
      ∀ records, Store.Holds f₂.log.store records ↔ left = records := by
  obtain ⟨⟨⟨contents, hInner, hContents⟩, hWaiting⟩, hCaughtUp⟩ := hMidway
  obtain ⟨batches, hUndoes, hLater⟩ := hContents.undo
  have hValues := hContents.addressable hBefore hAfter
  have hUpcoming : pending.appliedTo contents.records = contents.records ∨
      pending.appliedTo contents.records = contents.records.afterAll block.operations := by
    obtain rfl | rfl := hPending
    · exact .inl (PendingSet.empty_appliedTo _)
    · exact .inr (PendingSet.appliedTo_addAll_empty hOps.kinds)
  let l : Ledger := ⟨contents.records, pending.appliedTo contents.records, batches⟩
  have hValid : (f.onContents contents).log.pending.Valid := by
    rw [onContents, hWaiting]
    obtain rfl | rfl := hPending
    · exact PendingSet.valid_empty
    · exact PendingSet.valid_empty.addAll hOps.kinds
  have hShows : (f.onContents contents).log.Shows (Key.undo (block.number - 1)) l := by
    refine ⟨⟨rfl, hUndoes, hValues⟩, congrArg (PendingSet.appliedTo · contents.records) hWaiting,
      hValid, ?_⟩
    · change (pending.appliedTo contents.records).Addressable
      obtain hSame | hAdded := hUpcoming
      · rwa [hSame]
      · rw [hAdded]
        exact hValues.afterAll hOps.each
  obtain ⟨g₁, g₂, hBlock, hFork, hExact⟩ :=
    onBlock_onFork_spec hShows hNumber hOps (.inl hCaughtUp) hLater hUpcoming cursor
  have hMended := Faulty.simulation_mended hR
  have hHandled : handle (.data block) (f.onContents contents) = .ok () g₁ := hBlock
  obtain ⟨f₁, hBlock₁, hAlike₁, hValid₁⟩ :=
    exists_handleIn_of_ok hMended.checkpointed hValid (alike_mend hInner) again hHandled
  have hTaken : handle (.undo ⟨block.number - 1, cursor⟩) g₁ = .ok () g₂ := hFork
  obtain ⟨f₂, hFork₂, hAlike₂, -⟩ :=
    exists_handleIn_of_ok hMended.checkpointed hValid₁ hAlike₁ back hTaken
  refine ⟨contents.records, f₁, f₂, (hR.holds_iff hInner).mpr rfl, hContents.records, hBlock₁,
    hFork₂, fun records => ?_⟩
  rw [hMended.holds_iff hAlike₂.log.store, hExact]

/-- However a block failed, and in whatever orders its attempts wrote, it succeeds when it comes again
with no further failure, and so does taking it back, in any orders too. Each user record is then as the
failure left it, which is what it was before the block or what the block makes of it. This is what it
was before if the block failed with nothing pending, as it does before its flush. -/
theorem retry_exact_iff (hR : Store.Simulation R) {f f' : Follower (Faulty σ)}
    {contents : Contents} {e : Error} (hStore : R f.log.store.inner contents)
    (hPending : f.log.pending = ∅) (hUndo : contents.NoUndoAbove (block.number - 1))
    (hValues : contents.records.Addressable) (hNumber : 0 < block.number)
    (hOps : Operation.RecordableAll block.operations)
    (hApplies : f.caughtUp = true ∨ f.resumeFrom ≤ block.number)
    (orders : Nat → PendingSet.Order) (hFails : onBlockIn orders block f = .error e f')
    (again back : Nat → PendingSet.Order) (cursor : Cursor) :
    ∃ left f₁ f₂, Store.Holds f'.log.store.inner left ∧
      (∀ key, left key = contents.records key ∨
        left key = contents.records.afterAll block.operations key) ∧
      (f'.log.pending = ∅ → left = contents.records) ∧
      onBlockIn again block f'.mend = .ok () f₁ ∧
      onForkIn back ⟨block.number - 1, cursor⟩ f₁ = .ok () f₂ ∧ Store.Holds f₂.log.store left ∧
      (Store.Holds f₂.log.store contents.records ↔ left = contents.records) := by
  have hBegin : f.log.Midway R contents.records contents.records block.number ∅ :=
    ⟨⟨contents, hStore, hUndo.midway _⟩, hPending⟩
  have hAfter := hValues.afterAll hOps.each
  obtain hFirst | hSecond :=
    (meets_onBlockIn hR hValues hOps orders).failed_of_error ⟨hBegin, hApplies⟩ hFails
  · obtain ⟨left, f₁, f₂, hLeft, hMixed, hBlock, hFork, hHolds⟩ :=
      mend_spec hR hFirst hValues hValues hNumber hOps (.inl rfl) again back cursor
    have hSame : left = contents.records := funext fun key => (hMixed key).elim id id
    exact ⟨left, f₁, f₂, hLeft, fun key => .inl (congrFun hSame key), fun _ => hSame, hBlock, hFork,
      (hHolds left).mpr rfl, hHolds _⟩
  · obtain ⟨left, f₁, f₂, hLeft, hMixed, hBlock, hFork, hHolds⟩ :=
      mend_spec hR hSecond hValues hAfter hNumber hOps (.inr rfl) again back cursor
    refine ⟨left, f₁, f₂, hLeft, hMixed, fun hEmpty => ?_, hBlock, hFork,
      (hHolds left).mpr rfl, hHolds _⟩
    have hNothing : contents.records.afterAll block.operations = contents.records := by
      rw [← PendingSet.appliedTo_addAll_empty hOps.kinds, ← hSecond.1.2, hEmpty,
        PendingSet.empty_appliedTo]
    exact funext fun key => (hMixed key).elim id fun hKey => hKey.trans (congrFun hNothing key)

/-- A follower on an empty store of which the next call of one kind is taken away. -/
def struckOnce (call : StoreCall) (key : Option Bytes) : Follower (Faulty Contents) :=
  ofLog (.ofStore ((Faulty.ofStore ∅).addFault ⟨call, key, 0, 1, .store "injected"⟩)) {}

def pairBlock : Block := ⟨1, 0, [.assign "a" [0x31], .assign "b" [0x32]], .blank 1⟩

/-- Writing backwards the block fails between its two keys. The one that is written stays when the
block comes again and is taken back. -/
theorem retry_exact_within_flush :
    ∃ f' left f₁ f₂, left "a" = none ∧ left "b" = some [0x32] ∧
      onBlockIn (fun _ => .reversed) pairBlock (struckOnce .put (some (Key.user "a"))) =
        .error (.store "injected") f' ∧
      onBlockIn sorted pairBlock f'.mend = .ok () f₁ ∧
      onForkIn (fun _ => .reversed) ⟨pairBlock.number - 1, .blank 0⟩ f₁ = .ok () f₂ ∧
      Store.Holds f₂.log.store left ∧
      (Store.Holds f₂.log.store (∅ : Contents).records ↔ left = (∅ : Contents).records) := by
  let f := struckOnce .put (some (Key.user "a"))
  let failing : Action (Follower (Faulty Contents)) Unit :=
    onBlockIn (fun _ => .reversed) pairBlock
  have hFailed : failing.outcome f = .error (.store "injected") := by decide +kernel
  have hStore : f.log.store.inner = ∅ := rfl
  have hPending : f.log.pending = ∅ := rfl
  have hNumber : 0 < pairBlock.number := by decide
  have hOps : Operation.RecordableAll pairBlock.operations := by decide +kernel
  have hApplies : f.caughtUp = true ∨ f.resumeFrom ≤ pairBlock.number := .inr (by decide)
  have hRun := Action.eq_error_of_outcome hFailed
  obtain ⟨left, f₁, f₂, hHolds, _, _, hBlock, hFork, hLeft, hExact⟩ :=
    retry_exact_iff Store.simulation_contents hStore hPending (Contents.noUndoAbove_empty _)
      Contents.addressable_empty hNumber hOps hApplies _ hRun sorted (fun _ => .reversed) (.blank 0)
  obtain rfl := (Store.simulation_contents.holds_iff rfl).mp hHolds
  exact ⟨_, _, f₁, f₂, by decide +kernel, by decide +kernel, hRun, hBlock, hFork, hLeft, hExact⟩

def firstBlock : Block := ⟨1, 0, [.assign "a" [0x31]], .blank 1⟩

/-- Where only the last call of a flush fails, the block is written, and it stays so when it comes
again and is taken back. -/
theorem retry_keeps_failed_block :
    ∃ e f' f₁ f₂, e.isStoreFailure = true ∧
      onBlock firstBlock (struckOnce .sync none) = .error e f' ∧
      onBlock firstBlock f'.mend = .ok () f₁ ∧
      onFork ⟨0, .blank 0⟩ f₁ = .ok () f₂ ∧
      ¬ Store.Holds f₂.log.store (∅ : Contents).records := by
  have hFound : (match onBlock firstBlock (struckOnce .sync none) with
      | .ok _ _ => none
      | .error e f' =>
        match onBlock firstBlock f'.mend with
        | .error _ _ => none
        | .ok _ f₁ =>
          match onFork ⟨0, .blank 0⟩ f₁ with
          | .error _ _ => none
          | .ok _ f₂ =>
            some (e.isStoreFailure, (Store.get (Key.user "a") : Action (Faulty Contents) _).run'
              f₂.log.store)) = some (true, some (some [0x31])) := by decide +kernel
  cases hFails : onBlock firstBlock (struckOnce .sync none) with
  | ok _ _ => simp only [hFails, reduceCtorEq] at hFound
  | error e f' =>
    simp only [hFails] at hFound
    cases hBlock : onBlock firstBlock f'.mend with
    | error _ _ => simp only [hBlock, reduceCtorEq] at hFound
    | ok _ f₁ =>
      simp only [hBlock] at hFound
      cases hFork : onFork ⟨0, .blank 0⟩ f₁ with
      | error _ _ => simp only [hFork, reduceCtorEq] at hFound
      | ok _ f₂ =>
        simp only [hFork, Option.some.injEq, Prod.mk.injEq] at hFound
        refine ⟨e, f', f₁, f₂, hFound.1, rfl, hBlock, hFork, fun hHolds => ?_⟩
        have hNone := hHolds "a"
        rw [hFound.2] at hNone
        simp [Contents.records] at hNone

end Follower

end ForkLog
