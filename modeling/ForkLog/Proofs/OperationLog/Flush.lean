import Mathlib
import ForkLog.Proofs.OperationLog.Faltering
import ForkLog.Proofs.OperationLog.Reachable

/-! # What a flush amounts to

Of the operations that were added only the latest one on each key is pending, and a flush writes these
in an order that nothing prescribes, assignments before removals. It comes to the same as carrying out
all of them one by one.
-/

namespace ForkLog

set_option autoImplicit false

variable {ops listing : List Operation} {key : String} {op : Operation}

namespace Operation

def latest? (ops : List Operation) (key : String) : Option Operation :=
  (ops.filter fun op => op.key = key).getLast?

/-- The keys that operations are on, each of them once. -/
def distinctKeys (ops : List Operation) : List String := (ops.map Operation.key).dedup

theorem latest?_concat (ops : List Operation) (op : Operation) (key : String) :
    latest? (ops ++ [op]) key = if op.key = key then some op else latest? ops key := by
  rw [latest?, List.filter_append]
  by_cases h : op.key = key
  · rw [if_pos h, List.filter_singleton, decide_eq_true h]
    exact List.getLast?_concat
  · rw [if_neg h, List.filter_singleton, decide_eq_false h]
    exact congrArg List.getLast? (List.append_nil _)

theorem of_latest?_eq_some (h : latest? ops key = some op) : op ∈ ops ∧ op.key = key := by
  obtain ⟨hMem, hKey⟩ := List.mem_filter.mp (List.mem_of_getLast? h)
  exact ⟨hMem, of_decide_eq_true hKey⟩

theorem latest?_eq_none_iff : latest? ops key = none ↔ ∀ op ∈ ops, op.key ≠ key := by
  simp [latest?]

end Operation

open Operation

theorem Records.afterAll_of_latest {records : Records} (h : latest? ops key = some op)
    (hKind : op.kind ≠ .unset) : records.afterAll ops key = op.outcome := by
  induction ops using List.reverseRecOn with
  | nil => cases h
  | append_singleton ops last ih =>
    rw [latest?_concat] at h
    rw [Records.afterAll_append, Records.afterAll_cons, Records.afterAll_nil]
    split at h
    case isTrue hKey =>
      cases h
      exact Records.after_of_valid hKind hKey
    case isFalse hKey => exact (Records.after_of_ne hKey).trans (ih h)

namespace PendingSet

theorem find?_addAll (ops : List Operation) (key : String) :
    ((∅ : PendingSet).addAll ops).find? key = latest? ops key := by
  induction ops using List.reverseRecOn with
  | nil => simp [addAll, find?, latest?]
  | append_singleton ops last ih =>
    have hLast : (∅ : PendingSet).addAll (ops ++ [last]) = ((∅ : PendingSet).addAll ops).add last :=
      List.foldl_concat _ _ _ _
    rw [hLast, find?_add, latest?_concat, ih]

theorem mem_operations_iff_find? {pending : PendingSet} :
    op ∈ pending.operations ↔ pending.find? op.key = some op := by
  obtain ⟨change, key⟩ := op
  rw [OperationLog.mem_operations_iff, find?, Option.map_eq_some_iff]
  simp

theorem mem_operations_addAll_iff :
    op ∈ ((∅ : PendingSet).addAll ops).operations ↔ latest? ops op.key = some op := by
  rw [mem_operations_iff_find?, find?_addAll]

theorem nodup_keys_operations (pending : PendingSet) :
    (pending.operations.map Operation.key).Nodup := by
  have hKeys : pending.operations.map Operation.key = pending.toList.map Prod.fst := by
    rw [operations, List.map_map]
    rfl
  rw [hKeys, Std.ExtTreeMap.map_fst_toList_eq_keys]
  exact Std.ExtTreeMap.nodup_keys

theorem length_operations_addAll (ops : List Operation) :
    ((∅ : PendingSet).addAll ops).operations.length = (distinctKeys ops).length := by
  have hPerm : (((∅ : PendingSet).addAll ops).operations.map Operation.key).Perm
      (distinctKeys ops) := by
    rw [distinctKeys, List.perm_ext_iff_of_nodup (nodup_keys_operations _) (List.nodup_dedup _)]
    intro key
    rw [List.mem_map, List.mem_dedup, List.mem_map]
    constructor
    · rintro ⟨op, hOp, rfl⟩
      exact ⟨op, (of_latest?_eq_some (mem_operations_addAll_iff.mp hOp)).1, rfl⟩
    · rintro ⟨op, hOp, rfl⟩
      cases hLatest : latest? ops op.key with
      | none => exact absurd rfl (latest?_eq_none_iff.mp hLatest op hOp)
      | some last =>
        have hKey := (of_latest?_eq_some hLatest).2
        exact ⟨last, mem_operations_addAll_iff.mpr (hKey.symm ▸ hLatest), hKey⟩
  rw [← hPerm.length_eq, List.length_map]

theorem addAll_eq_empty_iff : (∅ : PendingSet).addAll ops = ∅ ↔ ops = [] := by
  constructor
  · intro h
    have hLength := length_operations_addAll ops
    rw [h] at hLength
    have hKeys : distinctKeys ops = [] := List.length_eq_zero_iff.mp hLength.symm
    rwa [distinctKeys, List.dedup_eq_nil, List.map_eq_nil_iff] at hKeys
  · rintro rfl
    rfl

end PendingSet

namespace OperationLog

variable {σ : Type}

section

variable [Store σ]

/-- Carries out one operation. If it has no valid kind, nothing is done. -/
def carry (op : Operation) : Action σ Unit :=
  match op.kind with
  | .set => Store.put (Key.user op.key) op.value
  | .delete => Store.deleteMany [Key.user op.key]
  | .unset => pure ()

def carryOut : List Operation → Action σ Unit
  | [] => pure ()
  | op :: rest => do
    carry op
    carryOut rest

end

theorem carry_eq (op : Operation) (contents : Contents) :
    ∃ next : Contents, carry op contents = .ok () next ∧
      next.records = contents.records.after op ∧
      ∀ key, (∀ text, Key.user text ≠ key) → next[key]? = contents[key]? := by
  cases hKind : op.kind with
  | set =>
    refine ⟨contents.insertAll [op], ?_, ?_, fun key hKey => ?_⟩
    · rw [carry, hKind]
      rfl
    · rw [Contents.records_insertAll (by simpa using hKind), Records.afterAll_cons,
        Records.afterAll_nil]
    · exact Contents.getElem?_insertAll_of_not_mem fun op _ => hKey op.key
  | delete =>
    refine ⟨contents.eraseAll ([op].map fun op => Key.user op.key), ?_, ?_, fun key hKey => ?_⟩
    · rw [carry, hKind]
      rfl
    · rw [Contents.records_eraseAll (by simpa using hKind), Records.afterAll_cons,
        Records.afterAll_nil]
    · rw [Contents.getElem?_eraseAll_of_not_mem fun op _ => hKey op.key]
  | unset =>
    refine ⟨contents, ?_, ?_, fun _ _ => rfl⟩
    · rw [carry, hKind]
      rfl
    · funext key
      simp [Records.after, hKind]

theorem carryOut_eq (ops : List Operation) (contents : Contents) :
    ∃ direct : Contents, carryOut ops contents = .ok () direct ∧
      direct.records = contents.records.afterAll ops ∧
      ∀ key, (∀ text, Key.user text ≠ key) → direct[key]? = contents[key]? := by
  induction ops generalizing contents with
  | nil => exact ⟨contents, rfl, rfl, fun _ _ => rfl⟩
  | cons op ops ih =>
    obtain ⟨next, hNext, hRecords, hOthers⟩ := carry_eq op contents
    obtain ⟨direct, hDirect, hAll, hRest⟩ := ih next
    refine ⟨direct, (Action.bind_eq_of_ok hNext _).trans hDirect, ?_, fun key hKey => ?_⟩
    · rw [hAll, hRecords, Records.afterAll_cons]
    · exact (hRest key hKey).trans (hOthers key hKey)

variable {contents : Contents} {cursor : Cursor}

/-- A listing of the latest operations writes what all operations come to, and the cursor. -/
theorem writtenContents_eq (hListing : ∀ op, op ∈ listing ↔ latest? ops op.key = some op)
    (hDistinct : Distinct listing) (hKinds : ∀ op ∈ listing, op.kind ≠ .unset) {direct : Contents}
    (hRecords : direct.records = contents.records.afterAll ops)
    (hOthers : ∀ key, (∀ text, Key.user text ≠ key) → direct[key]? = contents[key]?) :
    writtenContents contents listing cursor = direct.insert Key.cursor cursor.encode := by
  apply Std.ExtTreeMap.ext_getElem?
  intro key
  rw [Contents.getElem?_insert]
  -- A key is that of the cursor, that of a text with or without an operation on it, or neither.
  by_cases hCursor : Key.cursor = key
  · rw [if_pos hCursor, ← hCursor, getElem?_writtenContents_cursor]
  rw [if_neg hCursor]
  by_cases hUser : ∃ text, Key.user text = key
  · obtain ⟨text, rfl⟩ := hUser
    have hDirect : direct[Key.user text]? = contents.records.afterAll ops text :=
      congrFun hRecords text
    rw [hDirect]
    cases hLatest : latest? ops text with
    | none =>
      have hUnlisted : ∀ op ∈ listing, Key.user op.key ≠ Key.user text := by
        intro op hOp hKey
        rw [← Key.user_injective hKey, (hListing op).mp hOp] at hLatest
        cases hLatest
      rw [Records.afterAll_of_not_mem (latest?_eq_none_iff.mp hLatest),
        getElem?_writtenContents_of_not_mem hUnlisted hCursor, Contents.records]
    | some op =>
      obtain rfl := (of_latest?_eq_some hLatest).2
      have hMem := (hListing op).mpr hLatest
      rw [written_of_mem hDistinct hMem (hKinds op hMem),
        Records.afterAll_of_latest hLatest (hKinds op hMem)]
  · have hNoUser := not_exists.mp hUser
    rw [getElem?_writtenContents_of_not_mem (fun op _ => hNoUser op.key) hCursor,
      hOthers key hNoUser]

theorem flushListed_eq_ok {log : OperationLog Contents} (hKinds : ∀ op ∈ listing, op.kind ≠ .unset)
    (hBusy : ¬ (log.pending = ∅ ∧ log.lastCursor = some cursor)) :
    flushListed listing cursor log =
      .ok listing.length ⟨writtenContents log.store listing cursor, ∅, some cursor⟩ := by
  let other : OperationLog Checkpointed := ⟨.ofContents log.store, log.pending, log.lastCursor⟩
  have hAlike : Alike (fun s (t : Checkpointed) => s = t.current) log other := ⟨rfl, rfl, rfl⟩
  obtain ⟨⟨store, pending, lastCursor⟩, hFlush, hStore, hPending, hCursor⟩ :=
    (simulates_flushListed Store.simulation_contents.checkpointed listing cursor).exists_of_ok
      hAlike (flushListed_eq_of_valid hKinds hBusy)
  obtain rfl : store = _ := hStore
  obtain rfl : pending = ∅ := hPending
  obtain rfl : lastCursor = some cursor := hCursor
  rw [hFlush, length_assignments_add_removals hKinds]
  rfl

theorem pending_ne_empty_of_mem {pending : PendingSet} (hListing : listing.Perm pending.operations)
    (h : op ∈ listing) : pending ≠ ∅ := by
  rintro rfl
  cases hListing.mem_iff.mp h

/-- Where an operation of no valid kind is listed, the flush is refused before any call of a store. -/
theorem exists_refused {pending : PendingSet} (hListing : listing.Perm pending.operations)
    (hUnset : ∃ op ∈ listing, op.kind = .unset) :
    ∃ op ∈ listing, op.kind = .unset ∧ ∀ {τ : Type} [Store τ] (log : OperationLog τ),
      log.pending = pending → flushListed listing cursor log = .error op.invalidKind log := by
  cases hCheck : Operation.validateAll listing with
  | ok _ =>
    obtain ⟨op, hOp, hKind⟩ := hUnset
    exact absurd hKind ((Operation.validateAll_eq_ok_iff listing).mp hCheck op hOp)
  | error e =>
    obtain ⟨op, hOp, hKind, rfl⟩ := Operation.exists_of_validateAll_eq_error hCheck
    refine ⟨op, hOp, hKind, fun log hLog => flushListed_eq_of_invalid ?_ hCheck⟩
    rintro ⟨hEmpty, -⟩
    exact pending_ne_empty_of_mem hListing hOp (hLog.symm.trans hEmpty)

variable [Store σ]

/-- A log to which batches were added since nothing was pending. -/
def buffered (batches : List (List Operation)) (lastCursor : Option Cursor) (store : σ) :
    OperationLog σ :=
  afterCalls (batches.map .add) ⟨store, ∅, lastCursor⟩

theorem afterCalls_add (batches : List (List Operation)) (log : OperationLog σ) :
    afterCalls (batches.map .add) log =
      { log with pending := log.pending.addAll batches.flatten } := by
  induction batches generalizing log with
  | nil => rfl
  | cons batch batches ih =>
    have hFirst : afterCalls ((batch :: batches).map .add) log =
        afterCalls (batches.map .add) { log with pending := log.pending.addAll batch } := rfl
    rw [hFirst, ih, List.flatten_cons]
    simp only [PendingSet.addAll, List.foldl_append]

theorem buffered_eq (batches : List (List Operation)) (lastCursor : Option Cursor) (store : σ) :
    buffered batches lastCursor store =
      ⟨store, (∅ : PendingSet).addAll batches.flatten, lastCursor⟩ :=
  afterCalls_add batches _

/-- Pending changes are written in any order. If the latest operation on each key is valid, the flush
succeeds and writes what carrying out all operations one by one comes to, whatever came in between. If
it is not, the flush is refused before any call of a store. -/
theorem flush_as_carried_out (contents : Contents) (lastCursor : Option Cursor)
    (batches : List (List Operation)) (cursor : Cursor)
    (hListing : listing.Perm (buffered batches lastCursor contents).pending.operations) :
    ((∀ key op, latest? batches.flatten key = some op → op.kind ≠ .unset) →
      ∃ direct count final, carryOut batches.flatten contents = .ok () direct ∧
        flushListed listing cursor (buffered batches lastCursor contents) = .ok count final ∧
        final.store.records = direct.records ∧
        (∀ key, (∀ text, Key.user text ≠ key) → key ≠ Key.cursor →
          final.store[key]? = contents[key]?) ∧
        if batches.flatten = [] ∧ lastCursor = some cursor then
          count = 0 ∧ final = buffered batches lastCursor contents
        else
          count = (distinctKeys batches.flatten).length ∧
            final = ⟨direct.insert Key.cursor cursor.encode, ∅, some cursor⟩) ∧
    ((∃ key op, latest? batches.flatten key = some op ∧ op.kind = .unset) →
      ∃ op ∈ listing, op.kind = .unset ∧ ∀ {τ : Type} [Store τ] (store : τ),
        flushListed listing cursor (buffered batches lastCursor store) =
          .error op.invalidKind (buffered batches lastCursor store)) := by
  rw [buffered_eq] at hListing ⊢
  have hMem (op : Operation) : op ∈ listing ↔ latest? batches.flatten op.key = some op :=
    hListing.mem_iff.trans PendingSet.mem_operations_addAll_iff
  constructor
  · intro hValid
    have hKinds : ∀ op ∈ listing, op.kind ≠ .unset := fun op hOp =>
      hValid op.key op ((hMem op).mp hOp)
    obtain ⟨direct, hDirect, hRecords, hOthers⟩ := carryOut_eq batches.flatten contents
    by_cases hIdle : batches.flatten = [] ∧ lastCursor = some cursor
    · obtain ⟨hNone, hCursor⟩ := hIdle
      refine ⟨direct, 0, ⟨contents, (∅ : PendingSet).addAll batches.flatten, lastCursor⟩, hDirect,
        flushListed_eq_of_idle (PendingSet.addAll_eq_empty_iff.mpr hNone) hCursor listing, ?_,
        fun _ _ _ => rfl, ?_⟩
      · rw [hRecords, hNone, Records.afterAll_nil]
      · rw [if_pos ⟨hNone, hCursor⟩]
        exact ⟨rfl, rfl⟩
    · have hDistinct := (distinct_operations _).perm hListing
      have hWritten : writtenContents contents listing cursor =
          direct.insert Key.cursor cursor.encode :=
        writtenContents_eq hMem hDistinct hKinds hRecords hOthers
      refine ⟨direct, listing.length, ⟨writtenContents contents listing cursor, ∅, some cursor⟩,
        hDirect, flushListed_eq_ok hKinds ?_, ?_, ?_, ?_⟩
      · rwa [PendingSet.addAll_eq_empty_iff]
      · rw [hWritten, Contents.records_insert_cursor]
      · exact fun key hUser hCursor =>
          getElem?_writtenContents_of_not_mem (fun op _ => hUser op.key) hCursor.symm
      · rw [if_neg hIdle, hListing.length_eq, PendingSet.length_operations_addAll, hWritten]
        exact ⟨rfl, rfl⟩
  · rintro ⟨key, op, hLatest, hKind⟩
    obtain rfl := (of_latest?_eq_some hLatest).2
    obtain ⟨refused, hRefused, hUnset, hFails⟩ :=
      exists_refused hListing ⟨op, (hMem op).mpr hLatest, hKind⟩
    exact ⟨refused, hRefused, hUnset, fun store => hFails _ (by rw [buffered_eq])⟩

def collidingBatches : List (List Operation) :=
  [[.assign "a" [0x31], .remove "b"], [.assign "b" [0x32], .remove "a", ⟨⟨.unset, []⟩, "c"⟩],
    [.assign "c" [0x33], .assign "a" [0x34], .remove "d"]]

def lastUnset : List (List Operation) := collidingBatches ++ [[⟨⟨.unset, []⟩, "a"⟩]]

def oldKeys : Contents :=
  .ofEntries [(Key.user "c", [0x30]), (Key.user "d", [0x30]), (Key.undo 7, [0x75])]

/-- From the last key to the first one. -/
def backwards (batches : List (List Operation)) : List Operation :=
  (buffered batches none oldKeys).pending.operations.reverse

/-- Three batches on four keys. With one more that is not valid at its end nothing is written. -/
theorem flush_as_carried_out_colliding :
    (∃ direct, carryOut collidingBatches.flatten oldKeys = .ok () direct ∧
      direct.entries = [(Key.user "a", [0x34]), (Key.user "b", [0x32]), (Key.user "c", [0x33]),
        (Key.undo 7, [0x75])] ∧
      flushListed (backwards collidingBatches) (.blank 7) (buffered collidingBatches none oldKeys) =
        .ok 4 ⟨direct.insert Key.cursor (Cursor.blank 7).encode, ∅, some (.blank 7)⟩) ∧
    flushListed (backwards lastUnset) (.blank 7) (buffered lastUnset none oldKeys) =
      .error (.corruptOperation "invalid operation type UNSET for key 'a'")
        (buffered lastUnset none oldKeys) := by
  constructor
  · have hKinds : ∀ op ∈ ((∅ : PendingSet).addAll collidingBatches.flatten).operations,
        op.kind ≠ .unset := by decide +kernel
    have hValid : ∀ key op, latest? collidingBatches.flatten key = some op → op.kind ≠ .unset := by
      intro key op hLatest
      obtain rfl := (of_latest?_eq_some hLatest).2
      exact hKinds op (PendingSet.mem_operations_addAll_iff.mpr hLatest)
    obtain ⟨direct, count, final, hDirect, hFlush, -, -, hResult⟩ :=
      (flush_as_carried_out oldKeys none collidingBatches (.blank 7) (List.reverse_perm _)).1 hValid
    rw [if_neg (by simp)] at hResult
    obtain ⟨rfl, rfl⟩ := hResult
    have hEntries : ((carryOut collidingBatches.flatten).leave oldKeys).entries =
        [(Key.user "a", [0x34]), (Key.user "b", [0x32]), (Key.user "c", [0x33]),
          (Key.undo 7, [0x75])] := by decide +kernel
    rw [Action.leave_eq_of_ok hDirect] at hEntries
    exact ⟨direct, hDirect, hEntries, hFlush⟩
  · have hOnly : ∀ op ∈ backwards lastUnset, op.kind = .unset → op = ⟨⟨.unset, []⟩, "a"⟩ := by
      decide +kernel
    have hLatest : latest? lastUnset.flatten "a" = some ⟨⟨.unset, []⟩, "a"⟩ := by decide +kernel
    obtain ⟨op, hOp, hKind, hFails⟩ :=
      (flush_as_carried_out oldKeys none lastUnset (.blank 7) (List.reverse_perm _)).2
        ⟨"a", _, hLatest, rfl⟩
    obtain rfl := hOnly op hOp hKind
    exact hFails oldKeys

end OperationLog

end ForkLog
