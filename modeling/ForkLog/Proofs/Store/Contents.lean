import Mathlib
import ForkLog.OperationLog
import ForkLog.Proofs.Key
import ForkLog.Proofs.Operation.Record
import ForkLog.Proofs.Records
import ForkLog.Store.Contents

/-! # What contents hold

Contents are looked up by their keys. Ranges list the bindings between two keys in order, and what a
flush writes is told by the user records, the undo records and the cursor apart.
-/

namespace ForkLog

set_option autoImplicit false

namespace Contents

variable {contents : Contents}

theorem getElem?_insert (contents : Contents) (key value other : Bytes) :
    (contents.insert key value)[other]? = if key = other then some value else contents[other]? := by
  rw [Std.ExtTreeMap.getElem?_insert]
  simp only [Std.LawfulEqOrd.compare_eq_iff_eq]

theorem getElem?_eraseAll (contents : Contents) (keys : List Bytes) (key : Bytes) :
    (contents.eraseAll keys)[key]? = if key ∈ keys then none else contents[key]? := by
  induction keys generalizing contents with
  | nil => simp [eraseAll]
  | cons first keys ih =>
    have hFold : contents.eraseAll (first :: keys) =
        (show Contents from contents.erase first).eraseAll keys := rfl
    rw [hFold, ih, Std.ExtTreeMap.getElem?_erase]
    simp only [Std.LawfulEqOrd.compare_eq_iff_eq, List.mem_cons]
    by_cases hKey : key = first
    · simp [hKey]
    · simp [hKey, Ne.symm hKey]

theorem mem_entries_iff {key value : Bytes} :
    (key, value) ∈ contents.entries ↔ contents[key]? = some value :=
  Std.ExtTreeMap.mem_toList_iff_getElem?_eq_some

theorem mem_between_iff {start stop key value : Bytes} :
    (key, value) ∈ contents.between start stop ↔
      contents[key]? = some value ∧ start ≤ key ∧ key < stop := by
  simp only [between, List.mem_filter, mem_entries_iff, Bool.and_eq_true, decide_eq_true_eq]

theorem mem_map_between_iff {start stop key : Bytes} :
    key ∈ (contents.between start stop).map Prod.fst ↔
      contents[key]?.isSome ∧ start ≤ key ∧ key < stop := by
  simp only [List.mem_map, Prod.exists, exists_and_right, exists_eq_right, mem_between_iff,
    Option.isSome_iff_exists, exists_and_right]

theorem getElem?_eraseAll_between (contents : Contents) (start stop key : Bytes) :
    (contents.eraseAll ((contents.between start stop).map Prod.fst))[key]? =
      if start ≤ key ∧ key < stop then none else contents[key]? := by
  rw [getElem?_eraseAll]
  simp only [mem_map_between_iff]
  cases h : contents[key]? <;> simp

theorem pairwise_entries (contents : Contents) :
    contents.entries.Pairwise fun a b => a.1 < b.1 := by
  refine Std.ExtTreeMap.ordered_keys_toList.imp ?_
  intro a b h
  exact (Bytes.compare_eq_lt_iff a.1 b.1).mp h

theorem pairwise_between (contents : Contents) (start stop : Bytes) :
    (contents.between start stop).Pairwise fun a b => a.1 < b.1 :=
  contents.pairwise_entries.filter _

def records (contents : Contents) : Records := fun key => contents[Key.user key]?

/-- The undo records whose keys come before `stop` are those of `batches`, and nothing else stands
among them. -/
structure Undoes (contents : Contents) (stop : Bytes)
    (batches : UInt64 → Option (List Operation)) : Prop where
  lookup : ∀ block, Key.undo block < stop →
    contents[Key.undo block]? = (batches block).map Operation.encodeBatch
  proper : ∀ key, contents[key]?.isSome → Key.undo Key.lastBlock ≤ key → key < stop →
    ∃ block, key = Key.undo block
  recordable : ∀ block ops, Key.undo block < stop → batches block = some ops →
    Operation.RecordableAll ops

theorem Undoes.congr {stop : Bytes} {batches : UInt64 → Option (List Operation)}
    (h : contents.Undoes stop batches) {other : Contents}
    (hAgree : ∀ key, Key.undo Key.lastBlock ≤ key → other[key]? = contents[key]?) :
    other.Undoes stop batches where
  lookup block hBlock := by
    rw [hAgree _ (Key.undo_lastBlock_le block)]
    exact h.lookup block hBlock
  proper key hSome hLow hHigh := by
    rw [hAgree key hLow] at hSome
    exact h.proper key hSome hLow hHigh
  recordable := h.recordable

theorem Undoes.insert {stop : Bytes} {batches : UInt64 → Option (List Operation)}
    (h : contents.Undoes stop batches) (block : UInt64) {ops : List Operation}
    (hOps : Operation.RecordableAll ops) :
    Undoes (contents.insert (Key.undo block) (Operation.encodeBatch ops)) stop
      (Function.update batches block (some ops)) where
  lookup other hOther := by
    rw [getElem?_insert]
    by_cases hEq : other = block
    · rw [hEq, if_pos rfl, Function.update_self, Option.map_some]
    · rw [if_neg fun hKey => hEq (Key.undo_injective hKey).symm, Function.update_of_ne hEq]
      exact h.lookup other hOther
  proper key hSome hLow hHigh := by
    rw [getElem?_insert] at hSome
    split at hSome
    case isTrue hKey => exact ⟨block, hKey.symm⟩
    case isFalse => exact h.proper key hSome hLow hHigh
  recordable other found hOther hFound := by
    by_cases hEq : other = block
    · rw [hEq, Function.update_self] at hFound
      exact Option.some.inj hFound ▸ hOps
    · rw [Function.update_of_ne hEq] at hFound
      exact h.recordable other found hOther hFound

theorem Undoes.erase {stop : Bytes} {batches : UInt64 → Option (List Operation)}
    (h : contents.Undoes stop batches) (low high : Bytes) {forgets : UInt64 → Prop}
    [DecidablePred forgets]
    (hForgets : ∀ block, forgets block ↔ low ≤ Key.undo block ∧ Key.undo block < high) :
    Undoes (contents.eraseAll ((contents.between low high).map Prod.fst)) stop
      (fun block => if forgets block then none else batches block) where
  lookup block hBlock := by
    rw [getElem?_eraseAll_between]
    simp only [← hForgets block]
    split
    · rfl
    · exact h.lookup block hBlock
  proper key hSome hLow hHigh := by
    rw [getElem?_eraseAll_between] at hSome
    split at hSome
    · cases hSome
    · exact h.proper key hSome hLow hHigh
  recordable block ops hBlock hOps := by
    split at hOps
    · cases hOps
    · exact h.recordable block ops hBlock hOps

theorem Undoes.eraseAll {stop : Bytes} {batches : UInt64 → Option (List Operation)}
    (h : contents.Undoes stop batches) (keys : List Bytes) :
    (contents.eraseAll keys).Undoes stop
      (fun block => if Key.undo block ∈ keys then none else batches block) where
  lookup block hBlock := by
    rw [getElem?_eraseAll]
    split
    · rfl
    · exact h.lookup block hBlock
  proper key hSome hLow hHigh := by
    rw [getElem?_eraseAll] at hSome
    split at hSome
    · cases hSome
    · exact h.proper key hSome hLow hHigh
  recordable block ops hBlock hOps := by
    split at hOps
    · cases hOps
    · exact h.recordable block ops hBlock hOps

theorem undoes_of_between_eq_nil {stop : Bytes}
    (h : contents.between (Key.undo Key.lastBlock) stop = []) :
    contents.Undoes stop fun _ => none := by
  have hNone : ∀ key, Key.undo Key.lastBlock ≤ key → key < stop → contents[key]? = none := by
    intro key hLow hHigh
    rw [← Option.not_isSome_iff_eq_none]
    intro hSome
    have hMem := mem_map_between_iff.mpr ⟨hSome, hLow, hHigh⟩
    rw [h] at hMem
    cases hMem
  exact
    { lookup := fun block hBlock => hNone _ (Key.undo_lastBlock_le block) hBlock
      proper := fun key hSome hLow hHigh => by
        rw [hNone key hLow hHigh] at hSome
        cases hSome
      recordable := fun _ _ _ hOps => nomatch hOps }

/-- Nothing stands where the undo records of the blocks above a height are looked for. -/
def NoUndoAbove (contents : Contents) (height : UInt64) : Prop :=
  contents.between (Key.undo Key.lastBlock) (Key.undo height) = []

theorem NoUndoAbove.undoes {height : UInt64} (h : contents.NoUndoAbove height) :
    contents.Undoes (Key.undo height) fun _ => none :=
  undoes_of_between_eq_nil h

/-- Nothing stands where undo records are looked for. -/
def NoUndo (contents : Contents) : Prop :=
  contents.between (Key.undo Key.lastBlock) Key.undoEnd = []

theorem NoUndo.undoes (h : contents.NoUndo) : contents.Undoes Key.undoEnd fun _ => none :=
  undoes_of_between_eq_nil h

@[simp] theorem between_empty (start stop : Bytes) : (∅ : Contents).between start stop = [] := by
  simp [between, entries]

theorem noUndo_empty : (∅ : Contents).NoUndo := between_empty _ _

theorem noUndoAbove_empty (height : UInt64) : (∅ : Contents).NoUndoAbove height :=
  between_empty _ _

theorem addressable_empty : (∅ : Contents).records.Addressable := by
  intro key value hValue
  simp [records] at hValue

theorem records_insert_undo (contents : Contents) (block : UInt64) (value : Bytes) :
    records (contents.insert (Key.undo block) value) = contents.records := by
  funext key
  rw [records, getElem?_insert, if_neg (Key.user_ne_undo key block).symm, records]

theorem records_eraseAll_between (contents : Contents) (block : UInt64) (stop : Bytes) :
    records (contents.eraseAll ((contents.between (Key.undo block) stop).map Prod.fst)) =
      contents.records := by
  funext key
  rw [records, getElem?_eraseAll_between, if_neg, records]
  exact fun h => h.1 (Key.user_lt_undo key block)

theorem records_insert_cursor (contents : Contents) (value : Bytes) :
    records (contents.insert Key.cursor value) = contents.records := by
  funext key
  rw [records, getElem?_insert, if_neg (Key.user_ne_cursor key).symm, records]

theorem cursor_insert_undo (contents : Contents) (block : UInt64) (value : Bytes) :
    (contents.insert (Key.undo block) value)[Key.cursor]? = contents[Key.cursor]? := by
  rw [getElem?_insert, if_neg (Key.undo_ne_cursor block)]

theorem cursor_eraseAll_between (contents : Contents) (block : UInt64) (stop : Bytes) :
    (contents.eraseAll ((contents.between (Key.undo block) stop).map Prod.fst))[Key.cursor]? =
      contents[Key.cursor]? := by
  rw [getElem?_eraseAll_between, if_neg]
  exact fun h => h.1 (Key.cursor_lt_undo block)

def insertAll (contents : Contents) (ops : List Operation) : Contents :=
  ops.foldl (fun contents op => contents.insert (Key.user op.key) op.value) contents

theorem records_insertAll {ops : List Operation} (hKinds : ∀ op ∈ ops, op.kind = .set) :
    (contents.insertAll ops).records = contents.records.afterAll ops := by
  induction ops generalizing contents with
  | nil => rfl
  | cons op ops ih =>
    have hFold : contents.insertAll (op :: ops) =
        insertAll (contents.insert (Key.user op.key) op.value) ops := rfl
    rw [hFold, ih fun other hOther => hKinds other (List.mem_cons_of_mem op hOther),
      Records.afterAll_cons]
    congr 1
    funext key
    rw [records, getElem?_insert, Records.after, hKinds op List.mem_cons_self]
    simp only [Key.user_injective.eq_iff, records]

theorem getElem?_insertAll_of_not_mem {ops : List Operation} {key : Bytes}
    (hKey : ∀ op ∈ ops, Key.user op.key ≠ key) :
    (contents.insertAll ops)[key]? = contents[key]? := by
  induction ops generalizing contents with
  | nil => rfl
  | cons op ops ih =>
    have hFold : contents.insertAll (op :: ops) =
        insertAll (contents.insert (Key.user op.key) op.value) ops := rfl
    obtain ⟨hOp, hOps⟩ := List.forall_mem_cons.mp hKey
    rw [hFold, ih hOps, getElem?_insert, if_neg hOp]

theorem records_eraseAll {ops : List Operation} (hKinds : ∀ op ∈ ops, op.kind = .delete) :
    (contents.eraseAll (ops.map fun op => Key.user op.key)).records =
      contents.records.afterAll ops := by
  funext key
  rw [records, getElem?_eraseAll]
  simp only [List.mem_map, Key.user_injective.eq_iff]
  split
  case isTrue hTouched =>
    refine (Records.afterAll_eq_of_outcome ?_ (.inl hTouched)).symm
    intro op hOp _
    rw [Change.outcome, hKinds op hOp]
    exact ⟨by decide, rfl⟩
  case isFalse hUntouched =>
    rw [Records.afterAll_of_not_mem fun op hOp hKey => hUntouched ⟨op, hOp, hKey⟩, records]

theorem getElem?_eraseAll_of_not_mem {ops : List Operation} {key : Bytes}
    (hKey : ∀ op ∈ ops, Key.user op.key ≠ key) :
    (contents.eraseAll (ops.map fun op => Key.user op.key))[key]? = contents[key]? := by
  rw [getElem?_eraseAll, if_neg]
  intro hMem
  obtain ⟨op, hOp, hEq⟩ := List.mem_map.mp hMem
  exact hKey op hOp hEq

/-- The contents differ at most where undo records stand. -/
def Accords (contents other : Contents) : Prop :=
  ∀ key, ¬ (Key.undo Key.lastBlock ≤ key ∧ key < Key.undoEnd) → other[key]? = contents[key]?

namespace Accords

variable {other : Contents}

theorem refl (contents : Contents) : contents.Accords contents := fun _ _ => rfl

theorem trans {third : Contents} (h : contents.Accords other) (h' : other.Accords third) :
    contents.Accords third := fun key hKey => (h' key hKey).trans (h key hKey)

theorem symm (h : contents.Accords other) : other.Accords contents := fun key hKey =>
  (h key hKey).symm

theorem insert_undo (contents : Contents) (block : UInt64) (value : Bytes) :
    contents.Accords (contents.insert (Key.undo block) value) := by
  intro key hKey
  rw [getElem?_insert, if_neg]
  rintro rfl
  exact hKey ⟨Key.undo_lastBlock_le block, Key.undo_lt_undoEnd block⟩

theorem eraseAll_between (contents : Contents) {low : UInt64} {high : Bytes}
    (hHigh : high ≤ Key.undoEnd) :
    contents.Accords (contents.eraseAll ((contents.between (Key.undo low) high).map Prod.fst)) := by
  intro key hKey
  rw [getElem?_eraseAll_between, if_neg]
  rintro ⟨hLow, hBelow⟩
  exact hKey ⟨List.le_trans (Key.undo_lastBlock_le low) hLow, Bytes.lt_of_lt_of_le hBelow hHigh⟩

theorem records_eq (h : contents.Accords other) : other.records = contents.records := by
  funext key
  exact h _ fun hRange => hRange.1 (Key.user_lt_undo key Key.lastBlock)

theorem cursor_eq (h : contents.Accords other) : other[Key.cursor]? = contents[Key.cursor]? :=
  h _ fun hRange => hRange.1 (Key.cursor_lt_undo Key.lastBlock)

end Accords

end Contents

end ForkLog
