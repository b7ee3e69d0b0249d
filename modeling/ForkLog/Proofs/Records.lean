import Mathlib
import ForkLog.PendingSet
import ForkLog.Proofs.Operation.Record
import ForkLog.UndoLog

/-! # User records and what operations do to them

Operations are carried out one by one. The inverse of a batch gives every key of the batch the value
that it was computed from, save one: a key that was absent and is only removed has no entry in it.
-/

namespace ForkLog

set_option autoImplicit false

abbrev Records := String → Option Bytes

def Change.outcome (change : Change) : Option Bytes :=
  match change.kind with
  | .set => some change.value
  | .delete | .unset => none

namespace Records

def after (records : Records) (op : Operation) : Records := fun key =>
  if op.key = key then
    match op.kind with
    | .set => some op.value
    | .delete => none
    | .unset => records key
  else records key

def afterAll (records : Records) (ops : List Operation) : Records := ops.foldl after records

/-- The operations that lead back to `records` after `ops`. -/
def inverse (records : Records) (ops : List Operation) : List Operation :=
  UndoLog.inverseOf ops (ops.map fun op => records op.key)

variable {records other : Records} {ops : List Operation} {key : String}

@[simp] theorem afterAll_nil (records : Records) : records.afterAll [] = records := rfl

@[simp] theorem afterAll_cons (records : Records) (op : Operation) (ops : List Operation) :
    records.afterAll (op :: ops) = (records.after op).afterAll ops := rfl

theorem afterAll_append (records : Records) (first second : List Operation) :
    records.afterAll (first ++ second) = (records.afterAll first).afterAll second :=
  List.foldl_append

theorem after_of_ne {op : Operation} (h : op.key ≠ key) : records.after op key = records key :=
  if_neg h

theorem after_of_valid {op : Operation} (hValid : op.kind ≠ .unset) (h : op.key = key) :
    records.after op key = op.outcome := by
  rw [after, if_pos h, Change.outcome]
  cases hKind : op.kind with
  | unset => exact absurd hKind hValid
  | set => rfl
  | delete => rfl

theorem afterAll_of_not_mem (h : ∀ op ∈ ops, op.key ≠ key) :
    records.afterAll ops key = records key := by
  induction ops generalizing records with
  | nil => rfl
  | cons op ops ih =>
    rw [afterAll_cons, ih fun other hOther => h other (List.mem_cons_of_mem op hOther)]
    exact after_of_ne (h op List.mem_cons_self)

theorem afterAll_eq_of_outcome {value : Option Bytes}
    (hSame : ∀ op ∈ ops, op.key = key → op.kind ≠ .unset ∧ op.outcome = value)
    (hSome : (∃ op ∈ ops, op.key = key) ∨ records key = value) :
    records.afterAll ops key = value := by
  induction ops generalizing records with
  | nil => simpa using hSome
  | cons op ops ih =>
    apply ih fun o ho => hSame o (List.mem_cons_of_mem op ho)
    by_cases h : op.key = key
    · right
      obtain ⟨hKind, hOutcome⟩ := hSame op List.mem_cons_self h
      rw [after_of_valid hKind h, hOutcome]
    · rw [after_of_ne h]
      obtain ⟨o, ho, hKey⟩ | hRecords := hSome
      · obtain rfl | ho := List.mem_cons.mp ho
        · exact absurd hKey h
        · exact .inl ⟨o, ho, hKey⟩
      · exact .inr hRecords

/-- What operations leave under a key does not depend on what was there if one of them is on it. -/
theorem afterAll_congr (hValid : ∀ op ∈ ops, op.kind ≠ .unset)
    (h : (∃ op ∈ ops, op.key = key) ∨ records key = other key) :
    records.afterAll ops key = other.afterAll ops key := by
  induction ops generalizing records other with
  | nil => simpa using h
  | cons op ops ih =>
    apply ih fun o ho => hValid o (List.mem_cons_of_mem op ho)
    by_cases hKey : op.key = key
    · have hOp := hValid op List.mem_cons_self
      exact .inr ((after_of_valid hOp hKey).trans (after_of_valid hOp hKey).symm)
    · rw [after_of_ne hKey, after_of_ne hKey]
      refine h.imp_left ?_
      rintro ⟨o, ho, hSame⟩
      obtain rfl | ho := List.mem_cons.mp ho
      · exact absurd hSame hKey
      · exact ⟨o, ho, hSame⟩

theorem mem_inverse_iff {undo : Operation} :
    undo ∈ records.inverse ops ↔ ∃ op ∈ ops, UndoLog.inverse? op (records op.key) = some undo := by
  simp only [inverse, UndoLog.inverseOf, List.mem_reverse, List.mem_filterMap]
  constructor
  · rintro ⟨⟨op, value⟩, hMem, hUndo⟩
    rw [List.zip_map_right] at hMem
    obtain ⟨⟨first, second⟩, hPair, hEq⟩ := List.mem_map.mp hMem
    obtain ⟨rfl, rfl⟩ := Prod.mk.inj hEq
    obtain rfl : first = second := by
      rw [List.zip_eq_zipWith, List.zipWith_self] at hPair
      obtain ⟨o, _, hEq⟩ := List.mem_map.mp hPair
      exact (Prod.mk.inj hEq).1.symm.trans (Prod.mk.inj hEq).2
    exact ⟨first, (List.of_mem_zip hPair).1, hUndo⟩
  · rintro ⟨op, hMem, hUndo⟩
    refine ⟨(op, records op.key), ?_, hUndo⟩
    rw [List.zip_map_right]
    refine List.mem_map.mpr ⟨(op, op), ?_, rfl⟩
    rw [List.zip_eq_zipWith, List.zipWith_self]
    exact List.mem_map.mpr ⟨op, hMem, rfl⟩

theorem length_inverse_le (records : Records) (ops : List Operation) :
    (records.inverse ops).length ≤ ops.length := by
  rw [inverse, UndoLog.inverseOf, List.length_reverse]
  refine (List.length_filterMap_le _ _).trans ?_
  simp

theorem inverse?_eq_some {op undo : Operation} {value : Option Bytes}
    (h : UndoLog.inverse? op value = some undo) :
    undo.key = op.key ∧ undo.kind ≠ .unset ∧ undo.outcome = value ∧
      (undo.value = [] ∨ value = some undo.value) := by
  cases hKind : op.kind <;> cases value <;> simp only [UndoLog.inverse?, hKind] at h
  all_goals cases h
  all_goals simp [Operation.assign, Operation.remove, Change.outcome]

theorem inverse?_eq_none_iff {op : Operation} {value : Option Bytes} (hValid : op.kind ≠ .unset) :
    UndoLog.inverse? op value = none ↔ op.kind = .delete ∧ value = none := by
  cases hKind : op.kind <;> cases value <;> simp_all [UndoLog.inverse?]

theorem outcome_of_mem_inverse {undo : Operation} (h : undo ∈ records.inverse ops) :
    undo.kind ≠ .unset ∧ undo.outcome = records undo.key := by
  obtain ⟨op, _, hEq⟩ := mem_inverse_iff.mp h
  obtain ⟨hKey, hKind, hOutcome, _⟩ := inverse?_eq_some hEq
  rw [hKey]
  exact ⟨hKind, hOutcome⟩

/-- The operations on a key, if there are any, only remove what is not there. -/
def Spares (before : Records) (ops : List Operation) (key : String) : Prop :=
  ∀ op ∈ ops, op.key = key → op.kind = .delete ∧ before key = none

theorem spares_iff (hValid : ∀ op ∈ ops, op.kind ≠ .unset) :
    records.Spares ops key ↔ ∀ undo ∈ records.inverse ops, undo.key ≠ key := by
  constructor
  · rintro h undo hUndo rfl
    obtain ⟨op, hOp, hEq⟩ := mem_inverse_iff.mp hUndo
    have hKey := (inverse?_eq_some hEq).1
    have hNone := h op hOp hKey.symm
    rw [hKey, ← inverse?_eq_none_iff (hValid op hOp), hEq] at hNone
    cases hNone
  · rintro h op hOp rfl
    rw [← inverse?_eq_none_iff (hValid op hOp)]
    cases hEq : UndoLog.inverse? op (records op.key) with
    | none => rfl
    | some undo =>
      exact absurd (inverse?_eq_some hEq).1 (h undo (mem_inverse_iff.mpr ⟨op, hOp, hEq⟩))

theorem afterAll_inverse_of_spares (hValid : ∀ op ∈ ops, op.kind ≠ .unset)
    (h : records.Spares ops key) : other.afterAll (records.inverse ops) key = other key :=
  afterAll_of_not_mem ((spares_iff hValid).mp h)

/-- The inverse leads back to the records it was computed from, on every key that was not
spared. -/
theorem afterAll_inverse_of_not_spares (hValid : ∀ op ∈ ops, op.kind ≠ .unset)
    (h : ¬ records.Spares ops key) : other.afterAll (records.inverse ops) key = records key := by
  apply afterAll_eq_of_outcome
  · rintro undo hUndo rfl
    exact outcome_of_mem_inverse hUndo
  · left
    by_contra hNone
    exact h ((spares_iff hValid).mpr fun undo hUndo hKey => hNone ⟨undo, hUndo, hKey⟩)

theorem Spares.afterAll (h : records.Spares ops key) (hSame : other key = records key) :
    other.afterAll ops key = other key := by
  apply afterAll_eq_of_outcome _ (.inr rfl)
  intro op hOp hKey
  obtain ⟨hKind, hNone⟩ := h op hOp hKey
  rw [hSame, hNone, Change.outcome, hKind]
  exact ⟨by decide, rfl⟩

/-- The length of every value can be counted in eight bytes. -/
def Addressable (records : Records) : Prop :=
  ∀ key value, records key = some value → value.length < Wire.lengthLimit

theorem Addressable.afterAll (h : records.Addressable) (hOps : ∀ op ∈ ops, op.Recordable) :
    (records.afterAll ops).Addressable := by
  induction ops generalizing records with
  | nil => exact h
  | cons op ops ih =>
    apply ih _ fun o ho => hOps o (List.mem_cons_of_mem op ho)
    intro key value hValue
    by_cases hKey : op.key = key
    · have hOp := hOps op List.mem_cons_self
      rw [after_of_valid hOp.kind hKey, Change.outcome] at hValue
      split at hValue
      · obtain rfl := Option.some.inj hValue
        exact hOp.value
      · cases hValue
      · cases hValue
    · rw [after_of_ne hKey] at hValue
      exact h key value hValue

theorem Addressable.inverse (h : records.Addressable) (hOps : Operation.RecordableAll ops) :
    Operation.RecordableAll (records.inverse ops) where
  count := (length_inverse_le records ops).trans_lt hOps.count
  each undo hUndo := by
    obtain ⟨op, hOp, hEq⟩ := mem_inverse_iff.mp hUndo
    obtain ⟨hKey, hKind, _, hValue⟩ := inverse?_eq_some hEq
    refine ⟨hKind, hKey ▸ (hOps.each op hOp).key, ?_⟩
    obtain hEmpty | hSome := hValue
    · rw [hEmpty, Wire.lengthLimit]
      exact Nat.pow_pos (by decide)
    · exact h op.key undo.value hSome

end Records

namespace PendingSet

/-- The records as they will be when the pending changes are written. -/
def appliedTo (pending : PendingSet) (records : Records) : Records := fun key =>
  match pending[key]? with
  | some change => change.outcome
  | none => records key

def Valid (pending : PendingSet) : Prop :=
  ∀ (key : String) (change : Change), pending[key]? = some change → change.kind ≠ .unset

variable {pending : PendingSet} {records : Records} {ops : List Operation}

@[simp] theorem empty_appliedTo (records : Records) :
    (∅ : PendingSet).appliedTo records = records := by
  funext key
  simp [appliedTo]

theorem valid_empty : (∅ : PendingSet).Valid := by
  intro key change h
  simp at h

theorem getElem?_add (pending : PendingSet) (op : Operation) (key : String) :
    (pending.add op)[key]? = if op.key = key then some op.toChange else pending[key]? := by
  rw [add, Std.ExtTreeMap.getElem?_insert]
  simp only [Std.LawfulEqOrd.compare_eq_iff_eq]

theorem add_appliedTo {op : Operation} (h : op.kind ≠ .unset) :
    (pending.add op).appliedTo records = (pending.appliedTo records).after op := by
  funext key
  rw [appliedTo, getElem?_add]
  by_cases hKey : op.key = key
  · rw [if_pos hKey, Records.after_of_valid h hKey]
  · rw [if_neg hKey, Records.after_of_ne hKey, appliedTo]

theorem Valid.add (h : pending.Valid) {op : Operation} (hOp : op.kind ≠ .unset) :
    (pending.add op).Valid := by
  intro key change hChange
  rw [getElem?_add] at hChange
  split at hChange
  · obtain rfl := Option.some.inj hChange
    exact hOp
  · exact h key change hChange

theorem addAll_appliedTo (h : ∀ op ∈ ops, op.kind ≠ .unset) :
    (pending.addAll ops).appliedTo records = (pending.appliedTo records).afterAll ops := by
  induction ops generalizing pending with
  | nil => rfl
  | cons op ops ih =>
    rw [Records.afterAll_cons, ← add_appliedTo (h op List.mem_cons_self)]
    exact ih fun o ho => h o (List.mem_cons_of_mem op ho)

theorem appliedTo_addAll_empty (h : ∀ op ∈ ops, op.kind ≠ .unset) :
    ((∅ : PendingSet).addAll ops).appliedTo records = records.afterAll ops := by
  rw [addAll_appliedTo h, empty_appliedTo]

theorem Valid.addAll (hPending : pending.Valid) (h : ∀ op ∈ ops, op.kind ≠ .unset) :
    (pending.addAll ops).Valid := by
  induction ops generalizing pending with
  | nil => exact hPending
  | cons op ops ih =>
    exact ih (hPending.add (h op List.mem_cons_self)) fun o ho => h o (List.mem_cons_of_mem op ho)

end PendingSet

end ForkLog
