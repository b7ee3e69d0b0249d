import Mathlib
import ForkLog.Operation.Record
import ForkLog.Proofs.Wire

/-! # Undo records are read back

A batch of valid operations is read back from its record, whatever follows it, as long as its
lengths can be counted in eight bytes. No other bytes lead to it: a batch has one record, and what
does not begin with the record of a batch is refused.
-/

namespace ForkLog.Operation

set_option autoImplicit false

/-- An operation of valid kind whose key and value have lengths that a record can hold. -/
structure Recordable (op : Operation) : Prop where
  kind : op.kind ≠ .unset
  key : (Utf8.encode op.key).length < Wire.lengthLimit
  value : op.value.length < Wire.lengthLimit

instance (op : Operation) : Decidable op.Recordable :=
  decidable_of_iff (op.kind ≠ .unset ∧ (Utf8.encode op.key).length < Wire.lengthLimit ∧
      op.value.length < Wire.lengthLimit)
    ⟨fun h => ⟨h.1, h.2.1, h.2.2⟩, fun h => ⟨h.kind, h.key, h.value⟩⟩

/-- A batch that a record can hold. -/
structure RecordableAll (ops : List Operation) : Prop where
  count : ops.length < Wire.lengthLimit
  each : ∀ op ∈ ops, op.Recordable

instance (ops : List Operation) : Decidable (RecordableAll ops) :=
  decidable_of_iff (ops.length < Wire.lengthLimit ∧ ∀ op ∈ ops, op.Recordable)
    ⟨fun h => ⟨h.1, h.2⟩, fun h => ⟨h.count, h.each⟩⟩

theorem RecordableAll.kinds {ops : List Operation} (h : RecordableAll ops) :
    ∀ op ∈ ops, op.kind ≠ .unset :=
  fun op hOp => (h.each op hOp).kind

/-- The fields of an operation before its kind is judged. -/
def fields (op : Operation) : Fields := (op.kind.tag, op.key, op.value)

theorem reads_fields :
    Wire.Reads readFields (fun f => [f.1] ++ (Wire.text f.2.1 ++ Wire.bytes f.2.2)) fun f =>
      True ∧ (Utf8.encode f.2.1).length < Wire.lengthLimit ∧ f.2.2.length < Wire.lengthLimit :=
  Wire.reads_byte.pair (Wire.reads_text.pair Wire.reads_bytes)

theorem ofFields_eq_ok_iff {f : Fields} {op : Operation} :
    ofFields f = .ok op ↔ f = op.fields ∧ op.kind ≠ .unset := by
  constructor
  · intro h
    obtain ⟨tag, key, value⟩ := f
    rw [ofFields] at h
    cases hKind : OperationKind.ofTag? tag with
    | none => simp only [hKind] at h; cases h
    | some kind =>
      obtain rfl := OperationKind.ofTag?_eq_some_iff.mp hKind
      simp only [hKind] at h
      cases kind with
      | unset => cases h
      | set => cases h; exact ⟨rfl, nofun⟩
      | delete => cases h; exact ⟨rfl, nofun⟩
  · rintro ⟨rfl, h⟩
    obtain ⟨⟨kind, value⟩, key⟩ := op
    cases kind with
    | unset => exact absurd rfl h
    | set => rfl
    | delete => rfl

theorem ofFieldsAll_eq_ok_iff {found : List Fields} {ops : List Operation} :
    ofFieldsAll found = .ok ops ↔ found = ops.map fields ∧ ∀ op ∈ ops, op.kind ≠ .unset := by
  induction found generalizing ops with
  | nil => cases ops <;> simp [ofFieldsAll]
  | cons f found ih =>
    constructor
    · intro h
      rw [ofFieldsAll] at h
      cases hFirst : ofFields f with
      | error fault => rw [hFirst] at h; cases h
      | ok op =>
        rw [hFirst] at h
        cases hRest : ofFieldsAll found with
        | error fault => simp only [hRest] at h; cases h
        | ok others =>
          simp only [hRest] at h
          cases h
          obtain ⟨rfl, hKind⟩ := ofFields_eq_ok_iff.mp hFirst
          obtain ⟨rfl, hKinds⟩ := ih.mp hRest
          exact ⟨rfl, List.forall_mem_cons.mpr ⟨hKind, hKinds⟩⟩
    · rintro ⟨hFields, hKinds⟩
      cases ops with
      | nil => cases hFields
      | cons op ops =>
        obtain ⟨rfl, rfl⟩ := List.cons.inj hFields
        obtain ⟨hKind, hKinds⟩ := List.forall_mem_cons.mp hKinds
        simp only [ofFieldsAll, ofFields_eq_ok_iff.mpr ⟨rfl, hKind⟩, ih.mpr ⟨rfl, hKinds⟩]
        rfl

theorem recordableAll_iff {ops : List Operation} :
    RecordableAll ops ↔ ((ops.map fields).length < Wire.lengthLimit ∧
      ∀ f ∈ ops.map fields, True ∧ (Utf8.encode f.2.1).length < Wire.lengthLimit ∧
        f.2.2.length < Wire.lengthLimit) ∧ ∀ op ∈ ops, op.kind ≠ .unset := by
  simp only [List.length_map, List.forall_mem_map, true_and]
  constructor
  · exact fun h => ⟨⟨h.count, fun op hOp => ⟨(h.each op hOp).key, (h.each op hOp).value⟩⟩,
      h.kinds⟩
  · exact fun ⟨⟨hCount, hEach⟩, hKinds⟩ =>
      ⟨hCount, fun op hOp => ⟨hKinds op hOp, (hEach op hOp).1, (hEach op hOp).2⟩⟩

theorem encodeBatch_eq (ops : List Operation) :
    encodeBatch ops = Wire.length (ops.map fields).length ++
      (ops.map fields).flatMap fun f => [f.1] ++ (Wire.text f.2.1 ++ Wire.bytes f.2.2) := by
  rw [encodeBatch, List.length_map, List.flatMap_map]
  rfl

theorem length_encode (op : Operation) :
    op.encode.length = 1 + (8 + (Utf8.encode op.key).length) + (8 + op.value.length) := by
  simp only [encode, Wire.text, List.cons_append, List.length_cons, List.length_append,
    Wire.length_bytes]
  omega

/-- A record is longer than each part of it and has room for all operations. -/
theorem length_encodeBatch (ops : List Operation) :
    ops.length ≤ (encodeBatch ops).length ∧ ∀ op ∈ ops,
      (Utf8.encode op.key).length ≤ (encodeBatch ops).length ∧
        op.value.length ≤ (encodeBatch ops).length := by
  have hTakes : ∀ op ∈ ops, 1 ≤ op.encode.length := by
    intro op _
    rw [length_encode]
    omega
  obtain ⟨hCount, hEach⟩ := Wire.length_list hTakes
  refine ⟨hCount, fun op hOp => ?_⟩
  have hLength : op.encode.length ≤ (encodeBatch ops).length := hEach op hOp
  rw [length_encode] at hLength
  omega

theorem recordableAll_of_length {ops : List Operation} (hKinds : ∀ op ∈ ops, op.kind ≠ .unset)
    (h : (encodeBatch ops).length < Wire.lengthLimit) : RecordableAll ops := by
  obtain ⟨hCount, hEach⟩ := length_encodeBatch ops
  exact ⟨hCount.trans_lt h, fun op hOp =>
    ⟨hKinds op hOp, (hEach op hOp).1.trans_lt h, (hEach op hOp).2.trans_lt h⟩⟩

theorem readBatch_eq_ok_iff {record : Bytes} {ops : List Operation} :
    readBatch record = .ok ops ↔ RecordableAll ops ∧ encodeBatch ops <+: record := by
  have hReads (found : List Fields) (rest : Bytes) := reads_fields.list record found rest
  constructor
  · intro h
    rw [readBatch] at h
    cases hFound : Wire.readList readFields record with
    | error fault => rw [hFound] at h; cases h
    | ok result =>
      obtain ⟨found, rest⟩ := result
      rw [hFound] at h
      obtain ⟨rfl, hKinds⟩ := ofFieldsAll_eq_ok_iff.mp h
      obtain ⟨hFits, hRecord⟩ := (hReads _ rest).mp hFound
      exact ⟨recordableAll_iff.mpr ⟨hFits, hKinds⟩, rest, by rw [hRecord, encodeBatch_eq]⟩
  · rintro ⟨hOps, rest, hRecord⟩
    obtain ⟨hFits, hKinds⟩ := recordableAll_iff.mp hOps
    have hFound := (hReads _ rest).mpr ⟨hFits, by rw [← hRecord, encodeBatch_eq]⟩
    rw [readBatch, hFound]
    exact ofFieldsAll_eq_ok_iff.mpr ⟨rfl, hKinds⟩

theorem decodeBatch_eq_ok_iff {record : Bytes} {ops : List Operation} :
    decodeBatch record = .ok ops ↔ RecordableAll ops ∧ encodeBatch ops <+: record := by
  rw [← readBatch_eq_ok_iff, decodeBatch]
  cases readBatch record with
  | error fault => exact ⟨nofun, nofun⟩
  | ok found => rw [Except.mapError, Except.ok.injEq, Except.ok.injEq]

theorem decodeBatch_encodeBatch {ops : List Operation} (h : RecordableAll ops) :
    decodeBatch (encodeBatch ops) = .ok ops :=
  decodeBatch_eq_ok_iff.mpr ⟨h, List.prefix_rfl⟩

theorem decodeBatch_error {record : Bytes} {e : Error} (h : decodeBatch record = .error e) :
    ∃ reason, e = .corruptOperation reason := by
  rw [decodeBatch] at h
  cases hRead : readBatch record with
  | ok ops => rw [hRead] at h; cases h
  | error fault =>
    rw [hRead] at h
    cases h
    cases fault <;> exact ⟨_, rfl⟩

theorem corrupt_iff {record : Bytes} :
    (∃ reason, decodeBatch record = .error (.corruptOperation reason)) ↔
      ∀ ops, RecordableAll ops → ¬ encodeBatch ops <+: record := by
  constructor
  · rintro ⟨reason, hFails⟩ ops hOps hPrefix
    rw [decodeBatch_eq_ok_iff.mpr ⟨hOps, hPrefix⟩] at hFails
    cases hFails
  · intro hNone
    cases hDecode : decodeBatch record with
    | ok ops =>
      obtain ⟨hOps, hPrefix⟩ := decodeBatch_eq_ok_iff.mp hDecode
      exact absurd hPrefix (hNone ops hOps)
    | error e =>
      obtain ⟨reason, rfl⟩ := decodeBatch_error hDecode
      exact ⟨reason, rfl⟩

/-- No record is the beginning of another one. -/
theorem eq_of_prefix {ops others : List Operation} (hOps : RecordableAll ops)
    (hOthers : RecordableAll others) (hPrefix : encodeBatch ops <+: encodeBatch others) :
    ops = others := by
  have hDecode := decodeBatch_eq_ok_iff.mpr ⟨hOps, hPrefix⟩
  rw [decodeBatch_encodeBatch hOthers] at hDecode
  exact (Except.ok.inj hDecode).symm

theorem corrupt_of_cut {record : Bytes} {ops : List Operation} (hOps : RecordableAll ops)
    (hCut : record <+: encodeBatch ops) (hNe : record ≠ encodeBatch ops) :
    ∃ reason, decodeBatch record = .error (.corruptOperation reason) := by
  refine corrupt_iff.mpr fun others hOthers hPrefix => hNe ?_
  obtain rfl := eq_of_prefix hOthers hOps (hPrefix.trans hCut)
  exact hCut.eq_of_length_le hPrefix.length_le

/-- A byte string is decoded to a batch if and only if it begins with the record of the batch; if it
begins with no record it is corrupt, and so is every record that has been cut. The lengths leave out
no batch of valid operations whose record is found in a byte string of countable length. -/
theorem undo_record_canonical (record : Bytes) :
    (∀ ops, decodeBatch record = .ok ops ↔ RecordableAll ops ∧ encodeBatch ops <+: record) ∧
    ((∃ reason, decodeBatch record = .error (.corruptOperation reason)) ↔
      ∀ ops, RecordableAll ops → ¬ encodeBatch ops <+: record) ∧
    (∀ ops, RecordableAll ops → record <+: encodeBatch ops → record ≠ encodeBatch ops →
      ∃ reason, decodeBatch record = .error (.corruptOperation reason)) ∧
    (record.length < Wire.lengthLimit → ∀ ops, encodeBatch ops <+: record →
      (RecordableAll ops ↔ ∀ op ∈ ops, op.kind ≠ .unset)) :=
  ⟨fun _ => decodeBatch_eq_ok_iff, corrupt_iff, fun _ hOps => corrupt_of_cut hOps,
    fun hLength _ hPrefix => ⟨fun hOps => hOps.kinds,
      fun hKinds => recordableAll_of_length hKinds (hPrefix.length_le.trans_lt hLength)⟩⟩

end ForkLog.Operation
