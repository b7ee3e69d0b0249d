import ForkLog.Bytes
import ForkLog.Error

/-! # Operations on user records -/

namespace ForkLog

set_option autoImplicit false

inductive OperationKind where
  /-- No valid kind; an operation that carries it is refused. -/
  | unset
  | set
  | delete
  deriving DecidableEq, Repr

namespace OperationKind

def tag : OperationKind → UInt8
  | unset => 0
  | set => 1
  | delete => 2

def ofTag? (tag : UInt8) : Option OperationKind :=
  if tag = 0 then some unset
  else if tag = 1 then some set
  else if tag = 2 then some delete
  else none

def name : OperationKind → String
  | unset => "UNSET"
  | set => "SET"
  | delete => "DELETE"

theorem ofTag?_tag (kind : OperationKind) : ofTag? kind.tag = some kind := by
  cases kind <;> rfl

theorem ofTag?_eq_some_iff {tag : UInt8} {kind : OperationKind} :
    ofTag? tag = some kind ↔ tag = kind.tag := by
  constructor
  · intro h
    unfold ofTag? at h
    split at h
    · simp_all [OperationKind.tag, ← Option.some.inj h]
    · split at h
      · simp_all [OperationKind.tag, ← Option.some.inj h]
      · split at h
        · simp_all [OperationKind.tag, ← Option.some.inj h]
        · cases h
  · rintro rfl
    exact ofTag?_tag kind

end OperationKind

/-- What becomes of a key. The value of a deletion is carried and means nothing. -/
structure Change where
  kind : OperationKind
  value : Bytes
  deriving DecidableEq, Repr

structure Operation extends Change where
  key : String
  deriving DecidableEq, Repr

namespace Operation

def assign (key : String) (value : Bytes) : Operation := ⟨⟨.set, value⟩, key⟩

def remove (key : String) : Operation := ⟨⟨.delete, []⟩, key⟩

def invalidKind (op : Operation) : Error :=
  .corruptOperation ("invalid operation type " ++ op.kind.name ++ " for key '" ++ op.key ++ "'")

def validate (op : Operation) : Except Error Unit :=
  match op.kind with
  | .set | .delete => .ok ()
  | .unset => .error op.invalidKind

def validateAll : List Operation → Except Error Unit
  | [] => .ok ()
  | op :: rest =>
    match op.validate with
    | .error e => .error e
    | .ok () => validateAll rest

theorem validate_eq_ok_iff (op : Operation) : op.validate = .ok () ↔ op.kind ≠ .unset := by
  unfold validate
  cases op.kind <;> simp

theorem validateAll_eq_ok_iff (ops : List Operation) :
    validateAll ops = .ok () ↔ ∀ op ∈ ops, op.kind ≠ .unset := by
  induction ops with
  | nil => simp [validateAll]
  | cons op rest ih =>
    rw [List.forall_mem_cons, ← validate_eq_ok_iff, ← ih, validateAll]
    cases op.validate <;> simp

theorem validate_eq_error_iff {op : Operation} {e : Error} :
    op.validate = .error e ↔ op.kind = .unset ∧ e = op.invalidKind := by
  unfold validate
  cases op.kind <;> simp [eq_comm]

theorem exists_of_validateAll_eq_error {ops : List Operation} {e : Error}
    (h : validateAll ops = .error e) : ∃ op ∈ ops, op.kind = .unset ∧ e = op.invalidKind := by
  induction ops with
  | nil => cases h
  | cons op rest ih =>
    rw [validateAll] at h
    cases hFirst : op.validate with
    | ok _ =>
      rw [hFirst] at h
      obtain ⟨other, hMem, hOther⟩ := ih h
      exact ⟨other, List.mem_cons_of_mem op hMem, hOther⟩
    | error e' =>
      rw [hFirst] at h
      cases h
      exact ⟨op, List.mem_cons_self, validate_eq_error_iff.mp hFirst⟩

end Operation

end ForkLog
