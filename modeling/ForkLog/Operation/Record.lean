import ForkLog.Operation
import ForkLog.Wire

/-! # Undo records

A batch of operations as bytes: the count, then for each operation the tag of its kind, its key
and its value. A record holds no operation of invalid kind.
-/

namespace ForkLog.Operation

set_option autoImplicit false

def encode (op : Operation) : Bytes :=
  op.kind.tag :: Wire.text op.key ++ Wire.bytes op.value

def encodeBatch (ops : List Operation) : Bytes :=
  Wire.length ops.length ++ ops.flatMap encode

/-- The fields of an operation whose tag has not been judged. -/
abbrev Fields := UInt8 × String × Bytes

def readFields : Wire.Reader Fields :=
  Wire.readPair Wire.readByte (Wire.readPair Wire.readText Wire.readBytes)

inductive Fault where
  | malformed (fault : Wire.Fault)
  | unknownTag (tag : UInt8) (key : String)
  | invalidKind (op : Operation)
  deriving DecidableEq, Repr

def Fault.toError : Fault → Error
  | .malformed fault => .corruptOperation ("malformed undo record: " ++ fault.message)
  | .unknownTag tag key =>
    .corruptOperation (s!"unknown operation type {tag.toNat} for key '" ++ key ++ "'")
  | .invalidKind op => op.invalidKind

def ofFields (fields : Fields) : Except Fault Operation :=
  match OperationKind.ofTag? fields.1 with
  | none => .error (.unknownTag fields.1 fields.2.1)
  | some .unset => .error (.invalidKind ⟨⟨.unset, fields.2.2⟩, fields.2.1⟩)
  | some kind => .ok ⟨⟨kind, fields.2.2⟩, fields.2.1⟩

def ofFieldsAll : List Fields → Except Fault (List Operation)
  | [] => .ok []
  | fields :: rest =>
    match ofFields fields with
    | .error fault => .error fault
    | .ok op => (ofFieldsAll rest).map (op :: ·)

/-- All fields are read before the first tag is judged. -/
def readBatch (record : Bytes) : Except Fault (List Operation) :=
  match Wire.readList readFields record with
  | .error fault => .error (.malformed fault)
  | .ok (fields, _) => ofFieldsAll fields

def decodeBatch (record : Bytes) : Except Error (List Operation) :=
  (readBatch record).mapError Fault.toError

end ForkLog.Operation
