import ForkLog.Event
import ForkLog.Json.Reader
import ForkLog.Text.Hex

/-! # Event lines

An event is written on a line of its own, as a JSON object whose member `type` says what event it
is. Cursors are texts and values are in hexadecimal. A line is also read when it is an array that
holds the type and the members in the order in which they are written.
-/

namespace ForkLog.Event

set_option autoImplicit false

def kindText : OperationKind → String
  | .unset => "unset"
  | .set => "set"
  | .delete => "delete"

/-- Any other text is the invalid kind. -/
def kindOfText (text : String) : OperationKind :=
  if text = "set" then .set else if text = "delete" then .delete else .unset

def operationJson (op : Operation) : Json :=
  .object
    [("kind", .string (kindText op.kind)), ("key", .string op.key),
      ("value", .string (Hex.encode op.value))]

def toJson : Event → Json
  | data block =>
    .object
      [("type", .string "data"), ("block", .ofNat block.number.toNat),
        ("finalized_height", .ofNat block.finalizedHeight.toNat),
        ("cursor", .string block.cursor.text),
        ("operations", .array (block.operations.map operationJson))]
  | undo fork =>
    .object
      [("type", .string "undo"), ("last_valid_block", .ofNat fork.lastValidBlock.toNat),
        ("cursor", .string fork.cursor.text)]

def writeLine (event : Event) : List Char := event.toJson.write

inductive LineFault where
  | malformed
  | missingField (name : String)
  | duplicateField (name : String)
  | unknownVariant (name : String)
  deriving DecidableEq, Repr

def LineFault.message : LineFault → String
  | .malformed => "invalid json"
  | .missingField name => "missing field `" ++ name ++ "`"
  | .duplicateField name => "duplicate field `" ++ name ++ "`"
  | .unknownVariant name => "unknown variant `" ++ name ++ "`, expected `data` or `undo`"

inductive Tag where
  | data
  | undo
  deriving DecidableEq, Repr

structure RawOperation where
  kind : String
  key : String
  value : String
  deriving DecidableEq, Repr

inductive RawEvent where
  | data (block finalizedHeight : UInt64) (cursor : String) (operations : List RawOperation)
  | undo (lastValidBlock : UInt64) (cursor : String)
  deriving DecidableEq, Repr

variable {α : Type}

def asNatural : Json → Except LineFault UInt64
  | .number n =>
    match n.natural? with
    | some n => .ok n
    | none => .error .malformed
  | _ => .error .malformed

def asText : Json → Except LineFault String
  | .string s => .ok s
  | _ => .error .malformed

def once (name : String) (found : Option α) (value : Except LineFault α) :
    Except LineFault (Option α) :=
  if found.isSome then .error (.duplicateField name) else value.map some

def require (name : String) : Option α → Except LineFault α
  | some a => .ok a
  | none => .error (.missingField name)

structure OperationFields where
  kind : Option String := none
  key : Option String := none
  value : Option String := none

def OperationFields.take (fields : OperationFields) (member : String × Json) :
    Except LineFault OperationFields :=
  let (name, j) := member
  if name = "kind" then do return { fields with kind := ← once name fields.kind (asText j) }
  else if name = "key" then do return { fields with key := ← once name fields.key (asText j) }
  else if name = "value" then do
    return { fields with value := ← once name fields.value (asText j) }
  else .ok fields

def asOperation : Json → Except LineFault RawOperation
  | .object members => do
    let fields ← members.foldlM OperationFields.take {}
    let key ← require "key" fields.key
    return ⟨fields.kind.getD "", key, fields.value.getD ""⟩
  | .array [kind, key] => do
    return ⟨← asText kind, ← asText key, ""⟩
  | .array [kind, key, value] => do
    return ⟨← asText kind, ← asText key, ← asText value⟩
  | _ => .error .malformed

def asOperations : Json → Except LineFault (List RawOperation)
  | .array items => items.mapM asOperation
  | _ => .error .malformed

structure DataFields where
  block : Option UInt64 := none
  finalizedHeight : Option UInt64 := none
  cursor : Option String := none
  operations : Option (List RawOperation) := none

def DataFields.take (fields : DataFields) (member : String × Json) :
    Except LineFault DataFields :=
  let (name, j) := member
  if name = "block" then do return { fields with block := ← once name fields.block (asNatural j) }
  else if name = "finalized_height" then do
    return { fields with finalizedHeight := ← once name fields.finalizedHeight (asNatural j) }
  else if name = "cursor" then do
    return { fields with cursor := ← once name fields.cursor (asText j) }
  else if name = "operations" then do
    return { fields with operations := ← once name fields.operations (asOperations j) }
  else .ok fields

def DataFields.toEvent (fields : DataFields) : Except LineFault RawEvent := do
  let block ← require "block" fields.block
  let finalizedHeight ← require "finalized_height" fields.finalizedHeight
  let cursor ← require "cursor" fields.cursor
  return .data block finalizedHeight cursor (fields.operations.getD [])

structure UndoFields where
  lastValidBlock : Option UInt64 := none
  cursor : Option String := none

def UndoFields.take (fields : UndoFields) (member : String × Json) :
    Except LineFault UndoFields :=
  let (name, j) := member
  if name = "last_valid_block" then do
    return { fields with lastValidBlock := ← once name fields.lastValidBlock (asNatural j) }
  else if name = "cursor" then do
    return { fields with cursor := ← once name fields.cursor (asText j) }
  else .ok fields

def UndoFields.toEvent (fields : UndoFields) : Except LineFault RawEvent := do
  let lastValidBlock ← require "last_valid_block" fields.lastValidBlock
  let cursor ← require "cursor" fields.cursor
  return .undo lastValidBlock cursor

def ofMembers (tag : Tag) (members : List (String × Json)) : Except LineFault RawEvent :=
  match tag with
  | .data => do (← members.foldlM DataFields.take {}).toEvent
  | .undo => do (← members.foldlM UndoFields.take {}).toEvent

/-- Items that are there are looked at in order before their number is. -/
def ofItems (tag : Tag) (items : List Json) : Except LineFault RawEvent :=
  match tag, items with
  | .data, [block, finalizedHeight, cursor] => do
    return .data (← asNatural block) (← asNatural finalizedHeight) (← asText cursor) []
  | .data, block :: finalizedHeight :: cursor :: operations :: rest => do
    let event := RawEvent.data (← asNatural block) (← asNatural finalizedHeight)
      (← asText cursor) (← asOperations operations)
    if rest.isEmpty then return event else throw .malformed
  | .undo, [lastValidBlock, cursor] => do
    return .undo (← asNatural lastValidBlock) (← asText cursor)
  | _, _ => .error .malformed

def tagOfText (text : String) : Except LineFault Tag :=
  if text = "data" then .ok .data
  else if text = "undo" then .ok .undo
  else .error (.unknownVariant text)

def readTag (text : List Char) : Except LineFault (Tag × List Char) :=
  match Json.readString text with
  | none => .error .malformed
  | some (name, rest) => (tagOfText name).map fun tag => (tag, rest)

/-- The levels of nesting that are left within the line's own object or array. -/
def innerLevels : Nat := 126

/-- A part of the line's object: the type, which is judged where it stands, or a member that is
looked at when the type is known. -/
inductive Part where
  | type (tag : Tag)
  | member (name : String) (value : Json)

/-- Reads a part of the line's object. A second type is refused as soon as its name is read. -/
def readPart (tag : Option Tag) (text : List Char) : Except LineFault (Part × List Char) :=
  match Json.readString text with
  | none => .error .malformed
  | some (name, text) =>
    if name = "type" && tag.isSome then .error (.duplicateField name)
    else
      match Json.skipSpace text with
      | ':' :: text =>
        if name = "type" then
          (readTag (Json.skipSpace text)).map fun (tag, rest) => (.type tag, rest)
        else
          match Json.readValue innerLevels (Json.skipSpace text) with
          | none => .error .malformed
          | some (value, rest) => .ok (.member name value, rest)
      | _ => .error .malformed

def Part.tag? : Part → Option Tag
  | .type tag => some tag
  | .member _ _ => none

def Part.members : Part → List (String × Json)
  | .type _ => []
  | .member name value => [(name, value)]

/-- The type of a line, unless it has none, its other members, and what follows them. -/
structure Envelope where
  tag : Option Tag
  members : List (String × Json)
  rest : List Char

def readParts : (fuel : Nat) → Option Tag → List Char → Except LineFault Envelope
  | 0, _, _ => .error .malformed
  | fuel + 1, tag, text =>
    match readPart tag text with
    | .error fault => .error fault
    | .ok (part, text) =>
      let tag := part.tag?.or tag
      match Json.skipSpace text with
      | ',' :: text =>
        (readParts fuel tag (Json.skipSpace text)).map fun envelope =>
          { envelope with members := part.members ++ envelope.members }
      | '\x7d' :: text => .ok ⟨tag, part.members, text⟩
      | _ => .error .malformed

def checkEnd (rest : List Char) : Except LineFault Unit :=
  if (Json.skipSpace rest).isEmpty then .ok () else .error .malformed

def readObject (text : List Char) : Except LineFault RawEvent := do
  match Json.skipSpace text with
  | '\x7d' :: _ => throw (.missingField "type")
  | text =>
    let envelope ← readParts (text.length + 1) none text
    let tag ← require "type" envelope.tag
    let event ← ofMembers tag envelope.members
    checkEnd envelope.rest
    return event

def readItems (text : List Char) : Except LineFault (List Json × List Char) :=
  match Json.skipSpace text with
  | ']' :: rest => .ok ([], rest)
  | ',' :: rest =>
    match Json.readItems (Json.readValue innerLevels) ']' (rest.length + 1)
        (Json.skipSpace rest) with
    | none => .error .malformed
    | some found => .ok found
  | _ => .error .malformed

def readArray (text : List Char) : Except LineFault RawEvent := do
  match Json.skipSpace text with
  | ']' :: _ => throw (.missingField "type")
  | text =>
    let (tag, text) ← readTag text
    let (items, rest) ← readItems text
    let event ← ofItems tag items
    checkEnd rest
    return event

def readRaw (text : List Char) : Except LineFault RawEvent :=
  match Json.skipSpace text with
  | '\x7b' :: text => readObject text
  | '[' :: text => readArray text
  | _ => .error .malformed

def ofRawOperation (raw : RawOperation) : Except Error Operation :=
  match Hex.decode raw.value with
  | .error fault =>
    .error (.serialization
      ("invalid hex value for key '" ++ raw.key ++ "': " ++ fault.message))
  | .ok value => .ok ⟨⟨kindOfText raw.kind, value⟩, raw.key⟩

/-- The values are read before the cursor. -/
def ofRaw : RawEvent → Except Error Event
  | .data block finalizedHeight cursor operations => do
    let operations ← operations.mapM ofRawOperation
    let cursor ← Cursor.read cursor
    return .data ⟨block, finalizedHeight, operations, cursor⟩
  | .undo lastValidBlock cursor => do
    let cursor ← Cursor.read cursor
    return .undo ⟨lastValidBlock, cursor⟩

def readLine (number : Nat) (text : List Char) : Except Error Event :=
  match readRaw text with
  | .error fault => .error (.serialization (s!"line {number}: " ++ fault.message))
  | .ok raw => ofRaw raw

end ForkLog.Event
