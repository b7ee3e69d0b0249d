import Mathlib
import ForkLog.Event.Line
import ForkLog.Proofs.Action
import ForkLog.Proofs.Cursor
import ForkLog.Proofs.Json.Reader
import ForkLog.Proofs.Text.Hex
import ForkLog.Text.Blank

/-! # Lines are read back

The line of an event is read back as the event, whatever texts and bytes it holds, if the block id
of its cursor has no colon; of no event that was read it has one.
-/

namespace ForkLog.Event

set_option autoImplicit false

theorem plain_string (levels : Nat) (s : String) : (Json.string s).Plain levels := by
  cases levels <;> trivial

theorem plain_ofNat (levels : Nat) (n : UInt64) : (Json.ofNat n.toNat).Plain levels :=
  Json.plain_number_iff.mpr ⟨n.toNat, n.toNat_lt, rfl⟩

theorem plain_operationJson (levels : Nat) (op : Operation) :
    (operationJson op).Plain (levels + 1) := by
  simp [operationJson, Json.Plain, plain_string]

theorem plain_operations (levels : Nat) (ops : List Operation) :
    (Json.array (ops.map operationJson)).Plain (levels + 2) := by
  simp [Json.Plain, plain_operationJson]

def name : Event → String
  | data _ => "data"
  | undo _ => "undo"

def tag : Event → Tag
  | data _ => .data
  | undo _ => .undo

/-- The members of a line that come after its type. -/
def members : Event → List (String × Json)
  | data block =>
    [("block", .ofNat block.number.toNat),
      ("finalized_height", .ofNat block.finalizedHeight.toNat),
      ("cursor", .string block.cursor.text),
      ("operations", .array (block.operations.map operationJson))]
  | undo fork =>
    [("last_valid_block", .ofNat fork.lastValidBlock.toNat), ("cursor", .string fork.cursor.text)]

theorem toJson_eq (event : Event) :
    event.toJson = .object (("type", .string event.name) :: event.members) := by
  cases event <;> rfl

theorem plain_members (event : Event) :
    ∀ member ∈ event.members, member.2.Plain innerLevels := by
  cases event with
  | data block =>
    simp [members, plain_string, plain_ofNat, plain_operations 124 block.operations, innerLevels]
  | undo fork => simp [members, plain_string, plain_ofNat]

theorem ne_type_of_mem (event : Event) : ∀ member ∈ event.members, member.1 ≠ "type" := by
  cases event <;> simp [members]

theorem readPart_type {name : String} {tag : Tag} (h : tagOfText name = .ok tag)
    (rest : List Char) :
    readPart none (Json.writeMember ("type", .string name) ++ rest) = .ok (.type tag, rest) := by
  have hColon : Json.isSpace ':' = false := by decide
  have hName : Json.skipSpace (Json.quoted name ++ rest) = Json.quoted name ++ rest :=
    ((Json.opens_quoted name).append rest).skipSpace_eq
  rw [Json.writeMember, List.append_assoc, List.cons_append]
  simp [readPart, Json.readString_quoted, Json.skipSpace_cons hColon, Json.write, hName, readTag, h,
    Except.map]

theorem readPart_member {found : Option Tag} {member : String × Json} (hName : member.1 ≠ "type")
    (hMember : Json.Takes (Json.readValue innerLevels) Json.write member.2) {rest : List Char}
    (hRest : Json.Follows rest) :
    readPart found (Json.writeMember member ++ rest) =
      .ok (.member member.1 member.2, rest) := by
  have hColon : Json.isSpace ':' = false := by decide
  have hValue := hMember.2 rest hRest
  have hOpens := (hMember.1.append rest).skipSpace_eq
  rw [Json.writeMember, List.append_assoc, List.cons_append]
  simp [readPart, Json.readString_quoted, hName, Json.skipSpace_cons hColon, hOpens, hValue]

theorem readParts_last {found : Option Tag} {text rest : List Char} {part : Part}
    (h : readPart found text = .ok (part, '\x7d' :: rest)) (fuel : Nat) :
    readParts (fuel + 1) found text = .ok ⟨part.tag?.or found, part.members, rest⟩ := by
  have hBrace : Json.isSpace '\x7d' = false := by decide
  simp only [readParts, h, Json.skipSpace_cons hBrace]

theorem readParts_more {found : Option Tag} {text rest : List Char} {part : Part}
    (h : readPart found text = .ok (part, ',' :: rest)) (hRest : Json.Opens rest) (fuel : Nat) :
    readParts (fuel + 1) found text =
      (readParts fuel (part.tag?.or found) rest).map fun envelope =>
        { envelope with members := part.members ++ envelope.members } := by
  have hComma : Json.isSpace ',' = false := by decide
  simp only [readParts, h, Json.skipSpace_cons hComma, hRest.skipSpace_eq]

theorem opens_writeMembers {members : List (String × Json)} (h : members ≠ []) :
    Json.Opens (Json.listed Json.writeMember members) :=
  Json.Opens.listed (fun member _ => Json.opens_writeMember member) h

theorem readParts_members (found : Option Tag) {members : List (String × Json)}
    (hSome : members ≠ []) (hNames : ∀ member ∈ members, member.1 ≠ "type")
    (hMembers : ∀ member ∈ members, Json.Takes (Json.readValue innerLevels) Json.write member.2)
    {fuel : Nat} (hFuel : members.length ≤ fuel) (rest : List Char) :
    readParts fuel found (Json.listed Json.writeMember members ++ '\x7d' :: rest) =
      .ok ⟨found, members, rest⟩ := by
  induction members generalizing fuel with
  | nil => exact absurd rfl hSome
  | cons member members ih =>
    obtain ⟨hName, hNames⟩ := List.forall_mem_cons.mp hNames
    obtain ⟨hMember, hMembers⟩ := List.forall_mem_cons.mp hMembers
    obtain _ | fuel := fuel
    · exact absurd hFuel (by simp)
    cases members with
    | nil =>
      have hPart : readPart found (Json.writeMember member ++ '\x7d' :: rest) = _ :=
        readPart_member hName hMember (Json.follows_cons rest (.inr (.inr rfl)))
      exact readParts_last hPart fuel
    | cons next members =>
      have hOpens : Json.Opens
          (Json.listed Json.writeMember (next :: members) ++ '\x7d' :: rest) :=
        (opens_writeMembers (List.cons_ne_nil next members)).append _
      have hPart : readPart found (Json.writeMember member ++ ',' ::
          (Json.listed Json.writeMember (next :: members) ++ '\x7d' :: rest)) = _ :=
        readPart_member hName hMember (Json.follows_cons _ (.inl rfl))
      rw [Json.listed_cons_cons, List.append_assoc, List.cons_append,
        readParts_more hPart hOpens, Part.tag?, Option.none_or,
        ih (List.cons_ne_nil next members) hNames hMembers (by simpa using hFuel)]
      rfl

theorem tagOfText_name (event : Event) : tagOfText event.name = .ok event.tag := by
  cases event <;> rfl

theorem members_ne_nil (event : Event) : event.members ≠ [] := by
  cases event <;> exact List.cons_ne_nil _ _

/-- What stands on the line after the opening brace. -/
def body (event : Event) : List Char :=
  Json.listed Json.writeMember (("type", .string event.name) :: event.members) ++ ['\x7d']

theorem writeLine_eq (event : Event) : event.writeLine = '\x7b' :: event.body := by
  rw [writeLine, toJson_eq, ← List.append_nil (Json.write _), Json.write_object, body]

theorem length_members_lt_body (event : Event) : event.members.length < event.body.length := by
  have hWritten : ∀ member ∈ ("type", Json.string event.name) :: event.members,
      Json.Opens (Json.writeMember member) := fun member _ => Json.opens_writeMember member
  have hLength := Json.length_le_listed hWritten
  rw [List.length_cons] at hLength
  rw [body, List.length_append]
  omega

/-- The type and the members of a line are taken from it as they were written. -/
theorem readParts_body (event : Event) {fuel : Nat} (hFuel : event.members.length < fuel) :
    readParts fuel none event.body = .ok ⟨some event.tag, event.members, []⟩ := by
  obtain _ | fuel := fuel
  · exact absurd hFuel (Nat.not_lt_zero _)
  have hTakes : ∀ member ∈ event.members, Json.Takes (Json.readValue innerLevels) Json.write
      member.2 := fun member hMember => (plain_members event member hMember).takes
  have hRest := readParts_members (some event.tag) (members_ne_nil event) (ne_type_of_mem event)
    hTakes (Nat.le_of_lt_succ hFuel) []
  have hOpens := (opens_writeMembers (members_ne_nil event)).append ['\x7d']
  obtain ⟨first, others, hSome⟩ := List.exists_cons_of_ne_nil (members_ne_nil event)
  rw [body, hSome, Json.listed_cons_cons, ← hSome, List.append_assoc, List.cons_append,
    readParts_more (readPart_type (tagOfText_name event) _) hOpens, Part.tag?, Option.some_or,
    hRest]
  rfl

theorem readObject_of_skipSpace {text rest : List Char} {c : Char}
    (hText : Json.skipSpace text = c :: rest) (hBrace : c ≠ '\x7d') :
    readObject text = do
      let envelope ← readParts ((c :: rest).length + 1) none (c :: rest)
      let tag ← require "type" envelope.tag
      let event ← ofMembers tag envelope.members
      checkEnd envelope.rest
      return event := by
  rw [readObject, hText]
  split
  case h_1 hEmpty => exact absurd (List.cons.inj hEmpty).1 hBrace
  case h_2 => rfl

theorem readRaw_writeLine (event : Event) :
    readRaw event.writeLine = ofMembers event.tag event.members := by
  have hSpace : Json.isSpace '\x7b' = false := by decide
  have hOpens : Json.Opens event.body := (opens_writeMembers (List.cons_ne_nil _ _)).append _
  have hParts := readParts_body event (Nat.lt_succ_of_lt (length_members_lt_body event))
  rw [writeLine_eq]
  simp only [readRaw, Json.skipSpace_cons hSpace]
  obtain ⟨c, others, hBody, -, -, hBrace⟩ := id hOpens
  have hText : Json.skipSpace event.body = c :: others := hOpens.skipSpace_eq.trans hBody
  rw [readObject_of_skipSpace hText hBrace, ← hBody, hParts]
  cases hMembers : ofMembers event.tag event.members with
  | error fault => simp [bind, Except.bind, require, hMembers]
  | ok raw =>
    simp [bind, Except.bind, require, hMembers, checkEnd, Json.skipSpace, pure, Except.pure]

def rawOperation (op : Operation) : RawOperation := ⟨kindText op.kind, op.key, Hex.encode op.value⟩

def toRaw : Event → RawEvent
  | data block =>
    .data block.number block.finalizedHeight block.cursor.text
      (block.operations.map rawOperation)
  | undo fork => .undo fork.lastValidBlock fork.cursor.text

theorem asNatural_ofNat (n : UInt64) : asNatural (.ofNat n.toNat) = .ok n := by
  simp [asNatural, Json.ofNat, Json.Numeral.natural?_ofNat n.toNat_lt]

theorem asOperation_operationJson (op : Operation) :
    asOperation (operationJson op) = .ok (rawOperation op) := rfl

theorem asOperations_map (ops : List Operation) :
    asOperations (.array (ops.map operationJson)) = .ok (ops.map rawOperation) :=
  Action.mapM_map_eq_ok fun op _ => asOperation_operationJson op

theorem ofMembers_members (event : Event) :
    ofMembers event.tag event.members = .ok event.toRaw := by
  cases event with
  | data block =>
    simp [tag, members, ofMembers, DataFields.take, once, asNatural_ofNat, asText,
      asOperations_map]
    rfl
  | undo fork =>
    simp [tag, members, ofMembers, UndoFields.take, once, asNatural_ofNat, asText]
    rfl

theorem kindOfText_kindText (kind : OperationKind) : kindOfText (kindText kind) = kind := by
  cases kind <;> rfl

theorem ofRawOperation_rawOperation (op : Operation) :
    ofRawOperation (rawOperation op) = .ok op := by
  simp [ofRawOperation, rawOperation, Hex.decode_encode, kindOfText_kindText]

theorem mapM_rawOperation (ops : List Operation) :
    (ops.map rawOperation).mapM ofRawOperation = .ok ops := by
  rw [Action.mapM_map_eq_ok fun op _ => ofRawOperation_rawOperation op, List.map_id']

theorem ofRaw_toRaw {event : Event} (h : ':' ∉ event.cursor.blockId.toList) :
    ofRaw event.toRaw = .ok event := by
  cases event with
  | data block =>
    have hCursor : Cursor.read block.cursor.text = .ok block.cursor := Cursor.read_text h
    simp only [toRaw, ofRaw, mapM_rawOperation, hCursor]
    rfl
  | undo fork =>
    have hCursor : Cursor.read fork.cursor.text = .ok fork.cursor := Cursor.read_text h
    simp only [toRaw, ofRaw, hCursor]
    rfl

theorem readLine_writeLine (number : Nat) {event : Event}
    (h : ':' ∉ event.cursor.blockId.toList) : readLine number event.writeLine = .ok event := by
  simp only [readLine, readRaw_writeLine, ofMembers_members, ofRaw_toRaw h]

theorem not_mem_of_ofRaw {raw : RawEvent} {event : Event} (h : ofRaw raw = .ok event) :
    ':' ∉ event.cursor.blockId.toList := by
  cases raw with
  | data block finalizedHeight text operations =>
    obtain ⟨ops, -, h⟩ := Action.exists_of_bind_eq_ok h
    obtain ⟨cursor, hRead, h⟩ := Action.exists_of_bind_eq_ok h
    cases h
    exact Cursor.not_mem_of_read hRead
  | undo lastValidBlock text =>
    obtain ⟨cursor, hRead, h⟩ := Action.exists_of_bind_eq_ok h
    cases h
    exact Cursor.not_mem_of_read hRead

/-- No event that was read has a colon in the block id of its cursor. -/
theorem not_mem_of_readLine {number : Nat} {text : List Char} {event : Event}
    (h : readLine number text = .ok event) : ':' ∉ event.cursor.blockId.toList := by
  rw [readLine] at h
  split at h
  · cases h
  · exact not_mem_of_ofRaw h

theorem plain_toJson (event : Event) : event.toJson.Plain (innerLevels + 1) := by
  rw [toJson_eq]
  exact List.forall_mem_cons.mpr ⟨plain_string innerLevels event.name, plain_members event⟩

theorem printable_writeLine (event : Event) : Json.Printable event.writeLine :=
  (plain_toJson event).printable

/-- A line is never passed over as a blank one. -/
theorem all_isBlank_writeLine (event : Event) : event.writeLine.all isBlank = false := by
  have hBrace : isBlank '\x7b' = false := by decide
  rw [writeLine_eq, List.all_cons, hBrace, Bool.false_and]

end ForkLog.Event
