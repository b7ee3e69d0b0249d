import Mathlib
import ForkLog.Proofs.Event.Return
import ForkLog.Proofs.Event.Source
import ForkLog.Proofs.Text.Utf8

/-! # Lines are read independently

What a line yields is found in the line alone, but for the number that it is complained about under:
the lines before it are counted, if they are text. Neither a carriage return before the newline nor
what follows the last newline makes a difference, so that a source is read piece by piece.
-/

namespace ForkLog

set_option autoImplicit false

namespace Event

/-- What a line yields under its number. A blank line yields nothing. -/
def yielded (number : Nat) (line : Bytes) : Option (Except Error Event) :=
  match Utf8.decodeChars line with
  | .error _ => some (.error undecodable)
  | .ok text => if text.all isBlank then none else some (readLine number text)

theorem readLines_cons (number : Nat) (line : Bytes) (found : List Bytes) :
    readLines number (line :: found) = (yielded (number + 1) line).toList ++
      readLines (number + [line].countP isText) found := by
  rw [readLines, yielded, List.countP_singleton, isText]
  cases Utf8.decodeChars line with
  | error fault => rfl
  | ok text =>
    simp only
    split <;> rfl

def Blank (line : Bytes) : Prop :=
  ∃ text, Utf8.decodeChars line = .ok text ∧ text.all isBlank = true

theorem yielded_eq_none_iff (number : Nat) (line : Bytes) :
    yielded number line = none ↔ Blank line := by
  rw [yielded, Blank]
  cases Utf8.decodeChars line with
  | error fault => simp
  | ok text => simp

theorem decodeChars_append_return (line : Bytes) :
    (∃ text, Utf8.decodeChars line = .ok text ∧
      Utf8.decodeChars (line ++ [carriageReturn]) = .ok (text ++ ['\r'])) ∨
    (∃ fault, Utf8.decodeChars line = .error fault) ∧
      ∃ fault, Utf8.decodeChars (line ++ [carriageReturn]) = .error fault := by
  have hMark (text : List Char) :
      Utf8.encodeChars (text ++ ['\r']) = Utf8.encodeChars text ++ [carriageReturn] := by
    rw [Utf8.encodeChars, List.flatMap_append]
    rfl
  cases hLine : Utf8.decodeChars line with
  | ok text =>
    refine .inl ⟨text, rfl, ?_⟩
    rw [Utf8.decodeChars_eq_ok_iff, hMark, Utf8.decodeChars_eq_ok_iff.mp hLine]
  | error fault =>
    refine .inr ⟨⟨fault, rfl⟩, ?_⟩
    cases hLonger : Utf8.decodeChars (line ++ [carriageReturn]) with
    | error fault => exact ⟨fault, rfl⟩
    | ok text =>
      -- The last character of such a text is the carriage return, and the line would be the others.
      rw [Utf8.decodeChars_eq_ok_iff] at hLonger
      obtain rfl | ⟨front, c, rfl⟩ := text.eq_nil_or_concat'
      · exact absurd hLonger (List.append_ne_nil_of_right_ne_nil _ (List.cons_ne_nil _ _))
      have hChars : Utf8.encodeChars (front ++ [c]) =
          Utf8.encodeChars front ++ String.utf8EncodeChar c := by
        rw [Utf8.encodeChars, List.flatMap_append, List.flatMap_singleton]
        rfl
      have hMem : carriageReturn ∈ String.utf8EncodeChar c := by
        obtain hNil | ⟨init, b, hInit⟩ := (String.utf8EncodeChar c).eq_nil_or_concat'
        · exact absurd hNil String.utf8EncodeChar_ne_nil
        · rw [hChars, hInit, ← List.append_assoc] at hLonger
          rw [hInit, (List.append_singleton_inj.mp hLonger).2]
          exact List.mem_append_right _ List.mem_cons_self
      have hReturn : c = '\r' :=
        Char.toNat_inj.mp (Utf8.toNat_eq_of_mem_encodeChar hMem (by decide))
      rw [hReturn, hMark] at hLonger
      have hText : Utf8.decodeChars line = .ok front :=
        Utf8.decodeChars_eq_ok_iff.mpr (List.append_cancel_right hLonger)
      rw [hText] at hLine
      cases hLine

theorem yielded_append_return (number : Nat) (line : Bytes) :
    yielded number (line ++ [carriageReturn]) = yielded number line := by
  rw [yielded, yielded]
  obtain ⟨text, hLine, hLonger⟩ | ⟨⟨_, hLine⟩, _, hLonger⟩ := decodeChars_append_return line
  · have hBlank : (text ++ ['\r']).all isBlank = text.all isBlank := by
      rw [List.all_append]
      exact Bool.and_true _
    simp only [hLine, hLonger, hBlank, readLine_append_mark]
  · rw [hLine, hLonger]

theorem isText_append_return (line : Bytes) : isText (line ++ [carriageReturn]) = isText line := by
  rw [isText, isText]
  obtain ⟨text, hLine, hLonger⟩ | ⟨⟨_, hLine⟩, _, hLonger⟩ := decodeChars_append_return line
  · rw [hLine, hLonger]; rfl
  · rw [hLine, hLonger]; rfl

theorem chop_eq_or (line : Bytes) : chop line = line ∨ chop line ++ [carriageReturn] = line := by
  rw [chop]
  split
  case isTrue hLast => exact .inr (List.dropLast_append_getLast? _ hLast)
  case isFalse => exact .inl rfl

theorem yielded_chop (number : Nat) (line : Bytes) :
    yielded number (chop line) = yielded number line := by
  obtain hChop | hChop := chop_eq_or line
  · rw [hChop]
  · rw [← yielded_append_return, hChop]

theorem isText_chop (line : Bytes) : isText (chop line) = isText line := by
  obtain hChop | hChop := chop_eq_or line
  · rw [hChop]
  · rw [← isText_append_return, hChop]

theorem countP_map_chop (pieces : List Bytes) :
    (pieces.map chop).countP isText = pieces.countP isText := by
  rw [List.countP_map]
  exact List.countP_congr fun line _ => by rw [Function.comp_apply, isText_chop]

theorem readLines_map_chop (number : Nat) (pieces : List Bytes) :
    readLines number (pieces.map chop) = readLines number pieces := by
  induction pieces generalizing number with
  | nil => rfl
  | cons piece pieces ih =>
    rw [List.map_cons, readLines_cons, readLines_cons, ih, yielded_chop, List.countP_singleton,
      List.countP_singleton, isText_chop]

theorem readAll_eq (source : Bytes) :
    readAll source = readLines 0 (splitAtEach newline source) := by
  obtain hNil | ⟨front, last, hPieces⟩ := (splitAtEach newline source).eq_nil_or_concat'
  · exact absurd hNil (splitAtEach_ne_nil newline source)
  have hLast (number : Nat) :
      readLines number (linesOfPieces [last]) = readLines number [last] := by
    rw [linesOfPieces]
    split
    case isTrue hEmpty =>
      rw [List.isEmpty_iff.mp hEmpty]
      rfl
    case isFalse => rfl
  rw [readAll, lines, hPieces, linesOfPieces_append front (List.cons_ne_nil _ _), readLines_append,
    readLines_append, readLines_map_chop, countP_map_chop, hLast]

/-- Lines are counted if they are text. -/
def lineNumber (pieces : List Bytes) (index : Nat) : Nat := (pieces.take index).countP isText + 1

theorem readLines_eq_filterMap (pieces : List Bytes) :
    readLines 0 pieces = pieces.zipIdx.filterMap fun (line, index) =>
      yielded (lineNumber pieces index) line := by
  induction pieces using List.reverseRecOn with
  | nil => rfl
  | append_singleton front line ih =>
    have hFront : front.zipIdx.filterMap (fun (piece, index) =>
        yielded (lineNumber (front ++ [line]) index) piece) = readLines 0 front := by
      rw [ih]
      refine List.filterMap_congr fun (piece, index) hMem => ?_
      have hIndex : index < 0 + front.length := List.snd_lt_add_of_mem_zipIdx hMem
      rw [Nat.zero_add] at hIndex
      simp only [lineNumber, List.take_append_of_le_length hIndex.le]
    rw [readLines_append, readLines_cons, List.zipIdx_append, List.filterMap_append, hFront]
    have hNumber : lineNumber (front ++ [line]) (0 + front.length) =
        0 + front.countP isText + 1 := by
      rw [lineNumber, Nat.zero_add, Nat.zero_add, List.take_left]
    simp only [List.zipIdx_singleton, List.filterMap_cons, List.filterMap_nil, hNumber, readLines]
    cases yielded (0 + front.countP isText + 1) line <;> rfl

/-- The complaint about a line that cannot be read. -/
def complaint (number : Nat) (fault : LineFault) : Error :=
  .serialization (s!"line {number}: " ++ fault.message)

/-- The same items, but for the number of the line in a complaint. -/
inductive Renumbered (shift : Nat) : Except Error Event → Except Error Event → Prop
  | same {item : Except Error Event} (h : ∀ number fault, item ≠ .error (complaint number fault)) :
      Renumbered shift item item
  | moved (number : Nat) (fault : LineFault) :
      Renumbered shift (.error (complaint number fault)) (.error (complaint (number + shift) fault))

theorem ne_complaint_of_ofRaw {raw : RawEvent} {e : Error} (h : ofRaw raw = .error e)
    (number : Nat) (fault : LineFault) : e ≠ complaint number fault := by
  rintro rfl
  obtain ⟨reason, hCursor⟩ | ⟨rest, hHex⟩ := of_ofRaw h
  · cases hCursor
  · have hText := congrArg String.toList (Error.serialization.inj hHex)
    simp only [String.toList_append] at hText
    cases hText

theorem renumbered_readLine (number shift : Nat) (text : List Char) :
    Renumbered shift (readLine number text) (readLine (number + shift) text) := by
  rw [readLine, readLine]
  cases readRaw text with
  | error fault => exact .moved number fault
  | ok raw =>
    refine .same fun other fault hItem => ?_
    exact ne_complaint_of_ofRaw hItem other fault rfl

theorem renumbered_yielded (number shift : Nat) (line : Bytes) :
    List.Forall₂ (Renumbered shift) (yielded number line).toList
      (yielded (number + shift) line).toList := by
  rw [yielded, yielded]
  cases Utf8.decodeChars line with
  | error fault => exact .cons (.same fun _ _ => nofun) .nil
  | ok text =>
    simp only
    split
    case isTrue => exact .nil
    case isFalse => exact .cons (renumbered_readLine number shift text) .nil

theorem renumbered_readLines (number shift : Nat) (pieces : List Bytes) :
    List.Forall₂ (Renumbered shift) (readLines number pieces)
      (readLines (number + shift) pieces) := by
  induction pieces generalizing number with
  | nil => exact .nil
  | cons piece pieces ih =>
    have hNumber : number + shift + 1 = number + 1 + shift := by omega
    have hCount : number + shift + [piece].countP isText =
        number + [piece].countP isText + shift := by omega
    rw [readLines_cons, readLines_cons, hNumber, hCount]
    exact List.rel_append (renumbered_yielded (number + 1) shift piece) (ih _)

theorem yielded_of_malformed {number : Nat} {line : Bytes} {text : List Char} {fault : LineFault}
    (hText : Utf8.decodeChars line = .ok text) (hSome : text.all isBlank = false)
    (hFault : readRaw text = .error fault) :
    yielded number line = some (.error (complaint number fault)) := by
  rw [yielded, hText]
  simp only [hSome, readLine, hFault]
  rfl

theorem lineNumber_of_isText {pieces : List Bytes} {index : Nat} (hIndex : index < pieces.length)
    (h : ∀ line ∈ pieces.take index, isText line = true) : lineNumber pieces index = index + 1 := by
  rw [lineNumber, List.countP_eq_length.mpr h, List.length_take, Nat.min_eq_left hIndex.le]

/-- A source yields the same in front of another one as alone, and the other one does behind it, but
for the numbers. Every line that is not blank yields one item, under its own number as long as the
lines before it are text. -/
theorem lines_independent (a b : Bytes) :
    (∃ items, readAll (a ++ newline :: b) = readAll a ++ items ∧
      List.Forall₂ (Renumbered ((splitAtEach newline a).countP isText)) (readAll b) items) ∧
    (readAll a = (splitAtEach newline a).zipIdx.filterMap fun (line, index) =>
      yielded (lineNumber (splitAtEach newline a) index) line) ∧
    (∀ number line, yielded number line = none ↔ Blank line) ∧
    ∀ index line text fault, (splitAtEach newline a)[index]? = some line →
      (∀ earlier ∈ (splitAtEach newline a).take index, isText earlier = true) →
      Utf8.decodeChars line = .ok text → text.all isBlank = false → readRaw text = .error fault →
        yielded (lineNumber (splitAtEach newline a) index) line =
          some (.error (complaint (index + 1) fault)) := by
  refine ⟨⟨readLines ((splitAtEach newline a).countP isText) (splitAtEach newline b), ?_, ?_⟩,
    ?_, yielded_eq_none_iff, ?_⟩
  · rw [readAll_eq, splitAtEach_append_mark, readLines_append, ← readAll_eq, Nat.zero_add]
  · have hItems := renumbered_readLines 0 ((splitAtEach newline a).countP isText)
      (splitAtEach newline b)
    rwa [← readAll_eq, Nat.zero_add] at hItems
  · rw [readAll_eq, readLines_eq_filterMap]
  · intro index line text fault hLine hEarlier hText hSome hFault
    obtain ⟨hIndex, -⟩ := List.getElem?_eq_some_iff.mp hLine
    rw [lineNumber_of_isText hIndex hEarlier]
    exact yielded_of_malformed hText hSome hFault

example : readAll (Utf8.encode "\r\n?\r\n\n[\r") =
    [.error (complaint 2 .malformed), .error (complaint 4 .malformed)] := by decide

end Event

end ForkLog
