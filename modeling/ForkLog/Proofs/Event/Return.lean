import Mathlib
import ForkLog.Proofs.Event.Line
import ForkLog.Proofs.Json.Return

/-! # A carriage return at the end of a line

A line is judged alike with a carriage return at its end and without one.
-/

namespace ForkLog.Event

set_option autoImplicit false

open Json (Returns)

variable {α : Type}

/-- Both of the texts are refused for the same fault, or the same is found in them. -/
inductive Judged (size : Nat) :
    Except LineFault (α × List Char) → Except LineFault (α × List Char) → Prop
  | fault (fault : LineFault) : Judged size (.error fault) (.error fault)
  | found (a : α) {rest others : List Char} (hLess : rest.length < size)
      (h : Returns rest others) : Judged size (.ok (a, rest)) (.ok (a, others))

theorem Judged.eq_or_eq {size : Nat} {result other : Except LineFault (α × List Char)}
    (h : Judged size result other) : (∃ fault, result = .error fault ∧ other = .error fault) ∨
      ∃ a rest others, result = .ok (a, rest) ∧ other = .ok (a, others) ∧ rest.length < size ∧
        Returns rest others := by
  cases h with
  | fault fault => exact .inl ⟨fault, rfl, rfl⟩
  | found a hLess hRest => exact .inr ⟨a, _, _, rfl, rfl, hLess, hRest⟩

theorem Judged.map {β : Type} {size more : Nat} {result other : Except LineFault (α × List Char)}
    (h : Judged size result other) {f : α × List Char → β × List Char} {g : α → β}
    (hf : ∀ a rest, f (a, rest) = (g a, rest)) (hMore : size ≤ more) :
    Judged more (result.map f) (other.map f) := by
  cases h with
  | fault reason => exact fault reason
  | found a hLess hRest =>
    rw [Except.map, Except.map, hf, hf]
    exact found (g a) (hLess.trans_le hMore) hRest

variable {text other : List Char}

theorem judged_readTag (h : Returns text other) :
    Judged text.length (readTag text) (readTag other) := by
  rw [readTag, readTag]
  obtain ⟨hText, hOther⟩ | ⟨name, rest, others, hText, hOther, hLess, hRest⟩ :=
    (Json.steady_readString h).eq_or_eq
  · rw [hText, hOther]
    exact .fault _
  rw [hText, hOther]
  dsimp only
  cases tagOfText name with
  | error fault => exact .fault fault
  | ok tag => exact .found tag hLess hRest

theorem judged_readPart (tag : Option Tag) (h : Returns text other) :
    Judged text.length (readPart tag text) (readPart tag other) := by
  rw [readPart, readPart]
  obtain ⟨hText, hOther⟩ | ⟨name, rest, others, hText, hOther, hLess, hRest⟩ :=
    (Json.steady_readString h).eq_or_eq
  · rw [hText, hOther]
    exact .fault _
  rw [hText, hOther]
  dsimp only
  split
  case isTrue => exact .fault _
  case isFalse =>
    obtain ⟨hText, hOther⟩ | ⟨c, rest, others, hText, hOther, hLess', hRest⟩ := hRest.skipSpace
    · rw [hText, hOther]
      exact .fault _
    rw [hText, hOther]
    obtain ⟨hMore, hLength⟩ := hRest.skipped
    obtain rfl | hColon := eq_or_ne c ':'
    · simp only
      split
      case isTrue =>
        exact (judged_readTag hMore).map (fun _ _ => rfl) (by omega)
      case isFalse =>
        obtain ⟨hText, hOther⟩ | ⟨j, rest, others, hText, hOther, hLess'', hRest⟩ :=
          (Json.steady_readValue innerLevels hMore).eq_or_eq
        · rw [hText, hOther]
          exact .fault _
        · rw [hText, hOther]
          exact .found (Part.member name j) (by omega) hRest
    · simp [hColon, Judged.fault]

theorem readParts_returns (tag : Option Tag) (h : Returns text other) {fuel more : Nat}
    (hFuel : text.length < fuel) (hMore : text.length < more) :
    (∃ fault, readParts fuel tag text = .error fault ∧ readParts more tag other = .error fault) ∨
      ∃ found members rest others, readParts fuel tag text = .ok ⟨found, members, rest⟩ ∧
        readParts more tag other = .ok ⟨found, members, others⟩ ∧ Returns rest others := by
  induction fuel generalizing more tag text other with
  | zero => omega
  | succ fuel ih =>
    obtain ⟨more, rfl⟩ : ∃ n, more = n + 1 := ⟨more - 1, by omega⟩
    rw [readParts, readParts]
    obtain ⟨fault, hText, hOther⟩ | ⟨part, rest, others, hText, hOther, hLess, hRest⟩ :=
      (judged_readPart tag h).eq_or_eq
    · rw [hText, hOther]
      exact .inl ⟨fault, rfl, rfl⟩
    rw [hText, hOther]
    dsimp only
    obtain ⟨hText, hOther⟩ | ⟨c, rest, others, hText, hOther, hLess', hRest⟩ := hRest.skipSpace
    · rw [hText, hOther]
      exact .inl ⟨_, rfl, rfl⟩
    rw [hText, hOther]
    obtain ⟨hSkipped, hLength⟩ := hRest.skipped
    obtain rfl | hComma := eq_or_ne c ','
    · simp only
      have hFuel' : (Json.skipSpace rest).length < fuel := by omega
      have hMore' : (Json.skipSpace rest).length < more := by omega
      obtain ⟨fault, hText, hOther⟩ | ⟨found, members, rest, others, hText, hOther, hRest⟩ :=
        ih (part.tag?.or tag) hSkipped hFuel' hMore'
      · rw [hText, hOther]
        exact .inl ⟨fault, rfl, rfl⟩
      · rw [hText, hOther]
        exact .inr ⟨_, _, _, _, rfl, rfl, hRest⟩
    obtain rfl | hClose := eq_or_ne c '\x7d'
    · exact .inr ⟨_, _, _, _, rfl, rfl, hRest⟩
    simp [hComma, hClose]

theorem checkEnd_eq (h : Returns text other) : checkEnd text = checkEnd other := by
  rw [checkEnd, checkEnd]
  obtain ⟨hText, hOther⟩ | ⟨c, rest, others, hText, hOther, -, -⟩ := h.skipSpace
  · rw [hText, hOther]
  · rw [hText, hOther, List.isEmpty_cons, List.isEmpty_cons]

theorem judged_readItems (h : Returns text other) :
    Judged text.length (readItems text) (readItems other) := by
  rw [readItems, readItems]
  obtain ⟨hText, hOther⟩ | ⟨c, rest, others, hText, hOther, hLess, hRest⟩ := h.skipSpace
  · rw [hText, hOther]
    exact .fault _
  rw [hText, hOther]
  obtain ⟨hSkipped, hLength⟩ := hRest.skipped
  obtain rfl | hClose := eq_or_ne c ']'
  · exact .found [] hLess hRest
  obtain rfl | hComma := eq_or_ne c ','
  · simp only
    have hLonger := hRest.length_le
    have hFound := Json.found_readItems (Json.steady_readValue innerLevels) ']' hSkipped
      (show _ ≤ rest.length + 1 by omega) (show _ ≤ others.length + 1 by omega)
    obtain ⟨hText, hOther⟩ | ⟨items, rest, others, hText, hOther, hLess', hRest⟩ := hFound.eq_or_eq
    · rw [hText, hOther]
      exact .fault _
    · rw [hText, hOther]
      exact .found items (by omega) hRest
  simp [hClose, hComma, Judged.fault]

theorem readObject_returns (h : Returns text other) : readObject text = readObject other := by
  obtain ⟨hText, hOther⟩ | ⟨c, rest, others, hText, hOther, hLess, hRest⟩ := h.skipSpace
  · rw [readObject, readObject, hText, hOther]
  obtain rfl | hClose := eq_or_ne c '\x7d'
  · rw [readObject, readObject, hText, hOther]
    rfl
  rw [readObject_of_skipSpace hText hClose, readObject_of_skipSpace hOther hClose]
  have hLonger := (hRest.cons c).length_le
  obtain ⟨fault, hText, hOther⟩ | ⟨found, members, after, afters, hText, hOther, hAfter⟩ :=
    readParts_returns none (hRest.cons c) (Nat.lt_succ_self _) (Nat.lt_succ_of_le hLonger)
  · rw [hText, hOther]
  · simp only [hText, hOther, bind, Except.bind, checkEnd_eq hAfter]

theorem readArray_of_skipSpace {rest : List Char} {c : Char}
    (hText : Json.skipSpace text = c :: rest) (hBracket : c ≠ ']') :
    readArray text = do
      let (tag, text) ← readTag (c :: rest)
      let (items, rest) ← readItems text
      let event ← ofItems tag items
      checkEnd rest
      return event := by
  rw [readArray, hText]
  split
  case h_1 hEmpty => exact absurd (List.cons.inj hEmpty).1 hBracket
  case h_2 => rfl

theorem readArray_returns (h : Returns text other) : readArray text = readArray other := by
  obtain ⟨hText, hOther⟩ | ⟨c, rest, others, hText, hOther, hLess, hRest⟩ := h.skipSpace
  · rw [readArray, readArray, hText, hOther]
  obtain rfl | hClose := eq_or_ne c ']'
  · rw [readArray, readArray, hText, hOther]
    rfl
  rw [readArray_of_skipSpace hText hClose, readArray_of_skipSpace hOther hClose]
  obtain ⟨fault, hText, hOther⟩ | ⟨tag, rest, others, hText, hOther, -, hRest⟩ :=
    (judged_readTag (hRest.cons c)).eq_or_eq
  · rw [hText, hOther]
  simp only [hText, hOther, bind, Except.bind]
  obtain ⟨fault, hText, hOther⟩ | ⟨items, rest, others, hText, hOther, -, hRest⟩ :=
    (judged_readItems hRest).eq_or_eq
  · rw [hText, hOther]
  · simp only [hText, hOther, checkEnd_eq hRest]

theorem readRaw_returns (h : Returns text other) : readRaw text = readRaw other := by
  rw [readRaw, readRaw]
  obtain ⟨hText, hOther⟩ | ⟨c, rest, others, hText, hOther, -, hRest⟩ := h.skipSpace
  · rw [hText, hOther]
  rw [hText, hOther]
  obtain rfl | hObject := eq_or_ne c '\x7b'
  · exact readObject_returns hRest
  obtain rfl | hArray := eq_or_ne c '['
  · exact readArray_returns hRest
  simp [hObject, hArray]

theorem readLine_append_mark (number : Nat) (text : List Char) :
    readLine number (text ++ ['\r']) = readLine number text := by
  rw [readLine, readLine, readRaw_returns (.append_mark text)]

end ForkLog.Event
