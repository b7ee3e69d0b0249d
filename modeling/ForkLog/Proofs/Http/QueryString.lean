import Mathlib
import ForkLog.Proofs.Http.Lookup
import ForkLog.Proofs.Text.Hex
import ForkLog.Proofs.Text.Split

/-! # Query strings are read back

A name or a value is written byte by byte. A letter or a digit may stand for itself; any byte may be
written as a percent sign and its two digits, in either case. Neither ampersands nor equals signs
are left in what is written, so that pairs put together by them come apart again.
-/

namespace ForkLog

set_option autoImplicit false

namespace Hex

/-- A digit of either case. -/
inductive Digit (n : Nat) : Char → Prop
  | lower : Digit n (digit n)
  | upper : Digit n (digit n).toUpper

theorem Digit.value? {n : Nat} {c : Char} (h : Digit n c) (hLess : n < 16) :
    ∃ b, String.utf8EncodeChar c = [b] ∧ Hex.value? b = some n := by
  cases h with
  | lower => exact value?_digit hLess
  | upper =>
    have hAll : ∀ n ∈ List.range 16,
        (String.utf8EncodeChar (digit n).toUpper).map Hex.value? = [some n] := by decide
    exact List.map_eq_singleton_iff.mp (hAll n (List.mem_range.mpr hLess))

theorem Digit.isAlphanum {n : Nat} {c : Char} (h : Digit n c) (hLess : n < 16) :
    c.isAlphanum = true := by
  have hAll : ∀ n ∈ List.range 16,
      (digit n).isAlphanum = true ∧ (digit n).toUpper.isAlphanum = true := by decide
  obtain ⟨hLower, hUpper⟩ := hAll n (List.mem_range.mpr hLess)
  cases h with
  | lower => exact hLower
  | upper => exact hUpper

end Hex

namespace Http

/-- The texts that stand for bytes. Only letters and digits stand for themselves. -/
inductive Spelling : Bytes → List Char → Prop
  | nil : Spelling [] []
  | plain {c : Char} {bytes : Bytes} {text : List Char} (hPlain : c.isAlphanum = true)
      (h : Spelling bytes text) : Spelling (.ofNat c.toNat :: bytes) (c :: text)
  | escaped {b : UInt8} {bytes : Bytes} {high low : Char} {text : List Char}
      (hHigh : Hex.Digit (b.toNat / 16) high) (hLow : Hex.Digit (b.toNat % 16) low)
      (h : Spelling bytes text) : Spelling (b :: bytes) ('%' :: high :: low :: text)

theorem encodeChar_of_isAlphanum {c : Char} (h : c.isAlphanum = true) :
    String.utf8EncodeChar c = [.ofNat c.toNat] ∧ UInt8.ofNat c.toNat ≠ percent := by
  have hLess : c.toNat < 0x7B := by
    simp only [Char.isAlphanum, Char.isAlpha, Char.isUpper, Char.isLower, Char.isDigit,
      Bool.or_eq_true, Bool.and_eq_true, decide_eq_true_eq, ge_iff_le, UInt32.le_iff_toNat_le] at h
    have hBounds : c.toNat ≤ 0x5A ∨ c.toNat ≤ 0x7A ∨ c.toNat ≤ 0x39 := by
      obtain (⟨-, h⟩ | ⟨-, h⟩) | ⟨-, h⟩ := h
      · exact .inl h
      · exact .inr (.inl h)
      · exact .inr (.inr h)
    omega
  have hByte : (UInt8.ofNat c.toNat).toNat = c.toNat := Utf8.toNat_ofNat_of_lt (by omega)
  refine ⟨?_, fun hPercent => ?_⟩
  · exact if_pos (show c.toNat ≤ 0x7F by omega)
  · have hSign : c = '%' := Char.toNat_inj.mp (by rw [← hByte, hPercent]; rfl)
    rw [hSign] at h
    exact absurd h (by decide)

namespace Spelling

theorem exists_spelling (bytes : Bytes) : ∃ text, Spelling bytes text := by
  induction bytes with
  | nil => exact ⟨[], nil⟩
  | cons b bytes ih =>
    obtain ⟨text, h⟩ := ih
    exact ⟨_, escaped .lower .lower h⟩

theorem not_mem {bytes : Bytes} {text : List Char} (h : Spelling bytes text) {mark : Char}
    (hMark : ¬ mark.isAlphanum = true) (hSign : mark ≠ '%') : mark ∉ text := by
  induction h with
  | nil => exact List.not_mem_nil
  | plain hPlain h ih => exact List.not_mem_cons_of_ne_of_not_mem (fun hc => hMark (hc ▸ hPlain)) ih
  | @escaped b bytes high low text hHigh hLow h ih =>
    have hSize := b.toNat_lt
    refine List.not_mem_cons_of_ne_of_not_mem hSign ?_
    refine List.not_mem_cons_of_ne_of_not_mem ?_ (List.not_mem_cons_of_ne_of_not_mem ?_ ih)
    · exact fun hc => hMark (hc ▸ hHigh.isAlphanum (by omega))
    · exact fun hc => hMark (hc ▸ hLow.isAlphanum (by omega))

theorem percentDecode_eq {bytes : Bytes} {text : List Char} (h : Spelling bytes text) :
    percentDecode (Utf8.encodeChars text) = bytes := by
  induction h with
  | nil => rfl
  | @plain c bytes text hPlain h ih =>
    obtain ⟨hByte, hSign⟩ := encodeChar_of_isAlphanum hPlain
    have hText : Utf8.encodeChars (c :: text) = .ofNat c.toNat :: Utf8.encodeChars text := by
      rw [Utf8.encodeChars, List.flatMap_cons, hByte]
      rfl
    rw [percentDecode, hText, percentDecodeAfter, if_neg hSign]
    exact congrArg _ ih
  | @escaped b bytes high low text hHigh hLow h ih =>
    have hSize := b.toNat_lt
    obtain ⟨highByte, hHighByte, hHighValue⟩ := hHigh.value? (by omega)
    obtain ⟨lowByte, hLowByte, hLowValue⟩ := hLow.value? (by omega)
    have hText : Utf8.encodeChars ('%' :: high :: low :: text) =
        percent :: highByte :: lowByte :: Utf8.encodeChars text := by
      simp only [Utf8.encodeChars, List.flatMap_cons, hHighByte, hLowByte]
      rfl
    have hByte : UInt8.ofNat (16 * (b.toNat / 16) + b.toNat % 16) = b := by
      rw [Nat.div_add_mod, UInt8.ofNat_toNat]
    have hEscaped : escaped? (highByte :: lowByte :: Utf8.encodeChars text) = some b := by
      simp only [escaped?, hHighValue, hLowValue, hByte]
    rw [percentDecode, hText, percentDecodeAfter, if_pos rfl, hEscaped]
    exact congrArg _ ih

theorem decodePart_eq {part : String} {text : List Char} (h : Spelling (Utf8.encode part) text) :
    decodePart text = part := by
  rw [decodePart, h.percentDecode_eq, Utf8.decodeLossy_encode]

end Spelling

namespace QueryString

inductive PairSpelling : String × String → List Char → Prop
  | mk {name value : String} {nameText valueText : List Char}
      (hName : Spelling (Utf8.encode name) nameText)
      (hValue : Spelling (Utf8.encode value) valueText) :
      PairSpelling (name, value) (nameText ++ '=' :: valueText)

namespace PairSpelling

variable {pair : String × String} {text : List Char}

theorem readPair_eq (h : PairSpelling pair text) : readPair text = pair := by
  obtain @⟨name, value, nameText, valueText, hName, hValue⟩ := h
  have hNone : '=' ∉ nameText := hName.not_mem (by decide) (by decide)
  simp only [readPair, splitFirst?_append hNone, Option.getD_some, hName.decodePart_eq,
    hValue.decodePart_eq]

theorem ne_nil (h : PairSpelling pair text) : text ≠ [] := by
  obtain ⟨-, -⟩ := h
  exact List.append_ne_nil_of_right_ne_nil _ (List.cons_ne_nil _ _)

theorem not_mem (h : PairSpelling pair text) : '&' ∉ text := by
  obtain ⟨hName, hValue⟩ := h
  refine List.not_mem_append (hName.not_mem (by decide) (by decide)) ?_
  exact List.not_mem_cons_of_ne_of_not_mem (by decide) (hValue.not_mem (by decide) (by decide))

end PairSpelling

/-- The texts in which the pairs are written one after the other, with ampersands between them. -/
def Writes (pairs : List (String × String)) (text : List Char) : Prop :=
  ∃ parts, List.Forall₂ PairSpelling pairs parts ∧ text = ['&'].intercalate parts

theorem exists_writes (pairs : List (String × String)) : ∃ text, Writes pairs text := by
  suffices ∃ parts, List.Forall₂ PairSpelling pairs parts from
    let ⟨parts, hParts⟩ := this
    ⟨_, parts, hParts, rfl⟩
  induction pairs with
  | nil => exact ⟨[], .nil⟩
  | cons pair pairs ih =>
    obtain ⟨nameText, hName⟩ := Spelling.exists_spelling (Utf8.encode pair.1)
    obtain ⟨valueText, hValue⟩ := Spelling.exists_spelling (Utf8.encode pair.2)
    obtain ⟨parts, hParts⟩ := ih
    exact ⟨_ :: parts, .cons (.mk hName hValue) hParts⟩

theorem exists_of_mem {pairs : List (String × String)} {parts : List (List Char)}
    (h : List.Forall₂ PairSpelling pairs parts) {text : List Char} (hText : text ∈ parts) :
    ∃ pair, PairSpelling pair text := by
  induction h with
  | nil => exact absurd hText List.not_mem_nil
  | cons hPair _ ih =>
    obtain rfl | hRest := List.mem_cons.mp hText
    · exact ⟨_, hPair⟩
    · exact ih hRest

theorem Writes.ofChars_eq {pairs : List (String × String)} {text : List Char}
    (h : Writes pairs text) : ofChars text = ⟨pairs⟩ := by
  obtain ⟨parts, hParts, rfl⟩ := h
  have hRead : parts.map readPair = pairs := by
    rw [← List.forall₂_eq_eq_eq, List.forall₂_map_left_iff]
    exact hParts.flip.imp fun text pair hPair => hPair.readPair_eq
  have hMarks : ∀ text ∈ parts, '&' ∉ text := fun text hText =>
    (exists_of_mem hParts hText).elim fun _ hPair => hPair.not_mem
  have hKept : parts.filter (fun text => !text.isEmpty) = parts := by
    refine List.filter_eq_self.mpr fun text hText => ?_
    obtain ⟨pair, hPair⟩ := exists_of_mem hParts hText
    rw [List.isEmpty_eq_false_iff.mpr hPair.ne_nil, Bool.not_false]
  by_cases hSome : parts = []
  case pos =>
    rw [← hRead, hSome]
    rfl
  case neg =>
    rw [ofChars, splitAtEach_intercalate hMarks hSome, hKept, hRead]

theorem get?_eq_lookup (pairs : List (String × String)) (name : String) :
    get? ⟨pairs⟩ name = pairs.lookup name := by
  induction pairs with
  | nil => rfl
  | cons pair pairs ih =>
    obtain ⟨first, value⟩ := pair
    rw [get?] at ih ⊢
    by_cases hName : first = name
    case pos =>
      simp only [List.lookup_cons, List.find?_cons, beq_iff_eq.mpr hName.symm, decide_eq_true hName,
        Option.map_some]
    case neg =>
      simp only [List.lookup_cons, List.find?_cons, beq_eq_false_iff_ne.mpr (Ne.symm hName),
        decide_eq_false hName, ih]

theorem getAll_eq_filterMap (pairs : List (String × String)) (name : String) :
    getAll ⟨pairs⟩ name =
      pairs.filterMap fun pair => if pair.1 = name then some pair.2 else none := by
  induction pairs with
  | nil => rfl
  | cons pair pairs ih =>
    rw [getAll] at ih ⊢
    by_cases hName : pair.1 = name
    case pos => simp [hName, ih]
    case neg => simp [hName, ih]

/-- Pairs are read back however they have been written, and what is stored under a key is sent back
to whoever asks for it. -/
theorem written_round_trips (pairs : List (String × String)) :
    (∃ text, Writes pairs text) ∧ ∀ text, Writes pairs text →
      ofChars text = ⟨pairs⟩ ∧
      (∀ name, (ofChars text).get? name = pairs.lookup name) ∧
      (∀ name, (ofChars text).getAll name =
        pairs.filterMap fun pair => if pair.1 = name then some pair.2 else none) ∧
      ∀ (api : Api) (path : List Char) (rowsLimit : Nat) (contents : Contents) (row : Row),
        api.endpoint? path = some .get → pairs.lookup "key" = some row.key →
        contents[Key.user row.key]? = some row.value →
          api.serve (.ofStore rowsLimit contents) ⟨"GET", ⟨path, text⟩⟩ =
            .success (Endpoint.rowJson row) := by
  refine ⟨exists_writes pairs, fun text hText => ?_⟩
  have hRead : ofChars text = ⟨pairs⟩ := hText.ofChars_eq
  rw [hRead]
  refine ⟨rfl, get?_eq_lookup pairs, getAll_eq_filterMap pairs, ?_⟩
  intro api path rowsLimit contents row hPath hKey hValue
  have hAsked : (ofChars text).get? "key" = some row.key := by rw [hRead, get?_eq_lookup, hKey]
  rw [Api.serve_get hPath hAsked, Api.reply, hValue, Option.elim_some]

/-- An empty name, marks in a name and in a value, a repeated name and a letter of two bytes. -/
theorem written_round_trips_marks :
    let pairs := [("", "&="), ("%", ""), ("key", "ä"), ("key", "+")]
    let text := "=%26%3d&%25=&key=%C3%a4&k%65y=%2B".toList
    Writes pairs text ∧ ofChars text = ⟨pairs⟩ ∧ ∃ api, Api.build none = .ok api ∧
      api.serve (.ofStore 10 ((∅ : Contents).insert (Key.user "ä") [1]))
          ⟨"GET", ⟨"/kv/get".toList, text⟩⟩ = .success (Endpoint.rowJson ⟨"ä", [1]⟩) := by
  intro pairs text
  have hWrites : Writes pairs text := by
    have hMarks : PairSpelling ("", "&=") "=%26%3d".toList :=
      @PairSpelling.mk _ _ [] _ .nil (.escaped .lower .lower (.escaped .lower .lower .nil))
    have hSign : PairSpelling ("%", "") "%25=".toList :=
      @PairSpelling.mk _ _ ['%', '2', '5'] [] (.escaped .lower .lower .nil) .nil
    have hTwoBytes : PairSpelling ("key", "ä") "key=%C3%a4".toList :=
      @PairSpelling.mk _ _ ['k', 'e', 'y'] _
        (.plain (by decide) (.plain (by decide) (.plain (by decide) .nil)))
        (.escaped .upper .lower (.escaped .lower .lower .nil))
    have hPlus : PairSpelling ("key", "+") "k%65y=%2B".toList :=
      @PairSpelling.mk _ _ ['k', '%', '6', '5', 'y'] _
        (.plain (by decide) (.escaped .lower .lower (.plain (by decide) .nil)))
        (.escaped .lower .upper .nil)
    exact ⟨_, .cons hMarks (.cons hSign (.cons hTwoBytes (.cons hPlus .nil))), by decide⟩
  obtain ⟨api, hBuild, hPaths⟩ := @Api.build_of_plain none (by decide)
  obtain ⟨-, hAll⟩ := written_round_trips pairs
  obtain ⟨hRead, -, -, hServed⟩ := hAll text hWrites
  refine ⟨hWrites, hRead, api, hBuild, ?_⟩
  exact hServed api _ 10 _ ⟨"ä", [1]⟩ (hPaths .get) rfl
    (by rw [Contents.getElem?_insert, if_pos rfl])

end QueryString

end Http

end ForkLog
