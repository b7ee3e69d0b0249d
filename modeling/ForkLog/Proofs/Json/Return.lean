import Mathlib
import ForkLog.Proofs.Json.Reader

/-! # A carriage return at the end

What is read off the front of a text does not depend on whether the text ends in a carriage return:
it is white space between values, and within a string, a number or a word it is as bad as the end of
the text. Each reader is followed on two texts that differ in nothing else. As it takes something
off both of them, no reader of lists runs out of fuel on one of them only.
-/

namespace ForkLog.Json

set_option autoImplicit false

/-- The same texts, but for a carriage return at the end of the second one. -/
inductive Returns : List Char → List Char → Prop
  | nil : Returns [] []
  | mark : Returns [] ['\r']
  | cons (c : Char) {text other : List Char} (h : Returns text other) :
      Returns (c :: text) (c :: other)

namespace Returns

variable {text other : List Char}

theorem append_mark (text : List Char) : Returns text (text ++ ['\r']) := by
  induction text with
  | nil => exact mark
  | cons c text ih => exact ih.cons c

theorem length_le (h : Returns text other) : text.length ≤ other.length := by
  induction h with
  | nil => exact le_rfl
  | mark => exact Nat.zero_le _
  | cons c h ih => exact Nat.succ_le_succ ih

/-- Either both of the texts begin with a word or neither does. -/
theorem begins (h : Returns text other) {word : List Char} (hWord : '\r' ∉ word) :
    (∃ rest others, text = word ++ rest ∧ other = word ++ others ∧ Returns rest others) ∨
      (∀ rest, text ≠ word ++ rest) ∧ ∀ others, other ≠ word ++ others := by
  induction word generalizing text other with
  | nil => exact .inl ⟨text, other, rfl, rfl, h⟩
  | cons c word ih =>
    obtain ⟨hFirst, hMore⟩ := not_or.mp (mt List.mem_cons.mpr hWord)
    cases h with
    | nil => exact .inr ⟨nofun, nofun⟩
    | mark => exact .inr ⟨nofun, fun _ hOther => hFirst (List.cons.inj hOther).1⟩
    | @cons d text other h =>
      obtain rfl | hSame := eq_or_ne d c
      · obtain ⟨rest, others, rfl, rfl, hRest⟩ | ⟨hText, hOther⟩ := ih h hMore
        · exact .inl ⟨rest, others, rfl, rfl, hRest⟩
        · exact .inr ⟨fun rest hAll => hText rest (List.cons.inj hAll).2,
            fun others hAll => hOther others (List.cons.inj hAll).2⟩
      · exact .inr ⟨fun _ hAll => hSame (List.cons.inj hAll).1,
          fun _ hAll => hSame (List.cons.inj hAll).1⟩

theorem span (h : Returns text other) {picks : Char → Bool} (hMark : picks '\r' = false) :
    other.takeWhile picks = text.takeWhile picks ∧
      Returns (text.dropWhile picks) (other.dropWhile picks) := by
  induction h with
  | nil => exact ⟨rfl, nil⟩
  | mark =>
    rw [List.takeWhile_cons_of_neg (by simp [hMark]), List.dropWhile_cons_of_neg (by simp [hMark])]
    exact ⟨rfl, mark⟩
  | @cons c text other h ih =>
    cases hPick : picks c with
    | true =>
      simp only [List.takeWhile_cons, List.dropWhile_cons, hPick, if_true]
      exact ⟨congrArg _ ih.1, ih.2⟩
    | false =>
      simp only [List.takeWhile_cons, List.dropWhile_cons, hPick]
      exact ⟨rfl, h.cons c⟩

/-- Behind white space both of the texts are at their ends, or they go on alike. -/
theorem skipSpace (h : Returns text other) :
    (skipSpace text = [] ∧ skipSpace other = []) ∨
      ∃ c rest others, skipSpace text = c :: rest ∧ skipSpace other = c :: others ∧
        rest.length < text.length ∧ Returns rest others := by
  induction h with
  | nil => exact .inl ⟨rfl, rfl⟩
  | mark => exact .inl ⟨rfl, rfl⟩
  | @cons c text other h ih =>
    cases hSpace : isSpace c with
    | true =>
      rw [Json.skipSpace, Json.skipSpace, List.dropWhile_cons_of_pos hSpace,
        List.dropWhile_cons_of_pos hSpace]
      obtain hEnd | ⟨d, rest, others, hText, hOther, hLess, hRest⟩ := ih
      · exact .inl hEnd
      · exact .inr ⟨d, rest, others, hText, hOther, Nat.lt_succ_of_lt hLess, hRest⟩
    | false =>
      exact .inr ⟨c, text, other, skipSpace_cons hSpace text, skipSpace_cons hSpace other,
        Nat.lt_succ_self _, h⟩

theorem skipped (h : Returns text other) : Returns (Json.skipSpace text) (Json.skipSpace other) ∧
    (Json.skipSpace text).length ≤ text.length := by
  obtain ⟨hText, hOther⟩ | ⟨c, rest, others, hText, hOther, hLess, hRest⟩ := h.skipSpace
  · rw [hText, hOther]
    exact ⟨nil, Nat.zero_le _⟩
  · rw [hText, hOther]
    exact ⟨hRest.cons c, hLess⟩

end Returns

variable {α β : Type}

/-- The same is found in both of the texts or nothing is. What follows it in the first one is
shorter than `size`. -/
inductive Found (size : Nat) : Option (α × List Char) → Option (α × List Char) → Prop
  | none : Found size none none
  | some (a : α) {rest others : List Char} (hLess : rest.length < size) (h : Returns rest others) :
      Found size (some (a, rest)) (some (a, others))

namespace Found

variable {size more : Nat} {found other : Option (α × List Char)}

theorem eq_or_eq (h : Found size found other) :
    (found = Option.none ∧ other = Option.none) ∨ ∃ a rest others, found = Option.some (a, rest) ∧
      other = Option.some (a, others) ∧ rest.length < size ∧ Returns rest others := by
  cases h with
  | none => exact .inl ⟨rfl, rfl⟩
  | some a hLess hRest => exact .inr ⟨a, _, _, rfl, rfl, hLess, hRest⟩

theorem bind (h : Found size found other) {next : α × List Char → Option (β × List Char)}
    (hNext : ∀ a rest others, rest.length < size → Returns rest others →
      Found more (next (a, rest)) (next (a, others))) :
    Found more (found.bind next) (other.bind next) := by
  cases h with
  | none => exact none
  | some a hLess hRest => exact hNext a _ _ hLess hRest

theorem map (h : Found size found other) {f : α × List Char → β × List Char} {g : α → β}
    (hf : ∀ a rest, f (a, rest) = (g a, rest)) (hMore : size ≤ more) :
    Found more (found.map f) (other.map f) := by
  cases h with
  | none => exact none
  | some a hLess hRest =>
    rw [Option.map_some, Option.map_some, hf, hf]
    exact some (g a) (hLess.trans_le hMore) hRest

theorem mono (h : Found size found other) (hMore : size ≤ more) : Found more found other := by
  cases h with
  | none => exact none
  | some a hLess hRest => exact some a (hLess.trans_le hMore) hRest

end Found

/-- A reader that takes something off each text and to which a carriage return at the end makes no
difference. -/
def Steady (read : List Char → Option (α × List Char)) : Prop :=
  ∀ {text other : List Char}, Returns text other → Found text.length (read text) (read other)

namespace Numeral

theorem steady_readDigits : Steady readDigits := by
  intro text other h
  obtain ⟨hTaken, hRest⟩ := h.span (show isDigit '\r' = false by decide)
  rw [readDigits, readDigits, hTaken]
  split
  case isTrue => exact .none
  case isFalse hSome =>
    have hAll := congrArg List.length (List.takeWhile_append_dropWhile (p := isDigit) (l := text))
    have hDigits : 0 < (text.takeWhile isDigit).length :=
      List.length_pos_iff.mpr (mt List.isEmpty_iff.mpr hSome)
    rw [List.length_append] at hAll
    exact .some _ (by omega) hRest

/-- Whether there is a needless zero is seen from the digits alone. -/
theorem readWhole_eq (text : List Char) :
    readWhole text = (readDigits text).bind fun (digits, rest) =>
      if digits.head? = some '0' ∧ digits ≠ ['0'] then none else some (digits, rest) := by
  rw [readWhole]
  split
  case h_1 h => rw [h]; rfl
  case h_2 digits rest hNot h =>
    rw [h, Option.bind_some]
    exact (if_pos ⟨rfl, fun hAll => hNot (List.cons.inj hAll).2⟩).symm
  case h_3 found hZero hOther =>
    cases hFound : readDigits text with
    | none => rfl
    | some found =>
      obtain ⟨digits, rest⟩ := found
      refine (if_neg fun hHead => ?_).symm
      obtain ⟨others, rfl⟩ := List.head?_eq_some_iff.mp hHead.1
      exact hOther _ _ hFound

theorem steady_readWhole : Steady readWhole := by
  intro text other h
  rw [readWhole_eq, readWhole_eq]
  refine (steady_readDigits h).bind fun digits rest others hLess hRest => ?_
  dsimp only
  split
  case isTrue => exact .none
  case isFalse => exact .some _ hLess hRest

variable {text other : List Char}

theorem found_readFraction (h : Returns text other) :
    Found (text.length + 1) (readFraction text) (readFraction other) := by
  obtain ⟨rest, others, rfl, rfl, hRest⟩ | ⟨hText, hOther⟩ :=
    h.begins (show '\r' ∉ ['.'] by decide)
  · exact (steady_readDigits hRest).map (fun _ _ => rfl) (by grind)
  · rw [readFraction.eq_2 text hText, readFraction.eq_2 other hOther]
    exact .some _ (Nat.lt_succ_self _) h

theorem found_readExponent (h : Returns text other) :
    Found (text.length + 1) (readExponent text) (readExponent other) := by
  obtain _ | _ | @⟨c, text, other, h⟩ := h
  · exact .some _ Nat.one_pos .nil
  · exact .some _ Nat.one_pos .mark
  have hUnmarked : Found (text.length + 2) (some ((none : Option Exponent), c :: text))
      (some (none, c :: other)) := .some _ (Nat.lt_succ_self _) (h.cons c)
  obtain ⟨rest, others, rfl, rfl, hRest⟩ | ⟨hPlus, hPlus'⟩ :=
    h.begins (show '\r' ∉ ['+'] by decide)
  · rw [List.singleton_append, List.singleton_append, readExponent, readExponent]
    split
    case isTrue => exact (steady_readDigits hRest).map (fun _ _ => rfl) (by grind)
    case isFalse => exact hUnmarked
  obtain ⟨rest, others, rfl, rfl, hRest⟩ | ⟨hMinus, hMinus'⟩ :=
    h.begins (show '\r' ∉ ['-'] by decide)
  · rw [List.singleton_append, List.singleton_append, readExponent, readExponent]
    split
    case isTrue => exact (steady_readDigits hRest).map (fun _ _ => rfl) (by grind)
    case isFalse => exact hUnmarked
  · rw [readExponent.eq_3 c text hPlus hMinus, readExponent.eq_3 c other hPlus' hMinus']
    split
    case isTrue => exact (steady_readDigits h).map (fun _ _ => rfl) (by grind)
    case isFalse => exact hUnmarked

theorem returns_readSign (h : Returns text other) :
    ∃ negative rest others, readSign text = (negative, rest) ∧ readSign other = (negative, others) ∧
      rest.length ≤ text.length ∧ Returns rest others := by
  obtain ⟨rest, others, rfl, rfl, hRest⟩ | ⟨hText, hOther⟩ :=
    h.begins (show '\r' ∉ ['-'] by decide)
  · exact ⟨true, rest, others, rfl, rfl, Nat.le_succ _, hRest⟩
  · exact ⟨false, text, other, readSign.eq_2 text hText, readSign.eq_2 other hOther, le_rfl, h⟩

theorem steady_read : Steady read := by
  intro text other h
  obtain ⟨negative, rest, others, hText, hOther, hSign, hRest⟩ := returns_readSign h
  rw [read, read, hText, hOther]
  refine (steady_readWhole hRest).bind fun whole rest others hWhole hRest => ?_
  refine (found_readFraction hRest).bind fun fraction rest others hFraction hRest => ?_
  refine (found_readExponent hRest).bind fun exponent rest others hExponent hRest => ?_
  dsimp only
  split
  case isTrue => exact .some _ (by omega) hRest
  case isFalse => exact .none

end Numeral

/-- The digits of an escape. -/
def readUnit : List Char → Option (Nat × List Char)
  | a :: b :: c :: d :: rest => (codeUnit? a b c d).map fun n => (n, rest)
  | _ => none

/-- The digits of an escape that follows another one. -/
def readNextUnit : List Char → Option (Nat × List Char)
  | '\\' :: 'u' :: rest => readUnit rest
  | _ => none

theorem readStringRest_unit (text : List Char) :
    readStringRest ('\\' :: 'u' :: text) =
      (readUnit text).bind fun first =>
        if isHighSurrogate first.1 then
          (readNextUnit first.2).bind fun second =>
            if isLowSurrogate second.1 then
              consFirst (joinSurrogates first.1 second.1) (readStringRest second.2)
            else none
        else if isLowSurrogate first.1 then none
        else consFirst (.ofNat first.1) (readStringRest first.2) := by
  by_cases hDigits : ∃ a b c d rest, text = a :: b :: c :: d :: rest
  case neg =>
    have hNone : readUnit text = none :=
      readUnit.eq_2 text fun a b c d rest h => hDigits ⟨a, b, c, d, rest, h⟩
    rw [readStringRest.eq_4 _ _ fun a b c d rest _ h => hDigits ⟨a, b, c, d, rest, h⟩, hNone]
    rfl
  obtain ⟨a, b, c, d, rest, rfl⟩ := hDigits
  rw [readStringRest, readUnit]
  cases codeUnit? a b c d with
  | none => rfl
  | some n =>
    rw [Option.map_some, Option.bind_some]
    refine if_congr Iff.rfl ?_ rfl
    split
    case h_1 e f g h rest =>
      rw [readNextUnit, readUnit]
      cases codeUnit? e f g h <;> rfl
    case h_2 hShort =>
      have hNone : readNextUnit rest = none := by
        rw [readNextUnit.eq_def]
        split
        case h_1 others =>
          exact readUnit.eq_2 others fun e f g h rest hUnit => hShort e f g h rest (hUnit ▸ rfl)
        case h_2 => rfl
      rw [hNone, Option.bind_none]

theorem steady_readUnit : Steady readUnit := by
  intro text other h
  -- A carriage return is no digit of an escape.
  have hMark (a b c : Char) : codeUnit? a b c '\r' = none := by
    have hNone : hexValue? '\r' = none := by decide
    rw [codeUnit?, hNone]
    split <;> simp_all
  obtain _ | _ | ⟨a, _ | _ | ⟨b, _ | _ | ⟨c, _ | _ | ⟨d, h⟩⟩⟩⟩ := h
  case cons.cons.cons.cons =>
    rw [readUnit, readUnit]
    cases codeUnit? a b c d with
    | none => exact .none
    | some n => exact .some n (by grind) h
  case cons.cons.cons.mark =>
    rw [readUnit.eq_1, hMark]
    exact .none
  all_goals exact .none

theorem steady_readNextUnit : Steady readNextUnit := by
  intro text other h
  obtain ⟨rest, others, rfl, rfl, hRest⟩ | ⟨hText, hOther⟩ :=
    h.begins (show '\r' ∉ ['\\', 'u'] by decide)
  · exact (steady_readUnit hRest).mono (by grind)
  · rw [readNextUnit.eq_2 text hText, readNextUnit.eq_2 other hOther]
    exact .none

theorem found_consFirst {size more : Nat} {found other : Option (List Char × List Char)}
    (h : Found size found other) (c : Char) (hMore : size ≤ more) :
    Found more (consFirst c found) (consFirst c other) :=
  h.map (fun _ _ => rfl) hMore

theorem steady_readStringRest : Steady readStringRest := by
  intro text other h
  -- An escape takes several characters at once, so the induction is on the length.
  induction hLength : text.length using Nat.strong_induction_on generalizing text other with
  | h n ih =>
    obtain _ | _ | @⟨c, text, other, h⟩ := h
    · exact .none
    · exact .none
    have hIn {rest others : List Char} (c : Char) (hShort : rest.length ≤ text.length)
        (hRest : Returns rest others) :
        Found n (consFirst c (readStringRest rest)) (consFirst c (readStringRest others)) :=
      found_consFirst (ih rest.length (by grind) hRest rfl) c (by grind)
    obtain rfl | hQuote := eq_or_ne c '"'
    · exact .some [] (by grind) h
    obtain hSlash | rfl := ne_or_eq c '\\'
    · have hPlain (rest : List Char) : readStringRest (c :: rest) =
          if c.toNat < 0x20 || c = '\\' then none else consFirst c (readStringRest rest) :=
        readStringRest.eq_5 c rest hQuote (fun _ _ _ _ _ h => absurd h hSlash) fun _ _ h =>
          absurd h hSlash
      rw [hPlain, hPlain]
      split
      case isTrue => exact .none
      case isFalse => exact hIn c le_rfl h
    -- A backslash at the end escapes nothing, and neither does one in front of a carriage return.
    obtain _ | _ | @⟨d, text, other, h⟩ := h
    · exact .none
    · exact .none
    obtain hUnit | rfl := ne_or_eq d 'u'
    · have hEscape (rest : List Char) :=
        readStringRest.eq_4 d rest fun _ _ _ _ _ h => absurd h hUnit
      rw [hEscape, hEscape]
      cases unescape? d with
      | none => exact .none
      | some c => exact hIn c (Nat.le_succ _) h
    rw [readStringRest_unit, readStringRest_unit]
    refine (steady_readUnit h).bind fun n rest others hLess hRest => ?_
    dsimp only
    split
    case isTrue =>
      refine (steady_readNextUnit hRest).bind fun m rest others hLess' hRest => ?_
      dsimp only
      split
      case isTrue => exact hIn _ (by grind) hRest
      case isFalse => exact .none
    case isFalse =>
      split
      case isTrue => exact .none
      case isFalse => exact hIn _ (by grind) hRest

theorem steady_readString : Steady readString := by
  intro text other h
  obtain ⟨rest, others, rfl, rfl, hRest⟩ | ⟨hText, hOther⟩ :=
    h.begins (show '\r' ∉ ['"'] by decide)
  · exact (steady_readStringRest hRest).map (fun _ _ => rfl) (by grind)
  · rw [readString.eq_2 text hText, readString.eq_2 other hOther]
    exact .none

theorem steady_readScalar : Steady readScalar := by
  intro text other h
  have hWord {word rest others : List Char} (j : Json) (hSome : 0 < word.length)
      (hRest : Returns rest others) :
      Found (word ++ rest).length (some (j, rest)) (some (j, others)) := by
    refine .some j ?_ hRest
    rw [List.length_append]
    omega
  obtain ⟨rest, others, rfl, rfl, hRest⟩ | ⟨hNull, hNull'⟩ :=
    h.begins (show '\r' ∉ ['n', 'u', 'l', 'l'] by decide)
  · exact hWord null (by decide) hRest
  obtain ⟨rest, others, rfl, rfl, hRest⟩ | ⟨hTrue, hTrue'⟩ :=
    h.begins (show '\r' ∉ ['t', 'r', 'u', 'e'] by decide)
  · exact hWord (bool true) (by decide) hRest
  obtain ⟨rest, others, rfl, rfl, hRest⟩ | ⟨hFalse, hFalse'⟩ :=
    h.begins (show '\r' ∉ ['f', 'a', 'l', 's', 'e'] by decide)
  · exact hWord (bool false) (by decide) hRest
  obtain ⟨rest, others, rfl, rfl, hRest⟩ | ⟨hQuote, hQuote'⟩ :=
    h.begins (show '\r' ∉ ['"'] by decide)
  · exact (steady_readStringRest hRest).map (fun _ _ => rfl) (by grind)
  · rw [readScalar.eq_5 text hNull hTrue hFalse hQuote,
      readScalar.eq_5 other hNull' hTrue' hFalse' hQuote']
    exact (Numeral.steady_read h).map (fun _ _ => rfl) le_rfl

section

variable {item : List Char → Option (α × List Char)} {text other : List Char}

theorem readItems_eq_none (h : item text = none) (close : Char) (fuel : Nat) :
    readItems item close fuel text = none := by
  cases fuel with
  | zero => rfl
  | succ fuel => rw [readItems, h]

/-- As every item takes something off the text, fuel for all of it is as good as any more. -/
theorem found_readItems (hItem : Steady item) (close : Char) (h : Returns text other)
    {fuel more : Nat} (hFuel : text.length ≤ fuel) (hMore : text.length ≤ more) :
    Found text.length (readItems item close fuel text) (readItems item close more other) := by
  induction fuel generalizing more text other with
  | zero =>
    obtain ⟨hText, hOther⟩ | ⟨a, rest, others, -, -, hLess, -⟩ := (hItem h).eq_or_eq
    · rw [readItems_eq_none hText, readItems_eq_none hOther]
      exact .none
    · omega
  | succ fuel ih =>
    obtain ⟨hText, hOther⟩ | ⟨a, rest, others, hText, hOther, hLess, hRest⟩ := (hItem h).eq_or_eq
    · rw [readItems_eq_none hText, readItems_eq_none hOther]
      exact .none
    obtain ⟨more, rfl⟩ : ∃ n, more = n + 1 := ⟨more - 1, by omega⟩
    rw [readItems, readItems, hText, hOther]
    dsimp only
    obtain ⟨hText, hOther⟩ | ⟨c, rest, others, hText, hOther, hLess', hRest⟩ :=
      hRest.skipSpace
    · rw [hText, hOther]
      exact .none
    rw [hText, hOther]
    dsimp only
    split
    case isTrue =>
      obtain ⟨hSkipped, hLength⟩ := hRest.skipped
      exact (ih hSkipped (by omega) (by omega)).map (fun _ _ => rfl) (by omega)
    case isFalse =>
      split
      case isTrue => exact .some [a] (by omega) hRest
      case isFalse => exact .none

theorem steady_readList (hItem : Steady item) (close : Char) : Steady (readList item close) := by
  intro text other h
  rw [readList, readList]
  obtain ⟨hText, hOther⟩ | ⟨c, rest, others, hText, hOther, hLess, hRest⟩ := h.skipSpace
  · rw [hText, hOther]
    exact .none
  · rw [hText, hOther]
    dsimp only
    split
    case isTrue => exact .some [] hLess hRest
    case isFalse =>
      have hLonger := hRest.length_le
      have hItems := found_readItems hItem close (hRest.cons c) le_rfl (Nat.succ_le_succ hLonger)
      exact hItems.mono hLess

end

theorem steady_readName : Steady readName := by
  intro text other h
  rw [readName, readName]
  obtain ⟨hText, hOther⟩ | ⟨name, rest, others, hText, hOther, hLess, hRest⟩ :=
    (steady_readString h).eq_or_eq
  · rw [hText, hOther]
    exact .none
  rw [hText, hOther]
  dsimp only
  obtain ⟨hText, hOther⟩ | ⟨c, rest, others, hText, hOther, hLess', hRest⟩ := hRest.skipSpace
  · rw [hText, hOther]
    exact .none
  rw [hText, hOther]
  obtain ⟨hMore, hLength⟩ := hRest.skipped
  obtain rfl | hColon := eq_or_ne c ':'
  · exact .some name (by omega) hMore
  · simp [hColon, Found.none]

theorem steady_readMember {item : List Char → Option (Json × List Char)} (hItem : Steady item) :
    Steady (readMember item) := by
  intro text other h
  rw [readMember, readMember]
  obtain ⟨hText, hOther⟩ | ⟨name, rest, others, hText, hOther, hLess, hRest⟩ :=
    (steady_readName h).eq_or_eq
  · rw [hText, hOther]
    exact .none
  rw [hText, hOther]
  exact (hItem hRest).map (fun _ _ => rfl) hLess.le

theorem steady_readValue (levels : Nat) : Steady (readValue levels) := by
  induction levels with
  | zero =>
    intro text other h
    rw [readValue, readValue]
    exact steady_readScalar h
  | succ levels ih =>
    intro text other h
    obtain ⟨rest, others, rfl, rfl, hRest⟩ | ⟨hArray, hArray'⟩ :=
      h.begins (show '\r' ∉ ['['] by decide)
    · exact (steady_readList ih ']' hRest).map (fun _ _ => rfl) (by grind)
    obtain ⟨rest, others, rfl, rfl, hRest⟩ | ⟨hObject, hObject'⟩ :=
      h.begins (show '\r' ∉ ['\x7b'] by decide)
    · exact (steady_readList (steady_readMember ih) '\x7d' hRest).map (fun _ _ => rfl) (by grind)
    · rw [readValue.eq_4 text levels hArray hObject, readValue.eq_4 other levels hArray' hObject']
      exact steady_readScalar h

end ForkLog.Json
