import Mathlib
import ForkLog.Json.Reader
import ForkLog.Proofs.Json.Numeral

/-! # JSON values are read back

A value is read back from what is written for it, whatever strings it holds, as long as its numbers
are natural numbers of 64 bits and it is not nested too deeply. Nothing that is written is a control
character.
-/

namespace ForkLog.Json

set_option autoImplicit false

theorem readStringRest_plain {c : Char} (hQuote : c ≠ '"') (hSlash : c ≠ '\\')
    (hPrintable : ¬ c.toNat < 0x20) (text : List Char) :
    readStringRest (c :: text) = consFirst c (readStringRest text) := by
  rw [readStringRest]
  · rw [if_neg]
    simp [hPrintable, hSlash]
  · exact hQuote
  all_goals simp [hSlash]

theorem readStringRest_short {c mark : Char} (h : unescape? mark = some c) (text : List Char) :
    readStringRest ('\\' :: mark :: text) = consFirst c (readStringRest text) := by
  have hMark : mark ≠ 'u' := by
    rintro rfl
    cases h
  rw [readStringRest]
  · simp [h]
  · simp [hMark]

theorem readStringRest_unicode {a b c d : Char} {n : Nat} (hUnit : codeUnit? a b c d = some n)
    (hn : n < 0xD800) (text : List Char) :
    readStringRest ('\\' :: 'u' :: a :: b :: c :: d :: text) =
      consFirst (Char.ofNat n) (readStringRest text) := by
  have hHigh : isHighSurrogate n = false := by
    simp only [isHighSurrogate, Bool.and_eq_false_iff, decide_eq_false_iff_not]
    omega
  have hLow : isLowSurrogate n = false := by
    simp only [isLowSurrogate, Bool.and_eq_false_iff, decide_eq_false_iff_not]
    omega
  rw [readStringRest]
  simp [hUnit, hHigh, hLow]

theorem codeUnit?_control {n : Nat} (h : n < 0x20) :
    codeUnit? '0' '0' (Nat.digitChar (n / 16)) (Nat.digitChar (n % 16)) = some n := by
  have hAll : ∀ n ∈ List.range 0x20,
      codeUnit? '0' '0' (Nat.digitChar (n / 16)) (Nat.digitChar (n % 16)) = some n := by decide
  exact hAll n (List.mem_range.mpr h)

theorem readStringRest_escape (c : Char) (text : List Char) :
    readStringRest (escape c ++ text) = consFirst c (readStringRest text) := by
  have hShort {n : Nat} (hc : c.toNat = n) {mark : Char}
      (hMark : unescape? mark = some (Char.ofNat n)) :
      readStringRest ('\\' :: mark :: text) = consFirst c (readStringRest text) := by
    rw [← hc, Char.ofNat_toNat] at hMark
    exact readStringRest_short hMark text
  rw [escape]
  split
  case isTrue hQuote =>
    subst hQuote
    exact readStringRest_short rfl text
  case isFalse hQuote =>
  split
  case isTrue hSlash =>
    subst hSlash
    exact readStringRest_short rfl text
  case isFalse hSlash =>
  split
  case isTrue hc => exact hShort hc rfl
  split
  case isTrue hc => exact hShort hc rfl
  split
  case isTrue hc => exact hShort hc rfl
  split
  case isTrue hc => exact hShort hc rfl
  split
  case isTrue hc => exact hShort hc rfl
  split
  case isTrue hControl =>
    have hRead := readStringRest_unicode (codeUnit?_control hControl) (by omega) text
    rwa [Char.ofNat_toNat] at hRead
  case isFalse hPrintable => exact readStringRest_plain hQuote hSlash hPrintable text

theorem readStringRest_escaped (chars rest : List Char) :
    readStringRest (chars.flatMap escape ++ '"' :: rest) = some (chars, rest) := by
  induction chars with
  | nil => rw [List.flatMap_nil, List.nil_append, readStringRest]
  | cons c chars ih =>
    rw [List.flatMap_cons, List.append_assoc, readStringRest_escape, ih]
    rfl

theorem quoted_append (s : String) (rest : List Char) :
    quoted s ++ rest = '"' :: (s.toList.flatMap escape ++ '"' :: rest) := by
  simp [quoted]

theorem readString_quoted (s : String) (rest : List Char) :
    readString (quoted s ++ rest) = some (s, rest) := by
  rw [quoted_append, readString, readStringRest_escaped, Option.map_some]
  simp only [String.ofList_toList]

theorem skipSpace_cons {c : Char} (h : isSpace c = false) (rest : List Char) :
    skipSpace (c :: rest) = c :: rest :=
  List.dropWhile_cons_of_neg (by simp [h])

/-- The text begins with something that is neither white space nor the end of a list. -/
def Opens (text : List Char) : Prop :=
  ∃ c rest, text = c :: rest ∧ isSpace c = false ∧ c ≠ ']' ∧ c ≠ '\x7d'

theorem Opens.append {text : List Char} (h : Opens text) (rest : List Char) :
    Opens (text ++ rest) := by
  obtain ⟨c, others, rfl, hc⟩ := h
  exact ⟨c, others ++ rest, rfl, hc⟩

theorem Opens.skipSpace_eq {text : List Char} (h : Opens text) : skipSpace text = text := by
  obtain ⟨c, rest, rfl, hSpace, -⟩ := h
  exact skipSpace_cons hSpace rest

theorem opens_quoted (s : String) : Opens (quoted s) :=
  ⟨'"', _, rfl, by decide, by decide, by decide⟩

section

variable {α : Type} {item : List Char → Option (α × List Char)} {write : α → List Char}
  {close : Char} {values : List α}

/-- Texts with commas between them. -/
def listed (write : α → List Char) : List α → List Char
  | [] => []
  | [a] => write a
  | a :: rest => write a ++ ',' :: listed write rest

theorem listed_cons_cons (a b : α) (rest : List α) :
    listed write (a :: b :: rest) = write a ++ ',' :: listed write (b :: rest) := rfl

theorem Opens.listed (h : ∀ a ∈ values, Opens (write a)) (hSome : values ≠ []) :
    Opens (listed write values) := by
  cases values with
  | nil => exact absurd rfl hSome
  | cons a values =>
    have hFirst := h a List.mem_cons_self
    cases values with
    | nil => exact hFirst
    | cons b values => exact hFirst.append _

theorem length_le_listed (h : ∀ a ∈ values, Opens (write a)) :
    values.length ≤ (Json.listed write values).length := by
  induction values with
  | nil => exact Nat.zero_le _
  | cons a values ih =>
    obtain ⟨⟨c, others, hWrite, -⟩, hRest⟩ := List.forall_mem_cons.mp h
    have hLength := ih hRest
    cases values with
    | nil => simp [Json.listed, hWrite]
    | cons b values =>
      rw [listed_cons_cons, hWrite]
      simp only [List.length_append, List.length_cons] at hLength ⊢
      omega

/-- The reader takes from the beginning of a text what is written for a value. -/
def Takes (item : List Char → Option (α × List Char)) (write : α → List Char) (a : α) : Prop :=
  Opens (write a) ∧ ∀ rest, Follows rest → item (write a ++ rest) = some (a, rest)

theorem readItems_listed (hClose : close = ']' ∨ close = '\x7d')
    (hItems : ∀ a ∈ values, Takes item write a) (hSome : values ≠ []) {fuel : Nat}
    (hFuel : values.length ≤ fuel) (rest : List Char) :
    readItems item close fuel (Json.listed write values ++ close :: rest) = some (values, rest) := by
  have hEnd : Follows (close :: rest) := follows_cons rest (.inr hClose)
  have hCloses : isSpace close = false ∧ close ≠ ',' := by
    obtain rfl | rfl := hClose <;> decide
  induction values generalizing fuel with
  | nil => exact absurd rfl hSome
  | cons a values ih =>
    obtain ⟨hFirst, hRest⟩ := List.forall_mem_cons.mp hItems
    obtain _ | fuel := fuel
    · exact absurd hFuel (by simp)
    cases values with
    | nil =>
      have hItem : item (Json.listed write [a] ++ close :: rest) = some (a, close :: rest) :=
        hFirst.2 _ hEnd
      simp only [readItems, hItem, skipSpace_cons hCloses.1, if_neg hCloses.2, if_true]
    | cons b values =>
      have hOthers := ih hRest (List.cons_ne_nil b values)
        (Nat.le_of_succ_le_succ hFuel : (b :: values).length ≤ fuel)
      have hOpens : Opens (Json.listed write (b :: values) ++ close :: rest) :=
        (Opens.listed (fun a ha => (hRest a ha).1) (List.cons_ne_nil b values)).append _
      rw [listed_cons_cons, List.append_assoc, List.cons_append]
      have hItem := hFirst.2 (',' :: (Json.listed write (b :: values) ++ close :: rest))
        (follows_cons _ (.inl rfl))
      have hComma : isSpace ',' = false := by decide
      simp only [readItems, hItem, skipSpace_cons hComma, if_true, hOpens.skipSpace_eq, hOthers]
      rfl

theorem readList_listed (hClose : close = ']' ∨ close = '\x7d')
    (hItems : ∀ a ∈ values, Takes item write a) (rest : List Char) :
    readList item close (Json.listed write values ++ close :: rest) = some (values, rest) := by
  have hCloses : isSpace close = false := by
    obtain rfl | rfl := hClose <;> decide
  by_cases hSome : values = []
  · subst hSome
    simp only [Json.listed, List.nil_append, readList, skipSpace_cons hCloses, if_true]
  · have hWritten : ∀ a ∈ values, Opens (write a) := fun a ha => (hItems a ha).1
    have hLength := length_le_listed hWritten
    obtain ⟨c, others, hText, hSpace, hNot⟩ := (Opens.listed hWritten hSome).append (close :: rest)
    have hc : c ≠ close := by
      obtain rfl | rfl := hClose
      · exact hNot.1
      · exact hNot.2
    have hFuel : values.length ≤ others.length + 1 := by
      have hLonger := congrArg List.length hText
      simp only [List.length_append, List.length_cons] at hLonger
      omega
    have hRead := readItems_listed hClose hItems hSome hFuel rest
    rw [hText] at hRead ⊢
    simp only [readList, skipSpace_cons hSpace, if_neg hc, hRead]

end

theorem writeItems_eq (items : List Json) : writeItems items = listed write items := by
  induction items with
  | nil => rfl
  | cons item items ih =>
    cases items with
    | nil => rfl
    | cons next items => rw [writeItems, ih, listed_cons_cons]; simp

def writeMember (member : String × Json) : List Char := quoted member.1 ++ ':' :: member.2.write

theorem opens_writeMember (member : String × Json) : Opens (writeMember member) :=
  (opens_quoted member.1).append _

theorem writeMembers_eq (members : List (String × Json)) :
    writeMembers members = listed writeMember members := by
  induction members with
  | nil => rfl
  | cons member members ih =>
    cases members with
    | nil => rfl
    | cons next members => rw [writeMembers, ih, listed_cons_cons, writeMember]; simp

/-- The numbers of the value are natural, and it is nested in so many levels at most. -/
def Plain : Nat → Json → Prop
  | _, null | _, bool _ | _, string _ => True
  | _, number n => ∃ k, k < UInt64.size ∧ n = .ofNat k
  | 0, array _ | 0, object _ => False
  | levels + 1, array items => ∀ item ∈ items, Plain levels item
  | levels + 1, object members => ∀ member ∈ members, Plain levels member.2

theorem plain_number_iff {levels : Nat} {n : Numeral} :
    (number n).Plain levels ↔ ∃ k, k < UInt64.size ∧ n = .ofNat k := by
  cases levels <;> rfl

theorem write_array (items : List Json) (rest : List Char) :
    (array items).write ++ rest = '[' :: (listed write items ++ ']' :: rest) := by
  rw [write, writeItems_eq]
  simp

theorem write_object (members : List (String × Json)) (rest : List Char) :
    (object members).write ++ rest = '{' :: (listed writeMember members ++ '}' :: rest) := by
  rw [write, writeMembers_eq]
  simp

/-- A numeral begins with a digit. -/
theorem exists_digit (n : Nat) :
    ∃ c others, (Numeral.ofNat n).chars = c :: others ∧ isDigit c = true := by
  obtain ⟨c, others, hChars⟩ := List.exists_cons_of_ne_nil (Nat.toDigits_ne_nil (b := 10) (n := n))
  exact ⟨c, others, (Numeral.chars_ofNat n).trans hChars,
    isDigit_toDigits c (hChars ▸ List.mem_cons_self)⟩

theorem ne_of_isDigit {c d : Char} (h : isDigit c = true) (hd : isDigit d = false) : c ≠ d := by
  rintro rfl
  exact absurd (h.symm.trans hd) (by decide)

theorem isSpace_of_isDigit {c : Char} (h : isDigit c = true) : isSpace c = false := by
  rw [← Bool.not_eq_true]
  intro hSpace
  simp only [isSpace, Bool.or_eq_true, decide_eq_true_eq] at hSpace
  obtain ((rfl | rfl) | rfl) | rfl := hSpace <;> exact absurd h (by decide)

theorem Plain.opens {levels : Nat} {j : Json} (h : j.Plain levels) : Opens j.write := by
  cases j with
  | null => exact ⟨'n', _, rfl, by decide, by decide, by decide⟩
  | bool b =>
    cases b with
    | false => exact ⟨'f', _, rfl, by decide, by decide, by decide⟩
    | true => exact ⟨'t', _, rfl, by decide, by decide, by decide⟩
  | string s => exact opens_quoted s
  | number n =>
    obtain ⟨k, -, rfl⟩ := plain_number_iff.mp h
    obtain ⟨c, others, hChars, hDigit⟩ := exists_digit k
    exact ⟨c, others, hChars, isSpace_of_isDigit hDigit, ne_of_isDigit hDigit (by decide),
      ne_of_isDigit hDigit (by decide)⟩
  | array items => exact ⟨'[', _, rfl, by decide, by decide, by decide⟩
  | object members => exact ⟨'{', _, rfl, by decide, by decide, by decide⟩

theorem readScalar_digit {c : Char} (h : isDigit c = true) (text : List Char) :
    readScalar (c :: text) =
      (Numeral.read (c :: text)).map fun (n, rest) => (number n, rest) := by
  rw [readScalar]
  all_goals
    intro rest hText
    rw [(List.cons.inj hText).1] at h
    exact absurd h (by decide)

theorem readValue_scalar {levels : Nat} {c : Char} (hArray : c ≠ '[') (hObject : c ≠ '\x7b')
    (text : List Char) : readValue levels (c :: text) = readScalar (c :: text) := by
  cases levels with
  | zero => rfl
  | succ levels =>
    rw [readValue]
    · exact fun rest hText => hArray (List.cons.inj hText).1
    · exact fun rest hText => hObject (List.cons.inj hText).1

theorem readName_quoted (name : String) {text : List Char} (h : Opens text) :
    readName (quoted name ++ ':' :: text) = some (name, text) := by
  have hColon : isSpace ':' = false := by decide
  simp only [readName, readString_quoted, skipSpace_cons hColon, h.skipSpace_eq]

theorem takes_string (levels : Nat) (s : String) : Takes (readValue levels) write (string s) := by
  refine ⟨opens_quoted s, fun rest _ => ?_⟩
  have hText : (string s).write ++ rest = '"' :: (s.toList.flatMap escape ++ '"' :: rest) := by
    rw [write, quoted_append]
  rw [hText, readValue_scalar (by decide) (by decide)]
  simp only [readScalar, readStringRest_escaped, Option.map_some, String.ofList_toList]

theorem takes_number (levels : Nat) {n : Nat} (h : n < UInt64.size) :
    Takes (readValue levels) write (ofNat n) := by
  have hPlain : (ofNat n).Plain levels := plain_number_iff.mpr ⟨n, h, rfl⟩
  refine ⟨hPlain.opens, fun rest hRest => ?_⟩
  obtain ⟨c, others, hChars, hDigit⟩ := exists_digit n
  have hRead := Numeral.read_ofNat h hRest
  have hText : (ofNat n).write ++ rest = c :: (others ++ rest) := by
    rw [ofNat, write, hChars, List.cons_append]
  rw [hChars, List.cons_append] at hRead
  rw [hText, readValue_scalar (ne_of_isDigit hDigit (by decide)) (ne_of_isDigit hDigit (by decide)),
    readScalar_digit hDigit, hRead]
  rfl

theorem takes_array {levels : Nat} {items : List Json}
    (h : ∀ item ∈ items, Takes (readValue levels) write item) :
    Takes (readValue (levels + 1)) write (array items) := by
  refine ⟨⟨'[', _, rfl, by decide, by decide, by decide⟩, fun rest _ => ?_⟩
  rw [write_array, readValue, readList_listed (.inl rfl) h]
  rfl

theorem takes_member {levels : Nat} {member : String × Json}
    (h : Takes (readValue levels) write member.2) :
    Takes (readMember (readValue levels)) writeMember member := by
  refine ⟨opens_writeMember member, fun rest hRest => ?_⟩
  have hName := readName_quoted member.1 (h.1.append rest)
  rw [writeMember, List.append_assoc, List.cons_append]
  simp only [readMember, hName, h.2 rest hRest]
  rfl

theorem takes_object {levels : Nat} {members : List (String × Json)}
    (h : ∀ member ∈ members, Takes (readValue levels) write member.2) :
    Takes (readValue (levels + 1)) write (object members) := by
  refine ⟨⟨'\x7b', _, rfl, by decide, by decide, by decide⟩, fun rest _ => ?_⟩
  rw [write_object, readValue, readList_listed (.inr rfl) fun member hMember =>
    takes_member (h member hMember)]
  rfl

/-- A plain value is read back, and what follows it is left. -/
theorem Plain.takes {levels : Nat} {j : Json} (h : j.Plain levels) :
    Takes (readValue levels) write j := by
  induction levels, j using Plain.induct with
  | case1 levels => exact ⟨h.opens, fun _ _ => by cases levels <;> rfl⟩
  | case2 levels b => exact ⟨h.opens, fun _ _ => by cases levels <;> cases b <;> rfl⟩
  | case3 levels s => exact takes_string levels s
  | case4 levels n =>
    obtain ⟨k, hk, rfl⟩ := plain_number_iff.mp h
    exact takes_number levels hk
  | case5 items => exact h.elim
  | case6 members => exact h.elim
  | case7 levels items ih => exact takes_array fun item hItem => ih item (h item hItem)
  | case8 levels members ih =>
    exact takes_object fun member hMember => ih member (h member hMember)

/-- No character of the text is a control character of ASCII. -/
def Printable (text : List Char) : Prop := ∀ c ∈ text, 0x20 ≤ c.toNat

theorem printable_cons_iff {c : Char} {text : List Char} :
    Printable (c :: text) ↔ 0x20 ≤ c.toNat ∧ Printable text :=
  List.forall_mem_cons

theorem printable_append_iff {text rest : List Char} :
    Printable (text ++ rest) ↔ Printable text ∧ Printable rest :=
  List.forall_mem_append

theorem printable_escape (c : Char) : Printable (escape c) := by
  have hDigit : ∀ n ∈ List.range 0x20,
      0x20 ≤ (Nat.digitChar (n / 16)).toNat ∧ 0x20 ≤ (Nat.digitChar (n % 16)).toNat := by decide
  unfold escape
  iterate 7
    split
    · simp [Printable]
  split
  case isTrue hControl =>
    obtain ⟨hHigh, hLow⟩ := hDigit c.toNat (List.mem_range.mpr hControl)
    simp [Printable, hHigh, hLow]
  case isFalse hPrintable => simpa [Printable] using hPrintable

theorem printable_quoted (s : String) : Printable (quoted s) := by
  have hEscaped : Printable (s.toList.flatMap escape) := fun c hc => by
    obtain ⟨d, -, hEscape⟩ := List.mem_flatMap.mp hc
    exact printable_escape d c hEscape
  rw [quoted, printable_append_iff, printable_cons_iff]
  exact ⟨⟨by decide, hEscaped⟩, by simp [Printable]⟩

theorem printable_listed {α : Type} {write : α → List Char} {values : List α}
    (h : ∀ a ∈ values, Printable (write a)) : Printable (listed write values) := by
  induction values with
  | nil => exact nofun
  | cons a values ih =>
    obtain ⟨hFirst, hRest⟩ := List.forall_mem_cons.mp h
    cases values with
    | nil => exact hFirst
    | cons b values =>
      rw [listed_cons_cons, printable_append_iff, printable_cons_iff]
      exact ⟨hFirst, by decide, ih hRest⟩

theorem printable_writeMember {member : String × Json} (h : Printable member.2.write) :
    Printable (writeMember member) := by
  rw [writeMember, printable_append_iff, printable_cons_iff]
  exact ⟨printable_quoted member.1, by decide, h⟩

theorem printable_ofNat (n : Nat) : Printable (ofNat n).write := by
  intro c hc
  have hDigits : c ∈ Nat.toDigits 10 n := by rwa [ofNat, write, Numeral.chars_ofNat] at hc
  have hDigit := isDigit_toDigits c hDigits
  rw [isDigit, Bool.and_eq_true, decide_eq_true_eq, decide_eq_true_eq] at hDigit
  exact le_trans (by decide) (show '0'.toNat ≤ c.toNat from hDigit.1)

theorem printable_array {items : List Json} (h : ∀ item ∈ items, Printable item.write) :
    Printable (array items).write := by
  have hItems := printable_listed h
  rw [← List.append_nil (write _), write_array, printable_cons_iff, printable_append_iff]
  exact ⟨by decide, hItems, by simp [Printable]⟩

theorem printable_object {members : List (String × Json)}
    (h : ∀ member ∈ members, Printable member.2.write) : Printable (object members).write := by
  have hMembers := printable_listed fun member hMember => printable_writeMember (h member hMember)
  rw [← List.append_nil (write _), write_object, printable_cons_iff, printable_append_iff]
  exact ⟨by decide, hMembers, by simp [Printable]⟩

/-- Of any value nothing is written but characters that can stand in a line. -/
theorem Plain.printable {levels : Nat} {j : Json} (h : j.Plain levels) : Printable j.write := by
  induction levels, j using Plain.induct with
  | case1 levels => simp [Printable, write]
  | case2 levels b => cases b <;> simp [Printable, write]
  | case3 levels s => exact printable_quoted s
  | case4 levels n =>
    obtain ⟨k, -, rfl⟩ := plain_number_iff.mp h
    exact printable_ofNat k
  | case5 items => exact h.elim
  | case6 members => exact h.elim
  | case7 levels items ih => exact printable_array fun item hItem => ih item (h item hItem)
  | case8 levels members ih =>
    exact printable_object fun member hMember => ih member (h member hMember)

end ForkLog.Json
