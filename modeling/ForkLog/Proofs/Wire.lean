import Mathlib
import ForkLog.Bytes.Numbers
import ForkLog.Proofs.Text.Utf8
import ForkLog.Wire

/-! # Readers and writers

Each reader takes from the beginning of a byte string exactly what its writer puts down, and leaves
what follows. A length is written in eight bytes, so only what eight bytes can count is read back.
-/

namespace ForkLog.Wire

set_option autoImplicit false

/-- What eight bytes can count. -/
def lengthLimit : Nat := 256 ^ 8

theorem length_length (n : Nat) : (length n).length = 8 := Bytes.length_littleEndian 8 n

theorem length_bytes (content : Bytes) : (bytes content).length = 8 + content.length := by
  rw [bytes, List.length_append, length_length]

/-- Behind its count a list takes no fewer bytes than it has items, if each of them takes some, and no
fewer than any one of them. -/
theorem length_list {α : Type} {write : α → Bytes} {items : List α}
    (h : ∀ a ∈ items, 1 ≤ (write a).length) :
    items.length ≤ (length items.length ++ items.flatMap write).length ∧
      ∀ a ∈ items, (write a).length ≤ (length items.length ++ items.flatMap write).length := by
  have hSum : (length items.length ++ items.flatMap write).length =
      8 + (items.map fun a => (write a).length).sum := by
    rw [List.length_append, length_length, List.length_flatMap]
  rw [hSum]
  constructor
  · have hCount := List.length_le_sum_of_one_le _ (List.forall_mem_map.mpr h)
    rw [List.length_map] at hCount
    omega
  · intro a ha
    have hItem := List.le_sum_of_mem (List.mem_map_of_mem (f := fun a => (write a).length) ha)
    omega

theorem splitAt?_eq_some_iff {n : Nat} {input front rest : Bytes} :
    splitAt? n input = some (front, rest) ↔ front.length = n ∧ input = front ++ rest := by
  constructor
  · intro h
    rw [splitAt?] at h
    split at h
    case isTrue hEnough =>
      cases h
      exact ⟨List.length_take_of_le hEnough, (List.take_append_drop n input).symm⟩
    case isFalse => cases h
  · rintro ⟨hLength, rfl⟩
    rw [splitAt?, if_pos (by simp [hLength]), ← hLength, List.take_left, List.drop_left]

/-- The reader takes exactly what the writer puts down for the values that fit. -/
def Reads {α : Type} (read : Reader α) (write : α → Bytes) (fits : α → Prop) : Prop :=
  ∀ input a rest, read input = .ok (a, rest) ↔ fits a ∧ input = write a ++ rest

theorem reads_byte : Reads readByte (fun b => [b]) fun _ => True := by
  intro input b rest
  cases input <;> simp [readByte]

theorem readLength_eq_ok_iff {input rest : Bytes} {n : Nat} :
    readLength input = .ok (n, rest) ↔
      ∃ field, splitAt? 8 input = some (field, rest) ∧ n = Bytes.ofLittleEndian field := by
  rw [readLength]
  cases splitAt? 8 input with
  | none => simp
  | some found => grind

theorem reads_length : Reads readLength length (· < lengthLimit) := by
  intro input n rest
  simp only [readLength_eq_ok_iff, splitAt?_eq_some_iff]
  constructor
  · rintro ⟨field, ⟨hField, rfl⟩, rfl⟩
    have hLess := Bytes.ofLittleEndian_lt field
    have hBack := Bytes.littleEndian_ofLittleEndian field
    rw [hField] at hLess hBack
    exact ⟨hLess, by rw [length, hBack]⟩
  · rintro ⟨hn, rfl⟩
    refine ⟨length n, ⟨length_length n, rfl⟩, ?_⟩
    rw [length, Bytes.ofLittleEndian_littleEndian]
    exact (Nat.mod_eq_of_lt hn).symm

theorem readBytes_eq_ok_iff {input content rest : Bytes} :
    readBytes input = .ok (content, rest) ↔
      ∃ n others, readLength input = .ok (n, others) ∧ splitAt? n others = some (content, rest) := by
  rw [readBytes]
  cases readLength input with
  | error fault => simp
  | ok found =>
    obtain ⟨n, others⟩ := found
    cases hSplit : splitAt? n others <;> grind

theorem reads_bytes : Reads readBytes bytes fun content => content.length < lengthLimit := by
  intro input content rest
  simp only [readBytes_eq_ok_iff, reads_length _ _ _, splitAt?_eq_some_iff]
  constructor
  · rintro ⟨_, _, ⟨hn, rfl⟩, rfl, rfl⟩
    exact ⟨hn, (List.append_assoc _ _ _).symm⟩
  · rintro ⟨hContent, rfl⟩
    exact ⟨content.length, content ++ rest, ⟨hContent, List.append_assoc _ _ _⟩, rfl, rfl⟩

theorem readText_eq_ok_iff {input rest : Bytes} {s : String} :
    readText input = .ok (s, rest) ↔
      ∃ content, readBytes input = .ok (content, rest) ∧ Utf8.decode content = .ok s := by
  simp only [readBytes_eq_ok_iff]
  rw [readText]
  cases readLength input with
  | error fault => simp
  | ok found =>
    obtain ⟨n, others⟩ := found
    cases hSplit : splitAt? n others with
    | none => grind
    | some found =>
      obtain ⟨content, others⟩ := found
      cases hText : Utf8.decode content <;> grind

theorem reads_text : Reads readText text fun s => (Utf8.encode s).length < lengthLimit := by
  intro input s rest
  simp only [readText_eq_ok_iff, reads_bytes _ _ _, Utf8.decode_eq_ok_iff]
  constructor
  · rintro ⟨_, h, rfl⟩
    exact h
  · exact fun h => ⟨_, h, rfl⟩

section

variable {α β : Type} {first : Reader α} {second : Reader β} {write : α → Bytes}
  {write' : β → Bytes} {fits : α → Prop} {fits' : β → Prop}

theorem readPair_eq_ok_iff {input rest : Bytes} {p : α × β} :
    readPair first second input = .ok (p, rest) ↔
      ∃ others, first input = .ok (p.1, others) ∧ second others = .ok (p.2, rest) := by
  rw [readPair]
  cases first input with
  | error fault => simp
  | ok found =>
    obtain ⟨a, others⟩ := found
    cases hSecond : second others <;> grind

theorem Reads.pair (h : Reads first write fits) (h' : Reads second write' fits') :
    Reads (readPair first second) (fun p => write p.1 ++ write' p.2)
      fun p => fits p.1 ∧ fits' p.2 := by
  intro input p rest
  simp only [readPair_eq_ok_iff, h _ _ _, h' _ _ _, List.append_assoc]
  constructor
  · rintro ⟨_, ⟨hFirst, rfl⟩, hSecond, rfl⟩
    exact ⟨⟨hFirst, hSecond⟩, rfl⟩
  · rintro ⟨⟨hFirst, hSecond⟩, rfl⟩
    exact ⟨_, ⟨hFirst, rfl⟩, hSecond, rfl⟩

theorem readMany_succ_eq_ok_iff {n : Nat} {input rest : Bytes} {values : List α} :
    readMany first (n + 1) input = .ok (values, rest) ↔
      ∃ a others left, values = a :: others ∧ first input = .ok (a, left) ∧
        readMany first n left = .ok (others, rest) := by
  rw [readMany]
  cases first input with
  | error fault => simp
  | ok found =>
    obtain ⟨a, left⟩ := found
    cases hMany : readMany first n left <;> grind

theorem Reads.many (h : Reads first write fits) (n : Nat) :
    Reads (readMany first n) (fun values => values.flatMap write)
      fun values => values.length = n ∧ ∀ a ∈ values, fits a := by
  induction n with
  | zero =>
    intro input values rest
    cases values <;> simp [readMany]
  | succ n ih =>
    intro input values rest
    simp only [readMany_succ_eq_ok_iff, h _ _ _, ih _ _ _]
    constructor
    · rintro ⟨a, others, _, rfl, ⟨hFirst, rfl⟩, ⟨rfl, hOthers⟩, rfl⟩
      exact ⟨⟨rfl, List.forall_mem_cons.mpr ⟨hFirst, hOthers⟩⟩, by simp⟩
    · rintro ⟨⟨hLength, hAll⟩, rfl⟩
      cases values with
      | nil => cases hLength
      | cons a others =>
        obtain ⟨hFirst, hOthers⟩ := List.forall_mem_cons.mp hAll
        exact ⟨a, others, _, rfl, ⟨hFirst, by simp⟩, ⟨Nat.succ.inj hLength, hOthers⟩, rfl⟩

theorem readList_eq_ok_iff {input rest : Bytes} {values : List α} :
    readList first input = .ok (values, rest) ↔
      ∃ n others, readLength input = .ok (n, others) ∧
        readMany first n others = .ok (values, rest) := by
  rw [readList]
  cases readLength input with
  | error fault => simp
  | ok found => grind

theorem Reads.list (h : Reads first write fits) :
    Reads (readList first) (fun values => length values.length ++ values.flatMap write)
      fun values => values.length < lengthLimit ∧ ∀ a ∈ values, fits a := by
  intro input values rest
  simp only [readList_eq_ok_iff, reads_length _ _ _, h.many _ _ _ _, List.append_assoc]
  constructor
  · rintro ⟨_, _, ⟨hCount, rfl⟩, ⟨rfl, hAll⟩, rfl⟩
    exact ⟨⟨hCount, hAll⟩, rfl⟩
  · rintro ⟨⟨hCount, hAll⟩, rfl⟩
    exact ⟨_, _, ⟨hCount, rfl⟩, ⟨rfl, hAll⟩, rfl⟩

end

end ForkLog.Wire
