import Mathlib
import ForkLog.Proofs.Cursor

/-! # Which bytes are cursors

A cursor is read from every text with two colons or more and a numeral of 64 bits behind the last one,
and from nothing else. What was read comes back from its own text, and so does every cursor without a
colon in its block id.
-/

namespace ForkLog.Cursor

set_option autoImplicit false

/-- There are two colons at least, and what follows the last one is a numeral of 64 bits. -/
def WellFormed (text : List Char) : Prop :=
  2 ≤ text.count ':' ∧ ∃ front number n, text = front ++ ':' :: number ∧ ':' ∉ number ∧
    Decimal.Denotes number n ∧ n < 2 ^ 64

theorem wellFormed_of_readChars {text : List Char} {c : Cursor} (h : readChars text = .ok c) :
    WellFormed text := by
  obtain ⟨number, rfl, -, hNumber⟩ := readChars_eq_ok_iff.mp h
  have hColon : ':' ∉ number := hNumber.mark_not_mem (by decide) (by decide)
  refine ⟨?_, _, number, _, rfl, hColon, hNumber, c.blockNumber.toNat_lt⟩
  simp only [List.count_append, List.count_cons_self]
  omega

theorem exists_readChars {text : List Char} (h : WellFormed text) : ∃ c, readChars text = .ok c := by
  obtain ⟨hCount, front, number, n, rfl, hColon, hNumber, hSize⟩ := h
  -- One of the colons stands before the last one.
  have hFront : ':' ∈ front := by
    rw [← List.count_pos_iff]
    rw [List.count_append, List.count_cons_self, List.count_eq_zero_of_not_mem hColon] at hCount
    omega
  obtain ⟨before, after, rfl⟩ := List.append_of_mem hFront
  obtain ⟨⟨token, blockId⟩, hParts⟩ := splitLast_isSome ':' before after
  obtain ⟨hSplit, hId⟩ := splitLast_eq_some hParts
  refine ⟨⟨String.ofList token, String.ofList blockId, .ofNat n⟩, readChars_eq_ok_iff.mpr ?_⟩
  simp only [String.toList_ofList, UInt64.toNat_ofNat_of_lt' hSize]
  exact ⟨number, by rw [hSplit], hId, hNumber⟩

theorem exists_readChars_iff {text : List Char} :
    (∃ c, readChars text = .ok c) ↔ WellFormed text :=
  ⟨fun ⟨_, h⟩ => wellFormed_of_readChars h, exists_readChars⟩

theorem decode_eq_ok_iff {bytes : Bytes} {c : Cursor} :
    decode bytes = .ok c ↔ ∃ text : String, bytes = Utf8.encode text ∧ read text = .ok c := by
  constructor
  · intro h
    rw [decode] at h
    cases hChars : Utf8.decodeChars bytes with
    | error fault => rw [hChars] at h; cases h
    | ok chars =>
      rw [hChars] at h
      refine ⟨String.ofList chars, ?_, ?_⟩
      · rw [Utf8.encode, String.toList_ofList]
        exact Utf8.decodeChars_eq_ok_iff.mp hChars
      · rw [read, String.toList_ofList]
        exact h
  · rintro ⟨text, rfl, h⟩
    rw [decode, Utf8.encode, Utf8.decodeChars_encodeChars]
    exact h

theorem decode_encode_self_iff (c : Cursor) : decode c.encode = .ok c ↔ ':' ∉ c.blockId.toList := by
  rw [decode_encode_eq_read]
  exact ⟨not_mem_of_read, read_text⟩

/-- Which cursors come back from their bytes, and which bytes are those of a cursor. -/
theorem decode_exact (c : Cursor) (bytes : Bytes) :
    (decode c.encode = .ok c ↔ ':' ∉ c.blockId.toList) ∧
      ((∃ found, decode bytes = .ok found) ↔
        ∃ text : String, bytes = Utf8.encode text ∧ WellFormed text.toList) ∧
      ∀ found, decode bytes = .ok found →
        ':' ∉ found.blockId.toList ∧ decode found.encode = .ok found := by
  refine ⟨decode_encode_self_iff c, ?_, fun found hFound => ?_⟩
  · simp only [decode_eq_ok_iff, read_eq_ok_iff, ← exists_readChars_iff]
    constructor
    · rintro ⟨found, text, hBytes, hRead⟩
      exact ⟨text, hBytes, found, hRead⟩
    · rintro ⟨text, hBytes, found, hRead⟩
      exact ⟨found, text, hBytes, hRead⟩
  · obtain ⟨text, -, hRead⟩ := decode_eq_ok_iff.mp hFound
    have hColon := not_mem_of_read hRead
    exact ⟨hColon, (decode_encode_self_iff found).mpr hColon⟩

/-- The token has colons, the block id is empty, and the numeral has a sign and more digits than it
needs. -/
theorem decode_exact_padded :
    decode (Utf8.encode "c1:ab:::+007") = .ok ⟨"c1:ab:", "", 7⟩ ∧
      decode (encode ⟨"c1:ab:", "", 7⟩) = .ok ⟨"c1:ab:", "", 7⟩ ∧
      WellFormed "c1:ab:::+007".toList := by
  have hFound : decode (Utf8.encode "c1:ab:::+007") = .ok ⟨"c1:ab:", "", 7⟩ := by decide +kernel
  obtain ⟨-, hAccepted, hAgain⟩ := decode_exact ⟨"c1:ab:", "", 7⟩ (Utf8.encode "c1:ab:::+007")
  obtain ⟨text, hBytes, hFormed⟩ := hAccepted.mp ⟨_, hFound⟩
  obtain rfl := Utf8.encode_injective hBytes
  exact ⟨hFound, (hAgain _ hFound).2, hFormed⟩

end ForkLog.Cursor
