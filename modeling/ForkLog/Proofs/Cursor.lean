import Mathlib
import ForkLog.Cursor
import ForkLog.Proofs.Text.Decimal
import ForkLog.Proofs.Text.Utf8

/-! # Block numbers and cursors

The block after another one and the block before it, and the round trip of cursors: the block number
is read back whatever the token and the block id are. A colon in the block id moves the border between
the two.
-/

namespace ForkLog

set_option autoImplicit false

theorem toNat_sub_one {n : UInt64} (h : 0 < n) : (n - 1).toNat = n.toNat - 1 := by
  apply UInt64.toNat_sub_of_le
  rw [UInt64.le_iff_toNat_le]
  exact UInt64.lt_iff_toNat_lt.mp h

theorem sub_one_lt_iff {m n : UInt64} (h : 0 < n) : n - 1 < m ↔ n ≤ m := by
  rw [UInt64.lt_iff_toNat_lt, UInt64.le_iff_toNat_le, toNat_sub_one h]
  have hNat : 0 < n.toNat := UInt64.lt_iff_toNat_lt.mp h
  omega

theorem toNat_nextBlock {n : UInt64} (h : n.toNat + 1 < UInt64.size) :
    (nextBlock n).toNat = n.toNat + 1 := by
  rw [nextBlock, if_pos h, UInt64.toNat_add]
  exact Nat.mod_eq_of_lt h

theorem le_nextBlock {m n : UInt64} (h : m.toNat ≤ n.toNat + 1) : m ≤ nextBlock n := by
  rw [UInt64.le_iff_toNat_le]
  by_cases hRoom : n.toNat + 1 < UInt64.size
  · rwa [toNat_nextBlock hRoom]
  · have hBound := m.toNat_lt
    rw [nextBlock, if_neg hRoom]
    simp only [UInt64.size] at hRoom
    omega

theorem nextBlock_le {m n : UInt64} (h : n < m) : nextBlock n ≤ m := by
  have hBound := m.toNat_lt
  rw [UInt64.lt_iff_toNat_lt] at h
  rw [UInt64.le_iff_toNat_le, toNat_nextBlock]
  · omega
  · simp only [UInt64.size]
    omega

theorem toNat_previousBlock {n : UInt64} (h : 0 < n) : (previousBlock n).toNat = n.toNat - 1 := by
  rw [previousBlock, if_neg, toNat_sub_one h]
  rintro rfl
  exact UInt64.lt_irrefl 0 h

theorem nextBlock_previousBlock {n : UInt64} (h : 0 < n) : nextBlock (previousBlock n) = n := by
  have hPos : 0 < n.toNat := UInt64.lt_iff_toNat_lt.mp h
  have hBound := n.toNat_lt
  rw [← UInt64.toNat_inj, toNat_nextBlock] <;> rw [toNat_previousBlock h]
  · omega
  · simp only [UInt64.size]
    omega

namespace Cursor

theorem splitLast_eq_none {mark : Char} {text : List Char} (h : mark ∉ text) :
    splitLast mark text = none := by
  induction text with
  | nil => rfl
  | cons c text ih =>
    rw [splitLast, ih (List.not_mem_of_not_mem_cons h)]
    exact if_neg (List.ne_of_not_mem_cons h).symm

theorem splitLast_append {mark : Char} (before : List Char) {after : List Char}
    (h : mark ∉ after) : splitLast mark (before ++ mark :: after) = some (before, after) := by
  induction before with
  | nil => simp [splitLast, splitLast_eq_none h]
  | cons c before ih => simp [splitLast, ih]

theorem splitLast_isSome (mark : Char) (before after : List Char) :
    ∃ parts, splitLast mark (before ++ mark :: after) = some parts := by
  induction before with
  | nil =>
    rw [List.nil_append, splitLast]
    split
    · exact ⟨_, rfl⟩
    · exact ⟨_, if_pos rfl⟩
  | cons c before ih =>
    obtain ⟨parts, hParts⟩ := ih
    rw [List.cons_append, splitLast, hParts]
    exact ⟨_, rfl⟩

theorem decode_error {bytes : Bytes} {e : Error} (h : decode bytes = .error e) :
    ∃ reason, e = .invalidCursor reason := by
  rw [decode] at h
  split at h
  · cases h
    exact ⟨_, rfl⟩
  case h_2 text _ =>
    cases hRead : readChars text with
    | error fault => rw [hRead] at h; cases h; exact ⟨_, rfl⟩
    | ok c => rw [hRead] at h; cases h

theorem splitLast_eq_some {mark : Char} {text before after : List Char}
    (h : splitLast mark text = some (before, after)) :
    text = before ++ mark :: after ∧ mark ∉ after := by
  induction text generalizing before with
  | nil => cases h
  | cons c text ih =>
    rw [splitLast] at h
    cases hRest : splitLast mark text with
    | some parts =>
      obtain ⟨front, back⟩ := parts
      rw [hRest] at h
      cases h
      obtain ⟨rfl, hNone⟩ := ih hRest
      exact ⟨rfl, hNone⟩
    | none =>
      simp only [hRest] at h
      split at h
      case isFalse => cases h
      case isTrue hMark =>
        cases h
        refine ⟨by rw [hMark, List.nil_append], fun hMem => ?_⟩
        obtain ⟨front, back, rfl⟩ := List.append_of_mem hMem
        obtain ⟨parts, hParts⟩ := splitLast_isSome mark front back
        rw [hParts] at hRest
        cases hRest

/-- The texts that are read as a cursor: its token, its block id without a colon and a numeral of its
block number. -/
theorem readChars_eq_ok_iff {text : List Char} {c : Cursor} :
    readChars text = .ok c ↔ ∃ number,
      text = c.token.toList ++ ':' :: c.blockId.toList ++ ':' :: number ∧
        ':' ∉ c.blockId.toList ∧ Decimal.Denotes number c.blockNumber.toNat := by
  constructor
  · intro h
    rw [readChars] at h
    cases hNumber : splitLast ':' text with
    | none => simp only [hNumber] at h; cases h
    | some parts =>
      obtain ⟨front, number⟩ := parts
      cases hId : splitLast ':' front with
      | none => simp only [hNumber, hId] at h; cases h
      | some parts =>
        obtain ⟨token, blockId⟩ := parts
        cases hRead : Decimal.read number with
        | error fault => simp only [hNumber, hId, hRead] at h; cases h
        | ok n =>
          simp only [hNumber, hId, hRead] at h
          cases h
          obtain ⟨rfl, -⟩ := splitLast_eq_some hNumber
          obtain ⟨rfl, hColon⟩ := splitLast_eq_some hId
          simp only [String.toList_ofList]
          exact ⟨number, rfl, hColon, Decimal.read_eq_ok_iff.mp hRead⟩
  · rintro ⟨number, rfl, hId, hNumber⟩
    have hColon : ':' ∉ number := hNumber.mark_not_mem (by decide) (by decide)
    simp only [readChars, splitLast_append _ hColon, splitLast_append _ hId,
      Decimal.read_eq_ok_iff.mpr hNumber, String.ofList_toList]

theorem read_eq_ok_iff {text : String} {c : Cursor} :
    read text = .ok c ↔ readChars text.toList = .ok c := by
  rw [read]
  cases readChars text.toList <;> simp [Except.mapError]

/-- The block number is what follows the last colon. -/
theorem splitLast_chars (c : Cursor) :
    splitLast ':' c.chars =
      some (c.token.toList ++ ':' :: c.blockId.toList, Decimal.write c.blockNumber) := by
  have hColon : ':' ∉ Decimal.write c.blockNumber := fun hMem =>
    absurd (Decimal.isDigit_of_mem_write hMem) (by decide)
  have hChars : c.chars =
      (c.token.toList ++ ':' :: c.blockId.toList) ++ ':' :: Decimal.write c.blockNumber := by
    simp [chars]
  rw [hChars, splitLast_append _ hColon]

theorem decode_encode (c : Cursor) :
    ∃ found, Cursor.decode c.encode = .ok found ∧ found.blockNumber = c.blockNumber := by
  obtain ⟨⟨token, blockId⟩, hParts⟩ := splitLast_isSome ':' c.token.toList c.blockId.toList
  refine ⟨⟨String.ofList token, String.ofList blockId, c.blockNumber⟩, ?_, rfl⟩
  simp only [decode, encode, Utf8.decodeChars_encodeChars, readChars, splitLast_chars, hParts,
    Decimal.read_write, Except.mapError]

/-- A cursor is read back as it was if its block id has no colon. -/
theorem read_text {c : Cursor} (h : ':' ∉ c.blockId.toList) : read c.text = .ok c := by
  rw [read_eq_ok_iff, text, String.toList_ofList, readChars_eq_ok_iff]
  exact ⟨Decimal.write c.blockNumber, rfl, h, Decimal.denotes_write _⟩

/-- No cursor that was read has a colon in its block id. -/
theorem not_mem_of_read {text : String} {c : Cursor} (h : read text = .ok c) :
    ':' ∉ c.blockId.toList := by
  obtain ⟨number, -, hId, -⟩ := readChars_eq_ok_iff.mp (read_eq_ok_iff.mp h)
  exact hId

theorem decode_encode_eq_read (c : Cursor) : decode c.encode = read c.text := by
  simp only [decode, encode, Utf8.decodeChars_encodeChars, read, text, String.toList_ofList]

/-- What is read from the text of a cursor has the same text. -/
theorem text_eq_of_read_text {c found : Cursor} (h : read c.text = .ok found) :
    found.text = c.text := by
  obtain ⟨⟨token, blockId⟩, hParts⟩ := splitLast_isSome ':' c.token.toList c.blockId.toList
  simp only [read, text, String.toList_ofList, readChars, splitLast_chars, hParts,
    Decimal.read_write, Except.mapError] at h
  cases h
  have hFront := (splitLast_eq_some hParts).1
  simp only [text, chars, String.toList_ofList]
  rw [hFront]

/-- A cursor whose block id has no colon is read from the cursors that have its text. -/
theorem decode_encode_eq_iff {last c : Cursor} (h : ':' ∉ c.blockId.toList) :
    decode last.encode = .ok c ↔ last.text = c.text := by
  rw [decode_encode_eq_read]
  constructor
  · intro hRead
    exact (text_eq_of_read_text hRead).symm
  · intro hText
    rw [hText, read_text h]

end Cursor

end ForkLog
