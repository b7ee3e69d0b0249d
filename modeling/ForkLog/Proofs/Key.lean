import Mathlib
import ForkLog.Bytes.Numbers
import ForkLog.Key
import ForkLog.Proofs.Text.Utf8

/-! # The order of the key space

User, undo and cursor keys are never the same, and the undo keys are in the order of their blocks
turned round: the ranges that the undo log asks for hold exactly the blocks on one side of a height.
-/

namespace ForkLog

set_option autoImplicit false

namespace Bytes

theorem compare_eq_lt_iff (a b : Bytes) : compare a b = .lt ↔ a < b := by
  induction a generalizing b with
  | nil => cases b <;> simp
  | cons x a ih =>
    cases b with
    | nil => simp
    | cons y b =>
      have ih := ih b
      rw [List.compare_eq_compareLex] at ih ⊢
      rw [List.compareLex_cons_cons, List.cons_lt_cons_iff, Ordering.then_eq_lt,
        Std.compare_eq_lt, Std.LawfulEqOrd.compare_eq_iff_eq, ih]

theorem lt_of_lt_of_le {a b c : Bytes} (hab : a < b) (hbc : b ≤ c) : a < c := by
  by_contra hNot
  exact hbc (List.lt_of_le_of_lt hNot hab)

theorem bigEndian_succ (width n : Nat) :
    bigEndian (width + 1) n = bigEndian width (n / 256) ++ [UInt8.ofNat n] := by
  simp [bigEndian, littleEndian]

/-- Of two texts of one length that end in one more byte, the bytes before it are compared
first. -/
theorem append_singleton_lt_iff {front front' : Bytes} (h : front.length = front'.length)
    (b b' : UInt8) :
    front ++ [b] < front' ++ [b'] ↔ front < front' ∨ front = front' ∧ b < b' := by
  induction front generalizing front' with
  | nil =>
    obtain rfl := List.length_eq_zero_iff.mp h.symm
    simp [List.cons_lt_cons_iff]
  | cons x front ih =>
    cases front' with
    | nil => cases h
    | cons y front' =>
      rw [List.cons_append, List.cons_append, List.cons_lt_cons_iff, List.cons_lt_cons_iff,
        ih (Nat.succ.inj h)]
      grind

theorem bigEndian_ofBigEndian (bytes : Bytes) : bigEndian bytes.length (ofBigEndian bytes) = bytes := by
  have hBack := littleEndian_ofLittleEndian bytes.reverse
  rw [List.length_reverse] at hBack
  rw [bigEndian, ofBigEndian, hBack, List.reverse_reverse]

theorem bigEndian_injective {width m n : Nat} (hm : m < 256 ^ width) (hn : n < 256 ^ width)
    (h : bigEndian width m = bigEndian width n) : m = n := by
  have hValue := congrArg ofBigEndian h
  rwa [ofBigEndian_bigEndian, ofBigEndian_bigEndian, Nat.mod_eq_of_lt hm, Nat.mod_eq_of_lt hn]
    at hValue

theorem bigEndian_lt_bigEndian_iff {width m n : Nat} (hm : m < 256 ^ width)
    (hn : n < 256 ^ width) : bigEndian width m < bigEndian width n ↔ m < n := by
  induction width generalizing m n with
  | zero =>
    obtain rfl : m = 0 := by simpa using hm
    obtain rfl : n = 0 := by simpa using hn
    simp
  | succ width ih =>
    have hm' : m / 256 < 256 ^ width := by rw [Nat.pow_succ] at hm; omega
    have hn' : n / 256 < 256 ^ width := by rw [Nat.pow_succ] at hn; omega
    have hEq : bigEndian width (m / 256) = bigEndian width (n / 256) ↔ m / 256 = n / 256 :=
      ⟨bigEndian_injective hm' hn', congrArg _⟩
    rw [bigEndian_succ, bigEndian_succ, append_singleton_lt_iff (by simp), ih hm' hn', hEq,
      UInt8.lt_iff_toNat_lt, UInt8.toNat_ofNat', UInt8.toNat_ofNat']
    omega

end Bytes

namespace Key

theorem user_injective : Function.Injective user := by
  intro a b h
  exact Utf8.encode_injective (List.cons.inj h).2

theorem userText_user (key : String) : userText (user key) = key :=
  Utf8.decodeLossy_encode key

theorem user_ne_undo (key : String) (block : UInt64) : user key ≠ undo block := by
  intro h
  exact absurd (List.cons.inj h).1 (by decide)

theorem user_ne_cursor (key : String) : user key ≠ cursor := by
  intro h
  exact absurd (List.cons.inj h).1 (by decide)

theorem undo_ne_cursor (block : UInt64) : undo block ≠ cursor := by
  intro h
  exact absurd (congrArg List.length h) (by simp [undo, undoMark, cursor])

/-- The last block of all. Its undo key is the first one. -/
def lastBlock : UInt64 := .ofNat (UInt64.size - 1)

theorem toNat_lastBlock : lastBlock.toNat = UInt64.size - 1 := rfl

theorem le_lastBlock (block : UInt64) : block ≤ lastBlock := by
  rw [UInt64.le_iff_toNat_le, toNat_lastBlock]
  have := block.toNat_lt
  simp only [UInt64.size]
  omega

theorem undo_lt_undo_iff (a b : UInt64) : undo a < undo b ↔ b < a := by
  have ha := a.toNat_lt
  have hb := b.toNat_lt
  have hOrder : undo a < undo b ↔
      Bytes.bigEndian 8 (UInt64.size - 1 - a.toNat) <
        Bytes.bigEndian 8 (UInt64.size - 1 - b.toNat) := by
    simp [undo, undoMark]
  rw [hOrder, Bytes.bigEndian_lt_bigEndian_iff (by simp only [UInt64.size]; omega)
    (by simp only [UInt64.size]; omega), UInt64.lt_iff_toNat_lt]
  simp only [UInt64.size]
  omega

theorem undo_le_undo_iff (a b : UInt64) : undo a ≤ undo b ↔ b ≤ a := by
  rw [← List.not_lt, undo_lt_undo_iff, UInt64.not_lt]

theorem undo_injective : Function.Injective undo := by
  intro a b h
  have hab := (undo_le_undo_iff a b).mp (h ▸ List.le_refl _)
  have hba := (undo_le_undo_iff b a).mp (h ▸ List.le_refl _)
  exact UInt64.le_antisymm hba hab

theorem undo_lt_undoEnd (block : UInt64) : undo block < undoEnd := by
  simp [undo, undoMark, undoEnd, List.cons_lt_cons_iff]

theorem undoMark_le_undo (block : UInt64) : undoMark ≤ undo block :=
  List.le_append_left

theorem undo_lastBlock_le (block : UInt64) : undo lastBlock ≤ undo block :=
  (undo_le_undo_iff _ _).mpr (le_lastBlock block)

theorem undo_lt_of_undo_le {height block : UInt64} {stop : Bytes} (h : height < block)
    (hStop : undo height ≤ stop) : undo block < stop :=
  Bytes.lt_of_lt_of_le ((undo_lt_undo_iff block height).mpr h) hStop

theorem undoBlock?_undo (block : UInt64) : undoBlock? (undo block) = some block := by
  have hIsUndo : isUndo (undo block) = true := by simp [isUndo, undo, undoMark]
  have hBound := block.toNat_lt
  have hNumber : Bytes.ofBigEndian ((undo block).drop 2) = UInt64.size - 1 - block.toNat := by
    rw [undo, show (2 : Nat) = undoMark.length from rfl, List.drop_left, Bytes.ofBigEndian_bigEndian,
      Nat.mod_eq_of_lt (by simp only [UInt64.size]; omega)]
  have hComplement : UInt64.size - 1 - (UInt64.size - 1 - block.toNat) = block.toNat := by
    simp only [UInt64.size]
    omega
  rw [undoBlock?, if_pos hIsUndo, hNumber, hComplement, UInt64.ofNat_toNat]

/-- Only undo keys are read as such. -/
theorem undoBlock?_eq_some_iff {physical : Bytes} {block : UInt64} :
    undoBlock? physical = some block ↔ physical = undo block := by
  constructor
  · intro h
    rw [undoBlock?] at h
    split at h
    case isFalse => cases h
    case isTrue hIsUndo =>
      obtain ⟨hLength, hMark⟩ : physical.length = 10 ∧ physical.take 2 = undoMark := by
        simpa [isUndo] using hIsUndo
      have hRest : (physical.drop 2).length = 8 := by simp [hLength]
      have hNumber : Bytes.ofBigEndian (physical.drop 2) < UInt64.size := by
        have hLess := Bytes.ofLittleEndian_lt (physical.drop 2).reverse
        rwa [List.length_reverse, hRest] at hLess
      have hBlock : UInt64.size - 1 - block.toNat = Bytes.ofBigEndian (physical.drop 2) := by
        rw [← Option.some.inj h, UInt64.toNat_ofNat_of_lt' (by omega)]
        omega
      rw [undo, hBlock, ← hRest, Bytes.bigEndian_ofBigEndian, ← hMark, List.take_append_drop]
  · rintro rfl
    exact undoBlock?_undo block

theorem isUser_iff {key : Bytes} :
    isUser key = true ↔ ∃ first rest, key = userMark :: first :: rest := by
  cases key with
  | nil => simp [isUser]
  | cons mark others => cases others <;> simp [isUser]

theorem user_lt_undo (key : String) (block : UInt64) : user key < undo block := by
  simp only [user, userMark, undo, undoMark, List.cons_append, List.cons_lt_cons_iff]
  exact .inl (by decide)

theorem cursor_lt_undo (block : UInt64) : cursor < undo block := by
  simp only [cursor, undo, undoMark, List.cons_append, List.cons_lt_cons_iff]
  exact .inr ⟨trivial, .inl (by decide)⟩

theorem user_ne_of_undo_le {key : Bytes} (hLow : undo lastBlock ≤ key) (text : String) :
    user text ≠ key := by
  rintro rfl
  exact hLow (user_lt_undo text lastBlock)

theorem cursor_ne_of_undo_le {key : Bytes} (hLow : undo lastBlock ≤ key) : cursor ≠ key := by
  rintro rfl
  exact hLow (cursor_lt_undo lastBlock)

end Key

end ForkLog
