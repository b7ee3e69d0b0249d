import Mathlib
import ForkLog.Text.Decimal

/-! # Which texts are numbers

Digits are read as the number that they make up, however many there are, and one plus sign may come
before them. Nothing else is read, and nothing that makes up more than 64 bits can hold.
-/

namespace ForkLog.Decimal

set_option autoImplicit false

theorem digit?_of_isDigit {c : Char} (h : c.isDigit = true) :
    digit? c = some (c.toNat - '0'.toNat) := by
  rw [Char.isDigit, Bool.and_eq_true, decide_eq_true_eq, decide_eq_true_eq] at h
  rw [digit?, if_pos]
  simpa [Char.le_def] using h

theorem digit?_eq_none {c : Char} (h : c.isDigit = false) : digit? c = none := by
  rw [digit?, if_neg]
  rw [Char.isDigit] at h
  simpa [Char.le_def] using h

/-- Digits that follow never make a number smaller. -/
theorem le_ofDigitChars (digits : List Char) (n : Nat) : n ≤ Nat.ofDigitChars 10 digits n := by
  have hOne : 1 ≤ 10 ^ digits.length := Nat.one_le_pow _ _ (by decide)
  rw [Nat.ofDigitChars_eq_ofDigitChars_zero]
  exact le_trans (Nat.le_mul_of_pos_left n hOne) (Nat.le_add_right _ _)

theorem readDigits_eq_ok_iff {digits : List Char} {n : Nat} (hn : n < UInt64.size) {found : UInt64} :
    readDigits n digits = .ok found ↔
      (∀ c ∈ digits, c.isDigit = true) ∧ Nat.ofDigitChars 10 digits n = found.toNat := by
  induction digits generalizing n with
  | nil =>
    rw [readDigits, Nat.ofDigitChars_nil, Except.ok.injEq, ← UInt64.toNat_inj,
      UInt64.toNat_ofNat_of_lt' hn]
    simp
  | cons c digits ih =>
    rw [List.forall_mem_cons, Nat.ofDigitChars_cons, readDigits]
    cases hDigit : c.isDigit with
    | false => simp [digit?_eq_none hDigit]
    | true =>
      simp only [digit?_of_isDigit hDigit, true_and]
      split
      case isTrue hRoom => exact ih hRoom
      case isFalse hFull =>
        refine iff_of_false nofun ?_
        rintro ⟨-, hValue⟩
        have hLow := le_ofDigitChars digits (10 * n + (c.toNat - '0'.toNat))
        exact hFull (lt_of_le_of_lt (hLow.trans_eq hValue) found.toNat_lt)

/-- The text is made of digits, of which there is one at least, behind one plus sign at most, and they
make up the number. -/
def Denotes (text : List Char) (n : Nat) : Prop :=
  ∃ sign digits, text = sign ++ digits ∧ (sign = [] ∨ sign = ['+']) ∧ digits ≠ [] ∧
    (∀ c ∈ digits, c.isDigit = true) ∧ Nat.ofDigitChars 10 digits 0 = n

theorem denotes_plus_iff {digits : List Char} {n : Nat} :
    Denotes ('+' :: digits) n ↔
      digits ≠ [] ∧ (∀ c ∈ digits, c.isDigit = true) ∧ Nat.ofDigitChars 10 digits 0 = n := by
  constructor
  · rintro ⟨sign, found, hText, rfl | rfl, hSome, hDigits, hValue⟩
    · obtain rfl : '+' :: digits = found := hText
      exact absurd (hDigits '+' List.mem_cons_self) (by decide)
    · obtain rfl : digits = found := (List.cons.inj hText).2
      exact ⟨hSome, hDigits, hValue⟩
  · rintro ⟨hSome, hDigits, hValue⟩
    exact ⟨['+'], digits, rfl, .inr rfl, hSome, hDigits, hValue⟩

theorem denotes_iff_of_not_plus {text : List Char} (h : ∀ rest, text ≠ '+' :: rest) {n : Nat} :
    Denotes text n ↔
      text ≠ [] ∧ (∀ c ∈ text, c.isDigit = true) ∧ Nat.ofDigitChars 10 text 0 = n := by
  constructor
  · rintro ⟨sign, digits, rfl, rfl | rfl, hDigits⟩
    · exact hDigits
    · exact absurd rfl (h digits)
  · exact fun hDigits => ⟨[], text, rfl, .inl rfl, hDigits⟩

theorem read_eq_ok_iff {text : List Char} {found : UInt64} :
    read text = .ok found ↔ Denotes text found.toNat := by
  unfold read
  split
  case h_1 =>
    have hPlus : ∀ rest, [] ≠ '+' :: rest := nofun
    rw [denotes_iff_of_not_plus hPlus]
    simp
  case h_2 =>
    rw [denotes_plus_iff]
    simp
  case h_3 digits hSome =>
    rw [denotes_plus_iff, readDigits_eq_ok_iff (by decide)]
    exact (and_iff_right hSome).symm
  case h_4 hSome _ hPlus =>
    rw [denotes_iff_of_not_plus hPlus, readDigits_eq_ok_iff (by decide)]
    exact (and_iff_right hSome).symm

theorem Denotes.mark_not_mem {text : List Char} {n : Nat} (h : Denotes text n) {mark : Char}
    (hPlus : mark ≠ '+') (hDigit : mark.isDigit = false) : mark ∉ text := by
  obtain ⟨sign, digits, rfl, hSign, -, hDigits, -⟩ := h
  rw [List.mem_append, not_or]
  refine ⟨?_, fun hMem => ?_⟩
  · obtain rfl | rfl := hSign <;> simp [hPlus]
  · rw [hDigits mark hMem] at hDigit
    cases hDigit

theorem isDigit_of_mem_write {n : UInt64} {c : Char} (h : c ∈ write n) : c.isDigit = true :=
  Nat.isDigit_of_mem_toDigits (by decide) (by decide) h

theorem denotes_write (n : UInt64) : Denotes (write n) n.toNat :=
  ⟨[], write n, rfl, .inl rfl, Nat.toDigits_ne_nil, fun _ => isDigit_of_mem_write,
    Nat.ofDigitChars_ten_toDigits⟩

theorem read_write (n : UInt64) : read (write n) = .ok n :=
  read_eq_ok_iff.mpr (denotes_write n)

end ForkLog.Decimal
