import Mathlib
import ForkLog.Json.Numeral

/-! # Numerals are read back

A natural number of 64 bits is written without needless zeros and is read back from its digits, as
long as nothing follows that could belong to a numeral.
-/

namespace ForkLog.Json

set_option autoImplicit false

/-- Nothing follows, or what may stand after a value in a list. -/
def Follows (rest : List Char) : Prop := ∀ c ∈ rest.head?, c = ',' ∨ c = ']' ∨ c = '\x7d'

theorem follows_cons {c : Char} (rest : List Char) (h : c = ',' ∨ c = ']' ∨ c = '\x7d') :
    Follows (c :: rest) := by
  rintro _ ⟨⟩
  exact h

theorem isDigit_of_isDigit {c : Char} (h : c.isDigit = true) : isDigit c = true := by
  rw [Char.isDigit, Bool.and_eq_true, decide_eq_true_eq, decide_eq_true_eq] at h
  simpa [isDigit, Char.le_def] using h

theorem isDigit_toDigits {n : Nat} : ∀ c ∈ Nat.toDigits 10 n, isDigit c = true := fun _ hc =>
  isDigit_of_isDigit (Nat.isDigit_of_mem_toDigits (by decide) (by decide) hc)

theorem value_toDigits (n : Nat) : value (Nat.toDigits 10 n) = n := Nat.ofDigitChars_ten_toDigits

/-- Only zero begins with a zero. -/
theorem toDigits_eq_zero_cons {n : Nat} {rest : List Char} (h : Nat.toDigits 10 n = '0' :: rest) :
    rest = [] := by
  induction n using Nat.strong_induction_on generalizing rest with
  | _ n ih =>
    by_cases hSmall : n < 10
    · rw [Nat.toDigits_of_lt_base hSmall] at h
      exact (List.cons.inj h).2.symm
    · rw [Nat.toDigits_of_base_le (by decide) (by omega)] at h
      obtain ⟨first, others, hFirst⟩ := List.exists_cons_of_ne_nil
        (Nat.toDigits_ne_nil (b := 10) (n := n / 10))
      rw [hFirst, List.cons_append] at h
      obtain ⟨rfl, -⟩ := List.cons.inj h
      -- The digits before the last one would be those of zero.
      have hNil := ih (n / 10) (by omega) hFirst
      rw [hNil] at hFirst
      have hZero := value_toDigits (n / 10)
      rw [hFirst] at hZero
      have hValue : value ['0'] = 0 := by decide
      omega

namespace Numeral

theorem readDigits_append {digits rest : List Char} (hDigits : ∀ c ∈ digits, isDigit c = true)
    (hSome : digits ≠ []) (hRest : ∀ c ∈ rest.head?, isDigit c = false) :
    readDigits (digits ++ rest) = some (digits, rest) := by
  have hTake : rest.takeWhile isDigit = [] := by
    cases rest with
    | nil => rfl
    | cons c rest => exact List.takeWhile_cons_of_neg (by simp [hRest c rfl])
  have hDrop : rest.dropWhile isDigit = rest := by
    cases rest with
    | nil => rfl
    | cons c rest => exact List.dropWhile_cons_of_neg (by simp [hRest c rfl])
  rw [readDigits, List.takeWhile_append_of_pos hDigits, List.dropWhile_append_of_pos hDigits, hTake,
    hDrop, List.append_nil, if_neg (by simpa using hSome)]

theorem readWhole_toDigits (n : Nat) {rest : List Char}
    (hRest : ∀ c ∈ rest.head?, isDigit c = false) :
    readWhole (Nat.toDigits 10 n ++ rest) = some (Nat.toDigits 10 n, rest) := by
  rw [readWhole, readDigits_append isDigit_toDigits Nat.toDigits_ne_nil hRest]
  split
  case h_1 hZero => exact hZero.symm
  case h_2 others _ hMany hZero =>
    obtain ⟨hDigits, rfl⟩ := Prod.mk.inj (Option.some.inj hZero)
    rw [toDigits_eq_zero_cons hDigits] at hMany
    exact absurd rfl hMany
  case h_3 => rfl

theorem absorb_eq {n : Nat} {digits : List Char}
    (h : Nat.ofDigitChars 10 digits n < UInt64.size) :
    absorb n digits = (Nat.ofDigitChars 10 digits n, digits.length, 0) := by
  induction digits generalizing n with
  | nil => rfl
  | cons c digits ih =>
    rw [Nat.ofDigitChars_cons] at h ⊢
    have hStep : 10 * n + digitValue c < UInt64.size := by
      refine lt_of_le_of_lt ?_ h
      rw [Nat.ofDigitChars_eq_ofDigitChars_zero]
      have hOne : 1 ≤ 10 ^ digits.length := Nat.one_le_pow _ _ (by decide)
      exact le_trans (Nat.le_mul_of_pos_left _ hOne) (Nat.le_add_right _ _)
    have hRest : absorb (10 * n + digitValue c) digits =
        (Nat.ofDigitChars 10 digits (10 * n + digitValue c), digits.length, 0) := ih h
    simp only [absorb, if_pos hStep, hRest, List.length_cons]
    rfl

theorem isFinite_ofNat {n : Nat} (h : n < UInt64.size) : (ofNat n).isFinite = true := by
  have hDigits : Nat.ofDigitChars 10 (Nat.toDigits 10 n) 0 = n := Nat.ofDigitChars_ten_toDigits
  have hWhole : absorb 0 (Nat.toDigits 10 n) = (n, (Nat.toDigits 10 n).length, 0) := by
    rw [absorb_eq (hDigits.symm ▸ h), hDigits]
  simp [isFinite, ofNat, hWhole, absorb]

theorem natural?_ofNat {n : Nat} (h : n < UInt64.size) :
    (ofNat n).natural? = some (.ofNat n) := by
  simp [natural?, ofNat, value_toDigits, h]

theorem chars_ofNat (n : Nat) : (ofNat n).chars = Nat.toDigits 10 n := by
  simp [chars, ofNat]

theorem read_ofNat {n : Nat} (h : n < UInt64.size) {rest : List Char} (hRest : Follows rest) :
    read ((ofNat n).chars ++ rest) = some (ofNat n, rest) := by
  have hNoDigit : ∀ c ∈ rest.head?, isDigit c = false := by
    intro c hc
    obtain rfl | rfl | rfl := hRest c hc <;> decide
  have hSign : readSign (Nat.toDigits 10 n ++ rest) = (false, Nat.toDigits 10 n ++ rest) := by
    obtain ⟨first, others, hFirst⟩ := List.exists_cons_of_ne_nil
      (Nat.toDigits_ne_nil (b := 10) (n := n))
    have hDigit := isDigit_toDigits first (hFirst ▸ List.mem_cons_self)
    rw [hFirst, List.cons_append, readSign]
    intro text hText
    rw [(List.cons.inj hText).1] at hDigit
    exact absurd hDigit (by decide)
  have hFraction : readFraction rest = some (none, rest) := by
    cases rest with
    | nil => rfl
    | cons c rest =>
      rw [readFraction]
      intro text hText
      exact absurd (hRest '.' (congrArg List.head? hText)) (by decide)
  have hExponent : readExponent rest = some (none, rest) := by
    cases rest with
    | nil => rfl
    | cons c rest =>
      have hMark : ¬ (c = 'e' || c = 'E') = true := by
        obtain rfl | rfl | rfl := hRest c rfl <;> decide
      simp only [readExponent, if_neg hMark]
  have hFinite : isFinite ⟨false, Nat.toDigits 10 n, none, none⟩ = true := isFinite_ofNat h
  rw [chars_ofNat]
  simp [read, hSign, readWhole_toDigits n hNoDigit, hFraction, hExponent, hFinite, ofNat]

end Numeral

end ForkLog.Json
