import Mathlib
import ForkLog.Bytes.Numbers
import ForkLog.Checksum

/-! # Bursts

Division by the polynomial is linear and loses nothing. What stands within four consecutive bytes
fits into the register, so two messages that differ there and nowhere else never have the same
checksum.
-/

namespace ForkLog.Checksum

set_option autoImplicit false

/-- What is taken away when a one is shifted out. -/
def feedback (crc : UInt32) : UInt32 := if crc.toNat % 2 = 1 then 0xEDB88320 else 0

theorem shift_eq (crc : UInt32) : shift crc = (crc >>> 1) ^^^ feedback crc := by
  have hLow : crc &&& 1 = 1 ↔ crc.toNat % 2 = 1 := by
    rw [← UInt32.toNat_inj, UInt32.toNat_and]
    exact iff_of_eq (congrArg (· = 1) (Nat.and_one_is_mod _))
  simp only [shift, feedback, hLow]
  split
  · rfl
  · exact UInt32.xor_zero.symm

theorem feedback_xor (x y : UInt32) : feedback (x ^^^ y) = feedback x ^^^ feedback y := by
  have hLow : (x ^^^ y).toNat % 2 = (x.toNat % 2 + y.toNat % 2) % 2 := by
    rw [UInt32.toNat_xor, Nat.xor_mod_two_eq, Nat.add_mod]
  simp only [feedback, hLow]
  obtain hx | hx := Nat.mod_two_eq_zero_or_one x.toNat <;>
    obtain hy | hy := Nat.mod_two_eq_zero_or_one y.toNat <;> simp [hx, hy]

theorem shift_xor (x y : UInt32) : shift (x ^^^ y) = shift x ^^^ shift y := by
  rw [shift_eq, shift_eq, shift_eq, UInt32.shiftRight_xor, feedback_xor]
  ac_rfl

/-- The polynomial has a term of the highest degree, so that what was shifted out shows. -/
theorem eq_zero_of_shift {crc : UInt32} (h : shift crc = 0) : crc = 0 := by
  rw [shift_eq, UInt32.xor_eq_zero_iff, ← UInt32.toNat_inj, UInt32.toNat_shiftRight] at h
  have hHalf : crc.toNat / 2 = (feedback crc).toNat := by
    rw [← h]
    exact (Nat.shiftRight_eq_div_pow crc.toNat 1).symm
  have hBound := crc.toNat_lt
  apply UInt32.toNat_inj.mp
  change crc.toNat = 0
  simp only [feedback] at hHalf
  split at hHalf
  case isTrue =>
    have hPolynomial : (0xEDB88320 : UInt32).toNat = 0xEDB88320 := rfl
    omega
  case isFalse hEven =>
    have hZero : (0 : UInt32).toNat = 0 := rfl
    omega

theorem shift_injective : Function.Injective shift := by
  intro x y h
  have hZero : shift (x ^^^ y) = 0 := by rw [shift_xor, h, UInt32.xor_self]
  exact UInt32.xor_eq_zero_iff.mp (eq_zero_of_shift hZero)

theorem toNat_ofNat {n : Nat} (h : n < 2 ^ 32) : (UInt32.ofNat n).toNat = n := by
  rw [UInt32.toNat_ofNat', Nat.mod_eq_of_lt h]

/-- An even number is only halved. -/
theorem shift_double {n : Nat} (h : 2 * n < 2 ^ 32) :
    shift (UInt32.ofNat (2 * n)) = UInt32.ofNat n := by
  have hDouble : (UInt32.ofNat (2 * n)).toNat = 2 * n := toNat_ofNat h
  have hNone : feedback (UInt32.ofNat (2 * n)) = 0 := by
    rw [feedback, hDouble, if_neg (by omega)]
  rw [shift_eq, hNone, UInt32.xor_zero, ← UInt32.toNat_inj, UInt32.toNat_shiftRight, hDouble,
    toNat_ofNat (by omega)]
  exact (Nat.shiftRight_eq_div_pow (2 * n) 1).trans (Nat.mul_div_cancel_left n (by decide))

theorem iterate_shift_xor (count : Nat) (x y : UInt32) :
    shift^[count] (x ^^^ y) = shift^[count] x ^^^ shift^[count] y := by
  induction count generalizing x y with
  | zero => rfl
  | succ count ih => rw [Function.iterate_succ_apply, shift_xor, ih]; rfl

theorem iterate_shift_mul {count n : Nat} (h : 2 ^ count * n < 2 ^ 32) :
    shift^[count] (UInt32.ofNat (2 ^ count * n)) = UInt32.ofNat n := by
  induction count with
  | zero => simp
  | succ count ih =>
    have hDouble : 2 ^ (count + 1) * n = 2 * (2 ^ count * n) := by ring
    rw [hDouble] at h ⊢
    rw [Function.iterate_succ_apply, shift_double h, ih (by omega)]

theorem absorb_eq (crc : UInt32) (b : UInt8) : absorb crc b = shift^[8] (crc ^^^ b.toUInt32) := rfl

theorem register_injective (bytes : Bytes) : Function.Injective (register bytes) := by
  induction bytes with
  | nil => exact fun _ _ h => h
  | cons b bytes ih =>
    intro x y h
    have hAbsorb : absorb x b = absorb y b := ih h
    exact UInt32.xor_left_inj _ |>.mp (shift_injective.iterate 8 hAbsorb)

/-- A byte and the number of the bytes that follow it do not overlap. -/
theorem ofLittleEndian_cons_eq_xor (b : UInt8) (bytes : Bytes) :
    Bytes.ofLittleEndian (b :: bytes) = b.toNat ^^^ 2 ^ 8 * Bytes.ofLittleEndian bytes := by
  have hb : b.toNat < 2 ^ 8 := b.toNat_lt
  have hOrder : Bytes.ofLittleEndian (b :: bytes) =
      2 ^ 8 * Bytes.ofLittleEndian bytes + b.toNat := by
    rw [Bytes.ofLittleEndian]
    omega
  apply Nat.eq_of_testBit_eq
  intro i
  rw [hOrder, Nat.testBit_two_pow_mul_add _ hb, Nat.testBit_xor, Nat.testBit_two_pow_mul]
  by_cases hi : i < 8
  · simp [hi, Nat.not_le_of_lt hi]
  · have hHigh : b.toNat.testBit i = false :=
      Nat.testBit_lt_two_pow (hb.trans_le (Nat.pow_le_pow_right (by decide) (by omega)))
    simp [hi, hHigh, Nat.le_of_not_lt hi]

theorem ofNat_ofLittleEndian_cons (b : UInt8) (bytes : Bytes) :
    UInt32.ofNat (Bytes.ofLittleEndian (b :: bytes)) =
      b.toUInt32 ^^^ UInt32.ofNat (2 ^ 8 * Bytes.ofLittleEndian bytes) := by
  have hByte : UInt32.ofNat b.toNat = b.toUInt32 := by
    have hb := b.toNat_lt
    rw [← UInt32.toNat_inj, toNat_ofNat (by omega), UInt8.toNat_toUInt32]
  rw [ofLittleEndian_cons_eq_xor, UInt32.ofNat_xor, hByte]

/-- Up to four bytes are added to the register at once and then divided. -/
theorem register_window {window : Bytes} (h : window.length ≤ 4) (crc : UInt32) :
    register window crc =
      shift^[8 * window.length] (crc ^^^ UInt32.ofNat (Bytes.ofLittleEndian window)) := by
  induction window generalizing crc with
  | nil => simp [register, Bytes.ofLittleEndian]
  | cons b window ih =>
    have hShort : window.length ≤ 3 := Nat.le_of_succ_le_succ h
    have hFits : 2 ^ 8 * Bytes.ofLittleEndian window < 2 ^ 32 := by
      have hLess := Bytes.ofLittleEndian_lt window
      have hPow : 256 ^ window.length ≤ 256 ^ 3 := Nat.pow_le_pow_right (by decide) hShort
      omega
    have hRest : register (b :: window) crc = register window (absorb crc b) := rfl
    rw [hRest, ih (by omega), absorb_eq, ← iterate_shift_mul hFits, ← iterate_shift_xor,
      ofNat_ofLittleEndian_cons, UInt32.xor_assoc, ← Function.iterate_add_apply, List.length_cons,
      Nat.mul_succ]

theorem window_eq_of_register {window other : Bytes} (hLength : other.length = window.length)
    (h : window.length ≤ 4) {crc : UInt32} (hSame : register other crc = register window crc) :
    other = window := by
  rw [register_window h, register_window (hLength ▸ h), hLength] at hSame
  have hNumber := UInt32.xor_right_inj _ |>.mp (shift_injective.iterate _ hSame)
  have hBound {bytes : Bytes} (h : bytes.length ≤ 4) : Bytes.ofLittleEndian bytes < 2 ^ 32 :=
    (Bytes.ofLittleEndian_lt bytes).trans_le (Nat.pow_le_pow_right (by decide) h)
  have hNumber : Bytes.ofLittleEndian other = Bytes.ofLittleEndian window := by
    have hNat := congrArg UInt32.toNat hNumber
    rwa [toNat_ofNat (hBound (hLength ▸ h)), toNat_ofNat (hBound h)] at hNat
  rw [← Bytes.littleEndian_ofLittleEndian other, hLength, hNumber,
    Bytes.littleEndian_ofLittleEndian]

/-- A burst of errors that four bytes have room for never goes unnoticed, whatever stands before
and after it. -/
theorem window_eq_of_crc32 {front window other rest : Bytes}
    (hLength : other.length = window.length) (h : window.length ≤ 4)
    (hSame : crc32 (front ++ other ++ rest) = crc32 (front ++ window ++ rest)) :
    other = window := by
  have hRegister := UInt32.xor_left_inj _ |>.mp hSame
  simp only [register_append] at hRegister
  exact window_eq_of_register hLength h (register_injective rest hRegister)

end ForkLog.Checksum
