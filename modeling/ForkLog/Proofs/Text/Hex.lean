import Mathlib
import ForkLog.Text.Hex

/-! # Hexadecimal texts are read back

Each byte is written with two digits, which stand for one byte each in the text, and is read back from
them.
-/

namespace ForkLog.Hex

set_option autoImplicit false

theorem value?_digit {n : Nat} (h : n < 16) :
    ∃ b, String.utf8EncodeChar (digit n) = [b] ∧ value? b = some n := by
  have hAll : ∀ n ∈ List.range 16, (String.utf8EncodeChar (digit n)).map value? = [some n] := by
    decide
  exact List.map_eq_singleton_iff.mp (hAll n (List.mem_range.mpr h))

theorem encodeChars_writeByte (b : UInt8) :
    ∃ high low, Utf8.encodeChars (writeByte b) = [high, low] ∧
      value? high = some (b.toNat / 16) ∧ value? low = some (b.toNat % 16) := by
  have hByte := b.toNat_lt
  obtain ⟨high, hHigh, hHighValue⟩ := value?_digit (n := b.toNat / 16) (by omega)
  obtain ⟨low, hLow, hLowValue⟩ := value?_digit (n := b.toNat % 16) (by omega)
  refine ⟨high, low, ?_, hHighValue, hLowValue⟩
  simp [Utf8.encodeChars, writeByte, hHigh, hLow]

theorem encodeChars_write_cons (b : UInt8) (bytes : Bytes) :
    Utf8.encodeChars (write (b :: bytes)) =
      Utf8.encodeChars (writeByte b) ++ Utf8.encodeChars (write bytes) := by
  rw [write, List.flatMap_cons, Utf8.encodeChars, List.flatMap_append]
  rfl

theorem length_encodeChars_write (bytes : Bytes) :
    (Utf8.encodeChars (write bytes)).length = 2 * bytes.length := by
  induction bytes with
  | nil => rfl
  | cons b bytes ih =>
    obtain ⟨high, low, hPair, -⟩ := encodeChars_writeByte b
    rw [encodeChars_write_cons, hPair, List.length_append, ih, List.length_cons]
    simp only [List.length_cons, List.length_nil]
    omega

theorem readPairs_write (index : Nat) (bytes : Bytes) :
    readPairs index (Utf8.encodeChars (write bytes)) = .ok bytes := by
  induction bytes generalizing index with
  | nil => rfl
  | cons b bytes ih =>
    obtain ⟨high, low, hPair, hHigh, hLow⟩ := encodeChars_writeByte b
    have hByte : UInt8.ofNat (16 * (b.toNat / 16) + b.toNat % 16) = b := by
      rw [Nat.div_add_mod, UInt8.ofNat_toNat]
    rw [encodeChars_write_cons, hPair, List.cons_append, List.singleton_append, readPairs]
    simp only [hHigh, hLow, ih, hByte]
    rfl

theorem decode_encode (bytes : Bytes) : decode (encode bytes) = .ok bytes := by
  have hText : Utf8.encode (encode bytes) = Utf8.encodeChars (write bytes) := by
    rw [Utf8.encode, encode, String.toList_ofList]
  have hEven : ¬ (Utf8.encodeChars (write bytes)).length % 2 = 1 := by
    rw [length_encodeChars_write]
    omega
  rw [decode, hText, readBytes, if_neg hEven, readPairs_write]

end ForkLog.Hex
