import Mathlib
import ForkLog.Text.Utf8

/-! # Decoding what was encoded

The bytes of a character are one well-formed piece, whatever follows them, so that a text is read
back from its bytes and two texts with the same bytes are one. Nothing but the bytes of a text is
decoded to it.
-/

namespace ForkLog.Utf8

set_option autoImplicit false

theorem width_eq (lead : UInt8) :
    width lead =
      if lead.toNat < 0x80 then 1 else if lead.toNat < 0xC2 then 0
      else if lead.toNat < 0xE0 then 2 else if lead.toNat < 0xF0 then 3
      else if lead.toNat < 0xF5 then 4 else 0 := by
  simp [width, UInt8.lt_iff_toNat_lt]

theorem isTail_eq_true_iff (b : UInt8) : isTail b = true ↔ 0x80 ≤ b.toNat ∧ b.toNat ≤ 0xBF := by
  simp [isTail, UInt8.le_iff_toNat_le]

/-- Whether a byte may be the second one depends on the lead only where the lead bounds the
number. -/
theorem isSecond_of_bounds (lead : UInt8) {b : UInt8} (hTail : 0x80 ≤ b.toNat ∧ b.toNat ≤ 0xBF)
    (hE0 : lead.toNat = 0xE0 → 0xA0 ≤ b.toNat) (hED : lead.toNat = 0xED → b.toNat ≤ 0x9F)
    (hF0 : lead.toNat = 0xF0 → 0x90 ≤ b.toNat) (hF4 : lead.toNat = 0xF4 → b.toNat ≤ 0x8F) :
    isSecond lead b = true := by
  unfold isSecond
  split
  · rename_i h
    simpa [UInt8.le_iff_toNat_le] using And.intro (hE0 (by rw [h]; rfl)) hTail.2
  · split
    · rename_i h
      simpa [UInt8.le_iff_toNat_le] using And.intro hTail.1 (hED (by rw [h]; rfl))
    · split
      · rename_i h
        simpa [UInt8.le_iff_toNat_le] using And.intro (hF0 (by rw [h]; rfl)) hTail.2
      · split
        · rename_i h
          simpa [UInt8.le_iff_toNat_le] using And.intro hTail.1 (hF4 (by rw [h]; rfl))
        · exact (isTail_eq_true_iff b).mpr hTail

theorem toNat_ofNat_of_lt {n : Nat} (h : n < 256) : (UInt8.ofNat n).toNat = n := by
  rw [UInt8.toNat_ofNat', Nat.mod_eq_of_lt h]

theorem char_toNat_bounds (c : Char) :
    c.val.toNat < 0xD800 ∨ 0xDFFF < c.val.toNat ∧ c.val.toNat < 0x110000 := by
  have h := c.valid
  simpa only [UInt32.isValidChar, Nat.isValidChar] using h

theorem ofNat_eq_char {c : Char} {n : Nat} (h : n = c.val.toNat) : Char.ofNat n = c := by
  subst h
  exact Char.ofNat_toNat c

theorem firstPiece_one {lead : UInt8} (rest : Bytes) (hWidth : width lead = 1) :
    firstPiece lead rest = .scalar (Char.ofNat lead.toNat) 1 := by
  unfold firstPiece
  rw [hWidth]
  rfl

theorem firstPiece_two {lead b : UInt8} (rest : Bytes) (hWidth : width lead = 2)
    (hSecond : isSecond lead b = true) :
    firstPiece lead (b :: rest) = .scalar (Char.ofNat (lead.toNat % 32 * 64 + low b)) 2 := by
  unfold firstPiece
  rw [hWidth]
  exact if_pos hSecond

theorem firstPiece_three {lead b c : UInt8} (rest : Bytes) (hWidth : width lead = 3)
    (hSecond : isSecond lead b = true) (hc : isTail c = true) :
    firstPiece lead (b :: c :: rest) =
      .scalar (Char.ofNat (lead.toNat % 16 * 4096 + low b * 64 + low c)) 3 := by
  unfold firstPiece
  rw [hWidth]
  exact (if_neg (by simp [hSecond])).trans (if_neg (by simp [hc]))

theorem firstPiece_four {lead b c d : UInt8} (rest : Bytes) (hWidth : width lead = 4)
    (hSecond : isSecond lead b = true) (hc : isTail c = true) (hd : isTail d = true) :
    firstPiece lead (b :: c :: d :: rest) =
      .scalar (Char.ofNat (lead.toNat % 8 * 262144 + low b * 4096 + low c * 64 + low d)) 4 := by
  unfold firstPiece
  rw [hWidth]
  exact (if_neg (by simp [hSecond])).trans ((if_neg (by simp [hc])).trans (if_neg (by simp [hd])))

theorem piecesAfter_one {v : Nat} (hv : v < 0x80) (rest : Bytes) :
    piecesAfter 0 (UInt8.ofNat v :: rest) = .scalar (Char.ofNat v) 1 :: piecesAfter 0 rest := by
  have hLead : (UInt8.ofNat v).toNat = v := toNat_ofNat_of_lt (by omega)
  have hWidth : width (UInt8.ofNat v) = 1 := by rw [width_eq, hLead, if_pos (by omega)]
  simp only [piecesAfter, firstPiece_one rest hWidth, hLead, Piece.size]

theorem piecesAfter_two {v : Nat} (hv : 0x80 ≤ v ∧ v < 0x800) (rest : Bytes) :
    piecesAfter 0 (UInt8.ofNat (v / 64 % 32 + 192) :: UInt8.ofNat (v % 64 + 128) :: rest) =
      .scalar (Char.ofNat v) 2 :: piecesAfter 0 rest := by
  have hLead : (UInt8.ofNat (v / 64 % 32 + 192)).toNat = v / 64 % 32 + 192 :=
    toNat_ofNat_of_lt (by omega)
  have hb : (UInt8.ofNat (v % 64 + 128)).toNat = v % 64 + 128 := toNat_ofNat_of_lt (by omega)
  have hWidth : width (UInt8.ofNat (v / 64 % 32 + 192)) = 2 := by
    rw [width_eq, hLead, if_neg (by omega), if_neg (by omega), if_pos (by omega)]
  have hSecond := isSecond_of_bounds (UInt8.ofNat (v / 64 % 32 + 192))
    (b := UInt8.ofNat (v % 64 + 128)) (by omega) (by omega) (by omega) (by omega) (by omega)
  have hValue : (v / 64 % 32 + 192) % 32 * 64 + (v % 64 + 128) % 64 = v := by omega
  simp only [piecesAfter, firstPiece_two rest hWidth hSecond, Piece.size, low, hLead, hb, hValue]

theorem piecesAfter_three {v : Nat} (hv : 0x800 ≤ v ∧ v < 0x10000)
    (hScalar : v < 0xD800 ∨ 0xDFFF < v) (rest : Bytes) :
    piecesAfter 0 (UInt8.ofNat (v / 4096 % 16 + 224) :: UInt8.ofNat (v / 64 % 64 + 128) ::
        UInt8.ofNat (v % 64 + 128) :: rest) =
      .scalar (Char.ofNat v) 3 :: piecesAfter 0 rest := by
  have hLead : (UInt8.ofNat (v / 4096 % 16 + 224)).toNat = v / 4096 % 16 + 224 :=
    toNat_ofNat_of_lt (by omega)
  have hb : (UInt8.ofNat (v / 64 % 64 + 128)).toNat = v / 64 % 64 + 128 :=
    toNat_ofNat_of_lt (by omega)
  have hd : (UInt8.ofNat (v % 64 + 128)).toNat = v % 64 + 128 := toNat_ofNat_of_lt (by omega)
  have hWidth : width (UInt8.ofNat (v / 4096 % 16 + 224)) = 3 := by
    rw [width_eq, hLead, if_neg (by omega), if_neg (by omega), if_neg (by omega),
      if_pos (by omega)]
  have hSecond := isSecond_of_bounds (UInt8.ofNat (v / 4096 % 16 + 224))
    (b := UInt8.ofNat (v / 64 % 64 + 128)) (by omega) (by omega) (by omega) (by omega) (by omega)
  have hTail := (isTail_eq_true_iff (UInt8.ofNat (v % 64 + 128))).mpr (by omega)
  have hValue : (v / 4096 % 16 + 224) % 16 * 4096 + (v / 64 % 64 + 128) % 64 * 64 +
      (v % 64 + 128) % 64 = v := by omega
  simp only [piecesAfter, firstPiece_three rest hWidth hSecond hTail, Piece.size, low, hLead, hb,
    hd, hValue]

theorem piecesAfter_four {v : Nat} (hv : 0x10000 ≤ v ∧ v < 0x110000) (rest : Bytes) :
    piecesAfter 0 (UInt8.ofNat (v / 262144 % 8 + 240) :: UInt8.ofNat (v / 4096 % 64 + 128) ::
        UInt8.ofNat (v / 64 % 64 + 128) :: UInt8.ofNat (v % 64 + 128) :: rest) =
      .scalar (Char.ofNat v) 4 :: piecesAfter 0 rest := by
  have hLead : (UInt8.ofNat (v / 262144 % 8 + 240)).toNat = v / 262144 % 8 + 240 :=
    toNat_ofNat_of_lt (by omega)
  have hb : (UInt8.ofNat (v / 4096 % 64 + 128)).toNat = v / 4096 % 64 + 128 :=
    toNat_ofNat_of_lt (by omega)
  have hd : (UInt8.ofNat (v / 64 % 64 + 128)).toNat = v / 64 % 64 + 128 :=
    toNat_ofNat_of_lt (by omega)
  have he : (UInt8.ofNat (v % 64 + 128)).toNat = v % 64 + 128 := toNat_ofNat_of_lt (by omega)
  have hWidth : width (UInt8.ofNat (v / 262144 % 8 + 240)) = 4 := by
    rw [width_eq, hLead, if_neg (by omega), if_neg (by omega), if_neg (by omega),
      if_neg (by omega), if_pos (by omega)]
  have hSecond := isSecond_of_bounds (UInt8.ofNat (v / 262144 % 8 + 240))
    (b := UInt8.ofNat (v / 4096 % 64 + 128)) (by omega) (by omega) (by omega) (by omega) (by omega)
  have hTail := (isTail_eq_true_iff (UInt8.ofNat (v / 64 % 64 + 128))).mpr (by omega)
  have hTail' := (isTail_eq_true_iff (UInt8.ofNat (v % 64 + 128))).mpr (by omega)
  have hValue : (v / 262144 % 8 + 240) % 8 * 262144 + (v / 4096 % 64 + 128) % 64 * 4096 +
      (v / 64 % 64 + 128) % 64 * 64 + (v % 64 + 128) % 64 = v := by omega
  simp only [piecesAfter, firstPiece_four rest hWidth hSecond hTail hTail', Piece.size, low, hLead,
    hb, hd, he, hValue]

theorem piecesAfter_encodeChar (c : Char) (rest : Bytes) :
    ∃ size, piecesAfter 0 (String.utf8EncodeChar c ++ rest) =
      .scalar c size :: piecesAfter 0 rest := by
  have hc := char_toNat_bounds c
  unfold String.utf8EncodeChar
  generalize hv : c.val.toNat = v at hc
  rw [← ofNat_eq_char hv.symm]
  simp only []
  split
  case isTrue hOne => exact ⟨1, piecesAfter_one (by omega) rest⟩
  case isFalse =>
    split
    case isTrue hTwo => exact ⟨2, piecesAfter_two (by omega) rest⟩
    case isFalse =>
      split
      case isTrue hThree => exact ⟨3, piecesAfter_three (by omega) (by omega) rest⟩
      case isFalse => exact ⟨4, piecesAfter_four (by omega) rest⟩

/-- A byte of ASCII stands for itself. -/
theorem toNat_eq_of_mem_encodeChar {c : Char} {b : UInt8} (hMem : b ∈ String.utf8EncodeChar c)
    (hAscii : b.toNat < 0x80) : c.toNat = b.toNat := by
  have hTail {n : Nat} (hn : 0x80 ≤ n) (hSize : n < 256) (hb : b = UInt8.ofNat n) : False := by
    rw [hb, toNat_ofNat_of_lt hSize] at hAscii
    omega
  have hc : c.toNat = c.val.toNat := rfl
  unfold String.utf8EncodeChar at hMem
  generalize hv : c.val.toNat = v at hMem hc
  simp only [] at hMem
  split at hMem
  case isTrue hOne =>
    have hByte : b = UInt8.ofNat v := List.mem_singleton.mp hMem
    rw [hc, hByte, toNat_ofNat_of_lt (by omega)]
  case isFalse =>
    -- The sequences of two, three and four bytes.
    repeat' split at hMem
    all_goals simp only [List.mem_cons, List.not_mem_nil, or_false] at hMem
    · obtain hb | hb := hMem <;> exact (hTail (by omega) (by omega) hb).elim
    · obtain hb | hb | hb := hMem <;> exact (hTail (by omega) (by omega) hb).elim
    · obtain hb | hb | hb | hb := hMem <;> exact (hTail (by omega) (by omega) hb).elim

theorem charsAt_encodeChars (text : List Char) (index : Nat) :
    charsAt index (piecesAfter 0 (encodeChars text)) = .ok text := by
  induction text generalizing index with
  | nil => rfl
  | cons c text ih =>
    obtain ⟨size, hPieces⟩ := piecesAfter_encodeChar c (encodeChars text)
    have hSplit : encodeChars (c :: text) = String.utf8EncodeChar c ++ encodeChars text :=
      List.flatMap_cons
    rw [hSplit, hPieces, charsAt, ih]
    rfl

theorem decodeChars_encodeChars (text : List Char) : decodeChars (encodeChars text) = .ok text :=
  charsAt_encodeChars text 0

theorem decode_encode (text : String) : decode (encode text) = .ok text := by
  rw [decode, encode, decodeChars_encodeChars]
  exact congrArg Except.ok (String.ofList_toList)

theorem map_shown_append (text : List Char) (rest : Bytes) :
    (piecesAfter 0 (encodeChars text ++ rest)).map Piece.shown =
      text ++ (piecesAfter 0 rest).map Piece.shown := by
  induction text with
  | nil => rfl
  | cons c text ih =>
    obtain ⟨size, hPieces⟩ := piecesAfter_encodeChar c (encodeChars text ++ rest)
    rw [encodeChars, List.flatMap_cons, ← encodeChars, List.append_assoc, hPieces, List.map_cons, ih]
    rfl

theorem map_shown_encodeChars (text : List Char) :
    (piecesAfter 0 (encodeChars text)).map Piece.shown = text := by
  have hAll := map_shown_append text []
  rwa [List.append_nil, piecesAfter, List.map_nil, List.append_nil] at hAll

theorem decodeLossy_encode (text : String) : decodeLossy (encode text) = text := by
  rw [decodeLossy, pieces, encode, map_shown_encodeChars]
  exact String.ofList_toList

/-- The bytes of a text begin with those of another one only where the text does. -/
theorem encode_prefix_iff {text other : String} :
    encode text <+: encode other ↔ text.toList <+: other.toList := by
  constructor
  · rintro ⟨rest, hRest⟩
    have hShown := map_shown_append text.toList rest
    rw [← encode, hRest, encode, map_shown_encodeChars] at hShown
    exact ⟨_, hShown.symm⟩
  · rintro ⟨rest, hRest⟩
    refine ⟨encodeChars rest, ?_⟩
    rw [encode, encode, ← hRest, encodeChars, encodeChars, encodeChars, List.flatMap_append]

theorem encode_push (text : String) (c : Char) :
    encode (text.push c) = encode text ++ String.utf8EncodeChar c := by
  rw [encode, encode, encodeChars, encodeChars, String.toList_push, List.flatMap_append,
    List.flatMap_singleton]

theorem encode_injective : Function.Injective encode := by
  intro a b h
  have hDecode := congrArg decode h
  rw [decode_encode, decode_encode] at hDecode
  exact Except.ok.inj hDecode

theorem isSecond_bounds {lead b : UInt8} (h : isSecond lead b = true) :
    (0x80 ≤ b.toNat ∧ b.toNat ≤ 0xBF) ∧ (lead.toNat = 0xE0 → 0xA0 ≤ b.toNat) ∧
      (lead.toNat = 0xED → b.toNat ≤ 0x9F) ∧ (lead.toNat = 0xF0 → 0x90 ≤ b.toNat) ∧
      (lead.toNat = 0xF4 → b.toNat ≤ 0x8F) := by
  simp only [isSecond, ← UInt8.toNat_inj, isTail, UInt8.le_iff_toNat_le, UInt8.reduceToNat] at h
  repeat' split at h
  all_goals
    simp only [Bool.and_eq_true, decide_eq_true_eq] at h
    omega

theorem ofNat_eq_byte {b : UInt8} {n : Nat} (h : n = b.toNat) : UInt8.ofNat n = b := by
  subst h
  exact UInt8.ofNat_toNat

theorem val_ofNat {n : Nat} (h : n < 0xD800 ∨ 0xDFFF < n ∧ n < 0x110000) :
    (Char.ofNat n).val.toNat = n :=
  (Char.toNat_ofNat n).trans (if_pos h)

theorem encodeChar_two {lead b : UInt8} (hLead : 0xC2 ≤ lead.toNat ∧ lead.toNat < 0xE0)
    (hb : isSecond lead b = true) :
    String.utf8EncodeChar (Char.ofNat (lead.toNat % 32 * 64 + low b)) = [lead, b] := by
  have hBounds := isSecond_bounds hb
  simp only [low]
  have hVal := val_ofNat (n := lead.toNat % 32 * 64 + b.toNat % 64) (by omega)
  simp only [String.utf8EncodeChar, hVal]
  rw [if_neg (by omega), if_pos (by omega), ofNat_eq_byte (b := lead) (by omega),
    ofNat_eq_byte (b := b) (by omega)]

theorem encodeChar_three {lead b c : UInt8} (hLead : 0xE0 ≤ lead.toNat ∧ lead.toNat < 0xF0)
    (hb : isSecond lead b = true) (hc : isTail c = true) :
    String.utf8EncodeChar (Char.ofNat (lead.toNat % 16 * 4096 + low b * 64 + low c)) =
      [lead, b, c] := by
  have hBounds := isSecond_bounds hb
  rw [isTail_eq_true_iff] at hc
  simp only [low]
  have hVal := val_ofNat (n := lead.toNat % 16 * 4096 + b.toNat % 64 * 64 + c.toNat % 64) (by omega)
  simp only [String.utf8EncodeChar, hVal]
  rw [if_neg (by omega), if_neg (by omega), if_pos (by omega),
    ofNat_eq_byte (b := lead) (by omega), ofNat_eq_byte (b := b) (by omega),
    ofNat_eq_byte (b := c) (by omega)]

theorem encodeChar_four {lead b c d : UInt8} (hLead : 0xF0 ≤ lead.toNat ∧ lead.toNat < 0xF5)
    (hb : isSecond lead b = true) (hc : isTail c = true) (hd : isTail d = true) :
    String.utf8EncodeChar
        (Char.ofNat (lead.toNat % 8 * 262144 + low b * 4096 + low c * 64 + low d)) =
      [lead, b, c, d] := by
  have hBounds := isSecond_bounds hb
  rw [isTail_eq_true_iff] at hc hd
  simp only [low]
  have hVal := val_ofNat (n := lead.toNat % 8 * 262144 + b.toNat % 64 * 4096 + c.toNat % 64 * 64 +
    d.toNat % 64) (by omega)
  simp only [String.utf8EncodeChar, hVal]
  rw [if_neg (by omega), if_neg (by omega), if_neg (by omega),
    ofNat_eq_byte (b := lead) (by omega), ofNat_eq_byte (b := b) (by omega),
    ofNat_eq_byte (b := c) (by omega), ofNat_eq_byte (b := d) (by omega)]

theorem width_cases (lead : UInt8) :
    width lead = 0 ∨ width lead = 1 ∧ lead.toNat < 0x80 ∨
      width lead = 2 ∧ (0xC2 ≤ lead.toNat ∧ lead.toNat < 0xE0) ∨
      width lead = 3 ∧ (0xE0 ≤ lead.toNat ∧ lead.toNat < 0xF0) ∨
      width lead = 4 ∧ (0xF0 ≤ lead.toNat ∧ lead.toNat < 0xF5) := by
  rw [width_eq]
  repeat' split
  all_goals omega

theorem of_scalar_or_broken {p : Bool} {piece : Piece} {c : Char} {size n : Nat}
    (h : (if p then piece else .broken n) = .scalar c size) : p = true ∧ piece = .scalar c size := by
  cases p with
  | false => cases h
  | true => exact ⟨rfl, h⟩

theorem of_broken_or_scalar {p : Bool} {piece : Piece} {c : Char} {size n : Nat}
    (h : (if !p then .broken n else piece) = .scalar c size) : p = true ∧ piece = .scalar c size := by
  cases p with
  | false => cases h
  | true => exact ⟨rfl, h⟩

/-- A piece that stands for a character is that character's bytes. -/
theorem eq_encodeChar_append {lead : UInt8} {rest : Bytes} {c : Char} {size : Nat}
    (h : firstPiece lead rest = .scalar c size) :
    lead :: rest = String.utf8EncodeChar c ++ rest.drop (size - 1) := by
  unfold firstPiece at h
  obtain hZero | ⟨hOne, hLead⟩ | ⟨hTwo, hLead⟩ | ⟨hThree, hLead⟩ | ⟨hFour, hLead⟩ :=
    width_cases lead
  · rw [hZero] at h
    cases h
  · rw [hOne] at h
    cases h
    have hVal := val_ofNat (n := lead.toNat) (by omega)
    simp only [String.utf8EncodeChar, hVal]
    rw [if_pos (by omega), ofNat_eq_byte rfl]
    rfl
  · rw [hTwo] at h
    obtain - | ⟨b, rest⟩ := rest
    · cases h
    · obtain ⟨hb, hPiece⟩ := of_scalar_or_broken h
      cases hPiece
      rw [encodeChar_two hLead hb]
      rfl
  · rw [hThree] at h
    obtain - | ⟨b, - | ⟨d, rest⟩⟩ := rest
    · cases h
    · cases (of_scalar_or_broken h).2
    · obtain ⟨hb, h⟩ := of_broken_or_scalar h
      obtain ⟨hd, h⟩ := of_broken_or_scalar h
      cases h
      rw [encodeChar_three hLead hb hd]
      rfl
  · rw [hFour] at h
    obtain - | ⟨b, - | ⟨d, - | ⟨e, rest⟩⟩⟩ := rest
    · cases h
    · cases (of_scalar_or_broken h).2
    · obtain ⟨_, h⟩ := of_broken_or_scalar h
      cases (of_broken_or_scalar h).2
    · obtain ⟨hb, h⟩ := of_broken_or_scalar h
      obtain ⟨hd, h⟩ := of_broken_or_scalar h
      obtain ⟨he, h⟩ := of_broken_or_scalar h
      cases h
      rw [encodeChar_four hLead hb hd he]
      rfl

theorem piecesAfter_eq_drop (skip : Nat) (bytes : Bytes) :
    piecesAfter skip bytes = piecesAfter 0 (bytes.drop skip) := by
  induction bytes generalizing skip with
  | nil => cases skip <;> rfl
  | cons b bytes ih =>
    cases skip with
    | zero => rfl
    | succ skip => exact ih skip

theorem eq_encodeChars_of_charsAt {bytes : Bytes} {text : List Char} {index : Nat}
    (h : charsAt index (piecesAfter 0 bytes) = .ok text) : bytes = encodeChars text := by
  -- What follows the first piece is shorter than the whole.
  induction hLength : bytes.length using Nat.strong_induction_on generalizing bytes text index with
  | h length ih =>
    cases bytes with
    | nil =>
      cases h
      rfl
    | cons lead rest =>
      rw [piecesAfter] at h
      cases hPiece : firstPiece lead rest with
      | broken size => rw [hPiece] at h; cases h
      | cut size => rw [hPiece] at h; cases h
      | scalar c size =>
        simp only [hPiece, Piece.size, piecesAfter_eq_drop (size - 1), charsAt] at h
        cases hRest : charsAt (index + size) (piecesAfter 0 (rest.drop (size - 1))) with
        | error fault => rw [hRest] at h; cases h
        | ok chars =>
          rw [hRest] at h
          cases h
          have hShorter : (rest.drop (size - 1)).length < length := by
            rw [← hLength, List.length_drop, List.length_cons]
            omega
          rw [eq_encodeChar_append hPiece, ih _ hShorter hRest rfl]
          rfl

theorem decodeChars_eq_ok_iff {bytes : Bytes} {text : List Char} :
    decodeChars bytes = .ok text ↔ bytes = encodeChars text :=
  ⟨eq_encodeChars_of_charsAt, fun h => h ▸ decodeChars_encodeChars text⟩

theorem decode_eq_ok_iff {bytes : Bytes} {text : String} :
    decode bytes = .ok text ↔ bytes = encode text := by
  constructor
  · intro h
    rw [decode] at h
    cases hChars : decodeChars bytes with
    | error fault => rw [hChars] at h; cases h
    | ok chars =>
      rw [hChars] at h
      cases h
      rw [encode, String.toList_ofList]
      exact decodeChars_eq_ok_iff.mp hChars
  · rintro rfl
    exact decode_encode text

end ForkLog.Utf8
