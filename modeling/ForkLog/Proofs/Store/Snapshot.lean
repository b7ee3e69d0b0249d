import Mathlib
import ForkLog.Proofs.Store.Contents
import ForkLog.Proofs.Wire
import ForkLog.Store.Snapshot

/-! # Snapshots are read back

A snapshot is read back as the entries that it was written from, in their order, as long as its
length can be counted in eight bytes. The entries of contents lead back to the contents.
-/

namespace ForkLog

set_option autoImplicit false

namespace Snapshot

theorem reads_entry :
    Wire.Reads (Wire.readPair Wire.readBytes Wire.readBytes)
      (fun e : Entry => Wire.bytes e.1 ++ Wire.bytes e.2)
      fun e => e.1.length < Wire.lengthLimit ∧ e.2.length < Wire.lengthLimit :=
  Wire.reads_bytes.pair Wire.reads_bytes

/-- A body is longer than each part of it and has room for all entries. -/
theorem length_body (entries : List Entry) :
    entries.length ≤ (body entries).length ∧
      ∀ e ∈ entries, e.1.length ≤ (body entries).length ∧ e.2.length ≤ (body entries).length := by
  have hSize (e : Entry) : (Wire.bytes e.1 ++ Wire.bytes e.2).length =
      (8 + e.1.length) + (8 + e.2.length) := by
    rw [List.length_append, Wire.length_bytes, Wire.length_bytes]
  have hTakes : ∀ e ∈ entries, 1 ≤ (Wire.bytes e.1 ++ Wire.bytes e.2).length := by
    intro e _
    rw [hSize]
    omega
  obtain ⟨hCount, hEach⟩ := Wire.length_list hTakes
  refine ⟨hCount, fun e he => ?_⟩
  have hEntry : _ ≤ (body entries).length := hEach e he
  rw [hSize] at hEntry
  omega

theorem field_eq {data : Bytes} (front middle rest : Bytes) (h : data = front ++ middle ++ rest)
    {start size : Nat} (hStart : front.length = start) (hSize : middle.length = size) :
    field data start size = middle := by
  subst h hStart hSize
  simp [field]

theorem decode_header {content rest : Bytes} {entries : List Entry}
    (h : content.length < Wire.lengthLimit)
    (hRead : Wire.readList (Wire.readPair Wire.readBytes Wire.readBytes) content =
      .ok (entries, rest)) :
    decode (header content ++ content) = .ok entries := by
  let format := Bytes.littleEndian 4 version
  let checksum := Bytes.littleEndian 4 (Checksum.crc32 content).toNat
  let size := Bytes.littleEndian 8 content.length
  have hHeader : (header content).length = headerSize := by simp [header, magic, headerSize]
  have hContent : (header content ++ content).drop headerSize = content := by
    rw [← hHeader, List.drop_left]
  have hLong : ¬ (header content ++ content).length < headerSize := by
    rw [List.length_append, hHeader]
    omega
  have hMagic : field (header content ++ content) 0 4 = magic :=
    field_eq [] magic (format ++ checksum ++ size ++ content)
      (by simp [header, format, checksum, size]) rfl rfl
  have hVersion : field (header content ++ content) 4 4 = format :=
    field_eq magic format (checksum ++ size ++ content)
      (by simp [header, format, checksum, size]) rfl rfl
  have hChecksum : field (header content ++ content) 8 4 = checksum :=
    field_eq (magic ++ format) checksum (size ++ content)
      (by simp [header, format, checksum, size]) rfl (Bytes.length_littleEndian 4 _)
  have hSize : field (header content ++ content) 12 8 = size :=
    field_eq (magic ++ format ++ checksum) size content
      (by simp [header, format, checksum, size]) (by simp [magic, format, checksum])
      (Bytes.length_littleEndian 8 _)
  have hVersionValue : Bytes.ofLittleEndian format = version := by decide
  have hChecksumValue : Bytes.ofLittleEndian checksum = (Checksum.crc32 content).toNat := by
    rw [Bytes.ofLittleEndian_littleEndian, Nat.mod_eq_of_lt]
    exact (Checksum.crc32 content).toNat_lt
  have hSizeValue : Bytes.ofLittleEndian size = content.length := by
    rw [Bytes.ofLittleEndian_littleEndian]
    exact Nat.mod_eq_of_lt h
  simp only [decode, hContent, hMagic, hVersion, hChecksum, hSize, hVersionValue, hChecksumValue,
    hSizeValue, if_neg hLong, ne_eq, not_true_eq_false, if_false, hRead]

theorem decode_encode {entries : List Entry} (h : (encode entries).length < Wire.lengthLimit) :
    decode (encode entries) = .ok entries := by
  have hBody : (body entries).length < Wire.lengthLimit := by
    refine lt_of_le_of_lt ?_ h
    rw [encode, List.length_append]
    exact Nat.le_add_left _ _
  obtain ⟨hCount, hEach⟩ := length_body entries
  have hRead : Wire.readList (Wire.readPair Wire.readBytes Wire.readBytes) (body entries) =
      .ok (entries, []) :=
    (reads_entry.list _ _ _).mpr ⟨⟨hCount.trans_lt hBody, fun e he =>
      ⟨(hEach e he).1.trans_lt hBody, (hEach e he).2.trans_lt hBody⟩⟩, (List.append_nil _).symm⟩
  exact decode_header hBody hRead

end Snapshot

namespace Contents

theorem getElem?_foldl_insert {entries : List Entry} (h : entries.Pairwise fun a b => a.1 ≠ b.1)
    (contents : Contents) (key : Bytes) :
    (entries.foldl (fun contents e => contents.insert e.1 e.2) contents)[key]? =
      ((entries.find? fun e => e.1 = key).map Prod.snd).or contents[key]? := by
  induction entries generalizing contents with
  | nil => rfl
  | cons e entries ih =>
    obtain ⟨hFirst, hRest⟩ := List.pairwise_cons.mp h
    rw [List.foldl_cons, ih hRest, getElem?_insert]
    by_cases hKey : e.1 = key
    · have hNone : (entries.find? fun other => other.1 = key) = none := by
        rw [List.find?_eq_none]
        intro other hOther hSame
        exact hFirst other hOther (hKey.trans (of_decide_eq_true hSame).symm)
      rw [List.find?_cons_of_pos (by simpa using hKey), hNone, if_pos hKey]
      rfl
    · rw [List.find?_cons_of_neg (by simpa using hKey), if_neg hKey]

theorem ofEntries_entries (contents : Contents) : ofEntries contents.entries = contents := by
  apply Std.ExtTreeMap.ext_getElem?
  intro key
  have hOrder : contents.entries.Pairwise fun a b => a.1 ≠ b.1 :=
    Std.ExtTreeMap.distinct_keys_toList.imp fun hNe hSame => hNe (by simp [hSame])
  have hFold := getElem?_foldl_insert hOrder ∅ key
  rw [Std.ExtTreeMap.getElem?_empty, Option.or_none] at hFold
  refine hFold.trans ?_
  cases hFind : contents.entries.find? fun e => e.1 = key with
  | none =>
    rw [Option.map_none, eq_comm, Option.eq_none_iff_forall_ne_some]
    intro value hValue
    have hNot := List.find?_eq_none.mp hFind (key, value) (mem_entries_iff.mpr hValue)
    exact hNot (by simp)
  | some e =>
    obtain rfl : e.1 = key := by simpa using List.find?_some hFind
    exact (mem_entries_iff.mp (List.mem_of_find?_eq_some hFind)).symm

end Contents

end ForkLog
