import Mathlib
import ForkLog.Proofs.Checksum
import ForkLog.Proofs.Disk.FileTree

/-! # Damaged snapshots

A snapshot is accepted only if its header is the one that belongs to what follows it. No file that is
made from a snapshot by changing bytes within four places that stand side by side, by cutting
something off or by adding something has such a header, so a store is never opened on one.
-/

namespace ForkLog

set_option autoImplicit false

namespace Snapshot

/-- The file has the header that belongs to what follows it. -/
def Sound (data : Bytes) : Prop :=
  ∃ content, content.length < Wire.lengthLimit ∧ data = header content ++ content

theorem length_header (content : Bytes) : (header content).length = headerSize := by
  simp [header, magic, headerSize]

theorem field_append_drop (data : Bytes) (start size : Nat) :
    field data start size ++ data.drop (start + size) = data.drop start := by
  rw [field, ← List.drop_drop, List.take_append_drop]

theorem length_field {data : Bytes} {start size : Nat} (h : start + size ≤ data.length) :
    (field data start size).length = size := by
  rw [field, List.length_take, List.length_drop]
  omega

theorem littleEndian_field {data : Bytes} {start size : Nat} (h : start + size ≤ data.length) :
    Bytes.littleEndian size (Bytes.ofLittleEndian (field data start size)) =
      field data start size := by
  have hBack := Bytes.littleEndian_ofLittleEndian (field data start size)
  rwa [length_field h] at hBack

theorem eq_fields {data : Bytes} :
    data = field data 0 4 ++ field data 4 4 ++ field data 8 4 ++ field data 12 8 ++
      data.drop headerSize := by
  rw [List.append_assoc, headerSize, field_append_drop data 12 8, List.append_assoc,
    field_append_drop data 8 4, List.append_assoc, field_append_drop data 4 4,
    field_append_drop data 0 4, List.drop_zero]

/-- A file that has not is refused before its body is read, which is a failure of the store. -/
theorem refused_of_not_sound {data : Bytes} (h : ¬ Sound data) :
    ∃ fault, decode data = .error fault ∧
      ∀ path, ∃ reason, fault.toError path = .store reason := by
  simp only [decode]
  split
  case isTrue => exact ⟨_, rfl, fun _ => ⟨_, rfl⟩⟩
  case isFalse hLong =>
  split
  case isTrue => exact ⟨_, rfl, fun _ => ⟨_, rfl⟩⟩
  case isFalse hMagic =>
  split
  case isTrue => exact ⟨_, rfl, fun _ => ⟨_, rfl⟩⟩
  case isFalse hVersion =>
  split
  case isTrue => exact ⟨_, rfl, fun _ => ⟨_, rfl⟩⟩
  case isFalse hLength =>
  split
  case isTrue => exact ⟨_, rfl, fun _ => ⟨_, rfl⟩⟩
  case isFalse hChecksum =>
    have hSize : 20 ≤ data.length := Nat.le_of_not_lt hLong
    have hMagic : field data 0 4 = magic := not_not.mp hMagic
    have hVersion := not_not.mp hVersion
    have hLength := not_not.mp hLength
    have hChecksum := not_not.mp hChecksum
    refine absurd ⟨data.drop headerSize, ?_, ?_⟩ h
    · have hLess := Bytes.ofLittleEndian_lt (field data 12 8)
      rwa [← hLength, length_field (by omega)] at hLess
    · rw [header, hLength, hChecksum, ← hVersion, littleEndian_field (by omega),
        littleEndian_field (by omega), littleEndian_field (by omega), ← hMagic]
      exact eq_fields

theorem append_header_inj {content other : Bytes} (rest : Bytes)
    (h : header content ++ content = header other ++ other ++ rest) :
    header content = header other ∧ content = other ++ rest := by
  rw [List.append_assoc] at h
  exact List.append_inj h ((length_header content).trans (length_header other).symm)

theorem length_eq_of_header {content other : Bytes} (h : header content = header other) :
    content.length % Wire.lengthLimit = other.length % Wire.lengthLimit := by
  have hField := (List.append_inj' h (by simp)).2
  have hNumber := congrArg Bytes.ofLittleEndian hField
  rwa [Bytes.ofLittleEndian_littleEndian, Bytes.ofLittleEndian_littleEndian] at hNumber

theorem crc32_eq_of_header {content other : Bytes}
    (h : (header content).take 12 = (header other).take 12) :
    Checksum.crc32 content = Checksum.crc32 other := by
  have hTake (content : Bytes) : (header content).take 12 = magic ++ Bytes.littleEndian 4 version ++
      Bytes.littleEndian 4 (Checksum.crc32 content).toNat := by
    rw [header, List.take_append_of_le_length (by simp [magic]),
      List.take_of_length_le (by simp [magic])]
  rw [hTake, hTake] at h
  have hNumber := congrArg Bytes.ofLittleEndian (List.append_cancel_left h)
  have hFits (checksum : UInt32) : checksum.toNat % 256 ^ 4 = checksum.toNat :=
    Nat.mod_eq_of_lt checksum.toNat_lt
  rw [Bytes.ofLittleEndian_littleEndian, Bytes.ofLittleEndian_littleEndian, hFits, hFits] at hNumber
  exact UInt32.toNat_inj.mp hNumber

/-- What may have become of a file. -/
inductive Damage (data : Bytes) : Bytes → Prop where
  /-- Something was changed within four consecutive bytes. -/
  | burst (front window changed rest : Bytes) (hData : data = front ++ window ++ rest)
      (hShort : window.length ≤ 4) (hLength : changed.length = window.length)
      (hChanged : changed ≠ window) : Damage data (front ++ changed ++ rest)
  | cut (kept lost : Bytes) (hData : data = kept ++ lost) (hLost : lost ≠ []) : Damage data kept
  | extended (more : Bytes) (hMore : more ≠ []) : Damage data (data ++ more)

theorem not_sound_of_cut {content kept lost : Bytes} (hSize : content.length < Wire.lengthLimit)
    (hData : header content ++ content = kept ++ lost) (hLost : lost ≠ []) : ¬ Sound kept := by
  rintro ⟨other, hOther, rfl⟩
  obtain ⟨hHeader, hContent⟩ := append_header_inj lost hData
  have hLength := length_eq_of_header hHeader
  rw [Nat.mod_eq_of_lt hSize, Nat.mod_eq_of_lt hOther, hContent, List.length_append] at hLength
  have hNone : lost.length = 0 := by omega
  exact hLost (List.eq_nil_of_length_eq_zero hNone)

theorem not_sound_of_extended {content more : Bytes} (hMore : more ≠ []) :
    ¬ Sound (header content ++ content ++ more) := by
  rintro ⟨other, hOther, hData⟩
  obtain ⟨hHeader, hContent⟩ := append_header_inj more hData.symm
  have hLength := length_eq_of_header hHeader
  rw [Nat.mod_eq_of_lt hOther, hContent, List.length_append] at hLength
  have hLess := Nat.mod_le content.length Wire.lengthLimit
  have hNone : more.length = 0 := by omega
  exact hMore (List.eq_nil_of_length_eq_zero hNone)

theorem drop_append_append (count : Nat) (front window rest : Bytes) :
    (front ++ window ++ rest).drop count =
      front.drop count ++ window.drop (count - front.length) ++
        rest.drop (count - (front.length + window.length)) := by
  rw [List.drop_append, List.drop_append, List.length_append]

/-- A burst that reaches the body leaves the checksum in the header as it was. -/
theorem not_sound_of_burst {content front window changed rest : Bytes}
    (hData : header content ++ content = front ++ window ++ rest) (hShort : window.length ≤ 4)
    (hLength : changed.length = window.length) (hChanged : changed ≠ window) :
    ¬ Sound (front ++ changed ++ rest) := by
  rintro ⟨other, -, hOther⟩
  have hDrop {content data : Bytes} (h : header content ++ content = data) :
      content = data.drop headerSize := by
    rw [← h, ← length_header content, List.drop_left]
  have hContent := (hDrop hData).trans (drop_append_append _ _ _ _)
  have hOtherContent := (hDrop hOther.symm).trans (drop_append_append _ _ _ _)
  rw [hLength] at hOtherContent
  have hRest : changed.drop (headerSize - front.length) =
      window.drop (headerSize - front.length) := by
    by_cases hReach : headerSize < front.length + window.length
    · have hTake {content data : Bytes} (h : header content ++ content = front ++ data) :
          (header content).take 12 = front.take 12 := by
        have hFront : 12 ≤ front.length := by
          rw [headerSize] at hReach
          omega
        have hBegin := congrArg (List.take 12) h
        rwa [List.take_append_of_le_length hFront,
          List.take_append_of_le_length (by rw [length_header]; decide)] at hBegin
      have hChecksum := crc32_eq_of_header ((hTake (by rw [hOther.symm, List.append_assoc])).trans
        (hTake (by rw [hData, List.append_assoc])).symm)
      rw [hOtherContent, hContent] at hChecksum
      refine Checksum.window_eq_of_crc32 ?_ ?_ hChecksum
      · rw [List.length_drop, List.length_drop, hLength]
      · rw [List.length_drop]
        omega
    · rw [List.drop_of_length_le (by omega), List.drop_of_length_le (by omega)]
  have hSame : other = content := by rw [hOtherContent, hContent, hRest]
  rw [hSame, hData, List.append_cancel_right_eq, List.append_cancel_left_eq] at hOther
  exact hChanged hOther

theorem Damage.not_sound {content damaged : Bytes} (hSize : content.length < Wire.lengthLimit)
    (h : Damage (header content ++ content) damaged) : ¬ Sound damaged := by
  cases h with
  | burst front window changed rest hData hShort hLength hChanged =>
    exact not_sound_of_burst hData hShort hLength hChanged
  | cut kept lost hData hLost => exact not_sound_of_cut hSize hData hLost
  | extended more hMore => exact not_sound_of_extended hMore

end Snapshot

namespace DurableStore

variable {δ : Type} [Disk δ] {directory : String}
  {Holds : δ → Option Bytes → Option Bytes → Prop}

/-- A snapshot whose size eight bytes can count is written, and then something happens to the file.
Neither is the file read nor a store opened on it, whatever it was that happened. -/
theorem damaged_snapshot_rejected (hDisk : Disk.Serves directory Holds) {disk : δ}
    {snapshot draft : Option Bytes} (hHolds : Holds disk snapshot draft) (entries : List Entry)
    (hSize : (Snapshot.encode entries).length < Wire.lengthLimit) :
    ∃ written, writeSnapshot (snapshotPath directory) entries disk = .ok () written ∧
      Holds written (some (Snapshot.encode entries)) none ∧
      ∀ damaged, Snapshot.Damage (Snapshot.encode entries) damaged →
        ∀ disk' draft', Holds disk' (some damaged) draft' →
          ∃ reason,
            (∃ left,
              readSnapshot (snapshotPath directory) disk' = .error (.store reason) left) ∧
            ∀ maxRetries, ∃ left,
              mount directory maxRetries disk' = .error (.store reason, left) := by
  obtain ⟨written, hWrite, hWritten⟩ := writeSnapshot_spec hDisk hHolds entries
  refine ⟨written, hWrite, hWritten, fun damaged hDamage disk' draft' hDamaged => ?_⟩
  have hBody : (Snapshot.body entries).length < Wire.lengthLimit := by
    rw [Snapshot.encode, List.length_append] at hSize
    omega
  obtain ⟨fault, hDecode, hStore⟩ := Snapshot.refused_of_not_sound (hDamage.not_sound hBody)
  obtain ⟨reason, hReason⟩ := hStore (snapshotPath directory)
  have hFails : (Snapshot.decode damaged).mapError
      (Snapshot.Fault.toError (snapshotPath directory)) = .error (.store reason) := by
    rw [hDecode, Except.mapError, hReason]
  refine ⟨reason, ?_, fun maxRetries => ?_⟩
  · obtain ⟨left, -, hRead⟩ := readSnapshot_eq hDisk.toRecalls hDamaged
    rw [hFails] at hRead
    exact ⟨left, hRead⟩
  · obtain ⟨left, -, hMount⟩ := mount_eq hDisk.toRecalls hDamaged maxRetries
    rw [loaded, hFails] at hMount
    exact ⟨left, hMount⟩

def twoEntries : List Entry := [([0x6B, 0x61], [0x31]), ([0x78, 0x63], [])]

/-- Next to where the header ends, the body now says that there are three entries. -/
def seamFile : Bytes :=
  (Snapshot.encode twoEntries).take 18 ++ [0, 0, 3, 0] ++ (Snapshot.encode twoEntries).drop 22

def seamTree : FileTree := FileTree.withData.setNode ["data", "kv.snapshot"] (.file seamFile)

theorem damaged_snapshot_rejected_at_seam :
    (Snapshot.encode twoEntries).length < Wire.lengthLimit ∧
      Snapshot.Damage (Snapshot.encode twoEntries) seamFile ∧
      ∃ reason left, mount "data" 3 seamTree = .error (.store reason, left) := by
  have hSize : (Snapshot.encode twoEntries).length < Wire.lengthLimit := by decide +kernel
  have hDamage : Snapshot.Damage (Snapshot.encode twoEntries) seamFile :=
    .burst _ [0, 0, 2, 0] [0, 0, 3, 0] _ (by decide +kernel) (by decide) rfl (by decide)
  have hHolds : FileTree.HoldsData seamTree (some seamFile) none := by
    obtain ⟨hHome, hDirectory, -, hDraft⟩ := FileTree.HoldsData.of_withData
    refine ⟨hHome, ?_, ?_, ?_⟩
    · rw [seamTree, FileTree.nodes_setNode, if_neg (by decide), hDirectory]
    · rw [seamTree, FileTree.nodes_setNode, if_pos rfl]
      rfl
    · rw [seamTree, FileTree.nodes_setNode, if_neg (by decide), hDraft]
  obtain ⟨_, -, -, hRejected⟩ := damaged_snapshot_rejected FileTree.HoldsData.serves
    FileTree.HoldsData.of_withData twoEntries hSize
  obtain ⟨reason, -, hMount⟩ := hRejected seamFile hDamage seamTree none hHolds
  exact ⟨hSize, hDamage, reason, hMount 3⟩

end DurableStore

end ForkLog
