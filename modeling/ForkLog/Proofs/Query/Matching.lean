import Mathlib
import ForkLog.Proofs.Query.Paging

/-! # All that matches, in order

A range finds every user record in it and nothing else, whatever other entries stand among them, and so
does looking for what begins with a text. Both answer with the first rows and say whether there are more.
-/

namespace ForkLog

set_option autoImplicit false

/-- Every user key of the contents is that of a text. -/
def Contents.Textual (contents : Contents) : Prop :=
  ∀ key, contents[key]?.isSome → Key.isUser key = true → ∃ text, key = Key.user text

namespace Query

variable {contents : Contents} {rowsLimit limit : Nat}

/-- Gathering comes to its end after one call for every entry and one more, with all that matches up to
one more than was asked for. The answer is made of it if and only if there is room for the rows. -/
theorem range_exact_iff (contents : Contents) (hLow : 1 ≤ limit) (hHigh : limit ≤ rowsLimit)
    (start stop : String) :
    ∃ entries,
      contents.Lists
        (fun key => Key.isUser key = true ∧ Key.user start ≤ key ∧ key < rangeEnd stop) entries ∧
      (∀ calls, contents.size < calls →
        gather (rangeEnd stop) limit calls (Key.user start) [] contents =
          .ok (some (entries.take (limit + 1))) contents) ∧
      (answer rowsLimit (.range start stop limit) contents =
          some (if entries = [] then .error .notFound
            else .ok ⟨(entries.take limit).map rowOf, limit < entries.length⟩) ↔
        limit < roomLimit) := by
  refine ⟨_, contents.lists_usersBetween _ _, fun calls hCalls => ?_, fun hAnswer => ?_,
    fun hRoom => ?_⟩
  · have hFew := contents.length_between_le (Key.user start) (rangeEnd stop)
    exact gather_eq (Nat.lt_of_le_of_lt hFew hCalls) (Nat.zero_le limit)
  · by_contra hNoRoom
    rw [answer_range_eq_none hHigh (Nat.not_lt.mp hNoRoom)] at hAnswer
    cases hAnswer
  · rw [answer_range_eq hLow hHigh hRoom, toPage_eq]

/-- Keys of every kind: the mark alone, two texts, the mark before a byte that is none of a text, the cursor
and the record of a block. -/
def mixedKeys : Contents :=
  .ofEntries [(Key.user "", [0x30]), (Key.user "a", [0x31]), (Key.user "b", [0x32]),
    ([0x6B, 0xFF], [0x33]), (Key.cursor, [0x34]), (Key.undo 7, [0x35]), ([0x6B, 0x61, 0xFF], [0x36])]

/-- Two of four rows. -/
theorem range_exact_mixed_keys :
    1 ≤ 2 ∧ 2 ≤ 10 ∧ 2 < roomLimit ∧ ∃ entries : List Entry,
      entries.map Prod.fst = [[0x6B, 0x61], [0x6B, 0x61, 0xFF], [0x6B, 0x62], [0x6B, 0xFF]] ∧
      gather Key.openEnd 2 8 (Key.user "") [] mixedKeys =
        .ok (some (entries.take 3)) mixedKeys ∧
      answer 10 (.range "" "" 2) mixedKeys = some (.ok ⟨(entries.take 2).map rowOf, true⟩) := by
  have hLow : 1 ≤ 2 := by decide
  have hHigh : 2 ≤ 10 := by decide
  have hRoom : 2 < roomLimit := by decide
  obtain ⟨entries, hLists, hGather, hAnswer⟩ := range_exact_iff mixedKeys hLow hHigh "" ""
  obtain rfl := hLists.unique (mixedKeys.lists_usersBetween _ _)
  have hSize : mixedKeys.size < 8 := by decide +kernel
  refine ⟨hLow, hHigh, hRoom, _, by decide +kernel, hGather 8 hSize, ?_⟩
  rw [hAnswer.mpr hRoom]
  decide +kernel

def oneKey : Contents := .ofEntries [(Key.user "a", [0x31])]

/-- Where there is no room for the rows that were asked for, the one row that matches is not found,
although looking for what begins with its key finds it. -/
theorem range_without_room :
    1 ≤ 2 ^ 60 ∧ 2 ^ 60 < 2 ^ 64 - 1 ∧
      (¬ ∃ entries, oneKey.Lists
        (fun key => Key.isUser key = true ∧ Key.user "" ≤ key ∧ key < rangeEnd "") entries ∧
        answer (2 ^ 60) (.range "" "" (2 ^ 60)) oneKey =
          some (if entries = [] then .error .notFound
            else .ok ⟨(entries.take (2 ^ 60)).map rowOf, 2 ^ 60 < entries.length⟩)) ∧
      answer (2 ^ 60) (.startingWith "a" (2 ^ 60)) oneKey =
        some (.ok ⟨[⟨"a", [0x31]⟩], false⟩) := by
  refine ⟨by decide, by decide, ?_, by decide +kernel⟩
  rintro ⟨entries, -, hAnswer⟩
  rw [answer_range_eq_none (Nat.le_refl _) (by decide)] at hAnswer
  cases hAnswer

theorem isUser_of_begins {beginning : String} (hSome : beginning ≠ "") {key : Bytes}
    (h : Key.user beginning <+: key) : Key.isUser key = true := by
  obtain ⟨first, rest, hBeginning⟩ := Key.isUser_iff.mp ((isUser_user_iff beginning).mpr hSome)
  obtain ⟨more, rfl⟩ := h
  rw [hBeginning]
  rfl

theorem user_prefix_user_iff {beginning text : String} :
    Key.user beginning <+: Key.user text ↔ beginning.toList <+: text.toList := by
  rw [Key.user, Key.user, List.prefix_cons_inj, Utf8.encode_prefix_iff]

theorem mem_rows_startingWith_iff (hTextual : contents.Textual) {beginning : String}
    (hSome : beginning ≠ "") {entries : List Entry}
    (hLists : contents.Lists (Key.user beginning <+: ·) entries) (row : Row) :
    row ∈ entries.map rowOf ↔
      contents[Key.user row.key]? = some row.value ∧ beginning.toList <+: row.key.toList := by
  constructor
  · intro hMem
    obtain ⟨⟨key, value⟩, hEntry, rfl⟩ := List.mem_map.mp hMem
    obtain ⟨hValue, hPrefix⟩ := (hLists.mem_iff key value).mp hEntry
    obtain ⟨text, rfl⟩ := hTextual key (by rw [hValue]; rfl) (isUser_of_begins hSome hPrefix)
    rw [rowOf, Key.userText_user]
    exact ⟨hValue, user_prefix_user_iff.mp hPrefix⟩
  · rintro ⟨hValue, hPrefix⟩
    refine List.mem_map.mpr ⟨(Key.user row.key, row.value), ?_, ?_⟩
    · exact (hLists.mem_iff _ _).mpr ⟨hValue, user_prefix_user_iff.mpr hPrefix⟩
    · rw [rowOf, Key.userText_user]

/-- The answer is made of all entries whose keys begin with the key of the text. Where every user key is
that of a text, these are the records of the texts that begin with it. -/
theorem startingWith_exact (contents : Contents) {beginning : String} (hSome : beginning ≠ "")
    (hLow : 1 ≤ limit) (hHigh : limit ≤ rowsLimit) :
    ∃ entries,
      contents.Lists (Key.user beginning <+: ·) entries ∧
      answer rowsLimit (.startingWith beginning limit) contents =
        some (if entries = [] then .error .notFound
          else .ok ⟨(entries.take limit).map rowOf, limit < entries.length⟩) ∧
      (contents.Textual → ∀ row, row ∈ entries.map rowOf ↔
        contents[Key.user row.key]? = some row.value ∧ beginning.toList <+: row.key.toList) := by
  have hLists := contents.lists_beginningWith (Key.user beginning)
  refine ⟨_, hLists, ?_, fun hTextual => mem_rows_startingWith_iff hTextual hSome hLists⟩
  rw [answer_startingWith_eq hSome hLow hHigh, toPage_eq]

def accentedKeys : Contents :=
  .ofEntries [(Key.user "é1", [0x31]), (Key.user "é", [0x32]), (Key.user "e", [0x33]),
    (Key.cursor, [0x34])]

theorem textual_accentedKeys : accentedKeys.Textual := by
  have hTexts : ∀ e ∈ accentedKeys.entries, Key.isUser e.1 = true →
      e.1 = Key.user (Key.userText e.1) := by
    decide +kernel
  intro key hSome hUser
  obtain ⟨value, hValue⟩ := Option.isSome_iff_exists.mp hSome
  exact ⟨_, hTexts (key, value) (Contents.mem_entries_iff.mpr hValue) hUser⟩

/-- The first of two rows. -/
theorem startingWith_exact_accented_keys :
    "é" ≠ "" ∧ 1 ≤ 1 ∧ 1 ≤ 10 ∧ accentedKeys.Textual ∧
      answer 10 (.startingWith "é" 1) accentedKeys = some (.ok ⟨[⟨"é", [0x32]⟩], true⟩) ∧
      ∃ entries, accentedKeys.Lists (Key.user "é" <+: ·) entries ∧
        (⟨"é1", [0x31]⟩ : Row) ∈ entries.map rowOf := by
  have hSome : "é" ≠ "" := by decide
  have hLow : 1 ≤ 1 := by decide
  have hHigh : 1 ≤ 10 := by decide
  obtain ⟨entries, hLists, hAnswer, hRows⟩ := startingWith_exact accentedKeys hSome hLow hHigh
  have hRow := (hRows textual_accentedKeys ⟨"é1", [0x31]⟩).mpr
    ⟨by decide +kernel, by decide +kernel⟩
  obtain rfl := hLists.unique (accentedKeys.lists_beginningWith _)
  refine ⟨hSome, hLow, hHigh, textual_accentedKeys, ?_, _, hLists, hRow⟩
  rw [hAnswer]
  decide +kernel

end Query

end ForkLog
