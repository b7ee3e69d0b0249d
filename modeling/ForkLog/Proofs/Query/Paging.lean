import Mathlib
import ForkLog.Proofs.OperationLog.Reachable
import ForkLog.Proofs.Query

/-! # Paging through the user records

Pages of any size that follow each other hold every user record once, in key order, except that of the
empty key: it can be looked up, but a range passes it over.
-/

namespace ForkLog.Query

set_option autoImplicit false

section

variable {σ : Type} [Store σ]

/-- The rows of the pages from `start` on. Each page begins right behind the last key of the one before,
until one says that nothing follows. -/
inductive PagesFrom (rowsLimit limit : Nat) (store : σ) : String → List Row → Prop
  | last {start : String} {page : Page}
      (hPage : answer rowsLimit (.range start "" limit) store = some (.ok page))
      (hEnd : page.limitReached = false) : PagesFrom rowsLimit limit store start page.rows
  | more {start : String} {page : Page} {row : Row} {rest : List Row}
      (hPage : answer rowsLimit (.range start "" limit) store = some (.ok page))
      (hMore : page.limitReached = true) (hLast : page.rows.getLast? = some row)
      (hRest : PagesFrom rowsLimit limit store (row.key.push (.ofNat 0)) rest) :
      PagesFrom rowsLimit limit store start (page.rows ++ rest)

/-- The rows of all pages. That nothing is found on the first one means that there are none. -/
inductive Enumerates (rowsLimit limit : Nat) (store : σ) : List Row → Prop
  | none (h : answer rowsLimit (.range "" "" limit) store = some (.error .notFound)) :
      Enumerates rowsLimit limit store []
  | pages {rows : List Row} (h : PagesFrom rowsLimit limit store "" rows) :
      Enumerates rowsLimit limit store rows

end

variable {contents : Contents} {rowsLimit limit : Nat} {start : String} {rows : List Row}

/-- The user entries from a key on. -/
def usersFrom (contents : Contents) (start : String) : List Entry :=
  contents.usersBetween (Key.user start) Key.openEnd

theorem toPage_eq_ok_iff {entries : List Entry} {page : Page} :
    toPage entries limit = .ok page ↔
      entries ≠ [] ∧ page = ⟨(entries.take limit).map rowOf, limit < entries.length⟩ := by
  cases entries with
  | nil => simp [toPage]
  | cons e entries =>
    have hPage : toPage (e :: entries) limit =
        .ok ⟨((e :: entries).take limit).map rowOf, limit < (e :: entries).length⟩ := rfl
    rw [hPage, Except.ok.injEq, eq_comm, and_iff_right (List.cons_ne_nil e entries)]

theorem toPage_eq_notFound_iff {entries : List Entry} :
    toPage entries limit = .error .notFound ↔ entries = [] := by
  cases entries <;> simp [toPage]

theorem page_iff (hLow : 1 ≤ limit) (hHigh : limit ≤ rowsLimit) (hRoom : limit < roomLimit)
    {page : Page} :
    answer rowsLimit (.range start "" limit) contents = some (.ok page) ↔
      usersFrom contents start ≠ [] ∧
        page = ⟨((usersFrom contents start).take limit).map rowOf,
          limit < (usersFrom contents start).length⟩ := by
  rw [answer_range_eq hLow hHigh hRoom start "", Option.some_inj]
  exact toPage_eq_ok_iff

theorem noPage_iff (hLow : 1 ≤ limit) (hHigh : limit ≤ rowsLimit) (hRoom : limit < roomLimit) :
    answer rowsLimit (.range start "" limit) contents = some (.error .notFound) ↔
      usersFrom contents start = [] := by
  rw [answer_range_eq hLow hHigh hRoom start "", Option.some_inj]
  exact toPage_eq_notFound_iff

theorem isUser_user_iff (text : String) : Key.isUser (Key.user text) = true ↔ text ≠ "" := by
  have hEncode : Utf8.encode text = [] ↔ text = "" :=
    ⟨fun h => Utf8.encode_injective (h.trans rfl), fun h => by rw [h]; rfl⟩
  rw [← not_iff_not, not_not, ← hEncode, Key.user]
  cases Utf8.encode text <;> simp [Key.isUser, Key.userMark]

/-- Among well-formed keys those that count as user keys are the keys of texts that are not empty. -/
theorem exists_text (hKeyed : contents.WellKeyed) {e : Entry} (h : e ∈ usersFrom contents start) :
    ∃ text, text ≠ "" ∧ e.1 = Key.user text := by
  obtain ⟨hMem, hUser⟩ := List.mem_filter.mp h
  have hValue := Contents.getElem?_of_mem_between hMem
  obtain ⟨text, hText⟩ | hCursor | ⟨block, hBlock⟩ := hKeyed e.1 (by rw [hValue]; rfl)
  · rw [hText, isUser_user_iff] at hUser
    exact ⟨text, hUser, hText⟩
  · rw [hCursor] at hUser
    exact absurd hUser (by decide)
  · rw [hBlock] at hUser
    exact absurd hUser (by simp [Key.undo, Key.undoMark, Key.isUser, Key.userMark])

theorem user_push_zero (text : String) : Key.user (text.push (.ofNat 0)) = after (Key.user text) := by
  rw [Key.user, Utf8.encode_push]
  rfl

theorem usersFrom_next (hKeyed : contents.WellKeyed) {front rest : List Entry} {e : Entry}
    (h : usersFrom contents start = front ++ e :: rest) :
    usersFrom contents ((rowOf e).key.push (.ofNat 0)) = rest := by
  have hMem : e ∈ usersFrom contents start := h ▸ List.mem_append_right front List.mem_cons_self
  obtain ⟨text, -, hText⟩ := exists_text hKeyed hMem
  have hKey : (rowOf e).key = text := by
    rw [rowOf, hText]
    exact Key.userText_user text
  rw [hKey, usersFrom, user_push_zero, ← hText]
  exact Contents.usersBetween_after h

/-- A page that is not the last one ends with an entry, and the next page begins with the one after
it. -/
theorem exists_last_of_more (hKeyed : contents.WellKeyed) (hLow : 1 ≤ limit)
    (hMore : limit < (usersFrom contents start).length) :
    ∃ e, (((usersFrom contents start).take limit).map rowOf).getLast? = some (rowOf e) ∧
      usersFrom contents ((rowOf e).key.push (.ofNat 0)) = (usersFrom contents start).drop limit := by
  have hSplit := (usersFrom contents start).take_append_drop limit
  obtain hEmpty | ⟨front, e, hLast⟩ := List.eq_nil_or_concat' ((usersFrom contents start).take limit)
  · have hLength := congrArg List.length hEmpty
    rw [List.length_take, List.length_nil] at hLength
    omega
  · rw [hLast, List.append_assoc] at hSplit
    refine ⟨e, ?_, usersFrom_next hKeyed hSplit.symm⟩
    rw [hLast, List.map_append]
    exact List.getLast?_concat

theorem pagesFrom_usersFrom (hKeyed : contents.WellKeyed) (hLow : 1 ≤ limit)
    (hHigh : limit ≤ rowsLimit) (hRoom : limit < roomLimit)
    (hSome : usersFrom contents start ≠ []) :
    PagesFrom rowsLimit limit contents start ((usersFrom contents start).map rowOf) := by
  -- Every page takes entries away from those that are left.
  induction hCount : (usersFrom contents start).length using Nat.strong_induction_on
    generalizing start with
  | h count ih =>
    have hPage := (page_iff hLow hHigh hRoom).mpr ⟨hSome, rfl⟩
    by_cases hMore : limit < (usersFrom contents start).length
    · obtain ⟨e, hLast, hNext⟩ := exists_last_of_more hKeyed hLow hMore
      have hLeft : ((usersFrom contents start).drop limit).length = count - limit := by
        rw [List.length_drop, hCount]
      have hOthers : usersFrom contents ((rowOf e).key.push (.ofNat 0)) ≠ [] := by
        rw [hNext, ← List.length_pos_iff]
        omega
      have hRest := ih (count - limit) (by omega) hOthers (by rw [hNext, hLeft])
      rw [hNext] at hRest
      have hAll := PagesFrom.more hPage (decide_eq_true hMore) hLast hRest
      rwa [← List.map_append, List.take_append_drop] at hAll
    · have hAll := PagesFrom.last hPage (decide_eq_false hMore)
      rwa [List.take_of_length_le (Nat.not_lt.mp hMore)] at hAll

theorem PagesFrom.rows_eq (hKeyed : contents.WellKeyed) (hLow : 1 ≤ limit)
    (hHigh : limit ≤ rowsLimit) (hRoom : limit < roomLimit)
    (h : PagesFrom rowsLimit limit contents start rows) :
    usersFrom contents start ≠ [] ∧ rows = (usersFrom contents start).map rowOf := by
  induction h with
  | @last start page hPage hEnd =>
    obtain ⟨hSome, rfl⟩ := (page_iff hLow hHigh hRoom).mp hPage
    have hAll : (usersFrom contents start).length ≤ limit := by simpa using hEnd
    exact ⟨hSome, by rw [List.take_of_length_le hAll]⟩
  | @more start page row rest hPage hMore hLast hRest ih =>
    obtain ⟨hSome, rfl⟩ := (page_iff hLow hHigh hRoom).mp hPage
    obtain ⟨e, hOther, hNext⟩ := exists_last_of_more hKeyed hLow (by simpa using hMore)
    obtain rfl : rowOf e = row := Option.some.inj (hOther.symm.trans hLast)
    rw [ih.2, hNext, ← List.map_append, List.take_append_drop]
    exact ⟨hSome, rfl⟩

theorem enumerates_iff (hKeyed : contents.WellKeyed) (hLow : 1 ≤ limit)
    (hHigh : limit ≤ rowsLimit) (hRoom : limit < roomLimit) :
    Enumerates rowsLimit limit contents rows ↔ rows = (usersFrom contents "").map rowOf := by
  constructor
  · rintro (hNone | hPages)
    · rw [(noPage_iff hLow hHigh hRoom).mp hNone, List.map_nil]
    · exact (hPages.rows_eq hKeyed hLow hHigh hRoom).2
  · rintro rfl
    obtain hNone | hSome := eq_or_ne (usersFrom contents "") []
    · rw [hNone]
      exact .none ((noPage_iff hLow hHigh hRoom).mpr hNone)
    · exact .pages (pagesFrom_usersFrom hKeyed hLow hHigh hRoom hSome)

theorem mem_rows_iff (hKeyed : contents.WellKeyed) {key : String} {value : Bytes} :
    (⟨key, value⟩ : Row) ∈ (usersFrom contents "").map rowOf ↔
      key ≠ "" ∧ contents[Key.user key]? = some value := by
  constructor
  · intro h
    obtain ⟨e, hMem, hRow⟩ := List.mem_map.mp h
    obtain ⟨text, hText, hKey⟩ := exists_text hKeyed hMem
    have hValue := Contents.getElem?_of_mem_between (List.mem_of_mem_filter hMem)
    rw [rowOf, hKey, Key.userText_user] at hRow
    cases hRow
    exact ⟨hText, hKey ▸ hValue⟩
  · rintro ⟨hKey, hValue⟩
    refine List.mem_map.mpr ⟨(Key.user key, value), ?_, by rw [rowOf, Key.userText_user]⟩
    refine List.mem_filter.mpr ⟨Contents.mem_between_iff.mpr ⟨hValue, ?_, ?_⟩,
      (isUser_user_iff key).mpr hKey⟩
    · exact List.le_append_left
    · simp [Key.user, Key.userMark, Key.openEnd, List.replicate_succ, List.cons_lt_cons_iff]

theorem pairwise_rows (hKeyed : contents.WellKeyed) :
    ((usersFrom contents start).map rowOf).Pairwise fun a b =>
      Utf8.encode a.key < Utf8.encode b.key := by
  rw [List.pairwise_map]
  refine (contents.pairwise_usersBetween _ _).imp_of_mem fun {a b} ha hb hLess => ?_
  obtain ⟨text, -, hText⟩ := exists_text hKeyed ha
  obtain ⟨other, -, hOther⟩ := exists_text hKeyed hb
  rw [hText, hOther, Key.user, Key.user, List.cons_lt_cons_iff] at hLess
  rw [rowOf, rowOf, hText, hOther, Key.userText_user, Key.userText_user]
  exact hLess.elim (fun hMark => absurd hMark (UInt8.lt_irrefl _)) And.right

theorem not_enumerates_of_no_room {σ : Type} [Store σ] {store : σ} (hHigh : limit ≤ rowsLimit)
    (hRoom : roomLimit ≤ limit) : ¬ Enumerates rowsLimit limit store rows := by
  rintro (h | h | h)
  all_goals
    rw [answer_range_eq_none hHigh hRoom] at h
    cases h

/-- The contents that calls on an operation log lead to from nothing. -/
def storeAfter (calls : List OperationLog.Call) : Contents :=
  (OperationLog.afterCalls calls (.ofStore (∅ : Contents))).store

/-- Whatever was done before, pages of any size for which there is room hold the user records that can
be looked up, except that of the empty key: each of them once and in the order of the bytes of the
keys. -/
theorem paging_exact (calls : List OperationLog.Call) (hLow : 1 ≤ limit) (hHigh : limit ≤ rowsLimit)
    (hRoom : limit < roomLimit) :
    ∃ rows, Enumerates rowsLimit limit (storeAfter calls) rows ∧
      (∀ other, Enumerates rowsLimit limit (storeAfter calls) other → other = rows) ∧
      (rows.Pairwise fun a b => Utf8.encode a.key < Utf8.encode b.key) ∧
      ∀ key value, (⟨key, value⟩ : Row) ∈ rows ↔
        key ≠ "" ∧ answer rowsLimit (.get key) (storeAfter calls) = some (.ok value) := by
  have hKeyed : (storeAfter calls).WellKeyed :=
    OperationLog.kept_afterCalls Contents.guards_wellKeyed calls Contents.wellKeyed_empty
  refine ⟨_, (enumerates_iff hKeyed hLow hHigh hRoom).mpr rfl, fun other hOther => ?_,
    pairwise_rows hKeyed, fun key value => ?_⟩
  · exact (enumerates_iff hKeyed hLow hHigh hRoom).mp hOther
  · rw [mem_rows_iff hKeyed, answer_get_eq_ok_iff]

def threeKeys : List OperationLog.Call :=
  [.add [.assign "b" [0x32], .assign "" [0x30], .assign "a" [0x31]], .flush (.blank 1),
    .record 2 [.remove "a"]]

/-- Page by page of one row each. -/
theorem paging_exact_three_keys :
    ∃ rows, Enumerates 10 1 (storeAfter threeKeys) rows ∧ (⟨"a", [0x31]⟩ : Row) ∈ rows ∧
      (⟨"b", [0x32]⟩ : Row) ∈ rows ∧ ∀ value, (⟨"", value⟩ : Row) ∉ rows := by
  have hLow : 1 ≤ 1 := by decide
  have hHigh : 1 ≤ 10 := by decide
  obtain ⟨rows, hPages, -, -, hMem⟩ := paging_exact threeKeys hLow hHigh (by decide)
  refine ⟨rows, hPages, (hMem _ _).mpr ⟨by decide, by decide +kernel⟩,
    (hMem _ _).mpr ⟨by decide, by decide +kernel⟩, fun value hValue => ?_⟩
  exact ((hMem _ _).mp hValue).1 rfl

/-- The record of the empty key can be looked up and is on no page. Where there is no room for the rows
of a page there is no answer at all. -/
theorem paging_passes_over_empty_key :
    answer 10 (.get "") (storeAfter threeKeys) = some (.ok [0x30]) ∧
      (¬ ∃ rows, Enumerates 10 10 (storeAfter threeKeys) rows ∧ ∀ key value,
        (⟨key, value⟩ : Row) ∈ rows ↔
          answer 10 (.get key) (storeAfter threeKeys) = some (.ok value)) ∧
      ¬ ∃ rows, Enumerates roomLimit roomLimit (storeAfter threeKeys) rows := by
  have hFound : answer 10 (.get "") (storeAfter threeKeys) = some (.ok [0x30]) := by
    decide +kernel
  have hPages : answer 10 (.range "" "" 10) (storeAfter threeKeys) =
      some (.ok ⟨[⟨"a", [0x31]⟩, ⟨"b", [0x32]⟩], false⟩) := by
    decide +kernel
  refine ⟨hFound, ?_, ?_⟩
  · rintro ⟨rows, hNone | hRows, hMem⟩
    · rw [hPages] at hNone
      cases hNone
    · have hEmpty := (hMem "" [0x30]).mpr hFound
      cases hRows with
      | last hPage hEnd =>
        rw [hPages] at hPage
        cases hPage
        exact absurd hEmpty (by decide)
      | more hPage hMore =>
        rw [hPages] at hPage
        cases hPage
        cases hMore
  · rintro ⟨rows, hRows⟩
    exact not_enumerates_of_no_room (Nat.le_refl _) (Nat.le_refl _) hRows

end ForkLog.Query
