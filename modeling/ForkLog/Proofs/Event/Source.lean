import Mathlib
import ForkLog.Event.Source
import ForkLog.Proofs.Action
import ForkLog.Proofs.Text.Split

/-! # Reading events line by line

A source that begins with whole lines has first the events of these lines and then those of what
follows, counted on from there. A line that is text and cannot be read is never taken for a failure of
the store; a line that is not text always is.
-/

namespace ForkLog

set_option autoImplicit false

namespace Event

theorem linesOfPieces_append (pieces : List Bytes) {rest : List Bytes} (h : rest ≠ []) :
    linesOfPieces (pieces ++ rest) = pieces.map chop ++ linesOfPieces rest := by
  induction pieces with
  | nil => rfl
  | cons piece pieces ih =>
    have hNext : pieces ++ rest ≠ [] := by simp [h]
    rw [List.cons_append, List.map_cons, List.cons_append, ← ih]
    cases hMore : pieces ++ rest with
    | nil => exact absurd hMore hNext
    | cons next others => rfl

/-- There is nothing after the last newline. -/
def EndsLine (source : Bytes) : Prop := source = [] ∨ ∃ front, source = front ++ [newline]

theorem lines_append {whole : Bytes} (h : EndsLine whole) (rest : Bytes) :
    lines (whole ++ rest) = lines whole ++ lines rest := by
  obtain rfl | ⟨front, rfl⟩ := h
  · rfl
  · have hWhole : lines (front ++ [newline]) = (splitAtEach newline front).map chop := by
      rw [lines, splitAtEach_append_mark, linesOfPieces_append _ (splitAtEach_ne_nil _ _)]
      exact List.append_nil _
    rw [hWhole, List.append_assoc, List.singleton_append, lines, splitAtEach_append_mark,
      linesOfPieces_append _ (splitAtEach_ne_nil _ _), lines]

/-- The line is text; only such lines are counted. -/
def isText (line : Bytes) : Bool := (Utf8.decodeChars line).isOk

theorem readLines_append (number : Nat) (front rest : List Bytes) :
    readLines number (front ++ rest) =
      readLines number front ++ readLines (number + front.countP isText) rest := by
  induction front generalizing number with
  | nil => rfl
  | cons line front ih =>
    rw [List.cons_append, readLines, readLines, List.countP_cons, isText]
    cases Utf8.decodeChars line with
    | error fault => simp only [ih, List.cons_append]; rfl
    | ok text =>
      have hCount : number + 1 + front.countP isText = number + (front.countP isText + 1) := by
        omega
      simp only [ih, hCount]
      split
      · rfl
      · rfl

theorem isText_of_readLines {number : Nat} {found : List Bytes}
    (h : ∀ item ∈ readLines number found, ∃ event, item = .ok event) :
    ∀ line ∈ found, isText line = true := by
  induction found generalizing number with
  | nil => exact nofun
  | cons line found ih =>
    rw [readLines] at h
    cases hText : Utf8.decodeChars line with
    | error fault =>
      simp only [hText] at h
      obtain ⟨event, hEvent⟩ := h _ List.mem_cons_self
      cases hEvent
    | ok text =>
      simp only [hText] at h
      refine List.forall_mem_cons.mpr ⟨by rw [isText, hText]; rfl, ?_⟩
      split at h
      · exact ih h
      · exact ih fun item hItem => h item (List.mem_cons_of_mem _ hItem)

/-- After lines that could all be read the next one is read under its own number. -/
theorem readAll_of_lines {whole longer bad : Bytes} {more : List Bytes} {e : Error}
    (hItems : ∀ item ∈ readAll whole, ∃ event, item = .ok event)
    (hLines : lines longer = lines whole ++ bad :: more)
    (hBad : readLines (lines whole).length [bad] = [.error e]) :
    ∃ others, readAll longer = readAll whole ++ .error e :: others := by
  have hTexts : (lines whole).countP isText = (lines whole).length :=
    List.countP_eq_length.mpr (isText_of_readLines hItems)
  refine ⟨readLines ((lines whole).length + [bad].countP isText) more, ?_⟩
  rw [readAll, hLines, readLines_append, readAll, hTexts, Nat.zero_add, ← List.singleton_append,
    readLines_append, hBad, List.singleton_append]

/-- What can be wrong with an event that has been read as JSON. -/
theorem of_ofRaw {raw : RawEvent} {e : Error} (h : ofRaw raw = .error e) :
    (∃ reason, e = .invalidCursor reason) ∨
      ∃ rest, e = .serialization ("invalid hex value for key '" ++ rest) := by
  have hCursor {text : String} {e : Error} (h : Cursor.read text = .error e) :
      ∃ reason, e = .invalidCursor reason := by
    rw [Cursor.read] at h
    cases hRead : Cursor.readChars text.toList <;> rw [hRead] at h <;> cases h
    exact ⟨_, rfl⟩
  have hOperation (raw : RawOperation) (e : Error) (h : ofRawOperation raw = .error e) :
      ∃ rest, e = .serialization ("invalid hex value for key '" ++ rest) := by
    rw [ofRawOperation] at h
    split at h <;> cases h
    exact ⟨_, by simp only [String.append_assoc]; rfl⟩
  cases raw with
  | data block finalizedHeight cursor operations =>
    obtain hOps | ⟨ops, -, h⟩ := Action.error_or_exists_of_bind_eq_error h
    · obtain ⟨raw, -, hFails⟩ := Action.exists_of_mapM_error hOps
      exact .inr (hOperation raw _ hFails)
    · obtain hRead | ⟨c, -, h⟩ := Action.error_or_exists_of_bind_eq_error h
      · exact .inl (hCursor hRead)
      · cases h
  | undo lastValidBlock cursor =>
    obtain hRead | ⟨c, -, h⟩ := Action.error_or_exists_of_bind_eq_error h
    · exact .inl (hCursor hRead)
    · cases h

theorem isStoreFailure_of_ofRaw {raw : RawEvent} {e : Error} (h : ofRaw raw = .error e) :
    e.isStoreFailure = false := by
  obtain ⟨reason, rfl⟩ | ⟨rest, rfl⟩ := of_ofRaw h
  · rfl
  · rfl

theorem isStoreFailure_of_readLines {number : Nat} {line : Bytes} {e : Error}
    (h : readLines number [line] = [.error e]) : e.isStoreFailure = !isText line := by
  rw [readLines] at h
  rw [isText]
  cases hText : Utf8.decodeChars line with
  | error fault =>
    simp only [hText] at h
    cases h
    rfl
  | ok text =>
    simp only [hText] at h
    split at h
    · cases h
    · obtain ⟨hLine, -⟩ := List.cons.inj h
      rw [readLine] at hLine
      split at hLine
      · cases hLine
        rfl
      · exact isStoreFailure_of_ofRaw hLine

end Event

end ForkLog
