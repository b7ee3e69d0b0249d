import ForkLog.Proofs.Event.Line
import ForkLog.Proofs.Event.Source

/-! # Sources are read back

The lines of events, one after another, are a source that has these events and no others. Nothing
that stands in a key or in a token can end a line, and no line is passed over as a blank one.
-/

namespace ForkLog.Event

set_option autoImplicit false

/-- The bytes are a line of any source in which they stand between newlines. -/
def IsLine (line : Bytes) : Prop := line ≠ [] ∧ newline ∉ line ∧ carriageReturn ∉ line

theorem IsLine.chop_eq {line : Bytes} (h : IsLine line) : chop line = line :=
  if_neg fun hLast => h.2.2 (List.mem_of_getLast? hLast)

theorem map_chop_eq {found : List Bytes} (h : ∀ line ∈ found, IsLine line) :
    found.map chop = found := by
  rw [List.map_congr_left fun line hLine => (h line hLine).chop_eq, List.map_id']

def join (found : List Bytes) : Bytes := [newline].intercalate found

theorem splitAtEach_join {found : List Bytes} (h : ∀ line ∈ found, IsLine line)
    (hSome : found ≠ []) : splitAtEach newline (join found) = found :=
  splitAtEach_intercalate (fun line hLine => (h line hLine).2.1) hSome

theorem lines_join {found : List Bytes} (h : ∀ line ∈ found, IsLine line) :
    lines (join found) = found := by
  cases List.eq_nil_or_concat' found with
  | inl hNone => rw [hNone]; rfl
  | inr hSome =>
    obtain ⟨front, last, rfl⟩ := hSome
    obtain ⟨hFront, hLast⟩ := List.forall_mem_append.mp h
    have hChop := map_chop_eq hFront
    rw [lines, splitAtEach_join h (by simp), linesOfPieces_append _ (List.cons_ne_nil last []),
      hChop, linesOfPieces, if_neg]
    simpa using (hLast last List.mem_cons_self).1

theorem lines_join_newline {found : List Bytes} (h : ∀ line ∈ found, IsLine line)
    (hSome : found ≠ []) : lines (join found ++ [newline]) = found := by
  rw [lines, splitAtEach_append_mark, splitAtEach_join h hSome, splitAtEach_nil,
    linesOfPieces_append _ (List.cons_ne_nil [] []), map_chop_eq h]
  exact List.append_nil found

def encodeLine (event : Event) : Bytes := Utf8.encodeChars event.writeLine

theorem le_of_mem_encodeLine {event : Event} {b : UInt8} (h : b ∈ event.encodeLine) :
    0x20 ≤ b.toNat := by
  obtain ⟨c, hc, hb⟩ := List.mem_flatMap.mp h
  have hPrintable := printable_writeLine event c hc
  by_cases hAscii : b.toNat < 0x80
  · rwa [← Utf8.toNat_eq_of_mem_encodeChar hb hAscii]
  · omega

theorem isLine_encodeLine (event : Event) : IsLine event.encodeLine := by
  refine ⟨?_, fun hMem => absurd (le_of_mem_encodeLine hMem) (by decide),
    fun hMem => absurd (le_of_mem_encodeLine hMem) (by decide)⟩
  rw [encodeLine, writeLine_eq]
  exact List.cons_ne_nil _ _

theorem readLines_encodeLine {events : List Event}
    (h : ∀ event ∈ events, ':' ∉ event.cursor.blockId.toList) (number : Nat) :
    readLines number (events.map encodeLine) = events.map .ok := by
  induction events generalizing number with
  | nil => rfl
  | cons event events ih =>
    obtain ⟨hEvent, hEvents⟩ := List.forall_mem_cons.mp h
    simp only [List.map_cons, readLines, encodeLine, Utf8.decodeChars_encodeChars,
      all_isBlank_writeLine, readLine_writeLine (number + 1) hEvent]
    rw [if_neg (by decide)]
    exact congrArg (_ :: ·) (ih hEvents (number + 1))

theorem not_mem_of_readLines {number : Nat} {found : List Bytes} {event : Event}
    (h : .ok event ∈ readLines number found) : ':' ∉ event.cursor.blockId.toList := by
  induction found generalizing number with
  | nil => exact absurd h List.not_mem_nil
  | cons line found ih =>
    rw [readLines] at h
    split at h
    case h_1 =>
      obtain hLine | hRest := List.mem_cons.mp h
      · cases hLine
      · exact ih hRest
    case h_2 text _ =>
      split at h
      · exact ih h
      · obtain hLine | hRest := List.mem_cons.mp h
        · exact not_mem_of_readLine hLine.symm
        · exact ih hRest

def encodeAll (events : List Event) : Bytes := join (events.map encodeLine)

/-- The events are read back from their lines, whether or not a newline ends the last one. -/
def ReadBack (events : List Event) : Prop :=
  readAll (encodeAll events) = events.map .ok ∧
    readAll (encodeAll events ++ [newline]) = events.map .ok

theorem readBack_of_not_mem {events : List Event}
    (h : ∀ event ∈ events, ':' ∉ event.cursor.blockId.toList) : ReadBack events := by
  have hLines : ∀ line ∈ events.map encodeLine, IsLine line :=
    List.forall_mem_map.mpr fun event _ => isLine_encodeLine event
  constructor
  · rw [readAll, encodeAll, lines_join hLines, readLines_encodeLine h]
  · cases events with
    | nil => rfl
    | cons event events =>
      rw [readAll, encodeAll, lines_join_newline hLines (List.cons_ne_nil _ _),
        readLines_encodeLine h]

/-- Events are read back if and only if no block id of a cursor has a colon, which no event has that
was read from any source. -/
theorem events_round_trip (events : List Event) :
    (ReadBack events ↔ ∀ event ∈ events, ':' ∉ event.cursor.blockId.toList) ∧
      ((∀ event ∈ events, ∃ source, .ok event ∈ readAll source) → ReadBack events) := by
  refine ⟨⟨fun hRead event hEvent => ?_, readBack_of_not_mem⟩, fun hFound => ?_⟩
  · have hMem : .ok event ∈ readAll (encodeAll events) := by
      rw [hRead.1]
      exact List.mem_map_of_mem hEvent
    exact not_mem_of_readLines hMem
  · refine readBack_of_not_mem fun event hEvent => ?_
    obtain ⟨source, hSource⟩ := hFound event hEvent
    exact not_mem_of_readLines hSource

end ForkLog.Event
