import Mathlib
import ForkLog.Proofs.OperationLog.KeySpace
import ForkLog.Proofs.Query

/-! # What queries see

Answers are read off the keys with the mark of user records, and among the calls of a log only a flush
touches one of these. Until the next flush every query has one answer, although undo records and the
cursor come and go in the middle of the range that an open end reaches over.
-/

namespace ForkLog

set_option autoImplicit false

namespace Contents

/-- The contents agree on every key with the mark of user records, of a text or not. -/
def SameUsers (contents other : Contents) : Prop :=
  ∀ rest : Bytes, other[Key.userMark :: rest]? = contents[Key.userMark :: rest]?

variable {contents other : Contents}

namespace SameUsers

theorem refl (contents : Contents) : contents.SameUsers contents := fun _ => rfl

theorem of_accords {third : Contents} (h : contents.SameUsers other) (hAccords : other.Accords third) :
    contents.SameUsers third := by
  intro rest
  rw [← h rest]
  apply hAccords
  rintro ⟨hLow, -⟩
  apply hLow
  rw [Key.undo, Key.undoMark, List.cons_append, List.cons_lt_cons_iff]
  exact .inl (by decide)

theorem insert_cursor (h : contents.SameUsers other) (text : Bytes) :
    contents.SameUsers (other.insert Key.cursor text) := by
  intro rest
  rw [getElem?_insert, if_neg, h rest]
  intro hKey
  exact absurd (List.cons.inj hKey).1 (by decide)

/-- Entries that are picked among those with the mark are the same ones in the same order. -/
theorem lists (h : contents.SameUsers other) {picks : Bytes → Prop} {entries : List Entry}
    (hPicks : ∀ key, picks key → ∃ rest, key = Key.userMark :: rest)
    (hLists : contents.Lists picks entries) : other.Lists picks entries where
  ascending := hLists.ascending
  mem_iff key value := by
    rw [hLists.mem_iff]
    apply and_congr_left
    intro hKey
    obtain ⟨rest, rfl⟩ := hPicks key hKey
    rw [h rest]

theorem usersBetween_eq (h : contents.SameUsers other) (start stop : Bytes) :
    other.usersBetween start stop = contents.usersBetween start stop := by
  refine (other.lists_usersBetween start stop).unique
    (h.lists ?_ (contents.lists_usersBetween start stop))
  rintro key ⟨hUser, -⟩
  obtain ⟨first, rest, hKey⟩ := Key.isUser_iff.mp hUser
  exact ⟨first :: rest, hKey⟩

theorem beginningWith_eq (h : contents.SameUsers other) (beginning : String) :
    other.beginningWith (Key.user beginning) = contents.beginningWith (Key.user beginning) := by
  refine (other.lists_beginningWith (Key.user beginning)).unique
    (h.lists ?_ (contents.lists_beginningWith (Key.user beginning)))
  rintro _ ⟨rest, rfl⟩
  exact ⟨_, rfl⟩

end SameUsers

end Contents

namespace Query

/-- The answer depends on nothing but the user records. -/
theorem answer_congr {contents other : Contents} (h : contents.SameUsers other) (rowsLimit : Nat)
    {α : Type} (query : Query α) :
    answer rowsLimit query other = answer rowsLimit query contents := by
  have hGet (key : String) : other[Key.user key]? = contents[Key.user key]? := h _
  cases query with
  | get key => rw [answer_get, answer_get, hGet]
  | getMany keys => simp only [answer_getMany, hGet]
  | startingWith beginning limit =>
    rw [answer_startingWith, answer_startingWith, h.beginningWith_eq]
  | range start stop limit => rw [answer_range, answer_range, h.usersBetween_eq]

end Query

namespace OperationLog

theorem overlooks_sameUsers (contents : Contents) :
    Checkpointed.Overlooks fun s => contents.SameUsers s.current :=
  fun _ _ hAccords hs => hs.of_accords hAccords

/-- No call but a flush touches the user records. -/
theorem keepsStore_sameUsers (contents : Contents) {call : Call} (hCall : call.flushes = false) :
    KeepsStore contents.SameUsers (call.make : Action (OperationLog Contents) Unit) := by
  have hStore : Store.Falters (fun (s : Contents) (t : Checkpointed) => s = t.current)
      fun _ => False := (Store.simulation_contents.falters _).checkpointed
  have hKept := keepsStore_of_overlooks hStore (overlooks_sameUsers contents)
    (fun _ text hs => hs.insert_cursor text) (fun _ => id) hCall
  refine hKept.imp (fun log hLog => ⟨.ofContents log.store, rfl, hLog⟩) ?_ ?_
  · rintro _ log ⟨s, hSame, hs⟩
    exact hSame ▸ hs
  · rintro log ⟨s, hSame, hs⟩
    exact hSame ▸ hs

theorem sameUsers_afterCalls {calls : List Call} (hCalls : ∀ call ∈ calls, call.flushes = false)
    {contents : Contents} {log : OperationLog Contents} (h : contents.SameUsers log.store) :
    contents.SameUsers (afterCalls calls log).store := by
  induction calls generalizing log with
  | nil => exact h
  | cons call calls ih =>
    obtain ⟨hCall, hCalls⟩ := List.forall_mem_cons.mp hCalls
    have hLeft := (keepsStore_sameUsers contents hCall).leave h
    rw [← Call.leave_eq] at hLeft
    exact ih hCalls hLeft

/-- Between two flushes every query has one answer, whatever else the log is called for and whether the
calls succeed or fail. -/
theorem answer_between_flushes {calls : List Call} (hCalls : ∀ call ∈ calls, call.flushes = false)
    (log : OperationLog Contents) (rowsLimit : Nat) {α : Type} (query : Query α) :
    query.answer rowsLimit (afterCalls calls log).store = query.answer rowsLimit log.store :=
  Query.answer_congr (sameUsers_afterCalls hCalls (.refl _)) rowsLimit query

def twoKeys : OperationLog Contents :=
  afterCalls [.add [.assign "a" [0x31], .assign "b" [0x32]], .flush (.blank 1)] (.ofStore ∅)

def busyUndo : List Call :=
  [.record 2 [.remove "a"], .record 3 [.assign "c" [0x33]], .add [.remove "a", .assign "c" [0x33]],
    .replay 1, .record 4 [⟨⟨.unset, []⟩, "b"⟩], .purge 2, .writeCursor (.blank 3)]

/-- A range with an open end takes one call of the store more once an undo record has come. -/
theorem answer_between_flushes_two_keys :
    (∀ call ∈ busyUndo, call.flushes = false) ∧
      (afterCalls busyUndo twoKeys).store.entries.map Prod.fst =
        [Key.user "a", Key.user "b", Key.cursor, Key.undo 3] ∧
      twoKeys.store.entries.map Prod.fst = [Key.user "a", Key.user "b", Key.cursor] ∧
      (Query.range "" "" 2).answer 10 (afterCalls busyUndo twoKeys).store =
        some (.ok ⟨[⟨"a", [0x31]⟩, ⟨"b", [0x32]⟩], false⟩) := by
  have hCalls : ∀ call ∈ busyUndo, call.flushes = false := by decide
  refine ⟨hCalls, by decide +kernel, by decide +kernel, ?_⟩
  rw [answer_between_flushes hCalls twoKeys 10 (.range "" "" 2)]
  decide +kernel

end OperationLog

end ForkLog
