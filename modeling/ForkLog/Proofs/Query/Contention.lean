import Mathlib
import ForkLog.Proofs.Query
import ForkLog.Proofs.Store.Checkpointed

/-! # Ranges while others write

A range takes several calls of the store, and between two of them anything may be written. Still it
answers as it would have done at its first call. Every key that is passed over lies behind the user
keys, except that of the empty text, so a second call is made only when all user keys are behind.
-/

namespace ForkLog

set_option autoImplicit false

namespace Key

/-- All user keys come before. -/
def Past (key : Bytes) : Prop := ∀ other, isUser other = true → other < key

theorem Past.mono {key higher : Bytes} (h : Past key) (hLe : key ≤ higher) : Past higher :=
  fun other hOther => Bytes.lt_of_lt_of_le (h other hOther) hLe

theorem Past.isUser_eq_false {key : Bytes} (h : Past key) : isUser key = false := by
  rw [← Bool.not_eq_true]
  intro hUser
  exact List.lt_irrefl key (h key hUser)

theorem past_of_isUser_eq_false {text : String} {key : Bytes} (hLow : user text ≤ key)
    (hOther : isUser key = false) (hKey : key ≠ user "") : Past key := by
  rw [user] at hLow
  cases key with
  | nil => exact absurd hLow (by simp)
  | cons mark rest =>
    have hLess : userMark < mark := by
      obtain hLess | ⟨rfl, -⟩ := List.cons_le_cons_iff.mp hLow
      · exact hLess
      · cases rest with
        | nil => exact absurd rfl hKey
        | cons first others => exact absurd hOther (by simp [isUser])
    intro other hUser
    obtain ⟨first, others, rfl⟩ := isUser_iff.mp hUser
    exact List.cons_lt_cons_iff.mpr (.inl hLess)

end Key

/-- Contents that one reader shares with those who write to them. -/
structure Contended where
  contents : Contents
  /-- What is written after the next call of the reader, after the call that follows it, and so on. -/
  writes : Nat → List Store.Write
  /-- So many calls and one more are the most that the reader makes for one range. -/
  patience : Nat

namespace Contended

variable {α : Type}

/-- After a call of the reader it is the others' turn. -/
def next (s : Contended) (contents : Contents) : Contended :=
  { s with
    contents := Store.afterWrites (s.writes 0) contents
    writes := fun n => s.writes (n + 1) }

def call (step : Action Contents α) : Action Contended α := Action.within contents next step

instance : Store Contended where
  get key := call (Store.get key)
  getMany keys := call (Store.getMany keys)
  put key value := call (Store.put key value)
  deleteMany keys := call (Store.deleteMany keys)
  range start stop limit := call (Store.range start stop limit)
  startingWith beginning limit := call (Store.startingWith beginning limit)
  sync := call Store.sync
  bound s := s.patience

theorem range_eq (contents : Contents) (writes : Nat → List Store.Write) (patience : Nat)
    (start stop : Bytes) {wanted : Nat} (h : wanted ≠ 0) :
    Store.range start stop wanted (⟨contents, writes, patience⟩ : Contended) =
      .ok ((contents.between start stop).take wanted)
        ⟨Store.afterWrites (writes 0) contents, fun n => writes (n + 1), patience⟩ := by
  simp [Store.range, call, Action.within, next, Contents.limited, h]

end Contended

namespace Query

variable {contents : Contents} {writes : Nat → List Store.Write} {patience : Nat}
  {start stop : Bytes} {limit : Nat} {found : List Entry}

/-- As long as nobody writes, a reader that shares contents gathers what it would gather alone. -/
theorem gather_alone (calls : Nat) (hFound : found.length ≤ limit) :
    (gather stop limit calls start found).outcome (⟨contents, fun _ => [], patience⟩ : Contended) =
      (gather stop limit calls start found).outcome contents := by
  induction calls generalizing start found with
  | zero => rfl
  | succ calls ih =>
    have hWanted : limit + 1 - found.length ≠ 0 := by omega
    rw [outcome_gather_succ (Contended.range_eq _ _ _ _ _ hWanted),
      outcome_gather_succ (range_eq _ _ _ hWanted)]
    split
    · rfl
    · next hMore => exact ih (Nat.not_lt.mp (not_or.mp hMore).2)

theorem le_resume {wanted : Nat} :
    start ≤ resume start ((contents.between start stop).take wanted) := by
  rw [resume]
  cases hLast : ((contents.between start stop).take wanted).getLast? with
  | none => exact List.le_refl start
  | some last => exact Contents.le_after_of_mem (List.mem_of_mem_take (List.mem_of_getLast? hLast))

theorem usersBetween_eq_nil (h : Key.Past start) : contents.usersBetween start stop = [] := by
  rw [Contents.usersBetween, List.filter_eq_nil_iff]
  rintro ⟨key, value⟩ hMem
  have hLow := (Contents.mem_between_iff.mp hMem).2.1
  rw [(h.mono hLow).isUser_eq_false]
  exact Bool.false_ne_true

/-- Behind the user keys nothing more is gathered, whatever is written. -/
theorem gather_of_past (calls : Nat) (hPast : Key.Past start) (hFound : found.length ≤ limit) :
    (gather stop limit calls start found).outcome (⟨contents, writes, patience⟩ : Contended) =
        .ok none ∨
      (gather stop limit calls start found).outcome (⟨contents, writes, patience⟩ : Contended) =
        .ok (some found) := by
  induction calls generalizing contents writes start with
  | zero => exact .inl rfl
  | succ calls ih =>
    have hNone : ((contents.between start stop).take (limit + 1 - found.length)).filter
        (fun e => Key.isUser e.1) = [] :=
      List.sublist_nil.mp (usersBetween_eq_nil hPast ▸ (List.take_sublist _ _).filter _)
    rw [outcome_gather_succ (Contended.range_eq _ _ _ _ _ (by omega)), hNone, List.append_nil]
    split
    · exact .inr rfl
    · exact ih (hPast.mono le_resume)

/-- Once an entry was met that is no user entry, the next call begins behind the user keys. -/
theorem past_resume {text : String} {batch : List Entry}
    (hBatch : batch.Sublist (contents.between (Key.user text) stop))
    (hEmpty : text = "" → contents[Key.user ""]? = none)
    (hOther : (batch.filter fun e => Key.isUser e.1).length < batch.length) :
    Key.Past (resume (Key.user text) batch) := by
  obtain ⟨⟨key, value⟩, hMem, hUser⟩ := List.length_filter_lt_length_iff_exists.mp hOther
  have hPast : Key.Past key := by
    obtain ⟨hValue, hLow, -⟩ := Contents.mem_between_iff.mp (hBatch.subset hMem)
    refine Key.past_of_isUser_eq_false hLow (Bool.eq_false_of_not_eq_true hUser) ?_
    rintro rfl
    have hText : text = "" := by
      have hRest : Utf8.encode text ≤ Utf8.encode "" :=
        (List.cons_le_cons_iff.mp hLow).resolve_left (UInt8.lt_irrefl _) |>.2
      exact Utf8.encode_injective (List.le_nil.mp hRest)
    rw [hEmpty hText] at hValue
    cases hValue
  -- The batch is in key order, so its last key is behind the user keys as well.
  obtain ⟨front, last, rfl⟩ := (List.eq_nil_or_concat' batch).resolve_left (List.ne_nil_of_mem hMem)
  have hLast : key ≤ last.1 := by
    have hSorted := (contents.pairwise_between (Key.user text) stop).sublist hBatch
    obtain hFront | hEq := List.mem_append.mp hMem
    · exact List.le_of_lt ((List.pairwise_append.mp hSorted).2.2 _ hFront last List.mem_cons_self)
    · rw [← List.mem_singleton.mp hEq]
      exact List.le_refl key
  rw [resume, List.getLast?_concat, Option.elim_some]
  exact hPast.mono (List.le_trans hLast List.le_append_left)

/-- What is gathered while others write is what there was at the first call, unless the calls do not
do. -/
theorem gather_contended {text : String} (hEmpty : text = "" → contents[Key.user ""]? = none)
    (calls : Nat) :
    (gather stop limit calls (Key.user text) []).outcome (⟨contents, writes, patience⟩ : Contended) =
        .ok none ∨
      (gather stop limit calls (Key.user text) []).outcome
          (⟨contents, writes, patience⟩ : Contended) =
        .ok (some ((contents.usersBetween (Key.user text) stop).take (limit + 1))) := by
  cases calls with
  | zero => exact .inl rfl
  | succ calls =>
    -- The first call meets the same batch as if nobody wrote. If it is not the last one, the others
    -- add nothing in either case.
    have hAlone : (gather stop limit ((contents.between (Key.user text) stop).length + 1)
        (Key.user text) []).outcome (⟨contents, fun _ => [], 0⟩ : Contended) =
          .ok (some ((contents.usersBetween (Key.user text) stop).take (limit + 1))) := by
      rw [gather_alone _ (Nat.zero_le limit), Action.outcome,
        gather_eq (Nat.lt_succ_self _) (Nat.zero_le limit), List.nil_append]
    rw [outcome_gather_succ (Contended.range_eq _ _ _ _ _ (by simp))] at hAlone ⊢
    simp only [List.length_nil, Nat.sub_zero, List.nil_append] at hAlone ⊢
    generalize hBatch : (contents.between (Key.user text) stop).take (limit + 1) = batch
      at hAlone ⊢
    split at hAlone
    case isTrue hEnd =>
      rw [if_pos hEnd]
      exact .inr hAlone
    case isFalse hMore =>
      obtain ⟨hLong, hRoom⟩ := not_or.mp hMore
      have hPast : Key.Past (resume (Key.user text) batch) :=
        past_resume (hBatch ▸ List.take_sublist _ _) hEmpty (by omega)
      rw [if_neg hMore]
      obtain hNone | hSame := gather_of_past _ hPast (Nat.not_lt.mp hRoom)
      · rw [hNone] at hAlone
        cases hAlone
      · rw [← hAlone, hSame]
        exact gather_of_past calls hPast (Nat.not_lt.mp hRoom)

/-- When the others have stopped writing, the calls come to an end. -/
theorem exists_gather_eq (rounds : Nat) (hQuiet : ∀ n, rounds ≤ n → writes n = [])
    (hFound : found.length ≤ limit) :
    ∃ calls gathered, ∀ patience, (gather stop limit calls start found).outcome
      (⟨contents, writes, patience⟩ : Contended) = .ok (some gathered) := by
  induction rounds generalizing contents writes start found with
  | zero =>
    obtain rfl : writes = fun _ => [] := funext fun n => hQuiet n (Nat.zero_le n)
    refine ⟨(contents.between start stop).length + 1,
      (found ++ contents.usersBetween start stop).take (limit + 1), fun patience => ?_⟩
    rw [gather_alone _ hFound, Action.outcome, gather_eq (Nat.lt_succ_self _) hFound]
  | succ rounds ih =>
    have hWanted : limit + 1 - found.length ≠ 0 := by omega
    have hShared (patience : Nat) :=
      Contended.range_eq contents writes patience start stop hWanted
    generalize (contents.between start stop).take (limit + 1 - found.length) = batch at hShared
    by_cases hEnd : batch.length < limit + 1 - found.length ∨
        limit < (found ++ batch.filter fun e => Key.isUser e.1).length
    · refine ⟨1, found ++ batch.filter fun e => Key.isUser e.1, fun patience => ?_⟩
      rw [outcome_gather_succ (hShared patience), if_pos hEnd]
    · obtain ⟨calls, gathered, hRest⟩ := ih (fun n hn => hQuiet (n + 1) (Nat.succ_le_succ hn))
        (Nat.not_lt.mp (not_or.mp hEnd).2)
      refine ⟨calls + 1, gathered, fun patience => ?_⟩
      rw [outcome_gather_succ (hShared patience), if_neg hEnd]
      exact hRest patience

/-- The answer to a range for which the calls did not do. -/
def unfinished : Error := .store "range is not at an end"

/-- The answer to a range is told by what was gathered for it. -/
theorem outcome_runRange_of_gather {found? : Option (List Entry)} {start stop : String}
    (h : (gather (rangeEnd stop) limit (patience + 1) (Key.user start) []).outcome
      (⟨contents, writes, patience⟩ : Contended) = .ok found?) :
    (runRange start stop limit).outcome (⟨contents, writes, patience⟩ : Contended) =
      found?.elim (.error unfinished) fun found => toPage found limit := by
  obtain ⟨s, hGather⟩ := Action.exists_of_outcome_eq_ok h
  have hGet : (MonadState.get : Action Contended Contended) ⟨contents, writes, patience⟩ =
      .ok ⟨contents, writes, patience⟩ ⟨contents, writes, patience⟩ := rfl
  rw [runRange, Action.outcome_bind_of_ok hGet]
  refine (Action.outcome_bind_of_ok hGather _).trans ?_
  cases found? with
  | none => rfl
  | some found => exact Action.outcome_ofExcept _ s

theorem outcome_runRange_eq_of_gather {start stop : String}
    (h : (gather (rangeEnd stop) limit (patience + 1) (Key.user start) []).outcome
      (⟨contents, writes, patience⟩ : Contended) =
        .ok (some ((contents.usersBetween (Key.user start) (rangeEnd stop)).take (limit + 1)))) :
    (runRange start stop limit).outcome (⟨contents, writes, patience⟩ : Contended) =
      (runRange start stop limit).outcome contents := by
  rw [outcome_runRange_of_gather h, Option.elim_some, toPage_take, outcome_runRange]

theorem outcome_runRange_contended {start : String}
    (hEmpty : start = "" → contents[Key.user ""]? = none) (patience : Nat) (stop : String)
    (limit : Nat) :
    (runRange start stop limit).outcome (⟨contents, writes, patience⟩ : Contended) =
        .error unfinished ∨
      (runRange start stop limit).outcome (⟨contents, writes, patience⟩ : Contended) =
        (runRange start stop limit).outcome contents := by
  obtain hNone | hSome := gather_contended hEmpty (patience + 1)
  · exact .inl (outcome_runRange_of_gather hNone)
  · exact .inr (outcome_runRange_eq_of_gather hSome)

theorem exists_outcome_runRange_eq {start : String}
    (hEmpty : start = "" → contents[Key.user ""]? = none) {rounds : Nat}
    (hQuiet : ∀ n, rounds ≤ n → writes n = []) (stop : String) (limit : Nat) :
    ∃ patience, (runRange start stop limit).outcome (⟨contents, writes, patience⟩ : Contended) =
      (runRange start stop limit).outcome contents := by
  have hFound : ([] : List Entry).length ≤ limit := Nat.zero_le limit
  obtain ⟨calls, gathered, hEnd⟩ := exists_gather_eq rounds hQuiet hFound
  cases calls with
  | zero => cases hEnd 0
  | succ patience =>
    refine ⟨patience, ?_⟩
    obtain hNone | hSome := gather_contended hEmpty (patience + 1)
    · cases hNone.symm.trans (hEnd patience)
    · exact outcome_runRange_eq_of_gather hSome

/-- A range answers as it would have done if everything had stood still from its first call on,
whatever is written between its calls. Where the others stop writing after some time it does answer. -/
theorem range_atomic {start : String} (hEmpty : start = "" → contents[Key.user ""]? = none)
    (writes : Nat → List Store.Write) (rowsLimit : Nat) (stop : String) (limit : Nat) :
    (∀ patience,
      answer rowsLimit (.range start stop limit) (⟨contents, writes, patience⟩ : Contended) =
          some (.error unfinished) ∨
        answer rowsLimit (.range start stop limit) (⟨contents, writes, patience⟩ : Contended) =
          answer rowsLimit (.range start stop limit) contents) ∧
    ((∃ rounds, ∀ n, rounds ≤ n → writes n = []) → ∃ patience,
      answer rowsLimit (.range start stop limit) (⟨contents, writes, patience⟩ : Contended) =
        answer rowsLimit (.range start stop limit) contents) := by
  simp only [answer_range_eq_runRange]
  constructor
  · intro patience
    obtain hUnfinished | hSame := outcome_runRange_contended hEmpty patience stop limit
    · rw [hUnfinished]
      split
      · cases checkLimit rowsLimit limit with
        | error e => exact .inr rfl
        | ok _ => exact .inl rfl
      · exact .inr rfl
    · rw [hSame]
      exact .inr rfl
  · rintro ⟨rounds, hQuiet⟩
    obtain ⟨patience, hSame⟩ := exists_outcome_runRange_eq hEmpty hQuiet stop limit
    exact ⟨patience, by rw [hSame]⟩

/-- Two user records, the cursor and an undo record. -/
def fewKeys : Contents :=
  .ofEntries [(Key.user "a", [0x31]), (Key.user "b", [0x32]), (Key.cursor, [0x35]),
    (Key.undo 3, [0x75])]

def meddling : Nat → List Store.Write
  | 0 => [.deleteMany [Key.user "a"], .put (Key.user "c") [0x33], .put (Key.undo 4) [0x75], .sync]
  | 1 => [.put (Key.undo 2) [0x75], .deleteMany [Key.user "b", Key.undo 3], .put Key.cursor [0x36]]
  | _ => []

/-- Two user records are found and counted at the first call, and then they are gone. -/
theorem range_atomic_meddling :
    fewKeys[Key.user ""]? = none ∧ (∀ n, 2 ≤ n → meddling n = []) ∧
      (∃ patience, answer 10 (.range "" "" 2) (⟨fewKeys, meddling, patience⟩ : Contended) =
        some (.ok ⟨[⟨"a", [0x31]⟩, ⟨"b", [0x32]⟩], false⟩)) ∧
      answer 10 (.range "" "" 2) (Store.afterWrites (meddling 1)
        (Store.afterWrites (meddling 0) fewKeys)) = some (.ok ⟨[⟨"c", [0x33]⟩], false⟩) := by
  have hEmpty : fewKeys[Key.user ""]? = none := by decide +kernel
  have hQuiet : ∀ n, 2 ≤ n → meddling n = [] := by
    intro n hn
    obtain ⟨more, rfl⟩ := Nat.exists_eq_add_of_le' hn
    rfl
  obtain ⟨-, hAnswers⟩ := range_atomic (fun _ => hEmpty) meddling 10 "" 2
  obtain ⟨patience, hSame⟩ := hAnswers ⟨2, hQuiet⟩
  refine ⟨hEmpty, hQuiet, ⟨patience, hSame.trans ?_⟩, ?_⟩
  · decide +kernel
  · decide +kernel

-- The record of the empty text is passed over in front of the user keys. A second call is then made
-- among them.
example :
    let contents : Contents := .ofEntries [(Key.user "", [0x30]), (Key.user "a", [0x31])]
    let writes : Nat → List Store.Write := fun n => if n = 0 then [.put (Key.user "b") [0x32]] else []
    answer 10 (.range "" "" 1) (⟨contents, writes, 3⟩ : Contended) =
        some (.ok ⟨[⟨"a", [0x31]⟩], true⟩) ∧
      answer 10 (.range "" "" 1) contents = some (.ok ⟨[⟨"a", [0x31]⟩], false⟩) := by
  decide +kernel

end Query

end ForkLog
