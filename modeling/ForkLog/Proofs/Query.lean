import Mathlib
import ForkLog.Proofs.Action
import ForkLog.Proofs.Store.Contents
import ForkLog.Query

/-! # What queries answer

The entries of a range come in batches, each from right behind the last key of the one before. What is
gathered from them are the user entries of the range in key order, up to one more than were asked for,
whatever other entries stand between them. The entries that begin with a key follow each other, so that
looking for them ends at the first one that does not.
-/

namespace ForkLog

set_option autoImplicit false

/-- Between a key and the key right behind it there is none. -/
theorem Bytes.lt_iff_after_le (key other : Bytes) : key < other ↔ Query.after key ≤ other := by
  induction key generalizing other with
  | nil =>
    cases other with
    | nil => simp [Query.after]
    | cons b other =>
      have hLow : ¬ b < 0 := UInt8.not_lt.mpr UInt8.zero_le
      simp [Query.after, ← List.not_lt, List.cons_lt_cons_iff, hLow]
  | cons a key ih =>
    cases other with
    | nil => simp [Query.after, ← List.not_lt]
    | cons b other =>
      have hRest := ih other
      rw [Query.after] at hRest
      rw [Query.after, List.cons_append, List.cons_lt_cons_iff, List.cons_le_cons_iff, hRest]

/-- The keys that begin with a key follow each other. -/
theorem Bytes.prefix_of_between {beginning a b : Bytes} (hLow : beginning ≤ a) (hab : a ≤ b)
    (hb : beginning <+: b) : beginning <+: a := by
  induction beginning generalizing a b with
  | nil => exact List.nil_prefix
  | cons x beginning ih =>
    obtain ⟨rest, rfl⟩ := hb
    cases a with
    | nil => exact absurd hLow (by simp)
    | cons y a =>
      rw [List.cons_le_cons_iff] at hLow
      rw [List.cons_append, List.cons_le_cons_iff] at hab
      obtain hxy | ⟨rfl, hLow⟩ := hLow
      · obtain hyx | ⟨rfl, -⟩ := hab
        · exact absurd hyx (UInt8.lt_asymm hxy)
        · exact absurd hxy (UInt8.lt_irrefl y)
      · obtain hxx | ⟨-, hab⟩ := hab
        · exact absurd hxx (UInt8.lt_irrefl x)
        · rw [List.prefix_cons_inj]
          exact ih hLow hab (List.prefix_append beginning rest)

theorem takeWhile_eq_filter {α : Type} {picks : α → Bool} {items : List α}
    (h : items.Pairwise fun a b => picks b = true → picks a = true) :
    items.takeWhile picks = items.filter picks := by
  induction items with
  | nil => rfl
  | cons a items ih =>
    obtain ⟨hFirst, hRest⟩ := List.pairwise_cons.mp h
    cases hPick : picks a with
    | true => rw [List.takeWhile_cons_of_pos hPick, List.filter_cons_of_pos hPick, ih hRest]
    | false =>
      have hNot : ¬ picks a = true := Bool.not_eq_true _ ▸ hPick
      have hNone : items.filter picks = [] :=
        List.filter_eq_nil_iff.mpr fun b hb hOther => hNot (hFirst b hb hOther)
      rw [List.takeWhile_cons_of_neg hNot, List.filter_cons_of_neg hNot, hNone]

namespace Contents

/-- The entries are those of the contents whose keys are picked, in key order. -/
structure Lists (contents : Contents) (picks : Bytes → Prop) (entries : List Entry) : Prop where
  ascending : entries.Pairwise fun a b => a.1 < b.1
  mem_iff : ∀ key value, (key, value) ∈ entries ↔ contents[key]? = some value ∧ picks key

theorem lists_filter (contents : Contents) {picks : Bytes → Prop} {pick : Entry → Bool}
    (h : ∀ e, pick e = true ↔ picks e.1) : contents.Lists picks (contents.entries.filter pick) where
  ascending := contents.pairwise_entries.filter pick
  mem_iff key value := by rw [List.mem_filter, mem_entries_iff, h]

theorem Lists.unique {contents : Contents} {picks : Bytes → Prop} {entries others : List Entry}
    (h : contents.Lists picks entries) (h' : contents.Lists picks others) : entries = others := by
  have hNodup {list : List Entry} (hList : contents.Lists picks list) : list.Nodup := by
    refine List.nodup_iff_pairwise_ne.mpr (hList.ascending.imp ?_)
    rintro e _ hLess rfl
    exact List.lt_irrefl e.1 hLess
  have hPerm : entries.Perm others := by
    rw [List.perm_ext_iff_of_nodup (hNodup h) (hNodup h')]
    exact fun e => (h.mem_iff e.1 e.2).trans (h'.mem_iff e.1 e.2).symm
  refine hPerm.eq_of_pairwise ?_ h.ascending h'.ascending
  intro a b _ _ hab hba
  exact absurd hba (List.lt_asymm hab)

theorem beginningWith_eq_filter (contents : Contents) (beginning : Bytes) :
    contents.beginningWith beginning =
      contents.entries.filter fun e => beginning.isPrefixOf e.1 := by
  have hSorted : (contents.entries.filter fun e => beginning ≤ e.1).Pairwise fun a b =>
      beginning.isPrefixOf b.1 = true → beginning.isPrefixOf a.1 = true := by
    refine (contents.pairwise_entries.filter _).imp_of_mem fun {a b} ha _ hLess hPrefix => ?_
    obtain ⟨-, hLow⟩ := List.mem_filter.mp ha
    rw [List.isPrefixOf_iff_prefix] at hPrefix ⊢
    exact Bytes.prefix_of_between (of_decide_eq_true hLow) (List.le_of_lt hLess) hPrefix
  rw [beginningWith, takeWhile_eq_filter hSorted, List.filter_filter]
  apply List.filter_congr
  intro e _
  rw [Bool.and_eq_left_iff_imp, List.isPrefixOf_iff_prefix]
  exact fun hPrefix => decide_eq_true hPrefix.le

theorem lists_beginningWith (contents : Contents) (beginning : Bytes) :
    contents.Lists (beginning <+: ·) (contents.beginningWith beginning) := by
  rw [beginningWith_eq_filter]
  exact contents.lists_filter fun _ => List.isPrefixOf_iff_prefix

/-- The entries of a range that are counted as user records. -/
def usersBetween (contents : Contents) (start stop : Bytes) : List Entry :=
  (contents.between start stop).filter fun e => Key.isUser e.1

variable {contents : Contents} {start stop : Bytes} {front rest : List Entry} {e : Entry}

theorem lists_usersBetween (contents : Contents) (start stop : Bytes) :
    contents.Lists (fun key => Key.isUser key = true ∧ start ≤ key ∧ key < stop)
      (contents.usersBetween start stop) := by
  rw [usersBetween, between, List.filter_filter]
  exact contents.lists_filter fun e => by simp only [Bool.and_eq_true, decide_eq_true_eq]

theorem pairwise_usersBetween (contents : Contents) (start stop : Bytes) :
    (contents.usersBetween start stop).Pairwise fun a b => a.1 < b.1 :=
  (contents.pairwise_between start stop).filter _

theorem length_between_le (contents : Contents) (start stop : Bytes) :
    (contents.between start stop).length ≤ contents.size := by
  rw [← Std.ExtTreeMap.length_toList]
  exact List.length_filter_le _ _

theorem filter_between {low : Bytes} (h : start ≤ low) :
    (contents.between start stop).filter (fun e => low ≤ e.1) = contents.between low stop := by
  rw [between, List.filter_filter, between]
  apply List.filter_congr
  intro e _
  by_cases hLow : low ≤ e.1
  · simp [hLow, List.le_trans h hLow]
  · simp [hLow]

/-- In key order, what is not before the key right behind an entry is what follows the entry. -/
theorem filter_after (h : (front ++ e :: rest).Pairwise fun a b => a.1 < b.1) :
    (front ++ e :: rest).filter (fun x => Query.after e.1 ≤ x.1) = rest := by
  obtain ⟨-, hRest, hAcross⟩ := List.pairwise_append.mp h
  obtain ⟨hNext, -⟩ := List.pairwise_cons.mp hRest
  have hFront : front.filter (fun x => decide (Query.after e.1 ≤ x.1)) = [] := by
    rw [List.filter_eq_nil_iff]
    intro x hx
    have hBelow := hAcross x hx e List.mem_cons_self
    rw [decide_eq_true_eq, ← Bytes.lt_iff_after_le]
    exact List.lt_asymm hBelow
  have hKept : rest.filter (fun x => decide (Query.after e.1 ≤ x.1)) = rest := by
    rw [List.filter_eq_self]
    intro x hx
    rw [decide_eq_true_eq, ← Bytes.lt_iff_after_le]
    exact hNext x hx
  have hSelf : ¬ Query.after e.1 ≤ e.1 := fun hLe =>
    List.lt_irrefl e.1 ((Bytes.lt_iff_after_le _ _).mpr hLe)
  rw [List.filter_append, hFront, List.nil_append, List.filter_cons_of_neg (by simpa using hSelf),
    hKept]

theorem filter_usersBetween {low : Bytes} (h : start ≤ low) :
    (contents.usersBetween start stop).filter (fun e => low ≤ e.1) =
      contents.usersBetween low stop := by
  rw [usersBetween, List.filter_comm, filter_between h, usersBetween]

theorem getElem?_of_mem_between (h : e ∈ contents.between start stop) :
    contents[e.1]? = some e.2 := by
  obtain ⟨key, value⟩ := e
  exact (mem_between_iff.mp h).1

theorem le_after_of_mem (h : e ∈ contents.between start stop) : start ≤ Query.after e.1 := by
  obtain ⟨key, value⟩ := e
  have hLow := (mem_between_iff.mp h).2.1
  exact List.le_trans hLow (List.le_of_lt ((Bytes.lt_iff_after_le _ _).mpr (List.le_refl _)))

theorem between_after (h : contents.between start stop = front ++ e :: rest) :
    contents.between (Query.after e.1) stop = rest := by
  have hMem : e ∈ contents.between start stop := h ▸ List.mem_append_right front List.mem_cons_self
  rw [← filter_between (le_after_of_mem hMem), h]
  exact filter_after (h ▸ contents.pairwise_between start stop)

theorem usersBetween_after (h : contents.usersBetween start stop = front ++ e :: rest) :
    contents.usersBetween (Query.after e.1) stop = rest := by
  have hMem : e ∈ contents.usersBetween start stop :=
    h ▸ List.mem_append_right front List.mem_cons_self
  rw [← filter_usersBetween (le_after_of_mem (List.mem_of_mem_filter hMem)), h]
  exact filter_after (h ▸ contents.pairwise_usersBetween start stop)

end Contents

namespace Query

variable {contents : Contents} {stop : Bytes} {limit : Nat}

theorem range_eq (contents : Contents) (start stop : Bytes) {wanted : Nat} (h : wanted ≠ 0) :
    Store.range start stop wanted contents =
      .ok ((contents.between start stop).take wanted) contents := by
  simp [Store.range, Contents.limited, h]

/-- Where the next call begins. -/
def resume (start : Bytes) (batch : List Entry) : Bytes :=
  batch.getLast?.elim start fun last => after last.1

/-- After one call gathering is at its end, or it goes on from behind what the call met. -/
theorem gather_succ {σ : Type} [Store σ] {s s' : σ} {start : Bytes} {found batch : List Entry}
    (h : Store.range start stop (limit + 1 - found.length) s = .ok batch s') (calls : Nat) :
    gather stop limit (calls + 1) start found s =
      if batch.length < limit + 1 - found.length ∨
          limit < (found ++ batch.filter fun e => Key.isUser e.1).length then
        .ok (some (found ++ batch.filter fun e => Key.isUser e.1)) s'
      else
        gather stop limit calls (resume start batch)
          (found ++ batch.filter fun e => Key.isUser e.1) s' := by
  rw [gather]
  simp only []
  rw [Action.bind_eq_of_ok h]
  simp only [Bool.or_eq_true, decide_eq_true_eq, resume]
  split
  · rfl
  · cases batch.getLast? <;> rfl

theorem outcome_gather_succ {σ : Type} [Store σ] {s s' : σ} {start : Bytes}
    {found batch : List Entry}
    (h : Store.range start stop (limit + 1 - found.length) s = .ok batch s') (calls : Nat) :
    (gather stop limit (calls + 1) start found).outcome s =
      if batch.length < limit + 1 - found.length ∨
          limit < (found ++ batch.filter fun e => Key.isUser e.1).length then
        .ok (some (found ++ batch.filter fun e => Key.isUser e.1))
      else
        (gather stop limit calls (resume start batch)
          (found ++ batch.filter fun e => Key.isUser e.1)).outcome s' := by
  simp only [Action.outcome, gather_succ h]
  split_ifs <;> rfl

/-- With one call more than there are entries in the range, gathering comes to its end. -/
theorem gather_eq {calls : Nat} {start : Bytes} {found : List Entry}
    (hCalls : (contents.between start stop).length < calls) (hFound : found.length ≤ limit) :
    gather stop limit calls start found contents =
      .ok (some ((found ++ contents.usersBetween start stop).take (limit + 1))) contents := by
  -- Every call but the last one takes something away from the range.
  induction calls generalizing start found with
  | zero => exact absurd hCalls (Nat.not_lt_zero _)
  | succ calls ih =>
    obtain ⟨wanted, hWanted⟩ : ∃ wanted, limit + 1 - found.length = wanted := ⟨_, rfl⟩
    rw [gather_succ (range_eq contents start stop (by omega)), hWanted]
    have hSplit := (contents.between start stop).take_append_drop wanted
    generalize hBatch : (contents.between start stop).take wanted = batch at hSplit
    generalize hLeft : (contents.between start stop).drop wanted = left at hSplit
    have hUsers : contents.usersBetween start stop = (batch.filter fun e => Key.isUser e.1) ++
        left.filter fun e => Key.isUser e.1 := by
      rw [← List.filter_append, hSplit, Contents.usersBetween]
    have hSize : batch.length = min wanted (contents.between start stop).length :=
      hBatch ▸ List.length_take
    have hFew : (batch.filter fun e => Key.isUser e.1).length ≤ batch.length :=
      List.length_filter_le _ _
    rw [hUsers, ← List.append_assoc]
    split
    case isTrue hEnd =>
      obtain hShort | hFull := hEnd
      · have hNone : left = [] := by
          rw [← hLeft, List.drop_eq_nil_iff]
          omega
        rw [hNone, List.filter_nil, List.append_nil, List.take_of_length_le]
        rw [List.length_append]
        omega
      · rw [List.take_left' (by rw [List.length_append] at hFull ⊢; omega)]
    case isFalse hMore =>
      obtain ⟨hLong, hRoom⟩ := not_or.mp hMore
      obtain ⟨front, last, hLast⟩ : ∃ front last, batch = front ++ [last] :=
        List.eq_nil_or_concat' batch |>.resolve_left (by rintro rfl; simp at hLong; omega)
      rw [hLast, List.append_assoc, List.singleton_append] at hSplit
      have hAfter := Contents.between_after hSplit.symm
      have hNext : resume start batch = after last.1 := by
        rw [resume, hLast, List.getLast?_concat, Option.elim_some]
      rw [hNext, ih, Contents.usersBetween, hAfter]
      · rw [hAfter, ← hLeft, List.length_drop]
        omega
      · omega

def rowOf (e : Entry) : Row := ⟨Key.userText e.1, e.2⟩

theorem toPage_eq (entries : List Entry) (limit : Nat) :
    toPage entries limit =
      if entries = [] then .error .notFound
      else .ok ⟨(entries.take limit).map rowOf, limit < entries.length⟩ := by
  cases entries <;> rfl

theorem toPage_take (entries : List Entry) (limit : Nat) :
    toPage (entries.take (limit + 1)) limit = toPage entries limit := by
  have hEmpty : (entries.take (limit + 1)).isEmpty = entries.isEmpty := by
    cases entries <;> rfl
  have hMore : limit < (entries.take (limit + 1)).length ↔ limit < entries.length := by
    rw [List.length_take]
    omega
  rw [toPage, toPage, hEmpty, List.take_take, Nat.min_eq_left (Nat.le_succ limit)]
  simp only [hMore]

/-- A range answers with the first of the user entries in it. -/
theorem runRange_eq (contents : Contents) (start stop : String) (limit : Nat) :
    runRange start stop limit contents = Action.ofExcept
      (toPage (contents.usersBetween (Key.user start) (rangeEnd stop)) limit) contents := by
  have hGather : gather (rangeEnd stop) limit (Store.bound contents + 1) (Key.user start) []
      contents = .ok (some ((contents.usersBetween (Key.user start) (rangeEnd stop)).take
        (limit + 1))) contents :=
    gather_eq (Nat.lt_succ_of_le (contents.length_between_le _ _)) (Nat.zero_le limit)
  rw [← toPage_take]
  exact Action.bind_eq_of_ok hGather _

theorem outcome_runRange (contents : Contents) (start stop : String) (limit : Nat) :
    (runRange start stop limit).outcome contents =
      toPage (contents.usersBetween (Key.user start) (rangeEnd stop)) limit := by
  rw [Action.outcome, runRange_eq, ← Action.outcome, Action.outcome_ofExcept]

/-- The answer to a query, if there is room for its rows. -/
def answer {σ α : Type} [Store σ] (rowsLimit : Nat) (query : Query α) (store : σ) :
    Option (Except Error α) :=
  (query.attempt rowsLimit).map fun step : Action σ α => step.outcome store

theorem answer_get (rowsLimit : Nat) (key : String) :
    answer rowsLimit (.get key) contents =
      some (contents[Key.user key]?.elim (.error .notFound) .ok) := by
  have hGet : (Store.get (Key.user key) : Action Contents (Option Bytes)) contents =
      .ok contents[Key.user key]? contents := rfl
  simp only [answer, attempt, hasRoom, if_true, run, Option.map_some,
    Action.outcome_bind_of_ok hGet]
  cases contents[Key.user key]? <;> rfl

theorem answer_getMany (rowsLimit : Nat) (keys : List String) :
    answer rowsLimit (.getMany keys) contents =
      some (if keys.isEmpty then .error (.invalidArguments "keys must not be empty")
        else allFound (keys.map fun key => contents[Key.user key]?)) := by
  have hGet : (Store.getMany (keys.map Key.user) : Action Contents (List (Option Bytes))) contents =
      .ok (keys.map fun key => contents[Key.user key]?) contents := by
    rw [← Function.comp_def, ← List.map_map]
    rfl
  simp only [answer, attempt, hasRoom, if_true, run, Option.map_some]
  split
  · rfl
  · rw [Action.outcome_bind_of_ok hGet, Action.outcome_ofExcept]

theorem answer_startingWith (rowsLimit : Nat) (beginning : String) (limit : Nat) :
    answer rowsLimit (.startingWith beginning limit) contents =
      some (if beginning.isEmpty then .error (.invalidArguments "prefix must not be empty")
        else (checkLimit rowsLimit limit).bind fun _ =>
          toPage (contents.beginningWith (Key.user beginning)) limit) := by
  have hFind : Store.startingWith (Key.user beginning) (limit + 1) contents =
      .ok ((contents.beginningWith (Key.user beginning)).take (limit + 1)) contents := rfl
  simp only [answer, attempt, hasRoom, if_true, run, Option.map_some]
  split
  · rfl
  · rw [Action.outcome_ofExcept_bind, Action.outcome_bind_of_ok hFind, Action.outcome_ofExcept,
      toPage_take]

theorem answer_range_eq_runRange {σ : Type} [Store σ] (rowsLimit : Nat) (start stop : String)
    (limit : Nat) (s : σ) :
    answer rowsLimit (.range start stop limit) s =
      if hasRoom rowsLimit (.range start stop limit) then
        some ((checkLimit rowsLimit limit).bind fun _ =>
          (runRange start stop limit : Action σ Page).outcome s)
      else none := by
  simp only [answer, attempt]
  split
  · rw [Option.map_some, run, Action.outcome_ofExcept_bind]
  · rfl

theorem answer_range (rowsLimit : Nat) (start stop : String) (limit : Nat) :
    answer rowsLimit (.range start stop limit) contents =
      if hasRoom rowsLimit (.range start stop limit) then
        some ((checkLimit rowsLimit limit).bind fun _ =>
          toPage (contents.usersBetween (Key.user start) (rangeEnd stop)) limit)
      else none := by
  rw [answer_range_eq_runRange, outcome_runRange]

theorem answer_get_eq_ok_iff {rowsLimit : Nat} {key : String} {value : Bytes} :
    answer rowsLimit (.get key) contents = some (.ok value) ↔
      contents[Key.user key]? = some value := by
  rw [answer_get]
  cases contents[Key.user key]? <;> simp

theorem checkLimit_eq_ok {rowsLimit : Nat} (hLow : 1 ≤ limit) (hHigh : limit ≤ rowsLimit) :
    checkLimit rowsLimit limit = .ok () := by
  rw [checkLimit, if_neg]
  simp only [Bool.or_eq_true, decide_eq_true_eq]
  omega

theorem answer_range_eq {rowsLimit : Nat} (hLow : 1 ≤ limit) (hHigh : limit ≤ rowsLimit)
    (hRoom : limit < roomLimit) (start stop : String) :
    answer rowsLimit (.range start stop limit) contents =
      some (toPage (contents.usersBetween (Key.user start) (rangeEnd stop)) limit) := by
  have hFits : hasRoom rowsLimit (.range start stop limit) = true := by
    simp [hasRoom, hRoom]
  rw [answer_range, if_pos hFits, checkLimit_eq_ok hLow hHigh]
  rfl

theorem answer_range_eq_none {σ : Type} [Store σ] {rowsLimit : Nat} (hHigh : limit ≤ rowsLimit)
    (hRoom : roomLimit ≤ limit) (start stop : String) (store : σ) :
    answer rowsLimit (.range start stop limit) store = none := by
  simp [answer, attempt, hasRoom, Nat.not_lt.mpr hHigh, Nat.not_lt.mpr hRoom]

theorem answer_startingWith_eq {rowsLimit : Nat} {beginning : String} (hSome : beginning ≠ "")
    (hLow : 1 ≤ limit) (hHigh : limit ≤ rowsLimit) :
    answer rowsLimit (.startingWith beginning limit) contents =
      some (toPage (contents.beginningWith (Key.user beginning)) limit) := by
  have hText : ¬ beginning.isEmpty = true := by simpa using hSome
  rw [answer_startingWith, if_neg hText, checkLimit_eq_ok hLow hHigh]
  rfl

end Query

end ForkLog
