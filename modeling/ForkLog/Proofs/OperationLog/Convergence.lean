import Mathlib
import ForkLog.Proofs.OperationLog.Flush

/-! # Flushes that fail and are made again

A flush that breaks off has written a part, under keys that are still pending. Whatever other flushes
break off after it, and whatever is added in between, the first one that succeeds writes all these keys
again: it leaves what one flush of everything would have left.
-/

namespace ForkLog

set_option autoImplicit false

variable {listing : List Operation} {pending : PendingSet}

namespace PendingSet

theorem getElem?_restore (pending : PendingSet) (taken : List Operation) (key : String) :
    (pending.restore taken)[key]? =
      pending[key]?.or ((taken.find? fun op => op.key = key).map Operation.toChange) := by
  induction taken generalizing pending with
  | nil => simp [restore]
  | cons op taken ih =>
    have hFold : pending.restore (op :: taken) =
        restore (pending.insertIfNew op.key op.toChange) taken := rfl
    rw [hFold, ih, Std.ExtTreeMap.getElem?_insertIfNew]
    simp only [Std.LawfulEqOrd.compare_eq_iff_eq]
    by_cases hKey : op.key = key
    · subst hKey
      cases hFound : pending[op.key]? with
      | none => simp [Std.ExtTreeMap.mem_iff_isSome_getElem?, hFound]
      | some change => simp [Std.ExtTreeMap.mem_iff_isSome_getElem?, hFound]
    · rw [if_neg fun h => hKey h.1, List.find?_cons_of_neg (by simpa using hKey)]

/-- What is put back is what was taken out. -/
theorem restore_eq (hListing : listing.Perm pending.operations) :
    (∅ : PendingSet).restore listing = pending := by
  apply Std.ExtTreeMap.ext_getElem?
  intro key
  have hMem (op : Operation) : op ∈ listing ↔ pending[op.key]? = some op.toChange :=
    hListing.mem_iff.trans OperationLog.mem_operations_iff
  rw [getElem?_restore, Std.ExtTreeMap.getElem?_empty, Option.none_or]
  cases hFind : listing.find? fun op => op.key = key with
  | some op =>
    have hKey : op.key = key := by simpa using List.find?_some hFind
    rw [Option.map_some, ← hKey, (hMem op).mp (List.mem_of_find?_eq_some hFind)]
  | none =>
    cases hChange : pending[key]? with
    | none => rfl
    | some change =>
      have hListed := (hMem { change with key }).mpr hChange
      exact absurd (List.find?_eq_none.mp hFind _ hListed) (by simp)

theorem isSome_addAll (ops : List Operation) {key : String} (h : pending[key]?.isSome) :
    (pending.addAll ops)[key]?.isSome := by
  induction ops generalizing pending with
  | nil => exact h
  | cons op ops ih =>
    apply ih
    rw [getElem?_add]
    split
    · rfl
    · exact h

theorem eq_empty_of_addAll_eq_empty {ops : List Operation} (h : pending.addAll ops = ∅) :
    pending = ∅ := by
  apply Std.ExtTreeMap.ext_getElem?
  intro key
  rw [Std.ExtTreeMap.getElem?_empty, ← Option.not_isSome_iff_eq_none]
  intro hSome
  have hStill := isSome_addAll ops hSome
  rw [h, Std.ExtTreeMap.getElem?_empty] at hStill
  cases hStill

end PendingSet

namespace OperationLog

section

variable {σ : Type} [Store σ]

/-- A flush that takes out what is pending before it writes, and puts it back where it fails. -/
def flushTaken (listing : List Operation) (cursor : Cursor) : Action (OperationLog σ) Nat := do
  let log ← get
  clearPending
  if log.pending.isEmpty && log.lastCursor = some cursor then
    return 0
  try
    let count ← onStore (writeOut listing cursor)
    setLastCursor cursor
    return count
  catch e =>
    modify fun log => { log with pending := log.pending.restore listing }
    throw e

theorem flushTaken_eq {log : OperationLog σ} (hListing : listing.Perm log.pending.operations)
    (cursor : Cursor) : flushTaken listing cursor log = flushListed listing cursor log := by
  obtain ⟨store, pending, lastCursor⟩ := log
  have hCleared : clearPending (⟨store, pending, lastCursor⟩ : OperationLog σ) =
      .ok () ⟨store, ∅, lastCursor⟩ := rfl
  rw [flushTaken, Action.get_bind_eq]
  by_cases hIdle : pending = ∅ ∧ lastCursor = some cursor
  · obtain ⟨rfl, rfl⟩ := hIdle
    rw [flushListed_eq_of_idle rfl rfl, Action.bind_eq_of_ok hCleared, if_pos (by simp)]
    rfl
  · rw [flushListed_eq_of_busy hIdle, Action.bind_eq_of_ok hCleared, if_neg (by simpa using hIdle)]
    simp only [bind, EStateM.bind, tryCatch, tryCatchThe, MonadExceptOf.tryCatch, EStateM.tryCatch,
      onStore, Action.within]
    cases writeOut listing cursor store with
    | ok count store' => rfl
    | error e store' =>
      have hBack : (∅ : PendingSet).restore listing = pending := PendingSet.restore_eq hListing
      rw [← hBack]
      rfl

end

/-- The contents are what they were, save under the key of the cursor and keys with a pending change. -/
def Within (pending : PendingSet) (before contents : Contents) : Prop :=
  ∀ key, (∀ text, pending[text]?.isSome → Key.user text ≠ key) → Key.cursor ≠ key →
    contents[key]? = before[key]?

variable {before contents : Contents} {cursor : Cursor}

theorem within_refl (pending : PendingSet) (before : Contents) : Within pending before before :=
  fun _ _ _ => rfl

theorem Within.addAll (h : Within pending before contents) (ops : List Operation) :
    Within (pending.addAll ops) before contents :=
  fun key hUser => h key fun text hText => hUser text (PendingSet.isSome_addAll ops hText)

theorem isSome_of_mem (hListing : listing.Perm pending.operations) {op : Operation}
    (hOp : op ∈ listing) : pending[op.key]?.isSome := by
  rw [mem_operations_iff.mp (hListing.mem_iff.mp hOp)]
  rfl

theorem Within.writing (h : Within pending before contents)
    (hListing : listing.Perm pending.operations) {left : Contents}
    (hLeft : Contents.Underway contents (writtenContents contents listing cursor) left) :
    Within pending before left := by
  intro key hUser hCursor
  have hWritten : (writtenContents contents listing cursor)[key]? = contents[key]? :=
    getElem?_writtenContents_of_not_mem
      (fun op hOp => hUser op.key (isSome_of_mem hListing hOp)) hCursor
  have hSame : left[key]? = contents[key]? := (hLeft.each key).elim id fun hNew => hNew.trans hWritten
  exact hSame.trans (h key hUser hCursor)

/-- Two listings of what is pending write the same, also over a part of what is to be written. -/
theorem Within.writtenContents_eq (h : Within pending before contents)
    (hListing : listing.Perm pending.operations) {other : List Operation}
    (hOther : other.Perm pending.operations) (hKinds : ∀ op ∈ listing, op.kind ≠ .unset) :
    writtenContents contents listing cursor = writtenContents before other cursor := by
  have hSame : other.Perm listing := hOther.trans hListing.symm
  apply Std.ExtTreeMap.ext_getElem?
  intro key
  by_cases hCursor : Key.cursor = key
  · rw [← hCursor, getElem?_writtenContents_cursor, getElem?_writtenContents_cursor]
  by_cases hUser : ∃ op ∈ listing, Key.user op.key = key
  · obtain ⟨op, hOp, rfl⟩ := hUser
    have hDistinct := (distinct_operations pending).perm hListing
    rw [written_of_mem hDistinct hOp (hKinds op hOp),
      written_of_mem (hDistinct.perm hSame) (hSame.mem_iff.mpr hOp) (hKinds op hOp)]
  · have hUnlisted : ∀ op ∈ listing, Key.user op.key ≠ key := fun op hOp hKey =>
      hUser ⟨op, hOp, hKey⟩
    rw [getElem?_writtenContents_of_not_mem hUnlisted hCursor,
      getElem?_writtenContents_of_not_mem (fun op hOp => hUnlisted op (hSame.mem_iff.mp hOp)) hCursor]
    refine h key (fun text hText => ?_) hCursor
    obtain ⟨change, hChange⟩ := Option.isSome_iff_exists.mp hText
    exact hUnlisted { change with key := text } (hListing.mem_iff.mpr (mem_operations_iff.mpr hChange))

/-- The log differs from another one, whose store never fails, by a part of what is pending in both. -/
structure Partway {σ : Type} (R : σ → Checkpointed → Prop) (cursor : Cursor) (log : OperationLog σ)
    (other : OperationLog Checkpointed) : Prop where
  pending : log.pending = other.pending
  lastCursor : log.lastCursor = other.lastCursor
  store : ∃ contents, R log.store ⟨contents, other.store.saved⟩ ∧
    Within other.pending other.store.current contents ∧
    (other.pending = ∅ ∧ other.lastCursor = some cursor → contents = other.store.current)

theorem Alike.partway {σ : Type} {R : σ → Checkpointed → Prop} {log : OperationLog σ}
    {other : OperationLog Checkpointed} (h : Alike R log other) (cursor : Cursor) :
    Partway R cursor log other :=
  ⟨h.pending, h.lastCursor, other.store.current, h.store, within_refl _ _, fun _ => rfl⟩

variable {σ : Type} [Store σ] {R : σ → Checkpointed → Prop} {errs : Error → Prop}
  {log now : OperationLog σ} {other : OperationLog Checkpointed}

/-- Flushes to one cursor that failed, each in an order of its own, and the batches that were added
before them and in between. -/
inductive Attempts (cursor : Cursor) (log : OperationLog σ) :
    List (List Operation) → OperationLog σ → Prop
  | none : Attempts cursor log [] log
  | add {batches : List (List Operation)} {now : OperationLog σ}
      (h : Attempts cursor log batches now) (batch : List Operation) :
      Attempts cursor log (batches ++ [batch]) ((Call.add batch).leave now)
  | fail {batches : List (List Operation)} {now failed : OperationLog σ} {listing : List Operation}
      {e : Error} (h : Attempts cursor log batches now)
      (hListing : listing.Perm now.pending.operations)
      (hFails : flushListed listing cursor now = .error e failed) :
      Attempts cursor log batches failed

theorem Partway.add (h : Partway R cursor log other) (batch : List Operation) :
    Partway R cursor ((Call.add batch).leave log) ((Call.add batch).leave other) := by
  obtain ⟨contents, hStore, hWithin, hSame⟩ := h.store
  refine ⟨congrArg (PendingSet.addAll · batch) h.pending, h.lastCursor, contents, hStore,
    hWithin.addAll batch, fun hIdle => ?_⟩
  exact hSame ⟨PendingSet.eq_empty_of_addAll_eq_empty hIdle.1, hIdle.2⟩

/-- An attempt that fails goes a part of the way, and one that succeeds arrives. -/
theorem Partway.lands (h : Partway R cursor log other) (hFalters : Store.Falters R errs)
    (hListing : listing.Perm other.pending.operations) :
    Action.Lands (flushListed listing cursor)
      (fun count final => final.pending = ∅ ∧
        ∀ order : List Operation, order.Perm other.pending.operations →
          ∃ reference, flushListed order cursor other = .ok count reference ∧
            Alike R final reference)
      (fun e failed => Partway R cursor failed other ∧
        (errs e ∨ ∃ op ∈ listing, op.kind = .unset ∧ e = op.invalidKind)) log := by
  obtain ⟨contents, hStore, hWithin, hSame⟩ := h.store
  -- A flush that has nothing to do makes no call, so none can have broken off before it.
  by_cases hIdle : other.pending = ∅ ∧ other.lastCursor = some cursor
  · have hEmpty := h.pending.trans hIdle.1
    rw [hSame hIdle] at hStore
    rw [Action.Lands, flushListed_eq_of_idle hEmpty (h.lastCursor.trans hIdle.2)]
    exact ⟨hEmpty, fun order _ => ⟨other, flushListed_eq_of_idle hIdle.1 hIdle.2 order,
      hStore, h.pending, h.lastCursor⟩⟩
  have hBusy : ¬ (log.pending = ∅ ∧ log.lastCursor = some cursor) := by
    rwa [h.pending, h.lastCursor]
  cases hCheck : Operation.validateAll listing with
  | error e =>
    rw [Action.Lands, flushListed_eq_of_invalid hBusy hCheck]
    exact ⟨h, .inr (Operation.exists_of_validateAll_eq_error hCheck)⟩
  | ok _ =>
    have hKinds := (Operation.validateAll_eq_ok_iff listing).mp hCheck
    have hDistinct := (distinct_operations _).perm hListing
    refine (lands_flushListed hFalters hDistinct hKinds hBusy hStore (.refl _ _)).imp ?_ ?_
    · rintro count final ⟨rfl, hWritten, hEmpty, hCursor⟩
      refine ⟨hEmpty, fun order hOrder => ?_⟩
      have hOrderKinds : ∀ op ∈ order, op.kind ≠ .unset := fun op hOp =>
        hKinds op (hListing.mem_iff.mpr (hOrder.mem_iff.mp hOp))
      rw [flushListed_eq_of_valid hOrderKinds hIdle, length_assignments_add_removals hKinds,
        length_assignments_add_removals hOrderKinds, hListing.length_eq, hOrder.length_eq]
      refine ⟨_, rfl, ?_, hEmpty, hCursor⟩
      rwa [← hWithin.writtenContents_eq hListing hOrder hKinds]
    · rintro e _ ⟨store, rfl, hError, left, hLeft, hUnderway⟩
      refine ⟨⟨h.pending, h.lastCursor, left, hLeft, hWithin.writing hListing hUnderway, ?_⟩,
        .inl hError⟩
      exact fun hNow => absurd hNow hIdle

/-- After attempts that failed, the log is on the way from where it began with all batches added. -/
theorem Attempts.partway (hFalters : Store.Falters R errs) (hLog : Alike R log other)
    {batches : List (List Operation)} (h : Attempts cursor log batches now) :
    Partway R cursor now (afterCalls (batches.map .add) other) := by
  induction h with
  | none => exact hLog.partway cursor
  | @add batches now _ batch ih =>
    have hLast : afterCalls ((batches ++ [batch]).map .add) other =
        (Call.add batch).leave (afterCalls (batches.map .add) other) := by
      rw [List.map_append, afterCalls, List.foldl_append]
      rfl
    rw [hLast]
    exact ih.add batch
  | @fail batches now failed listing e _ hListing hFails ih =>
    have hLands := ih.lands hFalters (ih.pending ▸ hListing)
    rw [Action.Lands, hFails] at hLands
    exact hLands.1

/-- Any number of flushes to one cursor break off, each at any call of the store and in an order of
its own, and batches are added in between. None of them changes what is pending. The first one that
does not break off leaves what one flush of everything would have left, had no call failed, and returns
the same count. -/
theorem failed_flushes_converge (hFalters : Store.Falters R errs) (hLog : Alike R log other)
    {batches : List (List Operation)} (hAttempts : Attempts cursor log batches now)
    (hListing : listing.Perm now.pending.operations) :
    now.pending = log.pending.addAll batches.flatten ∧
      flushTaken listing cursor now = flushListed listing cursor now ∧
      (∀ e failed, flushListed listing cursor now = .error e failed →
        failed.pending = now.pending ∧
          (errs e ∨ ∃ op ∈ listing, op.kind = .unset ∧ e = op.invalidKind)) ∧
      ∀ count final, flushListed listing cursor now = .ok count final →
        final.pending = ∅ ∧ ∀ order : List Operation,
          order.Perm (afterCalls (batches.map .add) other).pending.operations →
            ∃ reference, flushListed order cursor (afterCalls (batches.map .add) other) =
              .ok count reference ∧ Alike R final reference := by
  have hPartway := hAttempts.partway hFalters hLog
  have hLands := hPartway.lands hFalters (hPartway.pending ▸ hListing)
  refine ⟨?_, flushTaken_eq hListing cursor, fun e failed hFails => ?_, fun count final hOk => ?_⟩
  · rw [hPartway.pending, afterCalls_add, hLog.pending]
  · rw [Action.Lands, hFails] at hLands
    exact ⟨hLands.1.pending.trans hPartway.pending.symm, hLands.2⟩
  · rw [Action.Lands, hOk] at hLands
    exact hLands

def troubled : Faulty Contents :=
  { inner := .ofEntries [(Key.user "d", [0x30])]
    faults := [⟨.put, some (Key.user "b"), 0, 1, .transientStore "timed out"⟩,
      ⟨.deleteMany, none, 0, 1, .store "disk full"⟩]
    counts := .zero }

/-- What a flush leaves that may break off. -/
def attempt (order : List Operation → List Operation) (log : OperationLog (Faulty Contents)) :
    OperationLog (Faulty Contents) :=
  (flushListed (order log.pending.operations) (.blank 7)).leave log

def firstBatch : List Operation := [.assign "a" [0x31], .assign "b" [0x31]]

def secondBatch : List Operation := [.remove "a", .assign "c" [0x33], .remove "d"]

def brokenOnce : OperationLog (Faulty Contents) :=
  attempt id ((Call.add firstBatch).leave (.ofStore troubled))

def brokenTwice : OperationLog (Faulty Contents) :=
  attempt List.reverse ((Call.add secondBatch).leave brokenOnce)

theorem attempts_brokenTwice :
    Attempts (.blank 7) (.ofStore troubled) [firstBatch, secondBatch] brokenTwice := by
  have hFirst : (flushListed ((Call.add firstBatch).leave (.ofStore troubled)).pending.operations
      (.blank 7)).outcome ((Call.add firstBatch).leave (.ofStore troubled)) =
        .error (.transientStore "timed out") := by decide +kernel
  have hSecond : (flushListed ((Call.add secondBatch).leave brokenOnce).pending.operations.reverse
      (.blank 7)).outcome ((Call.add secondBatch).leave brokenOnce) =
        .error (.store "disk full") := by decide +kernel
  have hOnce : Attempts (.blank 7) (.ofStore troubled) [firstBatch] brokenOnce :=
    .fail (.add .none firstBatch) (.refl _) (Action.eq_error_of_outcome hFirst)
  exact .fail (.add hOnce secondBatch) (List.reverse_perm _) (Action.eq_error_of_outcome hSecond)

/-- The first flush breaks off when it has put one of two keys, and the second one before it removes
the key that the first one has put. -/
theorem failed_flushes_converge_broken_twice :
    brokenTwice.store.inner.entries.map Prod.fst =
        [Key.user "a", Key.user "b", Key.user "c", Key.user "d"] ∧
      ∃ final reference, flushListed brokenTwice.pending.operations (.blank 7) brokenTwice =
          .ok 4 final ∧
        flush (.blank 7) (afterCalls [.add firstBatch, .add secondBatch]
          (.ofStore (Checkpointed.ofContents troubled.inner))) = .ok 4 reference ∧
        final.pending = ∅ ∧ final.store.inner = reference.store.current := by
  have hAlike : Alike (fun s (t : Checkpointed) =>
      Faulty.Above (σ := Contents) Eq (fun e => e.isStoreFailure = true) s t.current)
      (.ofStore troubled) (.ofStore (.ofContents troubled.inner)) := ⟨⟨rfl, by decide⟩, rfl, rfl⟩
  obtain ⟨-, -, -, hConverges⟩ :=
    failed_flushes_converge (Faulty.falters Store.simulation_contents).checkpointed hAlike
      attempts_brokenTwice (.refl _)
  have hOk : (flushListed brokenTwice.pending.operations (.blank 7)).outcome brokenTwice =
      .ok 4 := by decide +kernel
  obtain ⟨hEmpty, hReference⟩ := hConverges _ _ (Action.eq_ok_of_outcome hOk)
  obtain ⟨reference, hFlush, hFinal⟩ := hReference _ (.refl _)
  exact ⟨by decide +kernel, _, reference, Action.eq_ok_of_outcome hOk, hFlush, hEmpty,
    hFinal.store.1⟩

end OperationLog

end ForkLog
