import Mathlib
import ForkLog.Proofs.Follower.Restart
import ForkLog.Proofs.Follower.Writing

/-! # What a clean run leaves on the disk

A run that ends well has made durable whatever it wrote of user records and cursor. Undo records are
another matter: a fork forgets them after its flush, and the flush at the end of a run is passed over
when nothing is pending and the cursor is written.
-/

namespace ForkLog

set_option autoImplicit false

namespace OperationLog

/-- Nothing is deleted above a height if and only if there was nothing. -/
theorem current_discarded_eq_iff (log : OperationLog Checkpointed) (height : UInt64) :
    (log.discarded height).store.current = log.store.current ↔
      log.store.current.NoUndoAbove height := by
  constructor
  · intro hSame
    rw [Contents.NoUndoAbove, List.eq_nil_iff_forall_not_mem]
    rintro ⟨key, value⟩ hMem
    obtain ⟨hValue, hRange⟩ := Contents.mem_between_iff.mp hMem
    have hGone : (log.discarded height).store.current[key]? = none := by
      rw [discarded, Contents.getElem?_eraseAll_between, if_pos hRange]
    rw [hSame, hValue] at hGone
    cases hGone
  · intro hNone
    rw [Contents.NoUndoAbove] at hNone
    rw [discarded, hNone]
    rfl

end OperationLog

theorem Contents.noUndoAbove_writtenContents_iff {contents : Contents} {ops : List Operation}
    {cursor : Cursor} {height : UInt64} :
    (OperationLog.writtenContents contents ops cursor).NoUndoAbove height ↔
      contents.NoUndoAbove height := by
  simp only [NoUndoAbove, List.eq_nil_iff_forall_not_mem, Prod.forall, mem_between_iff]
  refine forall₂_congr fun key value => not_congr (and_congr_left fun hRange => ?_)
  rw [OperationLog.getElem?_writtenContents_of_undo contents ops cursor hRange.1]

namespace Follower

section

variable {f f' : Follower Checkpointed} {event : Event}

/-- What was made durable differs at most in the undo log from what is there, and not at all before
the first event that is not passed over. -/
structure Secured (f : Follower Checkpointed) : Prop where
  accords : f.log.store.saved.Accords f.log.store.current
  waiting : f.caughtUp = false → f.log.store.saved = f.log.store.current

/-- The operations that an event adds to those that are pending. -/
def brought (f : Follower Checkpointed) : Event → List Operation
  | .data block => block.operations
  | .undo fork => f.undoing fork.lastValidBlock

/-- After the event a flush has nothing to write. -/
def IdlesAt (f : Follower Checkpointed) (event : Event) : Prop :=
  f.log.pending.addAll (f.brought event) = ∅ ∧ f.log.lastCursor = some event.cursor

/-- What an event that leads from `f` to `f'` did is durable if the run ends with it: it is passed
over, or it is flushed with nothing left to forget, or what it leaves was durable before. -/
def Lasts (f : Follower Checkpointed) (event : Event) (f' : Follower Checkpointed) : Prop :=
  f.Skips event ∨
    (¬ f.IdlesAt event ∧
      ∀ fork, event = .undo fork → f.log.store.current.NoUndoAbove fork.lastValidBlock) ∨
    (f.IdlesAt event ∧ f.log.store.saved = f'.log.store.current)

/-- What is kept from event to event, and what is durable if `event` is the last one. -/
structure Ends (f : Follower Checkpointed) (event : Event) (f' : Follower Checkpointed) : Prop where
  secured : Secured f'
  going : f'.stopRequested = f.stopRequested
  saved_iff : f'.ended.store.saved = f'.ended.store.current ↔ f.Lasts event f'

theorem Secured.accords_ended (h : Secured f) :
    f.ended.store.saved.Accords f.ended.store.current := by
  rw [ended]
  split
  case h_1 => exact h.accords
  case h_2 cursor _ => exact OperationLog.flushed_accords h.accords cursor

theorem Secured.ended_of_waiting (h : Secured f) (hBehind : f.caughtUp = false) :
    f.ended.store.saved = f.ended.store.current := by
  rw [ended]
  split
  case h_1 => exact h.waiting hBehind
  case h_2 cursor _ => exact OperationLog.saved_flushed (h.waiting hBehind) cursor

theorem Secured.of_skips (h : Secured f) (hSkips : f.Skips event) : Ends f event f := by
  have hBehind : f.caughtUp = false := by
    cases event with
    | data block => exact hSkips.1
    | undo fork => exact hSkips.1
  exact ⟨h, rfl, iff_of_true (h.ended_of_waiting hBehind) (.inl hSkips)⟩

theorem Secured.of_block (h : Secured f) {block : Block} (hApplies : ¬ f.Skips (.data block))
    (hHandle : onBlock block f = .ok () f') : Ends f (.data block) f' := by
  obtain ⟨_, log, hQuiet, hSettle⟩ := onBlock_of_ok hApplies hHandle
  have hFields := settle_of_ok hSettle
  let added : OperationLog Checkpointed :=
    { log with pending := log.pending.addAll block.operations }
  have hLog : f'.log = if flushesAt f.config.flushInterval block then added.flushed block.cursor
      else added := by rw [hFields]
  have hEnded : f'.ended = added.flushed block.cursor := by
    have hCursor : f'.lastCursor = some block.cursor := by rw [hFields]
    rw [ended_of_some hCursor, hLog]
    split
    · exact OperationLog.flushed_flushed added block.cursor
    · rfl
  have hAccords : added.store.saved.Accords added.store.current := by
    have hSaved : added.store.saved = f.log.store.saved := hQuiet.saved
    rw [hSaved]
    exact h.accords.trans hQuiet.accords
  have hIdles : f.IdlesAt (.data block) ↔
      added.pending = ∅ ∧ added.lastCursor = some block.cursor := by
    simp only [IdlesAt, brought, Event.cursor, added, hQuiet.pending, hQuiet.lastCursor]
  refine ⟨⟨?_, ?_⟩, by rw [hFields], ?_⟩
  · rw [hLog]
    split
    · exact OperationLog.flushed_accords hAccords block.cursor
    · exact hAccords
  · rw [hFields]
    simp
  · rw [hEnded, Lasts]
    by_cases hIdle : f.IdlesAt (.data block)
    · obtain ⟨hPending, hCursor⟩ := hIdles.mp hIdle
      have hFlushed := OperationLog.flushed_of_idle hPending hCursor
      have hSame : f'.log = added := by
        rw [hLog, hFlushed, ite_self]
      simp only [hFlushed, hSame, hApplies, hIdle, not_true_eq_false, false_and, false_or, true_and,
        added, hQuiet.saved]
    · rw [OperationLog.flushed_of_busy (mt hIdles.mpr hIdle)]
      refine iff_of_true rfl (.inr (.inl ⟨hIdle, ?_⟩))
      rintro _ ⟨⟩

theorem Secured.of_fork (h : Secured f) {fork : Fork} (hApplies : ¬ f.Skips (.undo fork))
    (hHandle : onFork fork f = .ok () f') : Ends f (.undo fork) f' := by
  have hFields := onFork_of_ok hApplies hHandle
  let added : OperationLog Checkpointed :=
    { f.log with pending := f.log.pending.addAll (f.undoing fork.lastValidBlock) }
  have hLog : f'.log = (added.flushed fork.cursor).discarded fork.lastValidBlock := by rw [hFields]
  have hEnded : f'.ended = f'.log := by
    have hCursor : f'.lastCursor = some fork.cursor := by rw [hFields]
    rw [ended_of_some hCursor, hLog]
    exact OperationLog.flushed_of_idle (OperationLog.pending_flushed added fork.cursor)
      (OperationLog.lastCursor_flushed added fork.cursor)
  refine ⟨⟨?_, ?_⟩, by rw [hFields], ?_⟩
  · have hAccords : added.store.saved.Accords added.store.current := h.accords
    rw [hLog]
    exact (OperationLog.flushed_accords hAccords fork.cursor).trans
      (.eraseAll_between _ (List.le_of_lt (Key.undo_lt_undoEnd _)))
  · rw [hFields]
    simp
  · rw [hEnded, Lasts]
    by_cases hIdle : f.IdlesAt (.undo fork)
    · have hFlushed : added.flushed fork.cursor = added :=
        OperationLog.flushed_of_idle hIdle.1 hIdle.2
      have hSaved : f'.log.store.saved = f.log.store.saved := by
        rw [hLog, hFlushed]
        rfl
      simp only [hSaved, hApplies, hIdle, not_true_eq_false, false_and, false_or, true_and]
    · rw [hLog, eq_comm]
      have hFlushed : added.flushed fork.cursor = ⟨.ofContents (OperationLog.writtenContents
          added.store.current added.pending.operations fork.cursor), ∅, some fork.cursor⟩ :=
        OperationLog.flushed_of_busy hIdle
      have hSaved : ((added.flushed fork.cursor).discarded fork.lastValidBlock).store.saved =
          (added.flushed fork.cursor).store.current := by
        rw [hFlushed]
        rfl
      rw [hSaved, OperationLog.current_discarded_eq_iff, hFlushed]
      simp only [Checkpointed.ofContents, Contents.noUndoAbove_writtenContents_iff, hApplies, hIdle,
        not_false_eq_true, true_and, false_and, false_or, or_false, added]
      constructor
      · rintro hNone _ ⟨⟩
        exact hNone
      · exact fun hNone => hNone fork rfl

theorem Secured.ends (h : Secured f) (hHandle : handle event f = .ok () f') : Ends f event f' := by
  by_cases hSkips : f.Skips event
  · rw [handle_eq_of_skips hSkips] at hHandle
    cases hHandle
    exact h.of_skips hSkips
  · cases event with
    | data block => exact h.of_block hSkips hHandle
    | undo fork => exact h.of_fork hSkips hHandle

end

/-- The events that a run handles if it ends well: those before the first stop. -/
def handled : List Arrival → List Event
  | [] => []
  | arrival :: rest =>
    if arrival.stopping then []
    else
      match arrival.item with
      | .error _ => []
      | .ok event => event :: handled rest

theorem handled_arrivals (events : List Event) : handled (arrivals events) = events := by
  induction events with
  | nil => rfl
  | cons event events ih =>
    have hFirst : arrivals (event :: events) = ⟨.ok event, false⟩ :: arrivals events := rfl
    simp only [hFirst, handled, Bool.false_eq_true, if_false, ih]

/-- The last of the events lasts, where a follower on these contents came to it. -/
def EndsLasting (config : Config) (contents : Contents) (events : List Event) : Prop :=
  ∀ front event g g', events = front ++ [event] →
    follow front (ofLog (.ofStore (Checkpointed.ofContents contents)) config) = .ok () g →
    handle event g = .ok () g' → g.Lasts event g'

section

variable {f f' g : Follower Checkpointed} {arrivals : List Arrival} {events : List Event}
  {config : Config} {contents : Contents} {cursor : Cursor}

theorem Secured.steps (h : Secured f) (hHandle : handleAll events f = .ok () f') :
    Secured f' := by
  induction events generalizing f with
  | nil =>
    cases hHandle
    exact h
  | cons event events ih =>
    obtain ⟨_, g, hFirst, hRest⟩ := Action.exists_of_bind hHandle
    exact ih (h.ends hFirst).secured hRest

theorem Secured.exists_of_consume (h : Secured f) (hGoing : f.stopRequested = false)
    {taken last : Nat} (hConsume : consume arrivals taken f = (⟨.ok (), last⟩, f')) :
    ∃ g, handleAll (handled arrivals) f = .ok () g ∧ f'.log = g.log ∧
      f'.lastCursor = g.lastCursor := by
  induction arrivals generalizing f taken with
  | nil =>
    cases hConsume
    exact ⟨_, rfl, rfl, rfl⟩
  | cons arrival rest ih =>
    rw [consume, consumeIn] at hConsume
    rw [handled]
    cases hStopping : arrival.stopping with
    | true =>
      simp only [hStopping, if_true, requestStop] at hConsume
      cases hConsume
      exact ⟨f, rfl, rfl, rfl⟩
    | false =>
      simp only [hStopping, Bool.false_eq_true, if_false, hGoing] at hConsume ⊢
      cases hItem : arrival.item with
      | error e =>
        rw [hItem] at hConsume
        cases hConsume
      | ok event =>
        simp only [hItem] at hConsume ⊢
        cases hHandle : handleIn sorted event f with
        | error e g =>
          rw [hHandle] at hConsume
          cases hConsume
        | ok _ g =>
          rw [hHandle] at hConsume
          have hEnds := h.ends hHandle
          obtain ⟨g', hAll, hRest⟩ := ih hEnds.secured (hEnds.going.trans hGoing) hConsume
          exact ⟨g', (Action.bind_eq_of_ok hHandle _).trans hAll, hRest⟩

theorem secured_of_start
    (hStart : start (ofLog (.ofStore (Checkpointed.ofContents contents)) config) = .ok cursor f) :
    Secured f ∧ f.stopRequested = false ∧ f.lastCursor = none := by
  obtain ⟨_, _, _, rfl⟩ | ⟨_, _, rfl⟩ := start_of_ok hStart
  · exact ⟨⟨.refl _, fun _ => rfl⟩, rfl, rfl⟩
  · exact ⟨⟨.refl _, fun _ => rfl⟩, rfl, rfl⟩

/-- What is there after a clean run, and what of it is durable. -/
theorem run_secured {taken : Nat}
    (hStart : start (ofLog (.ofStore (Checkpointed.ofContents contents)) config) = .ok cursor f)
    (hRun : run arrivals f = (⟨.ok (), taken⟩, f')) :
    f'.log.store.saved.Accords f'.log.store.current ∧
      (f'.log.store.saved = f'.log.store.current ↔
        EndsLasting config contents (handled arrivals)) := by
  obtain ⟨hSecured, hGoing, hNone⟩ := secured_of_start hStart
  obtain ⟨g, hConsume, hShutdown⟩ := exists_of_run hRun
  obtain ⟨g', hAll, hLog, hCursor⟩ := hSecured.exists_of_consume hGoing hConsume
  have hEnded : f'.log = g'.ended := by
    rw [shutdown_of_ok hShutdown, ended, ended, hLog, hCursor]
  rw [hEnded]
  refine ⟨(hSecured.steps hAll).accords_ended, ?_⟩
  obtain hEmpty | ⟨front, event, hEvents⟩ := List.eq_nil_or_concat' (handled arrivals)
  · rw [hEmpty] at hAll ⊢
    cases hAll
    refine iff_of_true ?_ fun front event g g' hSplit => ?_
    · rw [ended_of_none hNone]
      obtain ⟨_, _, _, rfl⟩ | ⟨_, _, rfl⟩ := start_of_ok hStart <;> rfl
    · simp at hSplit
  · rw [hEvents, handleAll_append] at hAll
    obtain ⟨_, g₁, hFront, hLast⟩ := Action.exists_of_bind hAll
    obtain ⟨_, g₂, hHandle, hDone⟩ := Action.exists_of_bind hLast
    cases hDone
    rw [((hSecured.steps hFront).ends hHandle).saved_iff, hEvents]
    have hFollow : follow front (ofLog (.ofStore (Checkpointed.ofContents contents)) config) =
        .ok () g₁ := (Action.bind_eq_of_ok hStart _).trans hFront
    constructor
    · rintro hLasts other last h h' hSplit hFollow' hHandle'
      obtain ⟨rfl, hSame⟩ := List.append_inj' hSplit rfl
      cases hSame
      rw [hFollow] at hFollow'
      cases hFollow'
      rw [hHandle] at hHandle'
      cases hHandle'
      exact hLasts
    · intro hAllLast
      exact hAllLast front event g₁ _ rfl hFollow hHandle

end

variable {δ : Type} [Disk δ] {Holds : δ → Option Bytes → Option Bytes → Prop} {disk : δ}
  {snapshot draft : Option Bytes} {config : Config} {store : DurableStore δ} {cursor : Cursor}
  {f₀ f : Follower (DurableStore δ)} {arrivals : List Arrival} {taken : Nat}

/-- When a run has ended well and the directory is opened again, the user records and the cursor are
what they were in memory. The undo records are too if and only if the last event that was handled
lasts. -/
theorem clean_run_durable_iff (hDisk : Disk.Serves config.dataDirectory Holds)
    (hHolds : Holds disk snapshot draft)
    (hMount : DurableStore.mount config.dataDirectory config.maxRetries disk = .ok store)
    (hStart : start (ofLog (.ofStore store) config) = .ok cursor f₀)
    (hRun : run arrivals f₀ = (⟨.ok (), taken⟩, f))
    (hShort : ∀ data after, Disk.read (DurableStore.snapshotPath config.dataDirectory)
      f.log.store.disk = .ok data after → data.length < Wire.lengthLimit) :
    ∃ reopened, DurableStore.mount config.dataDirectory config.maxRetries f.log.store.disk =
        .ok reopened ∧
      reopened.contents.Accords f.log.store.contents ∧
      (reopened.contents = f.log.store.contents ↔
        EndsLasting config store.contents (handled arrivals)) := by
  have hMirrors := DurableStore.mirrors_of_mount hDisk hHolds hMount
  have hSimulation := DurableStore.simulation hDisk
  obtain ⟨g₀, hStart', hAlike₀⟩ := (simulates_start hSimulation).exists_of_step_ok
    (alike_ofStore hMirrors config) hStart
  obtain ⟨hResult, hAlike⟩ := alike_run hSimulation arrivals hAlike₀
  rw [hRun] at hResult hAlike
  obtain ⟨g, hRun'⟩ : ∃ g, run arrivals g₀ = (⟨.ok (), taken⟩, g) := ⟨_, Prod.ext hResult.symm rfl⟩
  rw [hRun'] at hAlike
  obtain ⟨hAccords, hSaved⟩ := run_secured hStart' hRun'
  obtain ⟨reopened, hReopen, hAgain⟩ :=
    DurableStore.mount_spec hDisk (hAlike.log.store.keptBy hDisk hShort) config.maxRetries
  refine ⟨reopened, hReopen, ?_⟩
  have hContents : reopened.contents = g.log.store.saved := hAgain.contents
  rw [hContents, hAlike.log.store.contents]
  exact ⟨hAccords, hSaved⟩

theorem exists_of_session {events : List Event} (h : session config events disk = .ok f) :
    ∃ store cursor f₀ taken,
      DurableStore.mount config.dataDirectory config.maxRetries disk = .ok store ∧
      start (ofLog (.ofStore store) config) = .ok cursor f₀ ∧
      run (Follower.arrivals events) f₀ = (⟨.ok (), taken⟩, f) := by
  rw [session] at h
  split at h
  case h_1 => cases h
  case h_2 store hMount =>
    rw [attend, attendIn] at h
    cases hStart : start (ofLog (.ofStore store) config) with
    | error e g =>
      simp only [hStart] at h
      cases h
    | ok cursor f₀ =>
      simp only [hStart] at h
      cases hRun : runIn (fun _ => sorted) (Follower.arrivals events) f₀ with
      | mk result g =>
        obtain ⟨outcome, taken⟩ := result
        cases outcome with
        | error e =>
          simp only [hRun] at h
          cases h
        | ok _ =>
          simp only [hRun] at h
          cases h
          exact ⟨store, cursor, f₀, taken, hMount, hStart, hRun⟩

def twoBlocks : List Event :=
  [.data ⟨1, 0, [.assign "c" [0x31]], .blank 1⟩, .data ⟨2, 0, [.assign "c" [0x32]], .blank 2⟩]

/-- What a store that never fails is left as when events were attended to. -/
def storeAfter (config : Config) (contents : Contents) (events : List Event) :
    Option Checkpointed :=
  match attend events (ofLog (.ofStore (Checkpointed.ofContents contents)) config) with
  | .ok _ g => some g.log.store
  | .error _ _ => none

theorem exists_of_storeAfter {events : List Event} {contents : Contents} {v : Checkpointed}
    (h : storeAfter config contents events = some v) :
    ∃ g, attend events (ofLog (.ofStore (Checkpointed.ofContents contents)) config) = .ok () g ∧
      g.log.store = v := by
  rw [storeAfter] at h
  split at h
  case h_1 g hAttend => exact ⟨g, hAttend, Option.some.inj h⟩
  case h_2 => cases h

theorem clean_run_durable_after_block :
    ∃ f reopened, session promptConfig twoBlocks FileTree.withData = .ok f ∧
      DurableStore.mount "data" promptConfig.maxRetries f.log.store.disk = .ok reopened ∧
      reopened.contents = f.log.store.contents := by
  have hDisk : Disk.Serves promptConfig.dataDirectory FileTree.HoldsData :=
    FileTree.HoldsData.serves
  have hEnds : (storeAfter promptConfig ∅ twoBlocks).isSome = true := by decide +kernel
  obtain ⟨v, hEnds⟩ := Option.isSome_iff_exists.mp hEnds
  obtain ⟨g, hAttend, _⟩ := exists_of_storeAfter hEnds
  obtain ⟨f, hSession, _⟩ := session_spec hDisk FileTree.HoldsData.keptBy_withData hAttend
  obtain ⟨store, cursor, f₀, taken, hMount, hStart, hRun⟩ := exists_of_session hSession
  have hShort := DurableStore.length_of_result hSession "data" (fun f => f.log.store.disk)
    (by decide +kernel)
  obtain ⟨reopened, hReopen, _, hSame⟩ :=
    clean_run_durable_iff hDisk .of_withData hMount hStart hRun hShort
  refine ⟨f, reopened, hSession, hReopen, hSame.mpr ?_⟩
  rw [handled_arrivals]
  rintro front event h h' hSplit - -
  have hSplit : [.data ⟨1, 0, [.assign "c" [0x31]], .blank 1⟩] ++
      [.data ⟨2, 0, [.assign "c" [0x32]], .blank 2⟩] = front ++ [event] := hSplit
  obtain ⟨-, hLast⟩ := List.append_inj' hSplit rfl
  cases hLast
  refine .inr (.inl ⟨fun hIdle => Std.ExtTreeMap.insert_ne_empty hIdle.1, ?_⟩)
  rintro _ ⟨⟩

/-- The undo record of the block that the last fork took back is there again. -/
theorem clean_run_not_durable_after_fork :
    ∃ f reopened, session promptConfig shortFork FileTree.withData = .ok f ∧
      DurableStore.mount "data" promptConfig.maxRetries f.log.store.disk = .ok reopened ∧
      reopened.contents ≠ f.log.store.contents := by
  have hDisk : Disk.Serves promptConfig.dataDirectory FileTree.HoldsData :=
    FileTree.HoldsData.serves
  have hDiffers : ((storeAfter promptConfig ∅ shortFork).map fun v =>
      (v.saved[Key.undo 2]?.isSome, v.current[Key.undo 2]?)) = some (true, none) := by
    decide +kernel
  obtain ⟨v, hEnds, hDiffers⟩ := Option.map_eq_some_iff.mp hDiffers
  obtain ⟨hSaved, hCurrent⟩ := Prod.mk.inj hDiffers
  obtain ⟨g, hAttend, rfl⟩ := exists_of_storeAfter hEnds
  obtain ⟨f, hSession, hAlike⟩ := session_spec hDisk FileTree.HoldsData.keptBy_withData hAttend
  have hShort := DurableStore.length_of_result hSession "data" (fun f => f.log.store.disk)
    (by decide +kernel)
  obtain ⟨reopened, hReopen, hAgain⟩ := DurableStore.mount_spec hDisk
    (hAlike.log.store.keptBy hDisk hShort) promptConfig.maxRetries
  refine ⟨f, reopened, hSession, hReopen, fun hSame => ?_⟩
  have hContents : g.log.store.saved = g.log.store.current :=
    hAgain.contents.symm.trans (hSame.trans hAlike.log.store.contents)
  rw [hContents, hCurrent] at hSaved
  cases hSaved

end Follower

end ForkLog
