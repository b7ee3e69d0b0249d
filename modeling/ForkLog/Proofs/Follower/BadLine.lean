import Mathlib
import ForkLog.Proofs.Event.Source
import ForkLog.Proofs.Follower.Session
import ForkLog.Proofs.Follower.Writing

/-! # What a bad line costs

A run stops at the first line that cannot be read. If that line is text, what came before is flushed as
at the end of a source. If it is not, the run ends as after a failure of the store: what is pending then
is lost.
-/

namespace ForkLog

set_option autoImplicit false

namespace OperationLog

variable {log log' : OperationLog Checkpointed} {cursor : Cursor}

theorem Quiet.steady (h : Quiet log log') : Steady log log' :=
  ⟨h.saved, h.lastCursor, h.accords.cursor_eq⟩

theorem inSync_discarded (h : log.InSync) (height : UInt64) : (log.discarded height).InSync := by
  intro cursor hCursor
  have hAccords : log.store.current.Accords (log.discarded height).store.current :=
    .eraseAll_between _ (List.le_of_lt (Key.undo_lt_undoEnd height))
  rw [hAccords.cursor_eq]
  exact h cursor hCursor

end OperationLog

namespace Follower

section

variable {σ τ : Type} [Store σ] [Store τ]

/-- The same user records and the same cursor are there after either run. -/
def FindsSame (f g : Follower σ) : Prop :=
  (∃ records, Store.Holds f.log.store records ∧ Store.Holds g.log.store records) ∧
    OperationLog.getCursor.outcome f.log = OperationLog.getCursor.outcome g.log

/-- The user records are what they would be if all that is pending were flushed, and the cursor is
the one of the last event. -/
def UpToDate (f : Follower σ) : Prop :=
  ∀ cursor, f.lastCursor = some cursor →
    (∃ records, Store.Holds f.log.store records ∧ f.log.pending.appliedTo records = records) ∧
      OperationLog.getCursor.outcome f.log = Cursor.decode cursor.encode

variable {R : σ → τ → Prop}

theorem Alike.findsSame_iff (h : Store.Simulation R) {f f' : Follower σ} {g g' : Follower τ}
    (hf : Alike R f g) (hf' : Alike R f' g') : FindsSame f f' ↔ FindsSame g g' := by
  have hGet := OperationLog.simulates_getCursor h
  simp only [FindsSame, h.holds_congr hf.log.store, h.holds_congr hf'.log.store,
    hGet.outcome_eq hf.log, hGet.outcome_eq hf'.log]

theorem Alike.upToDate_iff (h : Store.Simulation R) {f : Follower σ} {g : Follower τ}
    (hf : Alike R f g) : f.UpToDate ↔ g.UpToDate := by
  simp only [UpToDate, h.holds_congr hf.log.store, hf.lastCursor, hf.log.pending,
    (OperationLog.simulates_getCursor h).outcome_eq hf.log]

end

section

variable {f f' : Follower Checkpointed} {cursor : Cursor}

theorem FindsSame.refl (f : Follower Checkpointed) : FindsSame f f :=
  ⟨⟨_, Store.holds_checkpointed_iff.mpr rfl, Store.holds_checkpointed_iff.mpr rfl⟩, rfl⟩

theorem FindsSame.comm {σ : Type} [Store σ] {f g : Follower σ} : FindsSame f g ↔ FindsSame g f := by
  simp only [FindsSame, and_comm, eq_comm]

theorem valid_of_shutdown (hSome : f.lastCursor = some cursor) (h : shutdown f = .ok () f') :
    f.log.pending.Valid := by
  rw [shutdown_eq_of_some hSome, flush_eq_flushOnceIn] at h
  obtain ⟨_, _, hFlush, _⟩ := Action.exists_of_bind h
  obtain ⟨_, _, hOnLog, _⟩ := Action.exists_of_bind hFlush
  obtain ⟨_, hLog, _⟩ := onLog_of_ok hOnLog
  exact OperationLog.valid_of_flush hLog

/-- The flush at the end of a run goes unnoticed if and only if everything was written before. -/
theorem findsSame_shutdown_iff (hInSync : f.log.InSync) (h : shutdown f = .ok () f') :
    FindsSame f f' ↔ f.UpToDate := by
  have hLog : f'.log = f.ended := by rw [shutdown_of_ok h]
  obtain hNone | ⟨cursor, hSome⟩ := Option.eq_none_or_eq_some f.lastCursor
  · rw [ended_of_none hNone] at hLog
    rw [UpToDate, hNone, FindsSame, hLog]
    exact iff_of_true (FindsSame.refl f) nofun
  · rw [ended_of_some hSome] at hLog
    have hRecords := OperationLog.records_flushed (valid_of_shutdown hSome h) cursor
    have hCursor : OperationLog.getCursor.outcome (f.log.flushed cursor) =
        Cursor.decode cursor.encode := by
      rw [OperationLog.outcome_getCursor, OperationLog.cursor_flushed hInSync cursor]
      rfl
    simp only [FindsSame, UpToDate, hCursor, hLog, hSome, Store.holds_checkpointed_iff, hRecords,
      Option.some.injEq, forall_eq', exists_eq_left']

end

/-- What comes out of a source, with no stop requested. -/
def received (items : List (Except Error Event)) : List Arrival :=
  items.map fun item => ⟨item, false⟩

theorem consumeIn_append {σ : Type} [Store σ] {orders : Nat → Nat → PendingSet.Order}
    {front : List Arrival} {taken last : Nat} {f g : Follower σ}
    (h : consumeIn orders front taken f = (⟨.ok (), last⟩, g)) (hGoing : g.stopRequested = false)
    (rest : List Arrival) :
    consumeIn orders (front ++ rest) taken f = consumeIn orders rest last g := by
  induction front generalizing taken f with
  | nil =>
    cases h
    rfl
  | cons arrival front ih =>
    simp only [List.cons_append, consumeIn] at h ⊢
    generalize (if arrival.stopping then f.requestStop else f) = f at h ⊢
    cases hStopped : f.stopRequested with
    | true =>
      simp only [hStopped, if_true] at h
      cases h
      rw [hStopped] at hGoing
      cases hGoing
    | false =>
      simp only [hStopped, Bool.false_eq_true, if_false] at h ⊢
      cases hItem : arrival.item with
      | error e =>
        simp only [hItem] at h
        cases h
      | ok event =>
        simp only [hItem] at h ⊢
        cases hHandle : handleIn (orders taken) event f with
        | error e f' =>
          simp only [hHandle] at h
          cases h
        | ok _ f' =>
          simp only [hHandle] at h ⊢
          exact ih h

/-- What handling events does not touch. -/
structure Upkeep (f f' : Follower Checkpointed) : Prop where
  going : f'.stopRequested = f.stopRequested
  inSync : f.log.InSync → f'.log.InSync

theorem Upkeep.trans {f g f' : Follower Checkpointed} (h : Upkeep f g) (h' : Upkeep g f') :
    Upkeep f f' :=
  ⟨h'.going.trans h.going, fun hInSync => h'.inSync (h.inSync hInSync)⟩

theorem upkeep_of_handle {f f' : Follower Checkpointed} {event : Event}
    (h : handle event f = .ok () f') : Upkeep f f' := by
  by_cases hSkips : f.Skips event
  · rw [handle_eq_of_skips hSkips] at h
    cases h
    exact ⟨rfl, id⟩
  · cases event with
    | data block =>
      obtain ⟨-, log, hQuiet, hSettle⟩ := onBlock_of_ok hSkips h
      rw [settle_of_ok hSettle]
      refine ⟨rfl, fun hInSync => ?_⟩
      have hAdded : ({ log with pending := log.pending.addAll block.operations } :
          OperationLog Checkpointed).InSync := hQuiet.steady.inSync hInSync
      dsimp only
      split
      · exact OperationLog.inSync_flushed hAdded block.cursor
      · exact hAdded
    | undo fork =>
      rw [onFork_of_ok hSkips h]
      refine ⟨rfl, fun hInSync => ?_⟩
      have hAdded : ({ f.log with
          pending := f.log.pending.addAll (f.undoing fork.lastValidBlock) } :
          OperationLog Checkpointed).InSync := hInSync
      exact OperationLog.inSync_discarded (OperationLog.inSync_flushed hAdded fork.cursor) _

theorem consume_received {f f' : Follower Checkpointed} {items : List (Except Error Event)}
    {taken last : Nat} (hGoing : f.stopRequested = false)
    (h : consume (received items) taken f = (⟨.ok (), last⟩, f')) :
    (∀ item ∈ items, ∃ event, item = .ok event) ∧ Upkeep f f' := by
  induction items generalizing f taken with
  | nil =>
    cases h
    exact ⟨nofun, rfl, id⟩
  | cons item items ih =>
    have hFirst : received (item :: items) = ⟨item, false⟩ :: received items := rfl
    simp only [hFirst, consume, consumeIn, Bool.false_eq_true, if_false, hGoing] at h
    cases item with
    | error e => cases h
    | ok event =>
      cases hHandle : handleIn sorted event f with
      | error e g =>
        simp only [hHandle] at h
        cases h
      | ok _ g =>
        simp only [hHandle] at h
        have hStep := upkeep_of_handle hHandle
        obtain ⟨hItems, hRest⟩ := ih (hStep.going.trans hGoing) h
        exact ⟨List.forall_mem_cons.mpr ⟨⟨event, rfl⟩, hItems⟩, hStep.trans hRest⟩

theorem upkeep_of_start {contents : Contents} {config : Config} {cursor : Cursor}
    {f : Follower Checkpointed}
    (h : start (ofLog (.ofStore (Checkpointed.ofContents contents)) config) = .ok cursor f) :
    f.stopRequested = false ∧ f.log.InSync := by
  obtain ⟨_, _, _, rfl⟩ | ⟨_, _, rfl⟩ := start_of_ok h
  · exact ⟨rfl, nofun⟩
  · exact ⟨rfl, OperationLog.inSync_of_insert⟩

variable {σ : Type} [Store σ] {R : σ → Checkpointed → Prop} {store : σ} {contents : Contents}
  {config : Config} {cursor : Cursor} {f f₁ g : Follower σ} {taken : Nat} {e : Error}

/-- A run that ends well has read every line, and its end can be made up for. -/
theorem consume_received_of_simulation (h : Store.Simulation R)
    (hStore : R store (.ofContents contents))
    (hStart : start (ofLog (.ofStore store) config) = .ok cursor f)
    {items : List (Except Error Event)}
    (hConsume : consume (received items) 0 f = (⟨.ok (), taken⟩, g))
    (hShutdown : shutdown g = .ok () f₁) :
    (∀ item ∈ items, ∃ event, item = .ok event) ∧ g.stopRequested = false ∧
      FindsSame f₁ f₁ ∧ (FindsSame f₁ g ↔ g.UpToDate) := by
  obtain ⟨f', hStart', hAlike⟩ :=
    (simulates_start h).exists_of_step_ok (alike_ofStore hStore config) hStart
  obtain ⟨hGoing, hInSync⟩ := upkeep_of_start hStart'
  obtain ⟨hResult, hAlike⟩ := alike_consume h (received items) 0 hAlike
  rw [hConsume] at hResult hAlike
  obtain ⟨g', hConsume'⟩ : ∃ g', consume (received items) 0 f' = (⟨.ok (), taken⟩, g') :=
    ⟨_, Prod.ext hResult.symm rfl⟩
  rw [hConsume'] at hAlike
  obtain ⟨hItems, hUpkeep⟩ := consume_received hGoing hConsume'
  obtain ⟨f₁', hShutdown', hAlike₁⟩ := (simulates_shutdown h).exists_of_step_ok hAlike hShutdown
  refine ⟨hItems, hAlike.stopRequested.trans (hUpkeep.going.trans hGoing),
    (hAlike₁.findsSame_iff h hAlike₁).mpr (.refl f₁'), ?_⟩
  rw [hAlike₁.findsSame_iff h hAlike, hAlike.upToDate_iff h, FindsSame.comm,
    findsSame_shutdown_iff (hUpkeep.inSync hInSync) hShutdown']

theorem run_of_error {arrivals : List Arrival}
    (hConsume : consume arrivals 0 f = (⟨.error e, taken⟩, g))
    (hShutdown : shutdown g = .ok () f₁) :
    run arrivals f = (⟨.error e, taken⟩, if e.isStoreFailure then g else f₁) := by
  have hFlushes : flushesAfter (.error e) = !e.isStoreFailure := rfl
  cases hStore : e.isStoreFailure with
  | true =>
    rw [hStore] at hFlushes
    exact runIn_eq_of_not_flushes hConsume hFlushes
  | false =>
    rw [hStore] at hFlushes
    have hLeave : (shutdownIn sorted).leave g = f₁ := Action.leave_eq_of_ok hShutdown
    rw [run, runIn_eq_of_flushes hConsume hFlushes, hLeave]
    rfl

/-- A line that cannot be read ends the run with its error. What is found after it is what is found
when the source ends before it, if the line is text or if everything was written already, and only
then. -/
theorem bad_line_spares_iff (h : Store.Simulation R) (hStore : R store (.ofContents contents))
    (hStart : start (ofLog (.ofStore store) config) = .ok cursor f) {whole longer : Bytes}
    (hRun : run (received (Event.readAll whole)) f = (⟨.ok (), taken⟩, f₁)) {bad : Bytes}
    {more : List Bytes} (hLines : Event.lines longer = Event.lines whole ++ bad :: more)
    (hBad : Event.readLines (Event.lines whole).length [bad] = [.error e]) :
    ∃ g f₂, consume (received (Event.readAll whole)) 0 f = (⟨.ok (), taken⟩, g) ∧
      run (received (Event.readAll longer)) f = (⟨.error e, taken + 1⟩, f₂) ∧
      (FindsSame f₁ f₂ ↔ Event.isText bad = true ∨ g.UpToDate) := by
  obtain ⟨g, hConsume, hShutdown⟩ := exists_of_run hRun
  obtain ⟨hItems, hGoing, hSame, hUpToDate⟩ :=
    consume_received_of_simulation h hStore hStart hConsume hShutdown
  obtain ⟨others, hItems'⟩ := Event.readAll_of_lines hItems hLines hBad
  have hConsume' : consume (received (Event.readAll longer)) 0 f =
      (⟨.error e, taken + 1⟩, g) := by
    have hReceived : received (Event.readAll longer) =
        received (Event.readAll whole) ++ ⟨.error e, false⟩ :: received others := by
      rw [hItems', received, List.map_append]
      rfl
    rw [hReceived, consume, consumeIn_append hConsume hGoing, consumeIn]
    simp [hGoing]
  refine ⟨g, _, hConsume, run_of_error hConsume' hShutdown, ?_⟩
  rw [Event.isStoreFailure_of_readLines hBad]
  cases Event.isText bad with
  | true => simpa using hSame
  | false => simpa using hUpToDate

theorem eq_of_result {τ : Type} {ended : RunResult × τ} {outcome : Except Error Unit}
    (hOutcome : ended.1.outcome = outcome) (hTaken : ended.1.taken = taken) :
    ended = (⟨outcome, taken⟩, ended.2) := by
  obtain ⟨⟨_, _⟩, _⟩ := ended
  cases hOutcome
  cases hTaken
  rfl

/-- A final block, which is not flushed as it comes. -/
def blockLine : Bytes :=
  Utf8.encode "[\"data\",1,1,\"::1\",[[\"set\",\"a\",\"31\"]]]" ++ [Event.newline]

theorem bad_line_spares_block :
    ∃ cursor f f₁ f₂, start (ofLog (.ofStore (∅ : Contents)) {}) = .ok cursor f ∧
      run (received (Event.readAll blockLine)) f = (⟨.ok (), 1⟩, f₁) ∧
      run (received (Event.readAll (blockLine ++ Utf8.encode "oops"))) f =
        (⟨.error (.serialization "line 2: invalid json"), 2⟩, f₂) ∧ FindsSame f₁ f₂ := by
  have hRun : run (received (Event.readAll blockLine)) (begun {}) = (⟨.ok (), 1⟩, _) :=
    eq_of_result (by decide +kernel) (by decide +kernel)
  have hLines : Event.lines (blockLine ++ Utf8.encode "oops") =
      Event.lines blockLine ++ [Utf8.encode "oops"] :=
    Event.lines_append (.inr ⟨_, rfl⟩) _
  have hBad : Event.readLines (Event.lines blockLine).length [Utf8.encode "oops"] =
      [.error (.serialization "line 2: invalid json")] := by decide +kernel
  obtain ⟨_, f₂, -, hEnds, hSame⟩ := bad_line_spares_iff Store.simulation_contents.checkpointed
    rfl (start_empty {}) hRun hLines hBad
  exact ⟨_, _, _, f₂, start_empty {}, hRun, hEnds, hSame.mpr (.inl (by decide +kernel))⟩

/-- A line that is not text loses the block before it, which the end of the source would have
flushed. -/
theorem undecodable_line_costs_block :
    ∃ cursor f f₁ f₂, start (ofLog (.ofStore (∅ : Contents)) {}) = .ok cursor f ∧
      run (received (Event.readAll blockLine)) f = (⟨.ok (), 1⟩, f₁) ∧
      run (received (Event.readAll (blockLine ++ [0xFF]))) f =
        (⟨.error Event.undecodable, 2⟩, f₂) ∧ ¬ FindsSame f₁ f₂ := by
  refine ⟨_, _, _, _, start_empty {}, eq_of_result (by decide +kernel) (by decide +kernel),
    eq_of_result (by decide +kernel) (by decide +kernel), ?_⟩
  rintro ⟨⟨records, hFirst, hSecond⟩, -⟩
  have hKept : (run (received (Event.readAll blockLine)) (begun {})).2.log.store[Key.user "a"]? =
      some [0x31] := by decide +kernel
  have hLost : (run (received (Event.readAll (blockLine ++ [0xFF]))) (begun {})).2.log.store[
      Key.user "a"]? = none := by decide +kernel
  have hSame := (hFirst "a").trans (hSecond "a").symm
  rw [← Option.some_inj.mp hSame, hKept] at hLost
  cases hLost

end Follower

end ForkLog
