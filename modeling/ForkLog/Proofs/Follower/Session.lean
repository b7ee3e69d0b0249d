import Mathlib
import ForkLog.Proofs.Cursor
import ForkLog.Proofs.Follower.Course

/-! # Runs of a follower that flushes at every block

A follower that flushes at every block keeps abreast of the chain: whenever an event comes, all that
came before is written, together with the cursor of the last event.
-/

namespace ForkLog

set_option autoImplicit false

namespace Follower

/-- Where a follower stands in the course of a chain. -/
structure Abreast (config : Config) (c : Course) (f : Follower Checkpointed) (l : Ledger) :
    Prop where
  shows : f.log.Shows Key.undoEnd l
  settings : f.config = config
  going : f.stopRequested = false
  pending : f.log.pending = ∅
  cursor : f.log.store.current[Key.cursor]? = some c.cursor.encode
  lastWritten : ∀ cursor, f.log.lastCursor = some cursor → cursor = c.cursor
  lastApplied : ∀ cursor, f.lastCursor = some cursor → f.log.lastCursor = some cursor
  finalized : ∀ height, f.lastFinalized = some height → height ≤ c.progress.finalized
  resumes : f.caughtUp = true ∨ f.resumeFrom = nextBlock c.tip ∧ c.tip.toNat + 1 < UInt64.size
  waiting : c.progress.begun = false →
    f.caughtUp = false ∧ c.tip = previousBlock config.startBlock ∧
      f.log.store.saved = f.log.store.current

variable {config : Config} {c : Course} {f : Follower Checkpointed} {l : Ledger}

theorem Abreast.inSync (h : Abreast config c f l) : f.log.InSync := by
  intro cursor hCursor
  rw [h.lastWritten cursor hCursor]
  exact h.cursor

theorem Abreast.lastCursor_ne (h : Abreast config c f l) {cursor : Cursor}
    (hOther : cursor.blockNumber ≠ c.tip) : f.log.lastCursor ≠ some cursor := by
  intro hSame
  apply hOther
  rw [h.lastWritten cursor hSame, Course.tip]

theorem onBlock_abreast (h : Abreast config c f l) (hInterval : config.flushInterval = 1)
    (hStart : 0 < config.startBlock) {block : Block} (hAllows : c.Allows config (.data block)) :
    ∃ f' l', onBlock block f = .ok () f' ∧
      Abreast config (c.after config (.data block)) f' l' ∧
      f'.log.store.saved = f'.log.store.current ∧ c.Step config l (.data block) l' := by
  by_cases hPasses : c.progress.PassesOver config block
  · obtain ⟨hBehind, hTip, hSaved⟩ := h.waiting hPasses.1
    have hAfter : c.after config (.data block) = c := if_pos hPasses
    have hResume : f.resumeFrom = config.startBlock := by
      obtain hCaughtUp | ⟨hResume, _⟩ := h.resumes
      · rw [hBehind] at hCaughtUp
        cases hCaughtUp
      · rw [hResume, hTip, nextBlock_previousBlock hStart]
    rw [hAfter]
    exact ⟨f, l, onBlock_eq_of_passes hBehind (hResume ▸ hPasses.2), h, hSaved, .pass hPasses⟩
  · obtain ⟨hTip, hNumber, hFinalized, hOps⟩ := hAllows.resolve_left hPasses
    have hApplies : f.caughtUp = true ∨ f.resumeFrom ≤ block.number := by
      refine h.resumes.imp_right fun ⟨hResume, hRoom⟩ => ?_
      rw [hResume, UInt64.le_iff_toNat_le, toNat_nextBlock hRoom]
      exact UInt64.lt_iff_toNat_lt.mp hTip
    obtain ⟨f', hRun, hFields, hShows, hFlushed⟩ := onBlock_spec h.shows hOps hApplies
    rw [h.settings] at hShows hFlushed
    have hFlushed := hFlushed (by rw [hInterval, Course.flushesAt_one])
    have hNew : block.cursor.blockNumber ≠ c.tip := by
      rw [hNumber]
      exact (UInt64.ne_of_lt hTip).symm
    refine ⟨f', l.block f.lastFinalized config.flushInterval block, hRun, ?_,
      hFlushed.saved (h.lastCursor_ne hNew), .block hPasses h.finalized⟩
    rw [Course.after_of_applied hPasses, hFields]
    refine ⟨hShows, h.settings, h.going, hFlushed.pending,
      hFlushed.inSync h.inSync _ hFlushed.lastCursor, ?_, ?_, ?_, .inl rfl, nofun⟩
    · intro cursor hCursor
      exact (Option.some.inj (hFlushed.lastCursor.symm.trans hCursor)).symm
    · intro cursor hCursor
      exact hFlushed.lastCursor.trans hCursor
    · intro height hHeight
      obtain rfl := Option.some.inj hHeight
      exact UInt64.le_refl _

theorem onFork_abreast (h : Abreast config c f l) (hStart : 0 < config.startBlock) {fork : Fork}
    (hAllows : c.Allows config (.undo fork)) :
    ∃ f' l', onFork fork f = .ok () f' ∧ Abreast config (c.after config (.undo fork)) f' l' ∧
      (∃ left : Ledger, left.records = l'.records ∧ left.upcoming = left.records ∧
        left.undo = l.undo ∧ f'.log.store.saved.Shows Key.undoEnd left ∧
        f'.log.store.saved[Key.cursor]? = some fork.cursor.encode) ∧
      c.Step config l (.undo fork) l' := by
  obtain ⟨hTip, hNumber, hFinalized, hFloor⟩ := id hAllows
  have hBegun : c.progress.begun = true := by
    by_contra hNot
    obtain ⟨_, hAtStart, _⟩ := h.waiting (by simpa using hNot)
    rw [hAtStart, UInt64.lt_iff_toNat_lt, toNat_previousBlock hStart] at hTip
    omega
  have hApplies : f.caughtUp = true ∨ nextBlock fork.lastValidBlock < f.resumeFrom := by
    refine h.resumes.imp_right fun ⟨hResume, hRoom⟩ => ?_
    have hLow := UInt64.lt_iff_toNat_lt.mp hTip
    rw [hResume, UInt64.lt_iff_toNat_lt, toNat_nextBlock hRoom, toNat_nextBlock (by omega)]
    omega
  obtain ⟨blocks, f', hCovers, hRun, hFields, hShows, hPending, hLast, hInSync, hSaved⟩ :=
    takeBack_spec h.shows (List.le_of_lt (Key.undo_lt_undoEnd fork.lastValidBlock))
  have hNew : fork.cursor.blockNumber ≠ c.tip := by
    rw [hNumber]
    exact UInt64.ne_of_lt hTip
  have hCursor : f'.log.store.current[Key.cursor]? = some fork.cursor.encode :=
    hInSync h.inSync _ hLast
  obtain ⟨hSavedShows, hSavedCursor⟩ := hSaved (h.lastCursor_ne hNew)
  let left := (l.add (blocks.flatMap l.undone)).flush
  refine ⟨f', left.discard fork.lastValidBlock, (onFork_eq_takeBackIn hApplies).trans hRun, ?_,
    ⟨left, rfl, rfl, rfl, hSavedShows, hSavedCursor.trans hCursor⟩, .fork hCovers⟩
  rw [hFields]
  refine ⟨hShows, h.settings, h.going, hPending, hCursor, ?_, ?_, h.finalized, .inl rfl, ?_⟩
  · intro cursor hWritten
    exact (Option.some.inj (hLast.symm.trans hWritten)).symm
  · intro cursor hApplied
    exact hLast.trans hApplied
  · intro hNot
    exact absurd (hBegun.symm.trans hNot) (by decide)

/-- The arrivals of events from a source that does not fail, with no stop requested. -/
def arrivals (events : List Event) : List Arrival := events.map fun event => ⟨.ok event, false⟩

theorem consumeIn_cons {σ : Type} [Store σ] (orders : Nat → Nat → PendingSet.Order)
    {g g' : Follower σ} (hGoing : g.stopRequested = false) {event : Event} {taken : Nat}
    (hHandle : handleIn (orders taken) event g = .ok () g') (events : List Event) :
    consumeIn orders (arrivals (event :: events)) taken g =
      consumeIn orders (arrivals events) (taken + 1) g' := by
  have hFirst : arrivals (event :: events) = ⟨.ok event, false⟩ :: arrivals events := rfl
  simp only [hFirst, consumeIn, Bool.false_eq_true, if_false, hGoing, hHandle]

theorem consumeIn_cons_of_error {σ : Type} [Store σ] (orders : Nat → Nat → PendingSet.Order)
    {g g' : Follower σ} {e : Error} (hGoing : g.stopRequested = false) {event : Event} {taken : Nat}
    (hHandle : handleIn (orders taken) event g = .error e g') (events : List Event) :
    consumeIn orders (arrivals (event :: events)) taken g = (⟨.error e, taken + 1⟩, g') := by
  have hFirst : arrivals (event :: events) = ⟨.ok event, false⟩ :: arrivals events := rfl
  simp only [hFirst, consumeIn, Bool.false_eq_true, if_false, hGoing, hHandle]

theorem consume_cons {σ : Type} [Store σ] {g g' : Follower σ} (hGoing : g.stopRequested = false)
    {event : Event} (hHandle : handle event g = .ok () g') (events : List Event) (taken : Nat) :
    consume (arrivals (event :: events)) taken g = consume (arrivals events) (taken + 1) g' :=
  consumeIn_cons (fun _ => sorted) hGoing hHandle events

variable {events : List Event}

theorem consume_abreast (hInterval : config.flushInterval = 1) (hStart : 0 < config.startBlock)
    (h : Abreast config c f l) (hOrder : c.InOrder config events) (taken : Nat) :
    ∃ f' l', (∀ rest, consume (arrivals (events ++ rest)) taken f =
        consume (arrivals rest) (taken + events.length) f') ∧
      Abreast config (c.afterAll config events) f' l' ∧ c.Steps config l events l' := by
  induction events generalizing c f l taken with
  | nil => exact ⟨f, l, fun _ => rfl, h, .nil⟩
  | cons event events ih =>
    obtain ⟨hAllows, hOrder⟩ := hOrder
    have hStep : ∃ f' l', handle event f = .ok () f' ∧
        Abreast config (c.after config event) f' l' ∧ c.Step config l event l' := by
      cases event with
      | data block =>
        obtain ⟨f', l', hRun, h', _, hStep⟩ := onBlock_abreast h hInterval hStart hAllows
        exact ⟨f', l', hRun, h', hStep⟩
      | undo fork =>
        obtain ⟨f', l', hRun, h', _, hStep⟩ := onFork_abreast h hStart hAllows
        exact ⟨f', l', hRun, h', hStep⟩
    obtain ⟨f₁, l₁, hRun₁, h₁, hStep₁⟩ := hStep
    obtain ⟨f₂, l₂, hRun₂, h₂, hSteps₂⟩ := ih h₁ hOrder (taken + 1)
    refine ⟨f₂, l₂, fun rest => ?_, h₂, .cons hStep₁ hSteps₂⟩
    rw [List.cons_append, consume_cons h.going hRun₁, hRun₂, List.length_cons,
      Nat.add_right_comm, Nat.add_assoc]

theorem shutdown_abreast (h : Abreast config c f l) :
    ∃ stats, shutdown f = .ok () { f with stats } := by
  obtain hNone | ⟨cursor, hSome⟩ := Option.eq_none_or_eq_some f.lastCursor
  · exact ⟨f.stats, shutdown_eq_of_none hNone⟩
  · have hIdle := OperationLog.flush_eq_of_idle h.pending (h.lastApplied cursor hSome)
    have hOnce : flushOnceIn .sorted cursor f = .ok 0 { f with stats := f.stats.recordFlush 0 0 } :=
      Action.bind_eq_of_ok (Action.within_eq_of_ok hIdle) _
    exact ⟨_, (shutdown_eq_of_some hSome).trans
      (Action.bind_eq_of_ok (Action.attempting_eq_of_ok hOnce _) _)⟩

theorem run_of_consume (h : Abreast config c f l) {g : Follower Checkpointed} {taken : Nat}
    (hConsume : consume (arrivals events) 0 g = (⟨.ok (), taken⟩, f)) :
    ∃ f', run (arrivals events) g = (⟨.ok (), taken⟩, f') ∧ Abreast config c f' l ∧
      f'.log = f.log := by
  obtain ⟨stats, hShutdown⟩ := shutdown_abreast h
  exact ⟨{ f with stats }, runIn_eq_of_ok hConsume hShutdown, { h with }, rfl⟩

theorem run_abreast (hInterval : config.flushInterval = 1) (hStart : 0 < config.startBlock)
    (h : Abreast config c f l) (hOrder : c.InOrder config events) :
    ∃ f' l', run (arrivals events) f = (⟨.ok (), events.length⟩, f') ∧
      Abreast config (c.afterAll config events) f' l' ∧ c.Steps config l events l' := by
  obtain ⟨f₁, l₁, hConsume, h₁, hSteps⟩ := consume_abreast hInterval hStart h hOrder 0
  have hAll := hConsume []
  rw [List.append_nil, Nat.zero_add] at hAll
  obtain ⟨f', hRun, h', _⟩ := run_of_consume h₁ hAll
  exact ⟨f', l₁, hRun, h', hSteps⟩

structure Durable (c : Course) (saved : Contents) (left : Ledger) : Prop where
  shows : saved.Shows Key.undoEnd left
  cursor : saved[Key.cursor]? = some c.cursor.encode

theorem Abreast.upcoming (h : Abreast config c f l) : l.upcoming = l.records := by
  rw [← h.shows.upcoming, h.pending, PendingSet.empty_appliedTo]

theorem Abreast.durable (h : Abreast config c f l)
    (hSaved : f.log.store.saved = f.log.store.current) : Durable c f.log.store.saved l where
  shows := hSaved ▸ h.shows.store
  cursor := hSaved ▸ h.cursor

theorem run_durable (hInterval : config.flushInterval = 1) (hStart : 0 < config.startBlock)
    (h : Abreast config c f l) (hSaved : f.log.store.saved = f.log.store.current)
    (hOrder : c.InOrder config events) :
    ∃ f' l' left, run (arrivals events) f = (⟨.ok (), events.length⟩, f') ∧
      Abreast config (c.afterAll config events) f' l' ∧ c.Steps config l events l' ∧
      Durable (c.afterAll config events) f'.log.store.saved left ∧
      c.Leaves config l events l' left := by
  obtain rfl | ⟨front, event, rfl⟩ := List.eq_nil_or_concat events
  · have hConsume : consume (arrivals []) 0 f = (⟨.ok (), 0⟩, f) := rfl
    obtain ⟨f', hRun, h', hLog⟩ := run_of_consume h hConsume
    refine ⟨f', l, l, hRun, h', .nil, ?_, rfl, h.upcoming, fun _ => rfl,
      fun front fork hEmpty => ?_⟩
    · rw [hLog]
      exact h.durable hSaved
    · simp at hEmpty
  · rw [List.concat_eq_append] at hOrder ⊢
    obtain ⟨hFront, hAllows, _⟩ := Course.inOrder_append_iff.mp hOrder
    obtain ⟨f₁, l₁, hConsume, h₁, hSteps₁⟩ := consume_abreast hInterval hStart h hFront 0
    have hAfter : c.afterAll config (front ++ [event]) =
        (c.afterAll config front).after config event :=
      Course.afterAll_append
    have hEnd {f₂ : Follower Checkpointed} {l₂ : Ledger} (hHandle : handle event f₁ = .ok () f₂)
        (h₂ : Abreast config ((c.afterAll config front).after config event) f₂ l₂) :
        ∃ f', run (arrivals (front ++ [event])) f = (⟨.ok (), (front ++ [event]).length⟩, f') ∧
          Abreast config ((c.afterAll config front).after config event) f' l₂ ∧
          f'.log = f₂.log := by
      apply run_of_consume h₂
      rw [hConsume [event], consume_cons h₁.going hHandle, List.length_append, Nat.zero_add]
      rfl
    rw [hAfter]
    cases event with
    | data block =>
      obtain ⟨f₂, l₂, hRun, h₂, hSaved₂, hStep₂⟩ :=
        onBlock_abreast h₁ hInterval hStart hAllows
      obtain ⟨f', hRun', h', hLog⟩ := hEnd hRun h₂
      refine ⟨f', l₂, l₂, hRun', h', hSteps₁.append (.cons hStep₂ .nil), ?_, rfl, h₂.upcoming,
        fun _ => rfl, fun other fork hSame => ?_⟩
      · rw [hLog]
        exact h₂.durable hSaved₂
      · simpa using (List.append_inj' hSame rfl).2
    | undo fork =>
      obtain ⟨f₂, l₂, hRun, h₂, ⟨left, hRecords, hUpcoming, hUndo, hShows, hCursor⟩, hStep₂⟩ :=
        onFork_abreast h₁ hStart hAllows
      obtain ⟨f', hRun', h', hLog⟩ := hEnd hRun h₂
      refine ⟨f', l₂, left, hRun', h', hSteps₁.append (.cons hStep₂ .nil), ?_, hRecords,
        hUpcoming, fun hNone => absurd rfl (hNone front fork), fun other last hSame => ?_⟩
      · rw [hLog]
        exact ⟨hShows, hCursor⟩
      · obtain ⟨rfl, _⟩ := List.append_inj' hSame rfl
        exact ⟨l₁, hSteps₁, hUndo⟩

theorem tip_initial_lt (hStart : 0 < config.startBlock) :
    (Course.initial config).tip.toNat + 1 < UInt64.size := by
  have hPos := UInt64.lt_iff_toNat_lt.mp hStart
  have hBound := config.startBlock.toNat_lt
  rw [Course.tip, Course.initial, Cursor.blank, toNat_previousBlock hStart]
  simp only [UInt64.size]
  omega

theorem start_fresh {contents : Contents} (hUndo : contents.NoUndo)
    (hValues : contents.records.Addressable) (hCursor : contents[Key.cursor]? = none)
    (hStart : 0 < config.startBlock) :
    ∃ cursor f, start (ofLog (.ofStore (Checkpointed.ofContents contents)) config) =
        .ok cursor f ∧
      Abreast config (.initial config) f (.ofContents contents) ∧
      f.log.store.saved = f.log.store.current := by
  have hShows := OperationLog.shows_ofStore (hUndo.shows hValues) rfl
  obtain ⟨f, hRun, hFields, hShows, hPending, hLast, hInSync, hSaved⟩ :=
    start_of_none (f := ofLog (.ofStore (Checkpointed.ofContents contents)) config) hShows hCursor
  refine ⟨_, f, hRun, ?_, hSaved⟩
  rw [hFields]
  refine ⟨hShows, rfl, rfl, hPending, hInSync _ hLast, ?_, nofun, nofun,
    .inr ⟨?_, tip_initial_lt hStart⟩, fun _ => ⟨rfl, rfl, hSaved⟩⟩
  · intro cursor hWritten
    exact (Option.some.inj (hLast.symm.trans hWritten)).symm
  · exact (nextBlock_previousBlock hStart).symm

theorem start_again {saved : Contents} {left : Ledger} (h : Durable c saved left)
    (hUpcoming : left.upcoming = left.records) (hTip : c.tip.toNat + 1 < UInt64.size)
    (hWaiting : c.progress.begun = false → c.tip = previousBlock config.startBlock) :
    ∃ cursor f, start (ofLog (.ofStore (Checkpointed.ofContents saved)) config) = .ok cursor f ∧
      Abreast config c f left := by
  obtain ⟨cursor, hDecode, hNumber⟩ := Cursor.decode_encode c.cursor
  have hShows := OperationLog.shows_ofStore h.shows hUpcoming
  refine ⟨cursor, _, start_of_some h.cursor hDecode, ?_⟩
  refine ⟨hShows, rfl, rfl, rfl, h.cursor, nofun, nofun, nofun, .inr ⟨?_, hTip⟩,
    fun hNot => ⟨rfl, hWaiting hNot, rfl⟩⟩
  rw [Course.tip, ← hNumber]
  rfl

section

variable {σ τ : Type} [Store σ] [Store τ]

theorem exists_of_runIn {orders : Nat → Nat → PendingSet.Order} {arrivals : List Arrival}
    {f f' : Follower σ} {taken : Nat} (hRun : runIn orders arrivals f = (⟨.ok (), taken⟩, f')) :
    ∃ g, consumeIn orders arrivals 0 f = (⟨.ok (), taken⟩, g) ∧
      shutdownIn (orders taken) g = .ok () f' := by
  rw [runIn] at hRun
  generalize consumeIn orders arrivals 0 f = consumed at hRun
  obtain ⟨⟨outcome, last⟩, g⟩ := consumed
  cases outcome with
  | error e =>
    simp only [flushesAfter] at hRun
    cases hFails : e.isStoreFailure with
    | true =>
      simp only [hFails, Bool.not_true, Bool.false_eq_true, if_false] at hRun
      cases hRun
    | false =>
      simp only [hFails, Bool.not_false, if_true] at hRun
      generalize shutdownIn (orders last) g = ending at hRun
      cases ending <;> cases hRun
  | ok _ =>
    simp only [flushesAfter, if_true] at hRun
    cases hShutdown : shutdownIn (orders last) g with
    | error e h =>
      rw [hShutdown] at hRun
      cases hRun
    | ok _ h =>
      rw [hShutdown] at hRun
      cases hRun
      exact ⟨g, rfl, hShutdown⟩

theorem exists_of_run {arrivals : List Arrival} {f f' : Follower σ} {taken : Nat}
    (hRun : run arrivals f = (⟨.ok (), taken⟩, f')) :
    ∃ g, consume arrivals 0 f = (⟨.ok (), taken⟩, g) ∧ shutdown g = .ok () f' :=
  exists_of_runIn hRun

/-- Starts a follower and runs it over events. -/
def attendIn (orders : Nat → Nat → PendingSet.Order) (events : List Event) :
    Action (Follower σ) Unit := fun f =>
  match start f with
  | .ok _ f =>
    match runIn orders (arrivals events) f with
    | (⟨.ok (), _⟩, f) => .ok () f
    | (⟨.error e, _⟩, f) => .error e f
  | .error e f => .error e f

def attend (events : List Event) : Action (Follower σ) Unit := attendIn (fun _ => sorted) events

theorem simulates_attend {R : σ → τ → Prop} (h : Store.Simulation R) (events : List Event) :
    Action.Simulates (Alike R) (attend events) (attend events) := by
  intro f g hf
  have hStart := simulates_start h f g hf
  simp only [attend, attendIn]
  generalize start f = result at hStart
  generalize start g = otherResult at hStart
  cases hStart with
  | error e h' => exact .error e h'
  | @ok _ f' g' h' =>
    obtain ⟨hResult, hAlike⟩ := alike_runIn h (fun _ => sorted) (arrivals events) h'
    simp only []
    generalize runIn (fun _ => sorted) (arrivals events) f' = left at hResult hAlike
    generalize runIn (fun _ => sorted) (arrivals events) g' = right at hResult hAlike
    obtain ⟨⟨outcome, taken⟩, f''⟩ := left
    obtain ⟨_, g''⟩ := right
    obtain rfl : (⟨outcome, taken⟩ : RunResult) = _ := hResult
    cases outcome with
    | ok _ => exact .ok () hAlike
    | error e => exact .error e hAlike

theorem attend_eq_of_run {f g g' : Follower σ} {cursor : Cursor} {taken : Nat}
    (hStart : start f = .ok cursor g) (hRun : run (arrivals events) g = (⟨.ok (), taken⟩, g')) :
    attend events f = .ok () g' := by
  rw [run] at hRun
  simp only [attend, attendIn, hStart, hRun]

end

theorem attend_fresh {contents : Contents} (hUndo : contents.NoUndo)
    (hValues : contents.records.Addressable) (hCursor : contents[Key.cursor]? = none)
    (hInterval : config.flushInterval = 1) (hStart : 0 < config.startBlock)
    (hOrder : (Course.initial config).InOrder config events) :
    ∃ f l left, attend events (ofLog (.ofStore (Checkpointed.ofContents contents)) config) =
        .ok () f ∧
      Abreast config ((Course.initial config).afterAll config events) f l ∧
      (Course.initial config).Steps config (.ofContents contents) events l ∧
      Durable ((Course.initial config).afterAll config events) f.log.store.saved left ∧
      (Course.initial config).Leaves config (.ofContents contents) events l left := by
  obtain ⟨_, f₀, hBegin, hAbreast, hSaved⟩ := start_fresh hUndo hValues hCursor hStart
  obtain ⟨f, l, left, hRun, hRest⟩ := run_durable hInterval hStart hAbreast hSaved hOrder
  exact ⟨f, l, left, attend_eq_of_run hBegin hRun, hRest⟩

theorem attend_again {saved : Contents} {left : Ledger} (hDurable : Durable c saved left)
    (hUpcoming : left.upcoming = left.records) (hTip : c.tip.toNat + 1 < UInt64.size)
    (hWaiting : c.progress.begun = false → c.tip = previousBlock config.startBlock)
    (hInterval : config.flushInterval = 1) (hStart : 0 < config.startBlock)
    (hOrder : c.InOrder config events) :
    ∃ f l, attend events (ofLog (.ofStore (Checkpointed.ofContents saved)) config) = .ok () f ∧
      Abreast config (c.afterAll config events) f l ∧ c.Steps config left events l := by
  obtain ⟨_, f₀, hBegin, hAbreast⟩ := start_again hDurable hUpcoming hTip hWaiting
  obtain ⟨f, l, hRun, hRest⟩ := run_abreast hInterval hStart hAbreast hOrder
  exact ⟨f, l, attend_eq_of_run hBegin hRun, hRest⟩

end Follower

end ForkLog
