import Mathlib
import ForkLog.Proofs.History

/-! # Rolling back an operation log

Blocks, flushes, purges and forks in any order leave the user records exact after every flush. Blocks
may be recorded in a row without a flush between them, and forks may reach back over earlier ones.
-/

namespace ForkLog.OperationLog

set_option autoImplicit false

inductive Step where
  | block (number : UInt64) (operations : List Operation)
  | flush (cursor : Cursor)
  | purge (height : UInt64)
  | fork (height : UInt64) (cursor : Cursor)

variable {σ : Type} [Store σ]

/-- The part of a fork that writes the records as they were. -/
def rewind (height : UInt64) (cursor : Cursor) : Action (OperationLog σ) Unit := do
  let _ ← OperationLog.replay height
  let _ ← OperationLog.flush cursor

def perform : Step → Action (OperationLog σ) Unit
  | .block number ops => do
    let _ ← OperationLog.record number ops
    OperationLog.add ops
  | .flush cursor => do let _ ← OperationLog.flush cursor
  | .purge height => do let _ ← OperationLog.purge height
  | .fork height cursor => do
    rewind height cursor
    let _ ← OperationLog.discardAbove height

def performAll : List Step → Action (OperationLog σ) Unit
  | [] => pure ()
  | step :: steps => do
    perform step
    performAll steps

end OperationLog

namespace History

open OperationLog (Step)

def after (h : History) : Step → History
  | .block number ops => h.place number ops
  | .flush _ => h.flush
  | .purge _ => h
  | .fork height _ => h.fork height

def afterAll (h : History) (steps : List Step) : History := steps.foldl after h

theorem afterAll_concat (h : History) (front : List Step) (step : Step) :
    h.afterAll (front ++ [step]) = (h.afterAll front).after step := by
  rw [afterAll, List.foldl_append, List.foldl_cons, List.foldl_nil, afterAll]

/-- A block is above all that survive. When the first block above the height of a fork was recorded,
all that came before it was written. -/
def Allows (h : History) : Step → Prop
  | .block number ops => (∀ c ∈ h.chain, c.number < number) ∧ Operation.RecordableAll ops
  | .fork height _ =>
    ∀ c, (h.above height).head? = some c → c.written = Placed.allOperations (h.upTo height)
  | .flush _ | .purge _ => True

/-- No fork reaches below a height that was purged before. -/
def InOrder : History → List Step → Prop
  | _, [] => True
  | h, step :: steps =>
    h.Allows step ∧
      (∀ low height cursor, step = .purge low → .fork height cursor ∈ steps → low ≤ height) ∧
        (h.after step).InOrder steps

theorem InOrder.of_append {h : History} {front rest : List Step}
    (hOrder : h.InOrder (front ++ rest)) :
    h.InOrder front ∧ (h.afterAll front).InOrder rest := by
  induction front generalizing h with
  | nil => exact ⟨trivial, hOrder⟩
  | cons step front ih =>
    obtain ⟨hAllows, hPurge, hRest⟩ := hOrder
    obtain ⟨hFront, hRest⟩ := ih hRest
    refine ⟨⟨hAllows, ?_, hFront⟩, hRest⟩
    intro low height cursor hStep hFork
    exact hPurge low height cursor hStep (List.mem_append_left rest hFork)

/-- What may be taken back after a step. -/
def keptAfter (kept : UInt64 → Prop) : Step → UInt64 → Prop
  | .purge height => fun block => kept block ∧ height < block
  | .block _ _ | .flush _ | .fork _ _ => kept

end History

namespace OperationLog

open History (keptAfter)

variable {log : OperationLog Checkpointed} {l : Ledger} {h : History} {initial : Records}
  {kept : UInt64 → Prop}

theorem rewind_spec (hShows : log.Shows Key.undoEnd l)
    (hExplains : h.Explains initial kept (Placed.TakenBackBy initial) l) {height : UInt64}
    (cursor : Cursor)
    (hAllows : h.Allows (.fork height cursor)) (hKept : ∀ block, height < block → kept block) :
    ∃ log' l', rewind height cursor log = .ok () log' ∧ log'.Shows Key.undoEnd l' ∧
      l'.records = initial.afterAll (h.fork height).operations ∧
      (h.fork height).Explains initial kept (Placed.TakenBackBy initial) (l'.discard height) := by
  obtain ⟨blocks, hCovers, count, log₁, hReplay, hShows₁, _⟩ :=
    hShows.replay (List.le_of_lt (Key.undo_lt_undoEnd height))
  obtain ⟨written, log₂, hFlush, hShows₂, _⟩ := hShows₁.flush cursor
  have hExact := hExplains.replay_exact hKept (fun _ _ => id) hAllows hCovers
  refine ⟨log₂, _, ?_, hShows₂, hExact, hExplains.fork hExact⟩
  exact (Action.bind_eq_of_ok hReplay _).trans (Action.bind_eq_of_ok hFlush _)

theorem perform_spec (hShows : log.Shows Key.undoEnd l)
    (hExplains : h.Explains initial kept (Placed.TakenBackBy initial) l) {step : Step}
    (hAllows : h.Allows step)
    (hKept : ∀ height cursor, step = .fork height cursor → ∀ block, height < block → kept block) :
    ∃ log' l', perform step log = .ok () log' ∧ log'.Shows Key.undoEnd l' ∧
      (h.after step).Explains initial (keptAfter kept step) (Placed.TakenBackBy initial) l' := by
  cases step with
  | block number ops =>
    obtain ⟨hNumber, hOps⟩ := hAllows
    obtain ⟨_, log₁, hRecord, hShows₁, _⟩ := hShows.record number hOps
    obtain ⟨_, log₂, hAdd, hShows₂, _⟩ := hShows₁.add hOps.each
    refine ⟨log₂, _, (Action.bind_eq_of_ok hRecord _).trans hAdd, hShows₂, ?_⟩
    exact (hExplains.mono fun _ => And.left).block hNumber
      (Records.takesBack_inverse _ hOps.kinds)
  | flush cursor =>
    obtain ⟨_, log₁, hFlush, hShows₁, _⟩ := hShows.flush cursor
    exact ⟨log₁, _, Action.bind_eq_of_ok hFlush _, hShows₁, hExplains.flush⟩
  | purge height =>
    obtain ⟨_, log₁, hPurge, hShows₁, _⟩ := hShows.purge height
    exact ⟨log₁, _, Action.bind_eq_of_ok hPurge _, hShows₁, hExplains.purge height⟩
  | fork height cursor =>
    obtain ⟨log₁, l₁, hRewind, hShows₁, _, hExplains₁⟩ :=
      rewind_spec hShows hExplains cursor hAllows (hKept height cursor rfl)
    obtain ⟨_, log₂, hDiscard, hShows₂, _⟩ := hShows₁.discardAbove height
    refine ⟨log₂, _, ?_, hShows₂, hExplains₁⟩
    exact (Action.bind_eq_of_ok hRewind _).trans (Action.bind_eq_of_ok hDiscard _)

theorem performAll_spec {steps : List Step} (rest : List Step) (hShows : log.Shows Key.undoEnd l)
    (hExplains : h.Explains initial kept (Placed.TakenBackBy initial) l)
    (hOrder : h.InOrder (steps ++ rest))
    (hKept : ∀ height cursor, .fork height cursor ∈ steps ++ rest →
      ∀ block, height < block → kept block) :
    ∃ log' l' kept', performAll steps log = .ok () log' ∧ log'.Shows Key.undoEnd l' ∧
      (h.afterAll steps).Explains initial kept' (Placed.TakenBackBy initial) l' ∧
      ∀ height cursor, .fork height cursor ∈ rest → ∀ block, height < block → kept' block := by
  induction steps generalizing log l h kept with
  | nil => exact ⟨log, l, kept, rfl, hShows, hExplains, hKept⟩
  | cons step steps ih =>
    obtain ⟨hAllows, hPurge, hRest⟩ := hOrder
    obtain ⟨log₁, l₁, hStep, hShows₁, hExplains₁⟩ := perform_spec hShows hExplains hAllows
      fun height cursor hEq => hKept height cursor (hEq ▸ List.mem_cons_self)
    have hKept₁ : ∀ height cursor, .fork height cursor ∈ steps ++ rest →
        ∀ block, height < block → keptAfter kept step block := by
      intro height cursor hFork block hBlock
      have hBefore := hKept height cursor (List.mem_cons_of_mem step hFork) block hBlock
      cases step with
      | purge low =>
        exact ⟨hBefore, UInt64.lt_of_le_of_lt (hPurge low height cursor rfl hFork) hBlock⟩
      | _ => exact hBefore
    obtain ⟨log₂, l₂, kept₂, hSteps, hRun⟩ := ih hShows₁ hExplains₁ hRest hKept₁
    exact ⟨log₂, l₂, kept₂, (Action.bind_eq_of_ok hStep _).trans hSteps, hRun⟩

section Simulation

variable {σ τ : Type} [Store σ] [Store τ] {R : σ → τ → Prop}

theorem simulates_rewind (hR : Store.Simulation R) (height : UInt64) (cursor : Cursor) :
    Action.Simulates (Alike R) (rewind height cursor) (rewind height cursor) :=
  (simulates_replay hR height).bind fun _ => (simulates_flush hR cursor).bind fun _ => .pure ()

theorem simulates_perform (hR : Store.Simulation R) (step : Step) :
    Action.Simulates (Alike R) (perform step) (perform step) := by
  cases step with
  | block number ops =>
    exact (simulates_onStore (UndoLog.simulates_record hR number ops)).bind fun _ =>
      simulates_add ops
  | flush cursor => exact (simulates_flush hR cursor).bind fun _ => .pure ()
  | purge height =>
    exact (simulates_onStore (UndoLog.simulates_purge hR height)).bind fun _ => .pure ()
  | fork height cursor =>
    exact (simulates_rewind hR height cursor).bind fun _ =>
      (simulates_onStore (UndoLog.simulates_discardAbove hR height)).bind fun _ => .pure ()

theorem simulates_performAll (hR : Store.Simulation R) (steps : List Step) :
    Action.Simulates (Alike R) (performAll steps) (performAll steps) := by
  induction steps with
  | nil => exact .pure ()
  | cons step steps ih => exact (simulates_perform hR step).bind fun _ => ih

end Simulation

def Step.flushes : Step → Bool
  | .flush _ | .fork _ _ => true
  | .block _ _ | .purge _ => false

/-- After every flush the user records are the initial ones with the operations of the surviving
blocks carried out in order. The flush of a fork comes before its undo records are forgotten. -/
theorem rollback_exact {contents : Contents} (hUndo : contents.NoUndo)
    (hValues : contents.records.Addressable) {steps : List Step}
    (hOrder : History.empty.InOrder steps) (front : List Step) (step : Step)
    (hFront : front ++ [step] <+: steps) :
    (∃ log, performAll (front ++ [step]) (ofStore contents) = .ok () log ∧
      (step.flushes = true → Store.Holds log.store
        (contents.records.afterAll (History.empty.afterAll (front ++ [step])).operations))) ∧
    ∀ height cursor, step = .fork height cursor →
      ∃ log, (do performAll front; rewind height cursor) (ofStore contents) = .ok () log ∧
        Store.Holds log.store
          (contents.records.afterAll (History.empty.afterAll (front ++ [step])).operations) := by
  obtain ⟨rest, rfl⟩ := hFront
  have hStart := shows_ofStore (hUndo.shows hValues) rfl
  have hEmpty : History.empty.Explains contents.records (fun _ => True)
      (Placed.TakenBackBy contents.records) (.ofContents contents) :=
    History.explains_empty rfl rfl fun _ => rfl
  have hSimulation := Store.simulation_contents.checkpointed
  have hAlike : Alike (fun c (s : Checkpointed) => c = s.current) (ofStore contents)
      (ofStore (.ofContents contents)) := ⟨rfl, rfl, rfl⟩
  obtain ⟨hOrder, _⟩ := hOrder.of_append
  constructor
  · obtain ⟨log', l', kept, hRun, hShows, hExplains, _⟩ :=
      performAll_spec [] hStart hEmpty (by simpa using hOrder) fun _ _ _ _ _ => trivial
    obtain ⟨log, hSame, hLog⟩ :=
      (simulates_performAll hSimulation (front ++ [step])).exists_of_ok hAlike hRun
    refine ⟨log, hSame, fun hFlushes => ?_⟩
    rw [Store.simulation_contents.holds_iff hLog.store, hShows.store.records, hExplains.records]
    congr 1
    rw [History.afterAll_concat]
    cases step with
    | block | purge => cases hFlushes
    | flush | fork => rfl
  · rintro height cursor rfl
    obtain ⟨hFrontOrder, hStepOrder⟩ := hOrder.of_append
    obtain ⟨log₁, l₁, kept, hRun, hShows₁, hExplains₁, hKept⟩ :=
      performAll_spec [.fork height cursor] hStart hEmpty hOrder fun _ _ _ _ _ => trivial
    obtain ⟨log', l', hRewind, hShows, hRecords, _⟩ :=
      rewind_spec hShows₁ hExplains₁ cursor hStepOrder.1
        (hKept height cursor List.mem_cons_self)
    have hSimulates := (simulates_performAll hSimulation front).bind
      fun _ => simulates_rewind hSimulation height cursor
    obtain ⟨log, hSame, hLog⟩ :=
      hSimulates.exists_of_ok hAlike ((Action.bind_eq_of_ok hRun _).trans hRewind)
    refine ⟨log, hSame, ?_⟩
    rw [Store.simulation_contents.holds_iff hLog.store, hShows.store.records, hRecords,
      History.afterAll_concat, History.after]

/-- Two blocks above a flushed one are taken back, of which the second was recorded before the first
was written. -/
theorem rollback_exact_two_blocks :
    ∃ log, performAll
        [.block 1 [.assign "a" [1]], .flush (.blank 1), .block 2 [.assign "a" [2], .remove "b"],
          .block 3 [.remove "a", .assign "b" [3]], .fork 1 (.blank 1)] (ofStore (∅ : Contents)) =
          .ok () log ∧
      Store.Holds log.store fun key => if key = "a" then some [1] else none := by
  have hOrder : History.empty.InOrder
      [.block 1 [.assign "a" [1]], .flush (.blank 1), .block 2 [.assign "a" [2], .remove "b"],
        .block 3 [.remove "a", .assign "b" [3]], .fork 1 (.blank 1)] := by
    refine ⟨⟨by decide, by decide +kernel⟩, by simp, trivial, by simp,
      ⟨by decide, by decide +kernel⟩, by simp, ⟨by decide, by decide +kernel⟩, by simp,
      ?_, by simp, trivial⟩
    intro c hc
    obtain rfl := Option.some.inj hc
    rfl
  obtain ⟨log, hRun, hHolds⟩ := (rollback_exact Contents.noUndo_empty Contents.addressable_empty
    hOrder [_, _, _, _] _ List.prefix_rfl).1
  have hRecords : (∅ : Contents).records.afterAll [.assign "a" [1]] =
      fun key => if key = "a" then some [1] else none := by
    funext key
    simp [Records.after, Contents.records, Operation.assign, eq_comm]
  exact ⟨log, hRun, hRecords ▸ hHolds rfl⟩

end OperationLog

end ForkLog
