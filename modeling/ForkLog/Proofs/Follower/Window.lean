import Mathlib
import ForkLog.Proofs.Follower.Tracking

/-! # The blocks that can be taken back

The undo log holds the records of the surviving blocks above what was final when the block before the
last one had come, and that of the last block itself.
-/

namespace ForkLog

set_option autoImplicit false

def Event.block? : Event → Option Block
  | .data block => some block
  | .undo _ => none

namespace Progress

/-- The blocks that a follower applies, those that are taken back later among them. -/
def applied (config : Config) (events : List Event) : List Block :=
  (events.filterMap Event.block?).dropWhile fun block => block.number < config.startBlock

/-- The block survives, and it is the last one that was applied or above what the one applied before
that reported final. -/
def InWindow (p : Progress) (blocks : List Block) (number : UInt64) : Prop :=
  (∃ c ∈ p.history.chain, c.number = number) ∧
    ((∃ last ∈ blocks.getLast?, number = last.number) ∨
      ∀ previous ∈ blocks.dropLast.getLast?, previous.finalizedHeight < number)

/-- The undo records are those of the window, and what is final is what the last block reported. -/
structure Windowed (p : Progress) (blocks : List Block) (last : Option UInt64) (l : Ledger) :
    Prop where
  begun : p.begun = false ↔ blocks = []
  last : last = blocks.getLast?.map Block.finalizedHeight
  finalized : ∀ block ∈ blocks.getLast?, p.finalized = block.finalizedHeight
  ordered : ∀ block ∈ blocks.getLast?, ∀ previous ∈ blocks.dropLast.getLast?,
    previous.finalizedHeight ≤ block.finalizedHeight
  undo : ∀ number, (l.undo number).isSome ↔ p.InWindow blocks number

variable {config : Config} {events : List Event} {p : Progress} {blocks : List Block}
  {last last' : Option UInt64} {l l' : Ledger}

theorem applied_concat_undo (fork : Fork) :
    applied config (events ++ [.undo fork]) = applied config events := by
  rw [applied, List.filterMap_append]
  exact congrArg _ (List.append_nil _)

theorem applied_concat_data (block : Block) :
    applied config (events ++ [.data block]) =
      if applied config events = [] ∧ block.number < config.startBlock then []
      else applied config events ++ [block] := by
  have hSplit : (events ++ [Event.data block]).filterMap Event.block? =
      events.filterMap Event.block? ++ [block] := List.filterMap_append
  rw [applied, hSplit, List.dropWhile_append, ← applied]
  by_cases hNil : applied config events = []
  · by_cases hLow : block.number < config.startBlock <;> simp [hNil, hLow]
  · simp [hNil]

theorem Windowed.applied_concat (h : p.Windowed (applied config events) last l) (block : Block) :
    applied config (events ++ [.data block]) =
      if p.PassesOver config block then applied config events
      else applied config events ++ [block] := by
  have hPasses : p.PassesOver config block ↔
      applied config events = [] ∧ block.number < config.startBlock := by
    rw [← h.begun]
    rfl
  simp only [applied_concat_data, hPasses]
  split
  case isTrue hNil => exact hNil.1.symm
  case isFalse => rfl

theorem Windowed.block (h : p.Windowed blocks last l) {block : Block}
    (hApplied : ¬ p.PassesOver config block) (hAllows : p.Allows config (.data block)) :
    (p.after config (.data block)).Windowed (blocks ++ [block]) (some block.finalizedHeight)
      (l.block last config.flushInterval block) := by
  have hHigher : ∀ previous ∈ blocks.getLast?,
      previous.finalizedHeight ≤ block.finalizedHeight := by
    intro previous hPrevious
    rw [← h.finalized previous hPrevious]
    exact (hAllows.resolve_left hApplied).2.1
  rw [after_of_applied hApplied]
  refine ⟨by simp, by simp, by simp, ?_, fun number => ?_⟩
  · rw [List.getLast?_concat, List.dropLast_concat]
    rintro _ ⟨⟩ previous hPrevious
    exact hHigher previous hPrevious
  · have hLast : (∀ height, last = some height → height < number) ↔
        ∀ previous ∈ blocks.getLast?, previous.finalizedHeight < number := by
      rw [h.last]
      simp [Option.map_eq_some_iff]
    have hPrevious : (∀ previous ∈ blocks.getLast?, previous.finalizedHeight < number) →
        ∀ previous ∈ blocks.dropLast.getLast?, previous.finalizedHeight < number := by
      intro hAbove previous hMem
      obtain rfl | ⟨front, final, rfl⟩ := List.eq_nil_or_concat' blocks
      · cases hMem
      · exact UInt64.lt_of_le_of_lt (h.ordered final (by simp) previous hMem)
          (hAbove final (by simp))
    have hChain : (∃ c ∈ (place config.flushInterval p.history block).chain, c.number = number) ↔
        (∃ c ∈ p.history.chain, c.number = number) ∨ number = block.number := by
      simp [chain_place, or_and_right, exists_or, eq_comm]
    rw [Ledger.isSome_undo_block, h.undo number, hLast, InWindow, InWindow, hChain,
      List.getLast?_concat, List.dropLast_concat]
    simp only [Option.mem_some_iff, exists_eq_left']
    by_cases hSelf : number = block.number
    · simp only [hSelf, true_or, or_true, true_and]
    · simp only [hSelf, false_or, or_false]
      constructor
      · rintro ⟨⟨hSurvives, _⟩, hAbove⟩
        exact ⟨hSurvives, hAbove⟩
      · rintro ⟨hSurvives, hAbove⟩
        exact ⟨⟨hSurvives, .inr (hPrevious hAbove)⟩, hAbove⟩

theorem Windowed.fork (h : p.Windowed blocks last l) (fork : Fork) {replayed : List Operation} :
    (p.after config (.undo fork)).Windowed blocks last
      ((l.add replayed).flush.discard fork.lastValidBlock) :=
  { h with
    undo := fun number => by
      have hChain : (∃ c ∈ p.history.upTo fork.lastValidBlock, c.number = number) ↔
          (∃ c ∈ p.history.chain, c.number = number) ∧ ¬ fork.lastValidBlock < number := by
        simp only [History.upTo, List.mem_filter, decide_eq_true_eq, UInt64.not_lt]
        grind
      have hUndo := h.undo number
      rw [InWindow] at hUndo
      rw [InWindow, after, History.fork, hChain, and_right_comm, ← hUndo]
      simp only [Ledger.discard]
      split <;> simp_all [Ledger.flush, Ledger.add] }

theorem Windowed.step (h : p.Windowed (applied config events) last l) {event : Event}
    (hAllows : p.Allows config event) (hStep : p.Step config last l event last' l') :
    (p.after config event).Windowed (applied config (events ++ [event])) last' l' := by
  cases hStep with
  | pass hPasses => rwa [h.applied_concat, if_pos hPasses, after_of_passes hPasses]
  | block hApplied hLast =>
    rw [h.applied_concat, if_neg hApplied]
    exact h.block hApplied hAllows
  | wait hEmpty => rwa [applied_concat_undo, after_of_empty hEmpty]
  | fork hBlocks =>
    rw [applied_concat_undo]
    exact h.fork _

theorem windowed_initial (contents : Contents) :
    initial.Windowed [] none (.ofContents contents) where
  begun := by simp [initial]
  last := rfl
  finalized _ h := nomatch h
  ordered _ h := nomatch h
  undo number := by simp [Ledger.ofContents, InWindow, initial, History.empty]

theorem windowed_of_steps {rest : List Event} (hSteps : p.Steps config last l rest last' l')
    (h : p.Windowed (applied config events) last l) (hOrder : p.InOrder config rest) :
    (p.afterAll config rest).Windowed (applied config (events ++ rest)) last' l' := by
  induction hSteps generalizing events with
  | nil => rwa [List.append_nil]
  | cons hStep hRest ih =>
    obtain ⟨hAllows, hOrder⟩ := hOrder
    have hAll := ih (h.step hAllows hStep) hOrder
    rwa [List.append_assoc] at hAll

end Progress

namespace Follower

variable {σ : Type} [Store σ] {R : σ → Contents → Prop} {store : σ} {contents : Contents}
  {config : Config} {events : List Event}

/-- After every event the undo log lists the blocks of the window, the highest first. -/
theorem undo_window_exact (hR : Store.Simulation R) (hStore : R store contents)
    (hUndo : contents.NoUndo) (hValues : contents.records.Addressable)
    (hCursor : contents[Key.cursor]? = none) (hOrder : Progress.initial.InOrder config events)
    {front : List Event} (hFront : front <+: events) :
    ∃ f numbers, follow front (ofLog (.ofStore store) config) = .ok () f ∧
      OperationLog.undoBlocks.run' f.log = some numbers ∧ (numbers.Pairwise fun a b => b < a) ∧
      ∀ number, number ∈ numbers ↔ (Progress.initial.afterAll config front).InWindow
        (Progress.applied config front) number := by
  obtain ⟨rest, rfl⟩ := hFront
  have hOrder := hOrder.of_append.1
  obtain ⟨g, l, hRun, hTracks, hSteps⟩ := follow_tracks hUndo hValues hCursor hOrder
  have hNone : Progress.applied config [] = [] := rfl
  have hWindowed := Progress.windowed_of_steps hSteps
    (hNone ▸ Progress.windowed_initial contents) hOrder
  obtain ⟨numbers, hBlocks, hSorted, hMem⟩ := hTracks.shows.undoBlocks
  obtain ⟨f, hFollow, hAlike⟩ := (simulates_follow hR.checkpointed front).exists_of_ok
    (alike_checkpointed hStore config) hRun
  obtain ⟨log, hList, _⟩ := (OperationLog.simulates_onStore
    (UndoLog.simulates_blocks hR.checkpointed)).exists_of_ok hAlike.log hBlocks
  have hListed : OperationLog.undoBlocks.run' f.log = some numbers := by
    rw [EStateM.run', EStateM.run, OperationLog.undoBlocks, hList]
  exact ⟨f, numbers, hFollow, hListed, hSorted,
    fun number => (hMem number).trans (hWindowed.undo number)⟩

def windowConfig : Config := { flushInterval := 10, startBlock := 1 }

/-- Block 1 is final when block 3 comes, and the fork takes block 3 back. -/
def threeThenFork : List Event :=
  [.data ⟨1, 0, [.assign "a" [1]], .blank 1⟩, .data ⟨2, 1, [.assign "a" [2]], .blank 2⟩,
    .data ⟨3, 1, [.remove "a"], .blank 3⟩, .undo ⟨2, .blank 2⟩]

theorem undo_window_after_fork :
    ∃ f numbers,
      follow threeThenFork (ofLog (.ofStore (∅ : Contents)) windowConfig) = .ok () f ∧
      OperationLog.undoBlocks.run' f.log = some numbers ∧ ∀ number, number ∈ numbers ↔ number = 2 := by
  have hCursor : (∅ : Contents)[Key.cursor]? = none := by simp
  have hOrder : Progress.initial.InOrder windowConfig threeThenFork :=
    ⟨.inr ⟨by decide, by decide, by decide +kernel⟩,
      .inr ⟨by decide, by decide, by decide +kernel⟩,
      .inr ⟨by decide, by decide, by decide +kernel⟩, ⟨by decide, by decide⟩, trivial⟩
  obtain ⟨f, numbers, hFollow, hListed, _, hMem⟩ := undo_window_exact Store.simulation_contents rfl
    Contents.noUndo_empty Contents.addressable_empty hCursor hOrder List.prefix_rfl
  refine ⟨f, numbers, hFollow, hListed, fun number => (hMem number).trans ?_⟩
  rw [Progress.InWindow]
  constructor
  · rintro ⟨⟨c, hc, rfl⟩, hWindow⟩
    revert c
    decide
  · rintro rfl
    exact ⟨by decide, .inr (by decide)⟩

end Follower

end ForkLog
