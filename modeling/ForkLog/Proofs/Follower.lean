import Mathlib
import ForkLog.Follower
import ForkLog.Proofs.Ledger

/-! # What a follower does

On a store that never fails every event succeeds. It changes the ledger of the log in one way and
the follower's own fields in another.
-/

namespace ForkLog

set_option autoImplicit false

/-- What applying a block comes to. -/
def Ledger.block (l : Ledger) (finalized : Option UInt64) (interval : UInt64) (b : Block) :
    Ledger :=
  let added := ((l.purgeFinal finalized).record b.number b.operations).add b.operations
  if Follower.flushesAt interval b then added.flush else added

namespace Ledger

variable (l : Ledger) (finalized : Option UInt64) (interval : UInt64) (b : Block)

theorem undone_purgeFinal {block : UInt64} (h : l.undone block = []) :
    (l.purgeFinal finalized).undone block = [] := by
  cases finalized with
  | none => exact h
  | some height =>
    rw [purgeFinal, undone_purge, h]
    split <;> rfl

theorem undone_purgeFinal_of_above {block : UInt64}
    (h : ∀ height, finalized = some height → height < block) :
    (l.purgeFinal finalized).undone block = l.undone block := by
  cases finalized with
  | none => rfl
  | some height => rw [purgeFinal, undone_purge, if_neg (UInt64.not_le.mpr (h height rfl))]

theorem records_purgeFinal : (l.purgeFinal finalized).records = l.records := by
  cases finalized <;> rfl

theorem isSome_undo_purgeFinal (block : UInt64) :
    ((l.purgeFinal finalized).undo block).isSome ↔
      (l.undo block).isSome ∧ ∀ height, finalized = some height → height < block := by
  cases finalized with
  | none => simp [purgeFinal]
  | some height =>
    simp only [purgeFinal, purge, Option.some.injEq, forall_eq', ← UInt64.not_le]
    split <;> simp_all

/-- A block leaves a record of itself and those of the blocks that were not final before. -/
theorem isSome_undo_block (block : UInt64) :
    ((l.block finalized interval b).undo block).isSome ↔
      block = b.number ∨
        (l.undo block).isSome ∧ ∀ height, finalized = some height → height < block := by
  have hUndo : (l.block finalized interval b).undo block =
      ((l.purgeFinal finalized).record b.number b.operations).undo block := by
    rw [Ledger.block]
    split <;> rfl
  rw [hUndo, record, ← isSome_undo_purgeFinal]
  by_cases hSelf : block = b.number
  · simp [hSelf]
  · simp [hSelf]

theorem upcoming_block :
    (l.block finalized interval b).upcoming = l.upcoming.afterAll b.operations := by
  rw [Ledger.block]
  cases finalized <;> split <;> rfl

theorem undone_block_self :
    (l.block finalized interval b).undone b.number = l.records.inverse b.operations := by
  rw [Ledger.block]
  split <;> simp [records_purgeFinal]

theorem undone_block_of_above {block : UInt64} (hNe : block ≠ b.number)
    (h : ∀ height, finalized = some height → height < block) :
    (l.block finalized interval b).undone block = l.undone block := by
  rw [Ledger.block]
  split <;> simp [undone_record_of_ne _ _ hNe, undone_purgeFinal_of_above l finalized h]

theorem undone_block_of_ne {block : UInt64} (hNe : block ≠ b.number) (h : l.undone block = []) :
    (l.block finalized interval b).undone block = [] := by
  rw [Ledger.block]
  split <;> simp [undone_record_of_ne _ _ hNe, undone_purgeFinal l finalized h]

end Ledger

namespace Follower

variable {f : Follower Checkpointed} {stop : Bytes} {l : Ledger}

theorem retrying_eq_of_leads {α : Type} {step : Action (OperationLog Checkpointed) α}
    {after : Ledger} (h : OperationLog.Leads step f.log stop after) :
    ∃ a log', retrying step f = .ok a { f with log := log' } ∧ log'.Shows stop after ∧
      OperationLog.Steady f.log log' := by
  obtain ⟨a, log', hStep, hRest⟩ := h
  exact ⟨a, log', Action.retrying_eq_of_ok (Action.within_eq_of_ok hStep) _, hRest⟩

theorem flush_spec (h : f.log.Shows stop l) (cursor : Cursor) :
    ∃ count f', flush cursor f = .ok count f' ∧
      f' = { f with log := f'.log, stats := f'.stats } ∧ f'.log.Shows stop l.flush ∧
      OperationLog.Flushed cursor f.log f'.log := by
  obtain ⟨count, log', hFlush, hRest⟩ := h.flush cursor
  have hOnce : flushOnceIn .sorted cursor f =
      .ok count { f with log := log', stats := f.stats.recordFlush count 0 } :=
    Action.bind_eq_of_ok (Action.within_eq_of_ok hFlush) _
  exact ⟨count, _, Action.attempting_eq_of_ok hOnce _, rfl, hRest⟩

theorem purge_eq_of_none {σ : Type} [Store σ] {f : Follower σ} (h : f.lastFinalized = none) :
    purge f = .ok () f := by
  simp only [purge, Action.get_bind_eq, h, Action.pure_eq]

theorem purge_eq_of_some {σ : Type} [Store σ] {f : Follower σ} {height : UInt64}
    (h : f.lastFinalized = some height) :
    purge f = (do let _ ← retrying (OperationLog.purge height)) f := by
  simp only [purge, Action.get_bind_eq, h]

theorem purge_spec (h : f.log.Shows stop l) :
    ∃ log', purge f = .ok () { f with log := log' } ∧
      log'.Shows stop (l.purgeFinal f.lastFinalized) ∧ OperationLog.Steady f.log log' := by
  obtain hNone | ⟨height, hSome⟩ := Option.eq_none_or_eq_some f.lastFinalized
  · refine ⟨f.log, purge_eq_of_none hNone, ?_, rfl, rfl, rfl⟩
    rwa [hNone]
  · obtain ⟨_, log', hPurge, hRest⟩ := retrying_eq_of_leads (h.purge height)
    refine ⟨log', (purge_eq_of_some hSome).trans (Action.bind_eq_of_ok hPurge _), ?_⟩
    rwa [hSome]

def Applied (block : Block) (f f' : Follower Checkpointed) : Prop :=
  f' = { f with
    log := f'.log
    stats := f'.stats
    caughtUp := true
    lastFinalized := some block.finalizedHeight
    lastCursor := some block.cursor }

theorem apply_spec (h : f.log.Shows stop l) {block : Block}
    (hOps : Operation.RecordableAll block.operations) (hCaughtUp : f.caughtUp = true) :
    ∃ f', apply block f = .ok () f' ∧ Applied block f f' ∧
      f'.log.Shows stop (l.block f.lastFinalized f.config.flushInterval block) ∧
      (flushesAt f.config.flushInterval block = true →
        OperationLog.Flushed block.cursor f.log f'.log) := by
  obtain ⟨log₁, hPurge, h₁, hSteady₁⟩ := purge_spec h
  obtain ⟨_, log₂, hRecord, h₂, hSteady₂⟩ :=
    retrying_eq_of_leads (f := { f with log := log₁ }) (h₁.record block.number hOps)
  obtain ⟨_, log₃, hAdd, h₃, hSteady₃⟩ := h₂.add hOps.each
  have hAdd : onLog (OperationLog.add block.operations) { f with log := log₂ } =
      .ok () { f with log := log₃ } := Action.within_eq_of_ok hAdd
  have hRun : apply block f = (if flushesAt f.config.flushInterval block then do
        let _ ← flush block.cursor
        update fun f =>
          { f with
            lastFinalized := some block.finalizedHeight
            lastCursor := some block.cursor
            stats := f.stats.recordBlock block.number block.finalizedHeight }
      else update fun f =>
          { f with
            lastFinalized := some block.finalizedHeight
            lastCursor := some block.cursor
            stats := f.stats.recordBlock block.number block.finalizedHeight })
      { f with log := log₃ } :=
    (Action.bind_eq_of_ok hPurge _).trans ((Action.bind_eq_of_ok hRecord _).trans
      (Action.bind_eq_of_ok hAdd _))
  rw [hRun, Ledger.block]
  split
  case isTrue hFlushes =>
    obtain ⟨_, f', hFlush, hFields, h', hFlushed⟩ :=
      flush_spec (f := { f with log := log₃ }) h₃ block.cursor
    have hSteady := hSteady₁.trans (hSteady₂.trans hSteady₃)
    refine ⟨_, Action.bind_eq_of_ok hFlush _, ?_, h', fun _ => hFlushed.of_steady hSteady⟩
    rw [hFields, Applied, ← hCaughtUp]
  case isFalse hWaits =>
    refine ⟨_, rfl, ?_, h₃, fun hFlushes => absurd hFlushes hWaits⟩
    rw [Applied, ← hCaughtUp]

theorem onBlockIn_eq_of_passes {σ : Type} [Store σ] (orders : Nat → PendingSet.Order)
    {f : Follower σ} {block : Block} (hCaughtUp : f.caughtUp = false)
    (hNumber : block.number < f.resumeFrom) : onBlockIn orders block f = .ok () f := by
  simp [onBlockIn, Action.get_bind_eq, hCaughtUp, hNumber, Action.pure_eq]

theorem onBlockIn_eq_applyIn {σ : Type} [Store σ] (orders : Nat → PendingSet.Order)
    {f : Follower σ} {block : Block} (h : f.caughtUp = true ∨ f.resumeFrom ≤ block.number) :
    onBlockIn orders block f = applyIn orders block { f with caughtUp := true } := by
  have hTest : (!f.caughtUp && decide (block.number < f.resumeFrom)) = false := by
    obtain hCaughtUp | hReached := h
    · rw [hCaughtUp]
      rfl
    · rw [decide_eq_false (UInt64.not_lt.mpr hReached), Bool.and_false]
  simp only [onBlockIn, Action.get_bind_eq, hTest]
  rfl

theorem onBlock_eq_of_passes {σ : Type} [Store σ] {f : Follower σ} {block : Block}
    (hCaughtUp : f.caughtUp = false)
    (hNumber : block.number < f.resumeFrom) : onBlock block f = .ok () f :=
  onBlockIn_eq_of_passes sorted hCaughtUp hNumber

theorem onBlock_eq_apply {σ : Type} [Store σ] {f : Follower σ} {block : Block}
    (h : f.caughtUp = true ∨ f.resumeFrom ≤ block.number) :
    onBlock block f = apply block { f with caughtUp := true } :=
  onBlockIn_eq_applyIn sorted h

theorem onBlock_spec (h : f.log.Shows stop l) {block : Block}
    (hOps : Operation.RecordableAll block.operations)
    (hApplies : f.caughtUp = true ∨ f.resumeFrom ≤ block.number) :
    ∃ f', onBlock block f = .ok () f' ∧ Applied block f f' ∧
      f'.log.Shows stop (l.block f.lastFinalized f.config.flushInterval block) ∧
      (flushesAt f.config.flushInterval block = true →
        OperationLog.Flushed block.cursor f.log f'.log) := by
  obtain ⟨f', hApply, hFields, hRest⟩ := apply_spec (f := { f with caughtUp := true }) h hOps rfl
  exact ⟨f', (onBlock_eq_apply hApplies).trans hApply, hFields, hRest⟩

def TookBack (fork : Fork) (f f' : Follower Checkpointed) : Prop :=
  f' = { f with
    log := f'.log
    stats := f'.stats
    resumeFrom := f'.resumeFrom
    caughtUp := true
    lastCursor := some fork.cursor }

/-- What is durable after a fork still has the undo records of what was taken back. -/
theorem takeBack_spec (h : f.log.Shows stop l) {fork : Fork}
    (hStop : Key.undo fork.lastValidBlock ≤ stop) :
    ∃ blocks f', Covers l.undone fork.lastValidBlock blocks ∧
      takeBackIn sorted fork f = .ok () f' ∧
      TookBack fork f f' ∧
      f'.log.Shows stop
        ((l.add (blocks.flatMap l.undone)).flush.discard fork.lastValidBlock) ∧
      f'.log.pending = ∅ ∧ f'.log.lastCursor = some fork.cursor ∧ (f.log.InSync → f'.log.InSync) ∧
      (f.log.lastCursor ≠ some fork.cursor →
        f'.log.store.saved.Shows stop (l.add (blocks.flatMap l.undone)).flush ∧
        f'.log.store.saved[Key.cursor]? = f'.log.store.current[Key.cursor]?) := by
  obtain ⟨blocks, hCovers, hReplay⟩ := h.replay hStop
  obtain ⟨_, log₁, hReplay, h₁, hSteady₁⟩ := retrying_eq_of_leads hReplay
  obtain ⟨_, f₂, hFlush, hFields, h₂, hFlushed⟩ :=
    flush_spec (f := { f with log := log₁ }) h₁ fork.cursor
  have hFlushed := hFlushed.of_steady hSteady₁
  obtain ⟨_, log₃, hDiscard, h₃, hSteady₃⟩ := h₂.discardAbove fork.lastValidBlock
  have hPending₃ := OperationLog.pending_eq_of_onStore hDiscard
  have hDiscard : retrying (OperationLog.discardAbove fork.lastValidBlock) f₂ =
      .ok _ { f₂ with log := log₃ } := Action.retrying_eq_of_ok (Action.within_eq_of_ok hDiscard) _
  refine ⟨blocks, _, hCovers, (Action.bind_eq_of_ok hReplay _).trans
    ((Action.bind_eq_of_ok hFlush _).trans (Action.bind_eq_of_ok hDiscard _)), ?_, h₃,
    hPending₃.trans hFlushed.pending, hSteady₃.lastCursor.trans hFlushed.lastCursor,
    fun hInSync => ?_, fun hNew => ?_⟩
  · rw [hFields]
    rfl
  · exact hSteady₃.inSync (hFlushed.inSync hInSync)
  · have hSaved : log₃.store.saved = f₂.log.store.current :=
      hSteady₃.saved.trans (hFlushed.saved hNew)
    exact ⟨hSaved ▸ h₂.store, hSaved ▸ hSteady₃.cursor.symm⟩

theorem onForkIn_eq_of_passes {σ : Type} [Store σ] (orders : Nat → PendingSet.Order)
    {f : Follower σ} {fork : Fork} (hCaughtUp : f.caughtUp = false)
    (hResume : f.resumeFrom ≤ nextBlock fork.lastValidBlock) : onForkIn orders fork f = .ok () f := by
  simp [onForkIn, Action.get_bind_eq, hCaughtUp, hResume, Action.pure_eq]

theorem onForkIn_eq_takeBackIn {σ : Type} [Store σ] (orders : Nat → PendingSet.Order)
    {f : Follower σ} {fork : Fork}
    (h : f.caughtUp = true ∨ nextBlock fork.lastValidBlock < f.resumeFrom) :
    onForkIn orders fork f = takeBackIn orders fork f := by
  have hTest : (!f.caughtUp && decide (f.resumeFrom ≤ nextBlock fork.lastValidBlock)) = false := by
    obtain hCaughtUp | hReached := h
    · rw [hCaughtUp]
      rfl
    · rw [decide_eq_false (UInt64.not_le.mpr hReached), Bool.and_false]
  simp only [onForkIn, Action.get_bind_eq, hTest]
  rfl

theorem onFork_eq_of_passes {σ : Type} [Store σ] {f : Follower σ} {fork : Fork}
    (hCaughtUp : f.caughtUp = false)
    (hResume : f.resumeFrom ≤ nextBlock fork.lastValidBlock) : onFork fork f = .ok () f :=
  onForkIn_eq_of_passes sorted hCaughtUp hResume

theorem onFork_eq_takeBackIn {σ : Type} [Store σ] {f : Follower σ} {fork : Fork}
    (h : f.caughtUp = true ∨ nextBlock fork.lastValidBlock < f.resumeFrom) :
    onFork fork f = takeBackIn sorted fork f :=
  onForkIn_eq_takeBackIn sorted h

theorem shutdownIn_eq_of_none {σ : Type} [Store σ] (orders : Nat → PendingSet.Order)
    {f : Follower σ} (h : f.lastCursor = none) : shutdownIn orders f = .ok () f := by
  simp only [shutdownIn, Action.get_bind_eq, h, Action.pure_eq]

theorem shutdownIn_eq_of_some {σ : Type} [Store σ] (orders : Nat → PendingSet.Order)
    {f : Follower σ} {cursor : Cursor} (h : f.lastCursor = some cursor) :
    shutdownIn orders f = (do let _ ← flushIn orders cursor) f := by
  simp only [shutdownIn, Action.get_bind_eq, h]

theorem shutdown_eq_of_none {σ : Type} [Store σ] {f : Follower σ} (h : f.lastCursor = none) :
    shutdown f = .ok () f :=
  shutdownIn_eq_of_none sorted h

theorem shutdown_eq_of_some {σ : Type} [Store σ] {f : Follower σ} {cursor : Cursor}
    (h : f.lastCursor = some cursor) : shutdown f = (do let _ ← flush cursor) f :=
  shutdownIn_eq_of_some sorted h

/-- A run whose events end in a way after which it flushes ends as that flush does. -/
theorem runIn_eq_of_flushes {σ : Type} [Store σ] {orders : Nat → Nat → PendingSet.Order}
    {arrivals : List Arrival} {f g : Follower σ} {result : RunResult}
    (h : consumeIn orders arrivals 0 f = (result, g))
    (hFlushes : flushesAfter result.outcome = true) :
    runIn orders arrivals f =
      (⟨result.outcome >>= fun _ => (shutdownIn (orders result.taken)).outcome g, result.taken⟩,
        (shutdownIn (orders result.taken)).leave g) := by
  obtain ⟨outcome, taken⟩ := result
  simp only [runIn, h, Action.outcome, Action.leave]
  rw [if_pos hFlushes]
  cases shutdownIn (orders taken) g <;> cases outcome <;> rfl

theorem runIn_eq_of_not_flushes {σ : Type} [Store σ] {orders : Nat → Nat → PendingSet.Order}
    {arrivals : List Arrival} {f g : Follower σ} {result : RunResult}
    (h : consumeIn orders arrivals 0 f = (result, g))
    (hFlushes : flushesAfter result.outcome = false) :
    runIn orders arrivals f = (result, g) := by
  simp only [runIn, h, hFlushes, Bool.false_eq_true, if_false]

theorem runIn_eq_of_ok {σ : Type} [Store σ] {orders : Nat → Nat → PendingSet.Order}
    {arrivals : List Arrival} {f f' g : Follower σ} {taken : Nat}
    (hConsume : consumeIn orders arrivals 0 f = (⟨.ok (), taken⟩, g))
    (hShutdown : shutdownIn (orders taken) g = .ok () f') :
    runIn orders arrivals f = (⟨.ok (), taken⟩, f') := by
  rw [runIn_eq_of_flushes hConsume rfl, Action.leave_eq_of_ok hShutdown, Action.outcome, hShutdown]
  rfl

theorem alike_checkpointed {σ : Type} {R : σ → Contents → Prop} {store : σ}
    {contents : Contents} (hStore : R store contents) (config : Config) :
    Alike (fun s (t : Checkpointed) => R s t.current) (ofLog (.ofStore store) config)
      (ofLog (.ofStore (Checkpointed.ofContents contents)) config) :=
  alike_ofStore (R := fun s (t : Checkpointed) => R s t.current) hStore config

theorem start_of_none (h : f.log.Shows stop l)
    (hCursor : f.log.store.current[Key.cursor]? = none) :
    ∃ f', start f = .ok (.blank (previousBlock f.config.startBlock)) f' ∧
      f' = { f with log := f'.log, resumeFrom := f.config.startBlock } ∧ f'.log.Shows stop l ∧
      f'.log.pending = f.log.pending ∧
      f'.log.lastCursor = some (.blank (previousBlock f.config.startBlock)) ∧ f'.log.InSync ∧
      f'.log.store.saved = f'.log.store.current := by
  obtain ⟨log', hWrite, hRest⟩ := h.writeCursor (.blank (previousBlock f.config.startBlock))
  refine ⟨{ f with log := log', resumeFrom := f.config.startBlock }, ?_, rfl, hRest⟩
  simp only [start, onLog, Action.within, OperationLog.getCursor_eq_of_none hCursor, hWrite]

theorem start_eq_of_none (hCursor : f.log.store.current[Key.cursor]? = none) :
    start f = .ok (.blank (previousBlock f.config.startBlock))
      { f with
        log := ⟨.ofContents (f.log.store.current.insert Key.cursor
            (Cursor.blank (previousBlock f.config.startBlock)).encode), f.log.pending,
          some (.blank (previousBlock f.config.startBlock))⟩
        resumeFrom := f.config.startBlock } := by
  simp only [start, onLog, Action.within, OperationLog.getCursor_eq_of_none hCursor]
  rfl

theorem start_of_some {text : Bytes} {cursor : Cursor}
    (hCursor : f.log.store.current[Key.cursor]? = some text)
    (hDecode : Cursor.decode text = .ok cursor) :
    start f = .ok cursor { f with resumeFrom := cursor.resumeBlock } := by
  simp only [start, onLog, Action.within, OperationLog.getCursor_eq_of_some hCursor, hDecode,
    Action.ofExcept]

end Follower

end ForkLog
