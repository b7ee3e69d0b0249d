import Mathlib
import ForkLog.Proofs.Disk.FileTree
import ForkLog.Proofs.Follower.Faltering
import ForkLog.Proofs.Follower.StartBlock
import ForkLog.Proofs.OperationLog.Reachable
import ForkLog.Proofs.Store.Durable

/-! # Starting again without progress

A follower that found no cursor keeps a blank one, and until something is flushed this is all that it
leaves of the cursor. So a follower that is started again begins with the same block, unless there is
no block before it.
-/

namespace ForkLog

set_option autoImplicit false

/-- There is no cursor, or the blank one that is kept when a follower begins. -/
def Contents.Fresh (start : UInt64) (contents : Contents) : Prop :=
  contents[Key.cursor]? = none ∨
    contents[Key.cursor]? = some (Cursor.blank (previousBlock start)).encode

theorem Contents.Accords.fresh {start : UInt64} {contents other : Contents}
    (h : contents.Accords other) (hFresh : contents.Fresh start) : other.Fresh start := by
  rwa [Contents.Fresh, h.cursor_eq]

namespace Checkpointed

def Fresh (start : UInt64) (s : Checkpointed) : Prop :=
  s.current.Fresh start ∧ s.saved.Fresh start

variable {start : UInt64}

theorem keeps_fresh_put :
    Action.Keeps (Fresh start)
      (Store.put Key.cursor (Cursor.blank (previousBlock start)).encode) := fun s hs =>
  ⟨.inr ((Contents.getElem?_insert s.current _ _ Key.cursor).trans (if_pos rfl)), hs.2⟩

theorem keeps_fresh_sync : Action.Keeps (Fresh start) Store.sync := fun _ hs => ⟨hs.1, hs.1⟩

theorem overlooks_fresh : Overlooks (Fresh start) := fun _ _ hAccords hs =>
  ⟨hAccords.fresh hs.1, hs.2⟩

end Checkpointed

namespace Follower

variable {σ : Type} [Store σ]

/-- Handles an event up to its flush. If it has one, this is what is left to do for it. -/
def approach : Event → Action (Follower σ) (Option (Action (Follower σ) Unit))
  | .data block => do
    let f ← get
    if !f.caughtUp && block.number < f.resumeFrom then
      return none
    update fun f => { f with caughtUp := true }
    purge
    let _ ← retrying (OperationLog.record block.number block.operations)
    onLog (OperationLog.add block.operations)
    if flushesAt (← get).config.flushInterval block then
      return some (settle block)
    settle block
    return none
  | .undo fork => do
    let f ← get
    if !f.caughtUp && f.resumeFrom ≤ nextBlock fork.lastValidBlock then
      return none
    let replayed ← retrying (OperationLog.replay fork.lastValidBlock)
    return some do
      let _ ← flush fork.cursor
      let _ ← retrying (OperationLog.discardAbove fork.lastValidBlock)
      update fun f =>
        { f with
          resumeFrom := if f.caughtUp then f.resumeFrom else nextBlock fork.lastValidBlock
          caughtUp := true
          lastCursor := some fork.cursor
          stats := f.stats.recordUndo fork.lastValidBlock replayed }

theorem handle_eq_approach (event : Event) :
    (handle event : Action (Follower σ) Unit) =
      approach event >>= fun rest => rest.getD (pure ()) := by
  cases event with
  | data block =>
    simp only [handle, handleIn, onBlockIn, approach, applyIn, bind_assoc]
    congr
    funext f
    split
    · rfl
    · simp only [bind_assoc]
      refine bind_congr fun _ => bind_congr fun _ => bind_congr fun _ => bind_congr fun _ => ?_
      funext g
      cases hFlushes : flushesAt g.config.flushInterval block with
      | true => simp [settle, settleIn, Action.get_bind_eq, hFlushes]
      | false => simp [settle, settleIn, Action.get_bind_eq, hFlushes]
  | undo fork =>
    simp only [handle, handleIn, onForkIn, approach, takeBackIn, flush, bind_assoc]
    congr
    funext f
    split
    · rfl
    · simp only [bind_assoc, pure_bind, Option.getD_some]

/-- Handles events until one is to be flushed. -/
def handleUnflushed : List Event → Action (Follower σ) Unit
  | [] => pure ()
  | event :: events => do
    if (← approach event).isNone then
      handleUnflushed events

/-- What is left of a store on which a follower was started and then stopped, or died after so many
calls, before anything was flushed. -/
def idled (config : Config) (events : List Event) (calls : Nat) (store : σ) : σ :=
  match (do let _ ← start; handleUnflushed events)
      (ofLog (.ofStore (⟨store, calls⟩ : Mortal σ)) config) with
  | .ok _ f | .error _ f => f.log.store.inner

/-- A follower was started and stopped so many times before anything was flushed. `again` leads from
what it left to where it is started the next time. -/
inductive Idles (config : Config) (again : σ → σ → Prop) (store : σ) : Nat → σ → Prop
  | never : Idles config again store 0 store
  | once {count : Nat} {last next : σ} (h : Idles config again store count last)
      (events : List Event) (calls : Nat) (hAgain : again (idled config events calls last) next) :
      Idles config again store (count + 1) next

section

variable {R : σ → Checkpointed → Prop} {errs : Error → Prop} {config : Config}

/-- The store has no other cursor than the one that is kept when a follower begins. -/
def Untouched (R : σ → Checkpointed → Prop) (config : Config) (store : σ) : Prop :=
  ∃ t, R store t ∧ t.Fresh config.startBlock

def Idle (R : σ → Checkpointed → Prop) (config : Config) (f : Follower σ) : Prop :=
  Untouched R config f.log.store ∧ f.config = config

theorem keeps_idle_onLog {σ α : Type} {R : σ → Checkpointed → Prop}
    {step : Action (OperationLog σ) α} (hStep : OperationLog.KeepsStore (Untouched R config) step) :
    Action.Keeps (Idle R config) (onLog step) := by
  refine Action.Meets.within ?_ ?_ hStep
  · exact fun _ _ => rfl
  · exact fun _ _ => id

theorem keeps_idle_start (h : Store.Falters R errs) : Action.Keeps (Idle R config) start := by
  have hGetCursor : OperationLog.KeepsStore (Untouched R config) OperationLog.getCursor := by
    have hGet : Action.Keeps (Untouched R config) (Store.get Key.cursor) :=
      (h.get Key.cursor).meets fun _ => id
    refine .bind (OperationLog.keepsStore_onStore hGet) fun text => ?_
    cases text with
    | none => exact fun _ => id
    | some text => exact .ofExcept (fun _ _ _ => id) fun _ => id
  have hWriteCursor : OperationLog.KeepsStore (Untouched R config)
      (OperationLog.writeCursor (.blank (previousBlock config.startBlock))) :=
    OperationLog.keepsStore_writeCursor (OperationLog.keeps_putCursor
      ((h.put _ _).meets Checkpointed.keeps_fresh_put) (h.sync.meets Checkpointed.keeps_fresh_sync))
  intro f hf
  have hFound := keeps_idle_onLog hGetCursor f hf
  unfold start
  generalize onLog OperationLog.getCursor f = result at hFound
  cases result with
  | ok cursor g => exact hFound
  | error e g =>
    cases e with
    | cursorNotFound =>
      have hWritten := keeps_idle_onLog hWriteCursor g hFound
      simp only [hFound.2]
      generalize onLog (OperationLog.writeCursor _) g = result at hWritten
      cases result with
      | ok _ g' => exact hWritten
      | error e g' => exact hWritten
    | _ => exact hFound

theorem keeps_idle_approach (h : Store.Falters R errs) (event : Event) :
    Action.Keeps (Idle R config) (approach event) := by
  cases event with
  | data block =>
    refine .get_bind fun f _ => ?_
    split
    · exact .pure fun _ => id
    have hPurge (height : UInt64) : Action.Keeps (Untouched R config) (UndoLog.purge height) :=
      (UndoLog.falters_purge h height).meets (Checkpointed.overlooks_fresh.purge height)
    have hRecord : Action.Keeps (Untouched R config)
        (UndoLog.record block.number block.operations) :=
      (UndoLog.falters_record h _ _).meets (Checkpointed.overlooks_fresh.record _ _)
    have hAdd : OperationLog.KeepsStore (Untouched R config)
        (OperationLog.add (σ := σ) block.operations) := fun _ => id
    refine .bind (fun _ => id) fun _ => .bind (keeps_purge_of_onLog fun height =>
      keeps_idle_onLog (OperationLog.keepsStore_onStore (hPurge height))) fun _ => ?_
    refine .bind (meets_retrying_of_onLog
      (keeps_idle_onLog (OperationLog.keepsStore_onStore hRecord))) fun _ => ?_
    refine .bind (keeps_idle_onLog hAdd) fun _ => .get_bind fun f hf => ?_
    split
    case isTrue => exact .pure fun _ => id
    case isFalse hWaits =>
      have hSettle : Action.Keeps (Idle R config) (settle block) := by
        refine .get_bind fun g hg => ?_
        rw [if_neg (by rwa [hg.2, ← hf.2])]
        exact fun _ => id
      exact .bind hSettle fun _ => .pure fun _ => id
  | undo fork =>
    refine .get_bind fun f _ => ?_
    split
    · exact .pure fun _ => id
    have hBatches : Action.Keeps (Untouched R config)
        (UndoLog.batchesAbove fork.lastValidBlock) :=
      (UndoLog.falters_batchesAbove h _).meets (Checkpointed.keeps_batchesAbove _ _)
    have hReplay := OperationLog.keepsStore_replay hBatches
    exact .bind (meets_retrying_of_onLog (keeps_idle_onLog hReplay)) fun _ => .pure fun _ => id

theorem keeps_idle_handleUnflushed (h : Store.Falters R errs) (events : List Event) :
    Action.Keeps (Idle R config) (handleUnflushed events) := by
  induction events with
  | nil => exact .pure fun _ => id
  | cons event events ih =>
    refine .bind (keeps_idle_approach h event) fun rest => ?_
    split
    · exact ih
    · exact .pure fun _ => id

end

variable {R : σ → Checkpointed → Prop} {config : Config} {again : σ → σ → Prop} {store last : σ}
  {count : Nat} {contents : Contents}

theorem Untouched.idled (h : Store.Simulation R) (hStore : Untouched R config store)
    (events : List Event) (calls : Nat) : Untouched R config (idled config events calls store) := by
  have hIdle : Idle (fun (s : Mortal σ) t => R s.inner t) config
      (ofLog (.ofStore ⟨store, calls⟩) config) := ⟨hStore, rfl⟩
  have hFalters := Mortal.falters h
  have hLeft := Action.Meets.bind (keeps_idle_start hFalters)
    (fun _ => keeps_idle_handleUnflushed hFalters events) _ hIdle
  rw [Follower.idled]
  split at hLeft
  case h_1 hRun =>
    rw [hRun]
    exact hLeft.1
  case h_2 hRun =>
    rw [hRun]
    exact hLeft.1

/-- Between two starts a store is kept as it was left, or goes back to what was made durable. -/
def Reverts (R : σ → Checkpointed → Prop) (again : σ → σ → Prop) : Prop :=
  ∀ left next t, R left t → again left next →
    ∃ contents, R next (.ofContents contents) ∧ (contents = t.current ∨ contents = t.saved)

theorem Idles.fresh (h : Store.Simulation R) (hReverts : Reverts R again)
    (hIdles : Idles config again store count last) (hStore : R store (.ofContents contents))
    (hFresh : contents.Fresh config.startBlock) :
    ∃ contents, R last (.ofContents contents) ∧ contents.Fresh config.startBlock := by
  induction hIdles with
  | never => exact ⟨contents, hStore, hFresh⟩
  | once _ events calls hAgain ih =>
    obtain ⟨contents, hLast, hFresh⟩ := ih
    have hUntouched : Untouched R config _ := ⟨_, hLast, hFresh, hFresh⟩
    obtain ⟨t, hLeft, hCurrent, hSaved⟩ := hUntouched.idled h events calls
    obtain ⟨left, hNext, rfl | rfl⟩ := hReverts _ _ t hLeft hAgain
    · exact ⟨_, hNext, hCurrent⟩
    · exact ⟨_, hNext, hSaved⟩

/-- From where the follower stands it never passes over a block from a height on. -/
def SkipsNoneFrom (first : UInt64) (f : Follower σ) : Prop :=
  ∀ events g, handleAll events f = .ok () g →
    ∀ block, first ≤ block.number → ¬ g.Skips (.data block)

theorem caughtUp_or_eq_of_handleAll {f g : Follower σ} {events : List Event}
    (h : handleAll events f = .ok () g) : g.caughtUp = true ∨ g = f := by
  induction events generalizing f with
  | nil =>
    cases h
    exact .inr rfl
  | cons event events ih =>
    obtain ⟨_, f', hFirst, hRest⟩ := Action.exists_of_bind h
    by_cases hSkips : f.Skips event
    · rw [handle_eq_of_skips hSkips] at hFirst
      cases hFirst
      exact ih hRest
    · exact .inl (caughtUp_of_handleAll (caughtUp_of_handle hSkips hFirst) hRest)

theorem skipsNoneFrom_resumeFrom (f : Follower σ) : f.SkipsNoneFrom f.resumeFrom := by
  intro events g hRun block hReached
  obtain hCaughtUp | rfl := caughtUp_or_eq_of_handleAll hRun
  · exact not_skips_of_caughtUp hCaughtUp
  · exact fun hSkips => UInt64.not_lt.mpr hReached hSkips.2

theorem nextBlock_previousBlock_iff {n : UInt64} : nextBlock (previousBlock n) = n ↔ 0 < n := by
  constructor
  · intro hSame
    by_contra hNot
    obtain rfl : n = 0 := by
      rw [← UInt64.toNat_inj]
      rw [UInt64.lt_iff_toNat_lt] at hNot
      exact Nat.eq_zero_of_not_pos hNot
    exact absurd hSame (by decide)
  · exact nextBlock_previousBlock

theorem start_of_fresh (h : Store.Simulation R) (hStore : R last (.ofContents contents))
    (hFresh : contents.Fresh config.startBlock) :
    ∃ cursor f, start (ofLog (.ofStore last) config) = .ok cursor f ∧
      (f.resumeFrom = config.startBlock ↔ 0 < config.startBlock ∨
        OperationLog.getCursor.outcome (.ofStore last) = .error .cursorNotFound) := by
  have hAlike := alike_ofStore hStore config
  have hOutcome := (OperationLog.simulates_getCursor h).outcome_eq hAlike.log
  obtain hNone | hBlank := hFresh
  · obtain ⟨f, hRun, hf⟩ :=
      (simulates_start h).exists_of_ok hAlike (start_eq_of_none hNone)
    refine ⟨_, f, hRun, iff_of_true hf.resumeFrom (.inr (hOutcome.trans ?_))⟩
    rw [Action.outcome, OperationLog.getCursor_eq_of_none hNone]
  · obtain ⟨found, hDecode, hNumber⟩ :=
      Cursor.decode_encode (.blank (previousBlock config.startBlock))
    obtain ⟨f, hRun, hf⟩ :=
      (simulates_start h).exists_of_ok hAlike (start_of_some hBlank hDecode)
    have hResume : f.resumeFrom = nextBlock (previousBlock config.startBlock) := by
      rw [hf.resumeFrom, Cursor.resumeBlock, hNumber]
      rfl
    have hFound : OperationLog.getCursor.outcome (.ofStore last) = .ok found := by
      refine hOutcome.trans ?_
      rw [Action.outcome, OperationLog.getCursor_eq_of_some hBlank, hDecode]
      rfl
    refine ⟨_, f, hRun, ?_⟩
    rw [hResume, nextBlock_previousBlock_iff, hFound]
    simp

/-- A follower can be started on the store. It begins with the start block and never passes over
anything from there on, if the start block has a block before it or if no cursor is there yet, and
only then. -/
def Restarts (config : Config) (store : σ) : Prop :=
  ∃ cursor f, start (ofLog (.ofStore store) config) = .ok cursor f ∧
    (f.resumeFrom = config.startBlock ∧ f.SkipsNoneFrom config.startBlock ↔
      0 < config.startBlock ∨
        OperationLog.getCursor.outcome (.ofStore store) = .error .cursorNotFound)

theorem Idles.restarts (h : Store.Simulation R) (hReverts : Reverts R again)
    (hIdles : Idles config again store count last) (hStore : R store (.ofContents contents))
    (hNone : contents[Key.cursor]? = none) : Restarts config last := by
  obtain ⟨contents, hLast, hFresh⟩ := hIdles.fresh h hReverts hStore (.inl hNone)
  obtain ⟨cursor, f, hRun, hResume⟩ := start_of_fresh h hLast hFresh
  refine ⟨cursor, f, hRun, ?_⟩
  rw [← hResume]
  constructor
  · exact And.left
  · exact fun hSame => ⟨hSame, hSame ▸ f.skipsNoneFrom_resumeFrom⟩

variable {δ : Type} [Disk δ] {Holds : δ → Option Bytes → Option Bytes → Prop} {disk : δ}

/-- The directory is opened again, its snapshot being short enough to have its length told. -/
def Reopens (config : Config) (left next : DurableStore δ) : Prop :=
  (∀ data after, Disk.read (DurableStore.snapshotPath config.dataDirectory) left.disk =
      .ok data after → data.length < Wire.lengthLimit) ∧
    DurableStore.mount config.dataDirectory config.maxRetries left.disk = .ok next

theorem reverts_eq : Reverts (fun (s : Contents) (t : Checkpointed) => s = t.current) Eq := by
  rintro _ _ t rfl rfl
  exact ⟨t.current, rfl, .inl rfl⟩

theorem reverts_reopens (hDisk : Disk.Serves config.dataDirectory Holds) :
    Reverts (DurableStore.Mirrors config.dataDirectory Holds) (Reopens config) := by
  rintro left next t hLeft ⟨hShort, hMount⟩
  obtain ⟨opened, hOpen, hMirrors⟩ :=
    DurableStore.mount_spec hDisk (hLeft.keptBy hDisk hShort) config.maxRetries
  obtain rfl : opened = next := Except.ok.inj (hOpen.symm.trans hMount)
  exact ⟨t.saved, hMirrors, .inr rfl⟩

theorem Idles.reopens (hDisk : Disk.Serves config.dataDirectory Holds)
    {opened last : DurableStore δ} (hIdles : Idles config (Reopens config) opened count last)
    (hStore : DurableStore.Mirrors config.dataDirectory Holds opened (.ofContents contents))
    (hNone : contents[Key.cursor]? = none) {events : List Event} {calls : Nat}
    (hShort : ∀ data after, Disk.read (DurableStore.snapshotPath config.dataDirectory)
      (idled config events calls last).disk = .ok data after → data.length < Wire.lengthLimit) :
    ∃ next, Reopens config (idled config events calls last) next := by
  have hSimulation := DurableStore.simulation hDisk
  obtain ⟨_, hLast, hFresh⟩ :=
    hIdles.fresh hSimulation (reverts_reopens hDisk) hStore (.inl hNone)
  have hUntouched : Untouched _ config last := ⟨_, hLast, hFresh, hFresh⟩
  obtain ⟨t, hLeft, -⟩ := hUntouched.idled hSimulation events calls
  obtain ⟨next, hMount, -⟩ :=
    DurableStore.mount_spec hDisk (hLeft.keptBy hDisk hShort) config.maxRetries
  exact ⟨next, hShort, hMount⟩

/-- However often a follower was started and stopped before anything was flushed, on contents in memory
or on a directory that can be opened again each time, the next one begins where the first one did,
unless this is block zero and the first one has kept its cursor. -/
theorem idle_starts_repeat_iff (hDisk : Disk.Serves config.dataDirectory Holds)
    (hKept : DurableStore.KeptBy Holds disk contents) (hNone : contents[Key.cursor]? = none) :
    (∀ count last, Idles config Eq contents count last → Restarts config last) ∧
      ∃ opened, DurableStore.mount config.dataDirectory config.maxRetries disk = .ok opened ∧
        ∀ count last, Idles config (Reopens config) opened count last →
          Restarts config last ∧
            ∀ events calls,
              (∀ data after, Disk.read (DurableStore.snapshotPath config.dataDirectory)
                (idled config events calls last).disk = .ok data after →
                  data.length < Wire.lengthLimit) →
              ∃ next, Reopens config (idled config events calls last) next := by
  constructor
  · intro count last hIdles
    exact hIdles.restarts Store.simulation_contents.checkpointed reverts_eq rfl hNone
  · obtain ⟨opened, hMount, hMirrors⟩ := DurableStore.mount_spec hDisk hKept config.maxRetries
    refine ⟨opened, hMount, fun count last hIdles => ⟨?_, fun events calls hShort => ?_⟩⟩
    · exact hIdles.restarts (DurableStore.simulation hDisk) (reverts_reopens hDisk) hMirrors hNone
    · exact hIdles.reopens hDisk hMirrors hNone hShort

def seventhConfig : Config := { dataDirectory := "data", startBlock := 7 }

/-- A block below the start block, and a final one that waits for its flush. -/
def waitingBlocks : List Event :=
  [.data ⟨3, 9, [.assign "a" [0x31]], .blank 3⟩, .data ⟨7, 9, [.assign "a" [0x32]], .blank 7⟩]

theorem idle_start_repeats_at_seven :
    ∃ last opened next, Idles seventhConfig Eq (∅ : Contents) 2 last ∧
      Restarts seventhConfig last ∧
      DurableStore.mount "data" 3 FileTree.withData = .ok opened ∧
      Idles seventhConfig (Reopens seventhConfig) opened 1 next ∧ Restarts seventhConfig next := by
  have hNone : (∅ : Contents)[Key.cursor]? = none := by simp
  have hDisk : Disk.Serves seventhConfig.dataDirectory FileTree.HoldsData :=
    FileTree.HoldsData.serves
  obtain ⟨hMemory, opened, hMount, hOpened⟩ :=
    idle_starts_repeat_iff hDisk FileTree.HoldsData.keptBy_withData hNone
  have hTwice : Idles seventhConfig Eq (∅ : Contents) 2 _ :=
    .once (.once .never [] 1 rfl) waitingBlocks 9 rfl
  obtain ⟨next, hReopens⟩ := (hOpened 0 opened .never).2 waitingBlocks 9
    (DurableStore.length_of_result hMount "data"
      (fun opened => (idled seventhConfig waitingBlocks 9 opened).disk) (by decide +kernel))
  have hOnce : Idles seventhConfig (Reopens seventhConfig) opened 1 next :=
    .once .never waitingBlocks 9 hReopens
  exact ⟨_, opened, next, hTwice, hMemory 2 _ hTwice, hMount, hOnce, (hOpened 1 next hOnce).1⟩

/-- A follower that is to begin with block zero begins with block one when it is started again. -/
theorem idle_start_passes_over_zero :
    ∃ last cursor f, Idles {} Eq (∅ : Contents) 1 last ∧
      start (ofLog (.ofStore last) {}) = .ok cursor f ∧ f.resumeFrom = 1 ∧
      f.Skips (.data ⟨0, 0, [.assign "a" [0x31]], .blank 0⟩) := by
  have hIdles : Idles {} Eq (∅ : Contents) 1 _ := .once .never [] 3 rfl
  have hResume : (match start (ofLog (.ofStore (idled {} [] 3 (∅ : Contents))) {}) with
    | .ok _ f => decide (f.resumeFrom = 1 ∧ f.caughtUp = false)
    | .error _ _ => false) = true := by decide +kernel
  split at hResume
  case h_1 cursor f hStart =>
    obtain ⟨hOne, hWaits⟩ := of_decide_eq_true hResume
    refine ⟨_, cursor, f, hIdles, hStart, hOne, hWaits, ?_⟩
    rw [hOne]
    decide
  case h_2 => cases hResume

end Follower

end ForkLog
