import Mathlib
import ForkLog.Proofs.Follower.Linear
import ForkLog.Proofs.Follower.Restart

/-! # Runs that are broken off

A run over a chain without forks may be broken off at any call, in whatever orders it writes. What it
leaves, in memory or on the disk, has some of the blocks and at most a part of those after them, and a
run over the whole chain leads from there to where an undisturbed run leads.
-/

namespace ForkLog

set_option autoImplicit false

namespace Linear

variable {σ : Type} {R : σ → Checkpointed → Prop} {errs : Error → Prop}
  {config : Config} {initial : Contents} {blocks done window todo : List Block}
  {f : Follower σ} {g : Follower Checkpointed} {block : Block}

/-- What a store has, and what of it is durable, may be left when a run is broken off. -/
def BrokenOff (R : σ → Checkpointed → Prop) (config : Config) (initial : Contents)
    (blocks : List Block) (store : σ) : Prop :=
  ∃ contents saved, R store ⟨contents, saved⟩ ∧ Survives config initial blocks contents ∧
    Survives config initial blocks saved

theorem Gathers.partway {log : OperationLog Checkpointed}
    (h : Gathers config initial done window log) (rest : List Block) :
    Partway config initial done rest log.store.current :=
  ⟨.inl h.cursor, fun key _ => congrFun h.records key⟩

theorem Gathers.brokenOff {log : OperationLog Checkpointed}
    (h : Gathers config initial done window log)
    (hDue : due config initial blocks = done ++ window ++ due config initial todo)
    {cursor : Cursor} (hPosition : cursor.encode = position config initial (done ++ window))
    {base contents : Contents} (hBase : log.store.current.Accords base)
    (hUnderway : Contents.Underway base (OperationLog.writtenContents base
      ((∅ : PendingSet).addAll (operationsOf window)).operations cursor) contents)
    {store : σ} (hStore : R store ⟨contents, log.store.saved⟩) :
    BrokenOff R config initial blocks store := by
  have hSaved : Survives config initial blocks log.store.saved :=
    ⟨done, window ++ due config initial todo, by rw [hDue, List.append_assoc],
      (h.partway _).of_accords h.saved.symm⟩
  refine ⟨contents, log.store.saved, hStore, ?_, hSaved⟩
  obtain hPart | hAll := Partway.of_underway (hBase.records_eq.trans h.records)
    (hBase.cursor_eq.trans h.cursor) h.kinds hPosition hUnderway
  · exact ⟨done, _, by rw [hDue, List.append_assoc], hPart⟩
  · exact ⟨done ++ window, _, hDue, hAll⟩

theorem Standing.torn (h : Standing config initial blocks done window (block :: todo) g)
    (hKinds : ∀ op ∈ block.operations, op.kind ≠ .unset) (hApplies : ¬ g.Skips (.data block))
    (hTorn : Follower.Torn R block f g) : BrokenOff R config initial blocks f.log.store := by
  obtain ⟨base, contents, hBase, hStore, hUnderway⟩ := hTorn
  have hAdded := h.log.add hKinds
  have hPending := hAdded.pending
  simp only at hPending
  rw [hPending] at hUnderway
  exact hAdded.brokenOff (h.due_cons hApplies).2
    (by rw [← List.append_assoc, position_concat]) hBase hUnderway hStore

theorem exists_standing (hResumable : initial.Resumable) (config : Config) (blocks : List Block) :
    ∃ cursor g,
      Follower.start (Follower.ofLog (.ofStore (Checkpointed.ofContents initial)) config) =
        .ok cursor g ∧ Standing config initial blocks [] [] blocks g := by
  cases hCursor : initial[Key.cursor]? with
  | none =>
    refine ⟨_, _, Follower.start_eq_of_none hCursor, rfl, ?_, rfl, rfl, rfl, fun _ => ?_,
      fun hCaughtUp => absurd hCaughtUp Bool.false_ne_true⟩
    · refine ⟨Contents.records_insert_cursor initial _, ?_, .refl _, rfl, by simp [operationsOf],
        OperationLog.inSync_of_insert⟩
      simp only [position, hCursor, List.getLast?_nil, Option.getD_none]
      exact (Contents.getElem?_insert initial _ _ Key.cursor).trans (if_pos rfl)
    · rw [resumeNumber, hCursor]
      rfl
  | some text =>
    obtain ⟨cursor, hDecode⟩ := hResumable text hCursor
    refine ⟨_, _, Follower.start_of_some hCursor hDecode, rfl, ?_, rfl, rfl, rfl, fun _ => ?_,
      fun hCaughtUp => absurd hCaughtUp Bool.false_ne_true⟩
    · refine ⟨rfl, ?_, .refl _, rfl, by simp [operationsOf], fun _ hNone => by cases hNone⟩
      simp only [position, hCursor, List.getLast?_nil, Option.getD_some]
      exact hCursor
    · exact (resumeNumber_eq_of_text hCursor hDecode).symm

/-- In the middle of starting, too, nothing is done that starting again would not do. -/
theorem Partway.of_start {contents : Contents} (hNone : initial[Key.cursor]? = none)
    (hUnderway : Contents.Underway initial (initial.insert Key.cursor
      (Cursor.blank (previousBlock config.startBlock)).encode) contents) (rest : List Block) :
    Partway config initial [] rest contents where
  cursor := by
    obtain hBefore | rfl := hUnderway.cursor
    · exact .inr ⟨rfl, hBefore⟩
    · left
      rw [Contents.getElem?_insert, if_pos rfl, position, List.getLast?_nil, hNone]
      rfl
  records key _ := by
    obtain hBefore | hAfter := hUnderway.each (Key.user key)
    · exact hBefore
    · exact hAfter.trans (congrFun (Contents.records_insert_cursor initial _) key)

variable [Store σ]

theorem start_lands (h : Store.Falters R errs) (hErrors : ∀ e, errs e → e.isStoreFailure = true)
    (hResumable : initial.Resumable) (config : Config) (blocks : List Block) {store : σ}
    (hStore : R store (.ofContents initial)) :
    Action.Lands Follower.start
      (fun _ f => ∃ g, Follower.Alike R f g ∧ Standing config initial blocks [] [] blocks g)
      (fun e f => errs e ∧ BrokenOff R config initial blocks f.log.store)
      (Follower.ofLog (.ofStore store) config) := by
  have hNotMissing : ∀ e, errs e → e ≠ .cursorNotFound := by
    rintro e hError rfl
    exact absurd (hErrors _ hError) (by decide)
  have hAgree := Follower.start_falters h hNotMissing (Follower.alike_ofStore hStore config)
  obtain ⟨cursor, g, hRun, hStanding⟩ := exists_standing hResumable config blocks
  rw [hRun] at hAgree
  rw [Action.Lands]
  obtain ⟨f, hBegin, hf⟩ | ⟨e, f, hFails, hError, contents, hStore, hLeft⟩ := hAgree.of_ok
  · rw [hBegin]
    exact ⟨g, hf, hStanding⟩
  · rw [hFails]
    refine ⟨hError, contents, initial, hStore, ⟨[], _, rfl, ?_⟩, [], _, rfl, .refl _ _ _⟩
    obtain rfl | ⟨hNone, hUnderway⟩ := hLeft
    · exact .refl _ _ _
    · exact .of_start hNone hUnderway _

theorem consumeIn_lands (h : Store.Falters R errs) (orders : Nat → Nat → PendingSet.Order)
    (hf : Follower.Alike R f g)
    (hStanding : Standing config initial blocks done window todo g)
    (hTodo : todo.Pairwise fun a b => a.number < b.number)
    (hKinds : ∀ block ∈ todo, ∀ op ∈ block.operations, op.kind ≠ .unset) (taken : Nat) :
    (∃ f' g' done' window' last,
        Follower.consumeIn orders (Follower.arrivals (todo.map .data)) taken f =
            (⟨.ok (), last⟩, f') ∧
          Follower.Alike R f' g' ∧ Standing config initial blocks done' window' [] g') ∨
      ∃ e last f', Follower.consumeIn orders (Follower.arrivals (todo.map .data)) taken f =
          (⟨.error e, last⟩, f') ∧ errs e ∧ BrokenOff R config initial blocks f'.log.store := by
  -- What is written and what is pending move with every block, so both are general here.
  induction todo generalizing f g done window taken with
  | nil => exact .inl ⟨f, g, done, window, taken, rfl, hf, hStanding⟩
  | cons block todo ih =>
    obtain ⟨hNext, hTodo⟩ := List.pairwise_cons.mp hTodo
    obtain ⟨hBlock, hKinds⟩ := List.forall_mem_cons.mp hKinds
    have hGoing : f.stopRequested = false := hf.stopRequested.trans hStanding.going
    rw [List.map_cons]
    by_cases hSkips : g.Skips (.data block)
    · rw [Follower.consumeIn_cons orders hGoing
        (Follower.handleIn_eq_of_skips _ ((hf.skips_iff _).mpr hSkips))]
      exact ih hf (hStanding.skip hSkips) hTodo hKinds (taken + 1)
    · obtain ⟨g', done', window', hRun, hStanding'⟩ := hStanding.apply hBlock hNext hSkips
      have hOrders : g.log.pending.Valid ∨ orders taken = Follower.sorted :=
        .inl hStanding.log.valid
      have hAgree := Follower.onBlockIn_falters h hOrders hf block
      have hOther : Follower.onBlockIn Follower.sorted block g = .ok () g' := hRun
      rw [hOther] at hAgree
      obtain ⟨f', hFirst, hf'⟩ | ⟨e, f', hFails, hError, hTorn, -⟩ := hAgree.of_ok
      · have hHandle : Follower.handleIn (orders taken) (.data block) f = .ok () f' := hFirst
        rw [Follower.consumeIn_cons orders hGoing hHandle]
        exact ih hf' hStanding' hTodo hKinds (taken + 1)
      · have hHandle : Follower.handleIn (orders taken) (.data block) f = .error e f' := hFails
        rw [Follower.consumeIn_cons_of_error orders hGoing hHandle]
        exact .inr ⟨e, taken + 1, f', rfl, hError, hStanding.torn hBlock hSkips hTorn⟩

theorem shutdownIn_lands (h : Store.Falters R errs) (orders : Nat → PendingSet.Order)
    (hf : Follower.Alike R f g) (hStanding : Standing config initial blocks done window [] g) :
    Action.Lands (Follower.shutdownIn orders)
      (fun _ f => ∃ g, Follower.Alike R f g ∧ Gathers config initial (due config initial blocks) []
        g.log)
      (fun e f => errs e ∧ BrokenOff R config initial blocks f.log.store) f := by
  have hDue : due config initial blocks = done ++ window := by
    rw [hStanding.due, due, List.filter_nil, List.append_nil]
  rw [Action.Lands]
  obtain hEmpty | ⟨front, block, hLast⟩ := List.eq_nil_or_concat' (done ++ window)
  · have hNone : g.lastCursor = none := by
      rw [hStanding.lastCursor, hEmpty]
      rfl
    obtain ⟨rfl, rfl⟩ := List.append_eq_nil_iff.mp hEmpty
    rw [Follower.shutdownIn_eq_of_none orders (hf.lastCursor.trans hNone), hDue]
    exact ⟨g, hf, hStanding.log⟩
  · have hSome : g.lastCursor = some block.cursor := by
      rw [hStanding.lastCursor, hLast, List.getLast?_concat]
      rfl
    have hPosition : block.cursor.encode = position config initial (done ++ window) := by
      rw [hLast, position_concat]
    rw [Follower.shutdownIn_eq_of_some orders (hf.lastCursor.trans hSome)]
    obtain ⟨count, g', hFlush⟩ := Follower.flush_ok hStanding.log.valid block.cursor
    have hOrders : g.log.pending.Valid ∨ orders = Follower.sorted := .inl hStanding.log.valid
    have hAgree := Follower.flushIn_falters h hOrders hf block.cursor
    have hOther : Follower.flushIn Follower.sorted block.cursor g = .ok count g' := hFlush
    rw [hOther] at hAgree
    obtain ⟨f', hRun, hf'⟩ | ⟨e, f', hFails, hError, hFlushing, -⟩ := hAgree.of_ok
    · rw [Action.bind_eq_of_ok hRun]
      refine ⟨g', hf', ?_⟩
      rw [Follower.flush_of_ok hFlush, hDue]
      exact hStanding.log.flushed hPosition
    · rw [Action.bind_eq_of_error hFails]
      obtain ⟨-, -, contents, hStore, hUnderway, -⟩ := hFlushing.1
      rw [hStanding.log.pending] at hUnderway
      exact ⟨hError, hStanding.log.brokenOff hStanding.due hPosition (.refl _) hUnderway hStore⟩

/-- Attended to, a chain without forks comes to be written whole, or the store fails and the run is
broken off. -/
theorem attendIn_lands (h : Store.Falters R errs) (hErrors : ∀ e, errs e → e.isStoreFailure = true)
    (hResumable : initial.Resumable) (hLinear : Linear blocks) (config : Config) {store : σ}
    (hStore : R store (.ofContents initial)) (orders : Nat → Nat → PendingSet.Order) :
    Action.Lands (Follower.attendIn orders (blocks.map .data))
      (fun _ f => ∃ g, Follower.Alike R f g ∧ Gathers config initial (due config initial blocks) []
        g.log)
      (fun e f => errs e ∧ BrokenOff R config initial blocks f.log.store)
      (Follower.ofLog (.ofStore store) config) := by
  have hStart := start_lands h hErrors hResumable config blocks hStore
  simp only [Action.Lands, Follower.attendIn] at hStart ⊢
  cases hBegin : Follower.start (Follower.ofLog (.ofStore store) config) with
  | error e f =>
    rw [hBegin] at hStart
    exact hStart
  | ok _ f =>
    rw [hBegin] at hStart
    obtain ⟨g, hf, hStanding⟩ := hStart
    obtain ⟨f', g', done, window, last, hConsume, hf', hStanding'⟩ |
        ⟨e, last, f', hConsume, hError, hBroken⟩ :=
      consumeIn_lands h orders hf hStanding hLinear.increasing hLinear.kinds 0
    · have hEnd := shutdownIn_lands h (orders last) hf' hStanding'
      simp only [Action.Lands] at hEnd
      simp only [Follower.runIn, hConsume, Follower.flushesAfter, if_true]
      generalize Follower.shutdownIn (orders last) f' = ending at hEnd
      cases ending <;> exact hEnd
    · simp only [Follower.runIn, hConsume, Follower.flushesAfter, hErrors e hError, Bool.not_true,
        Bool.false_eq_true, if_false]
      exact ⟨hError, hBroken⟩

end Linear

namespace Follower

open Linear

variable {σ δ : Type} [Store σ] [Disk δ]

/-- A follower on the store is started and runs over events. In whatever orders it writes it ends well,
and these are the user records and the cursor that are found then. -/
def Attends (config : Config) (events : List Event) (store : σ) (records : Records)
    (cursor : Cursor) : Prop :=
  ∀ orders, ∃ f, attendIn orders events (ofLog (.ofStore store) config) = .ok () f ∧
    Store.Holds f.log.store records ∧ OperationLog.getCursor.run' f.log = some cursor

/-- What there is of a store when a process has died that used it: a follower was started and ran
over events, writing in these orders, and so many calls were done. -/
def remains (orders : Nat → Nat → PendingSet.Order) (config : Config) (events : List Event)
    (calls : Nat) (store : σ) : σ :=
  match attendIn orders events (ofLog (.ofStore (⟨store, calls⟩ : Mortal σ)) config) with
  | .ok _ f | .error _ f => f.log.store.inner

variable {R : σ → Checkpointed → Prop} {config : Config} {events : List Event}
  {initial contents : Contents} {blocks : List Block} {store : σ} {cursor : Cursor}
  {records : Records} {Holds : δ → Option Bytes → Option Bytes → Prop} {disk : δ}

theorem remains_brokenOff (h : Store.Simulation R) (hResumable : initial.Resumable)
    (hLinear : Linear blocks) (config : Config) (hStore : R store (.ofContents initial))
    (orders : Nat → Nat → PendingSet.Order) (calls : Nat) :
    BrokenOff R config initial blocks (remains orders config (blocks.map .data) calls store) := by
  have hErrors : ∀ e, e = Mortal.gone → e.isStoreFailure = true := by
    rintro _ rfl
    rfl
  have hBegun : R (⟨store, calls⟩ : Mortal σ).inner (.ofContents initial) := hStore
  have hLands := attendIn_lands (Mortal.falters h) hErrors hResumable hLinear config hBegun orders
  simp only [Action.Lands] at hLands
  rw [remains]
  generalize attendIn orders (blocks.map .data)
    (ofLog (.ofStore (⟨store, calls⟩ : Mortal σ)) config) = result at hLands
  cases result with
  | ok _ f =>
    obtain ⟨g, hf, hGathers⟩ := hLands
    have hPartway := hGathers.partway []
    exact ⟨_, _, hf.log.store, ⟨_, [], (List.append_nil _).symm, hPartway⟩,
      _, [], (List.append_nil _).symm, hPartway.of_accords hGathers.saved.symm⟩
  | error e f =>
    obtain ⟨-, contents, saved, hRest⟩ := hLands
    exact ⟨contents, saved, hRest⟩

/-- Wherever a run was broken off, one over the whole chain ends as it would have from the
beginning. -/
theorem attends_of_survives (h : Store.Simulation R)
    (hSurvives : Survives config initial blocks contents) (hLinear : Linear blocks)
    (hStart : 0 < config.startBlock) (hResumable : initial.Resumable)
    (hDecode : Cursor.decode (position config initial (due config initial blocks)) = .ok cursor)
    (hStore : R store (.ofContents contents)) :
    Attends config (blocks.map .data) store
      (initial.records.afterAll (operationsOf (due config initial blocks))) cursor := by
  intro orders
  obtain ⟨done, rest, hDue, hPartway⟩ := hSurvives
  -- The cursor may be behind the records, never ahead of them: no block is left out.
  have hRest := hPartway.due_eq hLinear hStart hDue
  have hKinds : ∀ op ∈ operationsOf rest, op.kind ≠ .unset := by
    intro op hOp
    obtain ⟨block, hBlock, hOp⟩ := List.mem_flatMap.mp hOp
    have hMem : block ∈ due config initial blocks := hDue ▸ List.mem_append_right done hBlock
    exact hLinear.kinds block (List.mem_of_mem_filter hMem) op hOp
  have hLands := attendIn_lands (h.falters fun _ => False) nofun
    (hPartway.resumable hResumable) hLinear config hStore orders
  simp only [Action.Lands] at hLands
  cases hRun : attendIn orders (blocks.map .data) (ofLog (.ofStore store) config) with
  | error e f =>
    rw [hRun] at hLands
    exact hLands.1.elim
  | ok _ f =>
    rw [hRun] at hLands
    obtain ⟨g, hf, hGathers⟩ := hLands
    refine ⟨f, rfl, ?_, getCursor_of_alike h hf ?_⟩
    · rw [h.holds_congr hf.log.store, Store.holds_checkpointed_iff, hGathers.records, hRest, hDue]
      exact hPartway.records_eq hKinds
    · rw [OperationLog.getCursor_eq_of_some hGathers.cursor, hRest, hPartway.position_eq, ← hDue,
        hDecode]
      rfl

/-- A process may die at any call that a run over a chain without forks makes to its store, in
whatever orders the run writes. Started anew on what remains in memory, or on what was last synced to
the disk, and run over the whole chain, a follower ends with the same user records and the same cursor
as if nothing had happened: those after all blocks from where the first run began. -/
theorem crash_converges (hDisk : Disk.Serves config.dataDirectory Holds)
    (hKept : DurableStore.KeptBy Holds disk contents) (hResumable : contents.Resumable)
    (hStart : 0 < config.startBlock) (hLinear : Linear blocks) :
    ∃ records cursor opened,
      records = contents.records.afterAll (operationsOf (due config contents blocks)) ∧
      Cursor.decode (position config contents (due config contents blocks)) = .ok cursor ∧
      DurableStore.mount config.dataDirectory config.maxRetries disk = .ok opened ∧
      Attends config (blocks.map .data) contents records cursor ∧
      Attends config (blocks.map .data) opened records cursor ∧
      ∀ orders calls,
        Attends config (blocks.map .data)
          (remains orders config (blocks.map .data) calls contents) records cursor ∧
        ((∀ data after, Disk.read (DurableStore.snapshotPath config.dataDirectory)
            (remains orders config (blocks.map .data) calls opened).disk = .ok data after →
              data.length < Wire.lengthLimit) →
          ∃ again, DurableStore.mount config.dataDirectory config.maxRetries
              (remains orders config (blocks.map .data) calls opened).disk = .ok again ∧
            Attends config (blocks.map .data) again records cursor) := by
  have hSelf : Survives config contents blocks contents := ⟨[], _, rfl, .refl _ _ _⟩
  obtain ⟨cursor, hDecode⟩ :=
    exists_decode_position hResumable config (due config contents blocks)
  have hMemory := Store.simulation_contents.checkpointed
  have hDurable := DurableStore.simulation hDisk
  obtain ⟨opened, hMount, hMirrors⟩ := DurableStore.mount_spec hDisk hKept config.maxRetries
  refine ⟨_, cursor, opened, rfl, hDecode, hMount, ?_, ?_, fun orders calls =>
    ⟨?_, fun hShort => ?_⟩⟩
  · exact attends_of_survives hMemory hSelf hLinear hStart hResumable hDecode rfl
  · exact attends_of_survives hDurable hSelf hLinear hStart hResumable hDecode hMirrors
  · obtain ⟨left, saved, hLeft, hSurvives, -⟩ :=
      remains_brokenOff hMemory hResumable hLinear config rfl orders calls
    exact attends_of_survives hMemory hSurvives hLinear hStart hResumable hDecode hLeft
  · obtain ⟨left, saved, hLeft, -, hSurvives⟩ :=
      remains_brokenOff hDurable hResumable hLinear config hMirrors orders calls
    obtain ⟨again, hMount, hMirrors⟩ :=
      DurableStore.mount_spec hDisk (hLeft.keptBy hDisk hShort) config.maxRetries
    exact ⟨again, hMount,
      attends_of_survives hDurable hSurvives hLinear hStart hResumable hDecode hMirrors⟩

def gatheringConfig : Config := { dataDirectory := "data", flushInterval := 2, startBlock := 1 }

def threeBlocks : List Block :=
  [⟨1, 1, [.assign "a" [0x31]], .blank 1⟩, ⟨2, 2, [.assign "b" [0x32], .remove "c"], .blank 2⟩,
    ⟨3, 3, [.assign "a" [0x33]], .blank 3⟩]

/-- What is left when a process that writes backwards has died after ten calls. -/
def cutShort {σ : Type} [Store σ] (store : σ) : σ :=
  remains (fun _ _ => .reversed) gatheringConfig (threeBlocks.map .data) 10 store

/-- The first flush has written the record of the second block and not that of the first one. -/
theorem crash_converges_within_flush :
    (cutShort (∅ : Contents)).records "a" = none ∧
      (cutShort (∅ : Contents)).records "b" = some [0x32] ∧
      ∃ records cursor opened again, records "a" = some [0x33] ∧ records "b" = some [0x32] ∧
        Attends gatheringConfig (threeBlocks.map .data) (∅ : Contents) records cursor ∧
        Attends gatheringConfig (threeBlocks.map .data) (cutShort (∅ : Contents)) records cursor ∧
        DurableStore.mount "data" 3 FileTree.withData = .ok opened ∧
        DurableStore.mount "data" 3 (cutShort opened).disk = .ok again ∧
        Attends gatheringConfig (threeBlocks.map .data) again records cursor := by
  have hStart : 0 < gatheringConfig.startBlock := by decide
  have hLinear : Linear threeBlocks := ⟨by decide, by decide, by decide, by decide⟩
  have hResumable : Contents.Resumable ∅ := by
    intro text hText
    simp at hText
  obtain ⟨records, cursor, opened, hRecords, -, hMount, hWhole, -, hCrash⟩ :=
    crash_converges FileTree.HoldsData.serves FileTree.HoldsData.keptBy_withData hResumable hStart
      hLinear
  have hShort := DurableStore.length_of_result hMount "data" (fun opened => (cutShort opened).disk)
    (by decide +kernel)
  obtain ⟨hMemory, hDisk⟩ := hCrash (fun _ _ => .reversed) 10
  obtain ⟨again, hAgain, hReopened⟩ := hDisk hShort
  refine ⟨by decide +kernel, by decide +kernel, records, cursor, opened, again, ?_, ?_, hWhole,
    hMemory, hMount, hAgain, hReopened⟩
  · rw [hRecords]
    decide +kernel
  · rw [hRecords]
    decide +kernel

end Follower

end ForkLog
