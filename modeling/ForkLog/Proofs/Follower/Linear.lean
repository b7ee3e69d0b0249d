import Mathlib
import ForkLog.Proofs.Follower.Faltering
import ForkLog.Proofs.Follower.Session

/-! # Chains without forks

Of the blocks of a chain without forks a follower applies those from where it resumes. At any time
some of them are written, and those after them are pending.
-/

namespace ForkLog

set_option autoImplicit false

/-- The blocks of a chain without forks. -/
structure Linear (blocks : List Block) : Prop where
  increasing : blocks.Pairwise fun a b => a.number < b.number
  bounded : ∀ block ∈ blocks, block.number.toNat + 1 < UInt64.size
  cursors : ∀ block ∈ blocks, block.cursor.blockNumber = block.number
  kinds : ∀ block ∈ blocks, ∀ op ∈ block.operations, op.kind ≠ .unset

/-- A cursor, if there is one, can be read. -/
def Contents.Resumable (contents : Contents) : Prop :=
  ∀ text, contents[Key.cursor]? = some text → ∃ cursor, Cursor.decode text = .ok cursor

namespace Linear

def operationsOf (blocks : List Block) : List Operation := blocks.flatMap Block.operations

theorem operationsOf_append (front rest : List Block) :
    operationsOf (front ++ rest) = operationsOf front ++ operationsOf rest := List.flatMap_append

/-- The first block that a follower on these contents applies. -/
def resumeNumber (config : Config) (contents : Contents) : UInt64 :=
  match contents[Key.cursor]? with
  | none => config.startBlock
  | some text =>
    match Cursor.decode text with
    | .ok cursor => cursor.resumeBlock
    | .error _ => config.startBlock

/-- The blocks that a follower on these contents applies. -/
def due (config : Config) (contents : Contents) (blocks : List Block) : List Block :=
  blocks.filter fun block => resumeNumber config contents ≤ block.number

/-- The text of the cursor when a follower on these contents has started and has written `blocks`. -/
def position (config : Config) (contents : Contents) (blocks : List Block) : Bytes :=
  match blocks.getLast? with
  | some block => block.cursor.encode
  | none => (contents[Key.cursor]?).getD (Cursor.blank (previousBlock config.startBlock)).encode

variable {config : Config} {initial contents : Contents} {blocks done window rest todo : List Block}

theorem position_concat (block : Block) :
    position config contents (blocks ++ [block]) = block.cursor.encode := by
  rw [position, List.getLast?_concat]

/-- What is written of the blocks `done ++ rest`: all of the former, and of the latter perhaps a part,
without their cursor. -/
structure Partway (config : Config) (initial : Contents) (done rest : List Block)
    (contents : Contents) : Prop where
  cursor : contents[Key.cursor]? = some (position config initial done) ∨
    done = [] ∧ contents[Key.cursor]? = initial[Key.cursor]?
  records : ∀ key, (∀ op ∈ operationsOf rest, op.key ≠ key) →
    contents.records key = initial.records.afterAll (operationsOf done) key

/-- The contents are those of a follower that was broken off. -/
def Survives (config : Config) (initial : Contents) (blocks : List Block) (contents : Contents) :
    Prop :=
  ∃ done rest, due config initial blocks = done ++ rest ∧ Partway config initial done rest contents

theorem Partway.refl (config : Config) (initial : Contents) (rest : List Block) :
    Partway config initial [] rest initial := ⟨.inr ⟨rfl, rfl⟩, fun _ _ => rfl⟩

theorem Partway.of_accords (h : Partway config initial done rest contents) {other : Contents}
    (hAccords : contents.Accords other) : Partway config initial done rest other where
  cursor := by rw [hAccords.cursor_eq]; exact h.cursor
  records := by rw [hAccords.records_eq]; exact h.records

/-- In the middle of a flush of `window` the contents have a part of it, or all. -/
theorem Partway.of_underway {base : Contents} {cursor : Cursor}
    (hRecords : base.records = initial.records.afterAll (operationsOf done))
    (hCursor : base[Key.cursor]? = some (position config initial done))
    (hKinds : ∀ op ∈ operationsOf window, op.kind ≠ .unset)
    (hPosition : cursor.encode = position config initial (done ++ window))
    (hUnderway : Contents.Underway base (OperationLog.writtenContents base
      ((∅ : PendingSet).addAll (operationsOf window)).operations cursor) contents) :
    Partway config initial done (window ++ rest) contents ∨
      Partway config initial (done ++ window) rest contents := by
  have hWritten : Contents.records (OperationLog.writtenContents base
      ((∅ : PendingSet).addAll (operationsOf window)).operations cursor) =
        initial.records.afterAll (operationsOf (done ++ window)) := by
    rw [OperationLog.records_writtenContents,
      OperationLog.afterAll_operations (PendingSet.valid_empty.addAll hKinds),
      PendingSet.appliedTo_addAll_empty hKinds, hRecords, operationsOf_append,
      Records.afterAll_append]
  -- As the cursor comes last, all is written if it is.
  obtain hBefore | rfl := hUnderway.cursor
  · refine .inl ⟨.inl (hBefore.trans hCursor), fun key hKey => ?_⟩
    have hUntouched : ∀ op ∈ operationsOf window, op.key ≠ key := fun op hOp =>
      hKey op (by rw [operationsOf_append]; exact List.mem_append_left _ hOp)
    rw [← hRecords]
    obtain hSame | hNew := hUnderway.each (Key.user key)
    · exact hSame
    · refine hNew.trans ((congrFun hWritten key).trans ?_)
      rw [operationsOf_append, Records.afterAll_append, Records.afterAll_of_not_mem hUntouched,
        hRecords]
  · refine .inr ⟨.inl ?_, fun key _ => congrFun hWritten key⟩
    rw [OperationLog.getElem?_writtenContents_cursor, hPosition]

theorem resumeNumber_eq_of_text {text : Bytes} {cursor : Cursor}
    (hText : contents[Key.cursor]? = some text) (hDecode : Cursor.decode text = .ok cursor) :
    resumeNumber config contents = cursor.resumeBlock := by
  simp only [resumeNumber, hText, hDecode]

theorem resumeNumber_congr {other : Contents}
    (h : other[Key.cursor]? = contents[Key.cursor]?) :
    resumeNumber config other = resumeNumber config contents := by
  rw [resumeNumber, resumeNumber, h]

theorem position_congr {other : Contents} (h : other[Key.cursor]? = contents[Key.cursor]?)
    (blocks : List Block) : position config other blocks = position config contents blocks := by
  rw [position, position, h]

theorem resumeNumber_eq_of_encode {cursor : Cursor}
    (hText : contents[Key.cursor]? = some cursor.encode) :
    resumeNumber config contents = nextBlock cursor.blockNumber := by
  obtain ⟨found, hDecode, hNumber⟩ := Cursor.decode_encode cursor
  rw [resumeNumber_eq_of_text hText hDecode, ← hNumber]
  rfl

/-- After the cursor of a block a follower applies what comes after it. -/
theorem filter_after (h : Linear blocks) {block : Block}
    (hDue : due config initial blocks = done ++ block :: rest) :
    (blocks.filter fun other => nextBlock block.number ≤ other.number) = rest := by
  have hMem : block ∈ due config initial blocks := by simp [hDue]
  obtain ⟨hBlock, hReached⟩ := List.mem_filter.mp hMem
  have hReached : resumeNumber config initial ≤ block.number := of_decide_eq_true hReached
  have hOrdered : (done ++ block :: rest).Pairwise fun a b => a.number < b.number :=
    hDue ▸ h.increasing.filter _
  obtain ⟨-, hAfter, hBefore⟩ := List.pairwise_append.mp hOrdered
  calc blocks.filter (fun other => nextBlock block.number ≤ other.number)
      = (due config initial blocks).filter (fun other => block.number < other.number) := by
        rw [due, List.filter_filter]
        refine List.filter_congr fun other _ => ?_
        rw [← Bool.decide_and, decide_eq_decide, UInt64.le_iff_toNat_le,
          toNat_nextBlock (h.bounded block hBlock), ← Nat.lt_iff_add_one_le, UInt64.lt_iff_toNat_lt,
          UInt64.le_iff_toNat_le]
        rw [UInt64.le_iff_toNat_le] at hReached
        omega
    _ = rest := by
        rw [hDue, List.filter_append, List.filter_cons_of_neg (by simp)]
        have hNone : done.filter (fun other => block.number < other.number) = [] := by
          refine List.filter_eq_nil_iff.mpr fun other hOther => ?_
          simpa using UInt64.le_of_lt (hBefore other hOther block List.mem_cons_self)
        have hAll : rest.filter (fun other => block.number < other.number) = rest :=
          List.filter_eq_self.mpr fun other hOther => by
            simpa using List.rel_of_pairwise_cons hAfter hOther
        rw [hNone, hAll, List.nil_append]

/-- The blocks that are not written are applied again, and nothing else is. -/
theorem Partway.due_eq (h : Partway config initial done rest contents) (hLinear : Linear blocks)
    (hStart : 0 < config.startBlock) (hDue : due config initial blocks = done ++ rest) :
    due config contents blocks = rest := by
  obtain rfl | ⟨front, block, rfl⟩ := List.eq_nil_or_concat' done
  · have hSame : resumeNumber config contents = resumeNumber config initial := by
      obtain hText | ⟨-, hText⟩ := h.cursor
      · cases hInitial : initial[Key.cursor]? with
        | some text =>
          refine resumeNumber_congr (hText.trans ?_)
          simp [position, hInitial]
        | none =>
          simp only [position, List.getLast?_nil, hInitial, Option.getD_none] at hText
          rw [resumeNumber_eq_of_encode hText, resumeNumber, hInitial]
          exact nextBlock_previousBlock hStart
      · exact resumeNumber_congr hText
    rw [due, hSame]
    exact hDue
  · obtain hText | ⟨hNone, -⟩ := h.cursor
    · rw [position_concat] at hText
      rw [List.append_assoc, List.singleton_append] at hDue
      have hMem : block ∈ due config initial blocks := by simp [hDue]
      have hNumber := hLinear.cursors block (List.mem_of_mem_filter hMem)
      rw [due, resumeNumber_eq_of_encode hText, hNumber]
      exact hLinear.filter_after hDue
    · simp at hNone

theorem exists_decode_position (h : initial.Resumable) (config : Config) (blocks : List Block) :
    ∃ cursor, Cursor.decode (position config initial blocks) = .ok cursor := by
  rw [position]
  split
  case h_1 block _ =>
    obtain ⟨found, hDecode, -⟩ := Cursor.decode_encode block.cursor
    exact ⟨found, hDecode⟩
  case h_2 =>
    cases hText : initial[Key.cursor]? with
    | some text => exact h text hText
    | none =>
      obtain ⟨found, hDecode, -⟩ :=
        Cursor.decode_encode (Cursor.blank (previousBlock config.startBlock))
      exact ⟨found, hDecode⟩

theorem Partway.resumable (h : Partway config initial done rest contents)
    (hInitial : initial.Resumable) : contents.Resumable := by
  intro text hText
  obtain hCursor | ⟨-, hCursor⟩ := h.cursor
  · obtain rfl := Option.some.inj (hText.symm.trans hCursor)
    exact exists_decode_position hInitial config done
  · exact hInitial text (hCursor.symm.trans hText)

/-- Writing the rest leads to where the whole leads. -/
theorem Partway.position_eq (h : Partway config initial done rest contents) :
    position config contents rest = position config initial (done ++ rest) := by
  obtain rfl | ⟨front, block, rfl⟩ := List.eq_nil_or_concat' rest
  · rw [List.append_nil]
    obtain hText | ⟨rfl, hText⟩ := h.cursor
    · simp [position, hText]
    · exact position_congr hText []
  · rw [← List.append_assoc, position_concat, position_concat]

theorem Partway.records_eq (h : Partway config initial done rest contents)
    (hKinds : ∀ op ∈ operationsOf rest, op.kind ≠ .unset) :
    contents.records.afterAll (operationsOf rest) =
      initial.records.afterAll (operationsOf (done ++ rest)) := by
  funext key
  rw [operationsOf_append, Records.afterAll_append]
  apply Records.afterAll_congr hKinds
  by_cases hTouched : ∃ op ∈ operationsOf rest, op.key = key
  · exact .inl hTouched
  · exact .inr (h.records key fun op hOp hKey => hTouched ⟨op, hOp, hKey⟩)

/-- The log has written `done` and keeps `window` pending. -/
structure Gathers (config : Config) (initial : Contents) (done window : List Block)
    (log : OperationLog Checkpointed) : Prop where
  records : log.store.current.records = initial.records.afterAll (operationsOf done)
  cursor : log.store.current[Key.cursor]? = some (position config initial done)
  saved : log.store.saved.Accords log.store.current
  pending : log.pending = (∅ : PendingSet).addAll (operationsOf window)
  kinds : ∀ op ∈ operationsOf window, op.kind ≠ .unset
  inSync : log.InSync

variable {log : OperationLog Checkpointed}

theorem Gathers.valid (h : Gathers config initial done window log) : log.pending.Valid := by
  rw [h.pending]
  exact PendingSet.valid_empty.addAll h.kinds

theorem Gathers.quiet (h : Gathers config initial done window log)
    {other : OperationLog Checkpointed} (hQuiet : OperationLog.Quiet log other) :
    Gathers config initial done window other where
  records := hQuiet.accords.records_eq.trans h.records
  cursor := hQuiet.accords.cursor_eq.trans h.cursor
  saved := hQuiet.saved ▸ h.saved.trans hQuiet.accords
  pending := hQuiet.pending.trans h.pending
  kinds := h.kinds
  inSync := by
    intro cursor hCursor
    rw [hQuiet.accords.cursor_eq]
    exact h.inSync cursor (hQuiet.lastCursor.symm.trans hCursor)

theorem Gathers.add (h : Gathers config initial done window log) {block : Block}
    (hKinds : ∀ op ∈ block.operations, op.kind ≠ .unset) :
    Gathers config initial done (window ++ [block])
      { log with pending := log.pending.addAll block.operations } where
  records := h.records
  cursor := h.cursor
  saved := h.saved
  pending := by
    have hOperations : operationsOf (window ++ [block]) = operationsOf window ++ block.operations :=
      (operationsOf_append _ _).trans (congrArg _ (List.flatMap_singleton _ _))
    rw [h.pending, hOperations]
    exact (List.foldl_append).symm
  kinds op hOp := by
    rw [operationsOf_append] at hOp
    obtain hOp | hOp := List.mem_append.mp hOp
    · exact h.kinds op hOp
    · exact hKinds op (by simpa [operationsOf] using hOp)
  inSync := h.inSync

theorem Gathers.flushed (h : Gathers config initial done window log) {cursor : Cursor}
    (hPosition : cursor.encode = position config initial (done ++ window)) :
    Gathers config initial (done ++ window) [] (log.flushed cursor) where
  records := by
    rw [OperationLog.records_flushed h.valid, h.pending, PendingSet.appliedTo_addAll_empty h.kinds,
      h.records, operationsOf_append, Records.afterAll_append]
  cursor := by rw [OperationLog.cursor_flushed h.inSync, hPosition]
  saved := OperationLog.flushed_accords h.saved cursor
  pending := OperationLog.pending_flushed log cursor
  kinds := nofun
  inSync := OperationLog.inSync_flushed h.inSync cursor

/-- The follower has come to `todo`, with `done` written and `window` pending. -/
structure Standing (config : Config) (initial : Contents) (blocks done window todo : List Block)
    (g : Follower Checkpointed) : Prop where
  due : due config initial blocks = done ++ window ++ due config initial todo
  log : Gathers config initial done window g.log
  settings : g.config = config
  going : g.stopRequested = false
  lastCursor : g.lastCursor = (done ++ window).getLast?.map Block.cursor
  resumes : g.caughtUp = false → g.resumeFrom = resumeNumber config initial
  reached : g.caughtUp = true → ∀ block ∈ todo, resumeNumber config initial ≤ block.number

variable {g : Follower Checkpointed} {block : Block}

theorem Standing.skip (h : Standing config initial blocks done window (block :: todo) g)
    (hSkips : g.Skips (.data block)) : Standing config initial blocks done window todo g :=
  { h with
    due := by
      obtain ⟨hBehind, hLow⟩ := hSkips
      rw [h.resumes hBehind] at hLow
      rw [h.due, Linear.due, Linear.due, List.filter_cons_of_neg (by simpa using hLow)]
    reached := fun hCaughtUp => by
      rw [hSkips.1] at hCaughtUp
      cases hCaughtUp }

/-- A block that is not passed over is among those to apply. -/
theorem Standing.due_cons (h : Standing config initial blocks done window (block :: todo) g)
    (hApplies : ¬ g.Skips (.data block)) :
    resumeNumber config initial ≤ block.number ∧
      Linear.due config initial blocks =
        done ++ (window ++ [block]) ++ Linear.due config initial todo := by
  have hReached : resumeNumber config initial ≤ block.number := by
    cases hCaughtUp : g.caughtUp with
    | true => exact h.reached hCaughtUp block List.mem_cons_self
    | false =>
      rw [← h.resumes hCaughtUp]
      exact UInt64.not_lt.mp fun hLow => hApplies ⟨hCaughtUp, hLow⟩
  refine ⟨hReached, ?_⟩
  rw [h.due, Linear.due, List.filter_cons_of_pos (by simpa using hReached), Linear.due]
  simp only [List.append_assoc, List.singleton_append]

theorem Standing.apply (h : Standing config initial blocks done window (block :: todo) g)
    (hKinds : ∀ op ∈ block.operations, op.kind ≠ .unset)
    (hNext : ∀ other ∈ todo, block.number < other.number) (hApplies : ¬ g.Skips (.data block)) :
    ∃ g' done' window', Follower.onBlock block g = .ok () g' ∧
      Standing config initial blocks done' window' todo g' := by
  obtain ⟨hReached, hDue⟩ := h.due_cons hApplies
  obtain ⟨g', hRun⟩ := Follower.apply_ok (f := { g with caughtUp := true }) h.log.valid hKinds
  rw [← Follower.onBlock_eq_of_not_skips hApplies] at hRun
  obtain ⟨-, log, hQuiet, hSettle⟩ := Follower.onBlock_of_ok hApplies hRun
  have hFields := Follower.settle_of_ok hSettle
  have hAdded := (h.log.quiet hQuiet).add hKinds
  have hLater : ∀ other ∈ todo, resumeNumber config initial ≤ other.number := fun other hOther =>
    UInt64.le_of_lt (UInt64.lt_of_le_of_lt hReached (hNext other hOther))
  have hLast : (done ++ (window ++ [block])).getLast?.map Block.cursor = some block.cursor := by
    rw [← List.append_assoc, List.getLast?_concat, Option.map_some]
  by_cases hFlushes : Follower.flushesAt g.config.flushInterval block = true
  · have hFlushed := hAdded.flushed (by rw [← List.append_assoc, position_concat])
    refine ⟨g', done ++ (window ++ [block]), [], hRun, ?_⟩
    rw [hFields]
    refine ⟨?_, ?_, h.settings, h.going, ?_, nofun, fun _ => hLater⟩
    · rw [hDue, List.append_nil]
    · simpa only [hFlushes, if_true] using hFlushed
    · rw [List.append_nil, hLast]
  · refine ⟨g', done, window ++ [block], hRun, ?_⟩
    rw [hFields]
    refine ⟨hDue, ?_, h.settings, h.going, hLast.symm, nofun, fun _ => hLater⟩
    simpa only [hFlushes, Bool.false_eq_true, if_false] using hAdded

end Linear

end ForkLog
