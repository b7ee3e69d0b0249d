import Mathlib
import ForkLog.Proofs.Disk.FileTree
import ForkLog.Proofs.Follower.Session

/-! # Restarts

A follower that is started again finds the user records and the cursor as they were. If the run
before ended with a fork it also finds the undo records of the blocks that were taken back, which
later forks may replay once more.
-/

namespace ForkLog

set_option autoImplicit false

namespace Records

theorem inverse_eq_nil_iff {records : Records} {ops : List Operation}
    (hValid : ∀ op ∈ ops, op.kind ≠ .unset) :
    records.inverse ops = [] ↔ ∀ key, records.Spares ops key := by
  simp only [spares_iff hValid, List.eq_nil_iff_forall_not_mem]
  exact ⟨fun h key undo hUndo => absurd hUndo (h undo),
    fun h undo hUndo => h undo.key undo hUndo rfl⟩

end Records

namespace Placed

/-- Some batch of a chain is not empty. Then what takes the chain back decides about a key, whatever
was there before. -/
theorem exists_decided {initial : Records} {undo : UInt64 → List Operation} {chain : List Placed}
    (hUndo : ∀ placed ∈ chain,
      undo placed.number = [] ∨ placed.Inverts initial (undo placed.number))
    (hSome : ∃ placed ∈ chain, undo placed.number ≠ []) :
    ∃ placed ∈ chain, ∃ op ∈ placed.operations, ∃ value, ∀ records : Records,
      records.afterAll (unwinding undo chain) op.key = value := by
  induction chain with
  | nil => simp at hSome
  | cons first chain ih =>
    by_cases hEmpty : undo first.number = []
    · have hRest : ∃ placed ∈ chain, undo placed.number ≠ [] := by
        obtain ⟨placed, hPlaced, hNotEmpty⟩ := hSome
        obtain rfl | hPlaced := List.mem_cons.mp hPlaced
        · exact absurd hEmpty hNotEmpty
        · exact ⟨placed, hPlaced, hNotEmpty⟩
      obtain ⟨placed, hPlaced, hDecided⟩ :=
        ih (fun placed hPlaced => hUndo placed (List.mem_cons_of_mem first hPlaced)) hRest
      refine ⟨placed, List.mem_cons_of_mem first hPlaced, ?_⟩
      rwa [unwinding_cons, hEmpty, List.append_nil]
    · obtain ⟨hKinds, hInverse⟩ := (hUndo first List.mem_cons_self).resolve_left hEmpty
      obtain ⟨back, hBack⟩ := List.exists_mem_of_ne_nil _ hEmpty
      rw [hInverse] at hBack
      obtain ⟨op, hOp, hEq⟩ := Records.mem_inverse_iff.mp hBack
      have hKey := (Records.inverse?_eq_some hEq).1
      refine ⟨first, List.mem_cons_self, op, hOp, initial.afterAll first.written op.key,
        fun records => ?_⟩
      rw [unwinding_cons, Records.afterAll_append, hInverse]
      refine Records.afterAll_inverse_of_not_spares hKinds fun hSpares => ?_
      exact (Records.spares_iff hKinds).mp hSpares back hBack hKey

theorem exists_other {op : Operation} (hOp : op.Recordable) (value : Option Bytes) :
    ∃ other : Operation, other.Recordable ∧ other.key = op.key ∧ other.outcome ≠ value := by
  have hValue : ([] : Bytes).length < Wire.lengthLimit := show 0 < 2 ^ 64 by decide
  cases value with
  | none => exact ⟨.assign op.key [], ⟨nofun, hOp.key, hValue⟩, rfl, nofun⟩
  | some value => exact ⟨.remove op.key, ⟨nofun, hOp.key, hValue⟩, rfl, nofun⟩

end Placed

/-- The batches of a ledger after a block without operations was recorded. -/
def Ledger.overwritten (l : Ledger) (higher number : UInt64) : List Operation :=
  if number = higher then [] else l.undone number

theorem Ledger.undone_block_block (l : Ledger) {last again : Option UInt64} (interval : UInt64)
    {first second : Block} (hSecond : second.operations = []) {number : UInt64}
    (hNumber : number ≠ first.number) (hLast : ∀ height, last = some height → height < number)
    (hAgain : ∀ height, again = some height → height < number) :
    ((l.block last interval first).block again interval second).undone number =
      l.overwritten second.number number := by
  rw [overwritten]
  split
  case isTrue hEq =>
    rw [hEq, undone_block_self, hSecond]
    rfl
  case isFalse hNe =>
    rw [undone_block_of_above _ _ _ _ hNe hAgain, undone_block_of_above _ _ _ _ hNumber hLast]

theorem Covers.overwritten {l : Ledger} {height : UInt64} {blocks : List UInt64}
    (h : Covers l.undone height blocks) (higher : UInt64) :
    Covers (l.overwritten higher) height blocks :=
  { h with
    complete := fun number hAbove hSome => by
      refine h.complete number hAbove fun hEmpty => hSome ?_
      rw [Ledger.overwritten, hEmpty, ite_self] }

namespace Course

variable {config : Config} {c : Course} {initial : Records} {before left : Ledger} {fork : Fork}

/-- Of the blocks that the last fork took back, those above the next height had only removed keys
that were not there. -/
def LeavesNothing (initial : Records) (config : Config) (events : List Event) : Prop :=
  ∀ front fork, events = front ++ [.undo fork] →
    ∀ placed ∈ ((Course.initial config).afterAll config front).progress.history.above
        fork.lastValidBlock,
      placed.number ≠ fork.lastValidBlock + 1 →
        ∀ key, (initial.afterAll placed.written).Spares placed.operations key

theorem toNat_add_one {low high : UInt64} (h : low < high) : (low + 1).toNat = low.toNat + 1 := by
  have hLow := UInt64.lt_iff_toNat_lt.mp h
  have hBound := high.toNat_lt
  rw [UInt64.toNat_add, UInt64.toNat_one]
  omega

theorem lt_add_one {number : UInt64} (h : number.toNat + 1 < UInt64.size) : number < number + 1 := by
  simp only [UInt64.size] at h
  rw [UInt64.lt_iff_toNat_lt, UInt64.toNat_add, UInt64.toNat_one]
  omega

theorem above_iff (hAllows : c.Allows config (.undo fork)) {number : UInt64} :
    fork.lastValidBlock < number ↔ fork.lastValidBlock + 1 ≤ number := by
  rw [UInt64.lt_iff_toNat_lt, UInt64.le_iff_toNat_le, toNat_add_one hAllows.1]
  exact Nat.lt_iff_add_one_le

theorem undone_left (h : Accounts initial (Placed.Inverts initial) c before c.progress.history)
    (hAllows : c.Allows config (.undo fork)) (hUndo : left.undo = before.undo) {number : UInt64}
    (hNumber : fork.lastValidBlock < number) :
    (∃ placed ∈ c.progress.history.above fork.lastValidBlock, placed.number = number ∧
      Placed.Inverts initial placed (left.undone number)) ∨
    (∀ placed ∈ c.progress.history.above fork.lastValidBlock, placed.number ≠ number) ∧
      left.undone number = [] := by
  have hKept := UInt64.lt_of_le_of_lt hAllows.2.2.1 hNumber
  have hSame : left.undone number = before.undone number := by
    rw [Ledger.undone, hUndo, Ledger.undone]
  have hMem {placed : Placed} (hPlaced : placed ∈ c.progress.history.chain)
      (hEq : placed.number = number) :
      placed ∈ c.progress.history.above fork.lastValidBlock :=
    List.mem_filter.mpr ⟨hPlaced, by simpa [hEq] using hNumber⟩
  rw [hSame]
  by_cases hFound : ∃ placed ∈ c.progress.history.chain, placed.number = number
  · obtain ⟨placed, hPlaced, rfl⟩ := hFound
    exact .inl ⟨placed, hMem hPlaced rfl, rfl, h.explains.undone placed hPlaced hKept⟩
  · refine .inr ⟨fun placed hPlaced hEq => hFound ⟨placed, (List.mem_filter.mp hPlaced).1, hEq⟩, ?_⟩
    exact h.explains.others number hKept fun placed hPlaced hEq => hFound ⟨placed, hPlaced, hEq⟩

theorem written_of_next (hStep : c.progress.history.InStep) (hPrompt : c.progress.history.Prompt)
    (hAllows : c.Allows config (.undo fork)) {placed : Placed}
    (hPlaced : placed ∈ c.progress.history.above fork.lastValidBlock)
    (hNumber : placed.number = fork.lastValidBlock + 1) :
    placed.written = (c.progress.history.fork fork.lastValidBlock).written := by
  refine hPrompt.head_above hStep placed ?_
  have hSorted : (c.progress.history.above fork.lastValidBlock).Pairwise
      fun a b => a.number < b.number := hStep.increasing.filter _
  have hLow : ∀ other ∈ c.progress.history.above fork.lastValidBlock,
      fork.lastValidBlock < other.number := by
    intro other hOther
    simpa using (List.mem_filter.mp hOther).2
  generalize c.progress.history.above fork.lastValidBlock = above at hPlaced hSorted hLow
  obtain _ | ⟨first, rest⟩ := above
  · cases hPlaced
  · obtain rfl | hRest := List.mem_cons.mp hPlaced
    · rfl
    · have hFirst := (List.pairwise_cons.mp hSorted).1 placed hRest
      have hNext := (above_iff hAllows).mp (hLow first List.mem_cons_self)
      rw [hNumber] at hFirst
      exact absurd hNext (UInt64.not_le.mpr hFirst)

/-- What is left for the next block takes nothing back of what a block without operations did. -/
theorem takenBackBy_left
    (h : Accounts initial (Placed.Inverts initial) c before c.progress.history)
    (hAllows : c.Allows config (.undo fork)) (hUndo : left.undo = before.undo) :
    Placed.TakenBackBy initial
      ⟨fork.lastValidBlock + 1, [], (c.progress.history.fork fork.lastValidBlock).written⟩
      (left.undone (fork.lastValidBlock + 1)) := by
  intro records key
  obtain ⟨placed, hPlaced, hNumber, hInverts⟩ | ⟨_, hNil⟩ :=
    undone_left h hAllows hUndo ((above_iff hAllows).mpr (UInt64.le_refl _))
  · obtain hBack | ⟨_, hAlone⟩ := hInverts.takenBackBy records key
    · left
      rw [hBack, written_of_next h.explains.inStep h.prompt hAllows hPlaced hNumber]
    · exact .inr ⟨nofun, hAlone⟩
  · rw [hNil]
    exact .inr ⟨nofun, rfl⟩

theorem nothing_left (h : Accounts initial (Placed.Inverts initial) c before c.progress.history)
    (hAllows : c.Allows config (.undo fork)) (hUndo : left.undo = before.undo)
    (hLeaves : ∀ placed ∈ c.progress.history.above fork.lastValidBlock,
      placed.number ≠ fork.lastValidBlock + 1 →
        ∀ key, (initial.afterAll placed.written).Spares placed.operations key)
    {number : UInt64} (hHigh : fork.lastValidBlock < number)
    (hNext : number ≠ fork.lastValidBlock + 1) : left.undone number = [] := by
  obtain ⟨placed, hPlaced, rfl, hInverts⟩ | ⟨_, hNil⟩ := undone_left h hAllows hUndo hHigh
  · rw [hInverts.2, Records.inverse_eq_nil_iff hInverts.1]
    exact hLeaves placed hPlaced hNext
  · exact hNil

/-- What is left counts as a block without operations right above the tip. -/
theorem exists_accounts_left
    (h : Accounts initial (Placed.Inverts initial) c before c.progress.history)
    (hAllows : c.Allows config (.undo fork))
    (hRecords : left.records =
      initial.afterAll (c.after config (.undo fork)).progress.history.operations)
    (hUpcoming : left.upcoming = left.records) (hUndo : left.undo = before.undo)
    (hLeaves : ∀ placed ∈ c.progress.history.above fork.lastValidBlock,
      placed.number ≠ fork.lastValidBlock + 1 →
        ∀ key, (initial.afterAll placed.written).Spares placed.operations key) :
    ∃ g, Accounts initial (Placed.TakenBackBy initial) (c.after config (.undo fork)) left g := by
  let forked := c.progress.history.fork fork.lastValidBlock
  let ghost : Placed := ⟨fork.lastValidBlock + 1, [], forked.written⟩
  have hStep := h.explains.inStep
  have hChain : (forked.place ghost.number []).flush.chain = forked.chain ++ [ghost] := rfl
  have hBelow : ∀ placed ∈ forked.chain, placed.number ≤ fork.lastValidBlock := by
    intro placed hPlaced
    simpa using (List.mem_filter.mp hPlaced).2
  have hNext : ∀ placed ∈ forked.chain, placed.number < ghost.number := by
    intro placed hPlaced
    exact UInt64.lt_of_le_of_lt (hBelow placed hPlaced) ((above_iff hAllows).mpr (UInt64.le_refl _))
  have hSame := History.same_place_nil forked ghost.number
  have hWritten : (forked.place ghost.number []).flush.written = forked.operations :=
    hSame.operations
  refine ⟨(forked.place ghost.number []).flush, ?_, (h.prompt.fork hStep _).place _ _, hSame,
    fun placed hPlaced => ?_⟩
  · exact
      { inStep := ((hStep.fork _).place hNext []).flush
        records := hWritten.symm ▸ hRecords
        upcoming := hSame.operations.symm ▸ hUpcoming.trans hRecords
        undone := fun placed hPlaced hKept => by
          rw [hChain] at hPlaced
          obtain hPlaced | hPlaced := List.mem_append.mp hPlaced
          · rw [Ledger.undone, hUndo]
            exact (h.explains.undone placed (List.mem_filter.mp hPlaced).1 hKept).takenBackBy
          · obtain rfl := List.mem_singleton.mp hPlaced
            exact takenBackBy_left h hAllows hUndo
        others := fun number hKept hNone => by
          rw [hChain] at hNone
          have hNe : ghost.number ≠ number := hNone ghost (by simp)
          by_cases hHigh : fork.lastValidBlock < number
          · exact nothing_left h hAllows hUndo hLeaves hHigh (Ne.symm hNe)
          · rw [Ledger.undone, hUndo]
            refine h.explains.others number hKept fun placed hPlaced hEq => ?_
            refine hNone placed (List.mem_append_left _ (List.mem_filter.mpr ⟨hPlaced, ?_⟩)) hEq
            simpa [hEq] using UInt64.not_lt.mp hHigh }
  · rw [tip, after, hAllows.2.1]
    rw [hChain] at hPlaced
    obtain hPlaced | hPlaced := List.mem_append.mp hPlaced
    · exact .inl (hBelow placed hPlaced)
    · obtain rfl := List.mem_singleton.mp hPlaced
      exact .inr ⟨toNat_add_one hAllows.1, rfl⟩

theorem accounts_initial {fits : Placed → List Operation → Prop} (config : Config)
    (contents : Contents) :
    Accounts contents.records fits (.initial config) (.ofContents contents) .empty ∧
      (Course.initial config).Plain .empty where
  left :=
    { explains := History.explains_empty rfl rfl fun _ => rfl
      prompt := History.prompt_empty
      same := .refl _
      reach := fun placed hPlaced => by simp [History.empty] at hPlaced }
  right := ⟨rfl, fun placed hPlaced => by simp [History.empty] at hPlaced⟩

variable {contents : Contents} {events rest : List Event} {l l' : Ledger}

theorem Leaves.exists_accounts
    (h : (Course.initial config).Leaves config (.ofContents contents) events l left)
    (hSteps : (Course.initial config).Steps config (.ofContents contents) events l)
    (hInterval : config.flushInterval = 1) (hOrder : (Course.initial config).InOrder config events)
    (hNothing : LeavesNothing contents.records config events) :
    ∃ g, Accounts contents.records (Placed.TakenBackBy contents.records)
      ((Course.initial config).afterAll config events) left g := by
  have hBack := Placed.fitting_takenBackBy contents.records
  obtain ⟨g, hAccounts, _⟩ :=
    (accounts_initial config contents).1.steps hSteps hBack hInterval hOrder
  by_cases hFork : ∃ front fork, events = front ++ [.undo fork]
  · obtain ⟨front, fork, rfl⟩ := hFork
    obtain ⟨before, hFront, hUndo⟩ := h.undo front fork rfl
    obtain ⟨hFrontOrder, hAllows, _⟩ := inOrder_append_iff.mp hOrder
    obtain ⟨hInitial, hPlain⟩ := accounts_initial config contents
    obtain ⟨k, hBefore, hSelf⟩ := hInitial.steps hFront
      (Placed.fitting_inverts contents.records) hInterval hFrontOrder
    obtain rfl := (hSelf hPlain).self
    have hRecords := h.records.trans hAccounts.records
    rw [afterAll_append] at hRecords ⊢
    exact exists_accounts_left hBefore hAllows hRecords h.upcoming hUndo (hNothing front fork rfl)
  · rw [h.whole fun front fork hEq => hFork ⟨front, fork, hEq⟩]
    exact ⟨g, hAccounts⟩

/-- The next block carries out an operation, a higher one does nothing, and the fork between the two
replays what was left of the blocks above. -/
def revealing (fork : Fork) (finalized higher : UInt64) (op : Operation) : List Event :=
  [.data ⟨fork.lastValidBlock + 1, finalized, [op], .blank (fork.lastValidBlock + 1)⟩,
    .data ⟨higher, finalized, [], .blank higher⟩,
    .undo ⟨fork.lastValidBlock + 1, .blank (fork.lastValidBlock + 1)⟩]

variable {higher : UInt64} {op : Operation}

theorem after_next (hInterval : config.flushInterval = 1) (hAllows : c.Allows config (.undo fork))
    (block : Block) (hNumber : block.number = fork.lastValidBlock + 1) :
    ¬ (c.after config (.undo fork)).progress.PassesOver config block ∧
      (c.after config (.undo fork)).after config (.data block) =
        ⟨⟨true, block.finalizedHeight,
          ((c.progress.history.fork fork.lastValidBlock).place block.number
            block.operations).flush⟩,
          block.cursor⟩ := by
  have hApplied : ¬ (c.after config (.undo fork)).progress.PassesOver config block := by
    rintro ⟨_, hLow⟩
    have hFloor := hAllows.2.2.2
    rw [hNumber, UInt64.lt_iff_toNat_lt, toNat_add_one hAllows.1] at hLow
    omega
  refine ⟨hApplied, ?_⟩
  rw [after_of_applied hApplied, hInterval, place_one]
  rfl

theorem after_begun (hInterval : config.flushInterval = 1) (hBegun : c.progress.begun = true)
    (block : Block) :
    ¬ c.progress.PassesOver config block ∧
      c.after config (.data block) =
        ⟨⟨true, block.finalizedHeight,
          (c.progress.history.place block.number block.operations).flush⟩, block.cursor⟩ := by
  have hApplied : ¬ c.progress.PassesOver config block := fun hPasses =>
    absurd (hBegun.symm.trans hPasses.1) (by decide)
  refine ⟨hApplied, ?_⟩
  rw [after_of_applied hApplied, hInterval, place_one]

theorem inOrder_revealing (hInterval : config.flushInterval = 1)
    (hAllows : c.Allows config (.undo fork)) (hHigher : fork.lastValidBlock + 1 < higher)
    (hOp : op.Recordable) :
    (c.after config (.undo fork)).InOrder config
      (revealing fork c.progress.finalized higher op) := by
  obtain ⟨_, hNumber, hFinalized, hFloor⟩ := id hAllows
  have hNext : fork.lastValidBlock < fork.lastValidBlock + 1 :=
    (above_iff hAllows).mpr (UInt64.le_refl _)
  have hTip : (c.after config (.undo fork)).tip = fork.lastValidBlock := hNumber
  have hOne : Operation.RecordableAll [op] :=
    ⟨show 1 < 2 ^ 64 by decide, fun other hOther => List.mem_singleton.mp hOther ▸ hOp⟩
  have hNone : Operation.RecordableAll [] := ⟨show 0 < 2 ^ 64 by decide, nofun⟩
  refine ⟨.inr ⟨hTip ▸ hNext, rfl, UInt64.le_refl _, hOne⟩, ?_⟩
  rw [(after_next hInterval hAllows _ rfl).2]
  refine ⟨.inr ⟨hHigher, rfl, UInt64.le_refl _, hNone⟩, ?_⟩
  rw [(after_begun hInterval rfl _).2]
  refine ⟨⟨hHigher, rfl, UInt64.le_of_lt (UInt64.lt_of_le_of_lt hFinalized hNext), ?_⟩, trivial⟩
  rw [toNat_add_one hAllows.1]
  omega

theorem operations_revealing (hInterval : config.flushInterval = 1)
    (hAllows : c.Allows config (.undo fork)) :
    ((c.after config (.undo fork)).afterAll config
        (revealing fork c.progress.finalized higher op)).progress.history.operations =
      Placed.allOperations (c.progress.history.upTo fork.lastValidBlock) ++ [op] := by
  have hNext : fork.lastValidBlock ≤ fork.lastValidBlock + 1 :=
    UInt64.le_of_lt ((above_iff hAllows).mpr (UInt64.le_refl _))
  rw [revealing, afterAll, List.foldl_cons, List.foldl_cons, List.foldl_cons, List.foldl_nil,
    (after_next hInterval hAllows _ rfl).2, (after_begun hInterval rfl _).2]
  change Placed.allOperations (History.upTo _ _) = _
  rw [History.allOperations_upTo_place, History.allOperations_upTo_place, History.upTo_fork,
    if_pos hNext, if_pos (UInt64.le_refl _), ite_self, List.append_nil]

theorem Steps.records_revealing (hInterval : config.flushInterval = 1)
    (hAllows : c.Allows config (.undo fork)) {l : Ledger}
    (hSteps : (c.after config (.undo fork)).Steps config left
      (revealing fork c.progress.finalized higher op) l) :
    ∃ (records : Records) (blocks : List UInt64),
      l.records = records.afterAll (blocks.flatMap (left.overwritten higher)) ∧
      Covers (left.overwritten higher) (fork.lastValidBlock + 1) blocks := by
  have hFinalized : c.progress.finalized ≤ fork.lastValidBlock + 1 :=
    UInt64.le_trans hAllows.2.2.1
      (UInt64.le_of_lt ((above_iff hAllows).mpr (UInt64.le_refl _)))
  obtain _ | ⟨hFirst, hSteps⟩ := hSteps
  obtain _ | ⟨hSecond, hSteps⟩ := hSteps
  obtain _ | ⟨hThird, hSteps⟩ := hSteps
  cases hSteps
  obtain ⟨hApplied, hAfter⟩ := after_next hInterval hAllows
    ⟨fork.lastValidBlock + 1, c.progress.finalized, [op], .blank (fork.lastValidBlock + 1)⟩ rfl
  obtain ⟨last, hLast, rfl⟩ := hFirst.of_applied hApplied
  rw [hAfter] at hSecond
  obtain ⟨again, hAgain, rfl⟩ := hSecond.of_applied (after_begun hInterval rfl _).1
  let recorded := (left.block last config.flushInterval
    ⟨fork.lastValidBlock + 1, c.progress.finalized, [op], .blank (fork.lastValidBlock + 1)⟩).block
      again config.flushInterval ⟨higher, c.progress.finalized, [], .blank higher⟩
  have hUndone : ∀ number, fork.lastValidBlock + 1 < number →
      recorded.undone number = left.overwritten higher number := by
    intro number hAbove
    have hHigh := UInt64.lt_of_le_of_lt hFinalized hAbove
    exact left.undone_block_block config.flushInterval rfl (UInt64.ne_of_lt hAbove).symm
      (fun height hHeight => UInt64.lt_of_le_of_lt (hLast height hHeight) hHigh)
      fun height hHeight => UInt64.lt_of_le_of_lt (hAgain height hHeight) hHigh
  cases hThird with
  | @fork _ blocks hBlocks =>
    have hBatches : blocks.flatMap recorded.undone = blocks.flatMap (left.overwritten higher) :=
      List.flatMap_congr fun number hNumber => hUndone number (hBlocks.above number hNumber)
    refine ⟨recorded.upcoming, blocks, ?_,
      hBlocks.congr fun number hAbove => (hUndone number hAbove).symm⟩
    rw [← hBatches]
    rfl

theorem exists_revealing (hInterval : config.flushInterval = 1)
    (h : Accounts initial (Placed.Inverts initial) c before c.progress.history)
    (hPlain : c.Plain c.progress.history) (hTip : c.tip.toNat + 1 < UInt64.size)
    (hRecordable : ∀ placed ∈ c.progress.history.chain, ∀ op ∈ placed.operations, op.Recordable)
    (hAllows : c.Allows config (.undo fork)) (hUndo : left.undo = before.undo) {placed : Placed}
    (hPlaced : placed ∈ c.progress.history.above fork.lastValidBlock)
    (hNumber : placed.number ≠ fork.lastValidBlock + 1) {key : String}
    (hLeft : ¬ (initial.afterAll placed.written).Spares placed.operations key) :
    ∃ rest, (c.after config (.undo fork)).InOrder config rest ∧
      ∀ l, (c.after config (.undo fork)).Steps config left rest l →
        l.records ≠ initial.afterAll
          ((c.after config (.undo fork)).afterAll config rest).progress.history.operations := by
  have hHigh : fork.lastValidBlock + 1 < placed.number := by
    have hAbove : fork.lastValidBlock < placed.number := by
      simpa using (List.mem_filter.mp hPlaced).2
    exact UInt64.lt_of_le_of_ne ((above_iff hAllows).mp hAbove) (Ne.symm hNumber)
  have hKept : ∀ number, fork.lastValidBlock + 1 < number → c.progress.finalized < number := by
    intro number hNumber
    refine UInt64.lt_of_le_of_lt hAllows.2.2.1 ((above_iff hAllows).mpr (UInt64.le_of_lt hNumber))
  have hSame (number : UInt64) : left.undone number = before.undone number := by
    rw [Ledger.undone, hUndo, Ledger.undone]
  -- The higher block is another one than the one that is brought to light.
  let higher := placed.number + 1
  have hNext : placed.number < higher := by
    have hBelow := UInt64.le_iff_toNat_le.mp (hPlain.behind placed (List.mem_filter.mp hPlaced).1)
    exact lt_add_one (by omega)
  have hHigher : fork.lastValidBlock + 1 < higher := UInt64.lt_trans hHigh hNext
  have hInverts : ∀ other ∈ c.progress.history.above (fork.lastValidBlock + 1),
      left.overwritten higher other.number = [] ∨
        Placed.Inverts initial other (left.overwritten higher other.number) := by
    intro other hOther
    obtain ⟨hMem, hAbove⟩ := List.mem_filter.mp hOther
    rw [Ledger.overwritten, hSame]
    split
    case isTrue => exact .inl rfl
    case isFalse => exact .inr (h.explains.undone other hMem (hKept _ (by simpa using hAbove)))
  have hSome : ∃ other ∈ c.progress.history.above (fork.lastValidBlock + 1),
      left.overwritten higher other.number ≠ [] := by
    have hMem := (List.mem_filter.mp hPlaced).1
    obtain ⟨hKinds, hInverse⟩ := h.explains.undone placed hMem (hKept _ hHigh)
    refine ⟨placed, List.mem_filter.mpr ⟨hMem, by simpa using hHigh⟩, ?_⟩
    rw [Ledger.overwritten, hSame, if_neg (UInt64.ne_of_lt hNext), hInverse, Ne,
      Records.inverse_eq_nil_iff hKinds]
    exact fun hSpares => hLeft (hSpares key)
  obtain ⟨other, hOther, op, hOp, value, hDecided⟩ := Placed.exists_decided hInverts hSome
  obtain ⟨write, hWrite, hKey, hOutcome⟩ :=
    Placed.exists_other (hRecordable other (List.mem_filter.mp hOther).1 op hOp) value
  refine ⟨_, inOrder_revealing hInterval hAllows hHigher hWrite, fun l hSteps hEq => hOutcome ?_⟩
  obtain ⟨records, blocks, hRecords, hBlocks⟩ := hSteps.records_revealing hInterval hAllows
  have hCovers : Covers (left.overwritten higher) (fork.lastValidBlock + 1)
      ((c.progress.history.above (fork.lastValidBlock + 1)).map Placed.number).reverse :=
    ((h.explains.covers hKept).congr fun number _ => hSame number).overwritten higher
  have hReplayed := congrFun hRecords op.key
  rw [hBlocks.flatMap_eq hCovers] at hReplayed
  calc
    write.outcome = initial.afterAll _ op.key := by
      rw [operations_revealing hInterval hAllows, Records.afterAll_append]
      exact (Records.after_of_valid hWrite.kind hKey).symm
    _ = l.records op.key := (congrFun hEq op.key).symm
    _ = value := hReplayed.trans (hDecided records)

theorem Leaves.exists_revealing
    (h : (Course.initial config).Leaves config (.ofContents contents) events l left)
    (hInterval : config.flushInterval = 1) (hOrder : (Course.initial config).InOrder config events)
    (hTip : (Course.initial config).tip.toNat + 1 < UInt64.size)
    (hBound : ∀ block, .data block ∈ events → block.number.toNat + 1 < UInt64.size)
    (hSome : ¬ LeavesNothing contents.records config events) :
    ∃ rest, ((Course.initial config).afterAll config events).InOrder config rest ∧
      ∀ l', ((Course.initial config).afterAll config events).Steps config left rest l' →
        l'.records ≠ contents.records.afterAll ((Course.initial config).afterAll config
          (events ++ rest)).progress.history.operations := by
  simp only [LeavesNothing, not_forall] at hSome
  obtain ⟨front, fork, rfl, placed, hPlaced, hNumber, key, hLeft⟩ := hSome
  obtain ⟨before, hFront, hUndo⟩ := h.undo front fork rfl
  obtain ⟨hFrontOrder, hAllows, _⟩ := inOrder_append_iff.mp hOrder
  obtain ⟨hInitial, hPlain⟩ := accounts_initial config contents
  obtain ⟨g, hBefore, hSelf⟩ := hInitial.steps hFront
    (Placed.fitting_inverts contents.records) hInterval hFrontOrder
  obtain rfl := (hSelf hPlain).self
  have hFrontTip := tip_lt hFrontOrder hTip fun block hBlock =>
    hBound block (List.mem_append_left _ hBlock)
  have hRecordable := recordable hFrontOrder (by simp [initial, Progress.initial, History.empty])
  obtain ⟨rest, hRest, hDiffers⟩ := Course.exists_revealing hInterval hBefore (hSelf hPlain)
    hFrontTip hRecordable hAllows hUndo hPlaced hNumber hLeft
  rw [afterAll_append]
  refine ⟨rest, hRest, ?_⟩
  rw [afterAll_append, afterAll_append]
  exact hDiffers

end Course

namespace Follower

variable {δ : Type} [Disk δ]

/-- A store is opened in the data directory, and a follower on it is started and runs over
events. -/
def session (config : Config) (events : List Event) (disk : δ) :
    Except Error (Follower (DurableStore δ)) :=
  match DurableStore.mount config.dataDirectory config.maxRetries disk with
  | .error (e, _) => .error e
  | .ok store =>
    match attend events (ofLog (.ofStore store) config) with
    | .ok () f => .ok f
    | .error e _ => .error e

/-- A session ends well, and these are the user records and the cursor that are found then. -/
def EndsWith (config : Config) (events : List Event) (disk : δ) (records : Records)
    (cursor : Cursor) : Prop :=
  ∃ f, session config events disk = .ok f ∧ Store.Holds f.log.store records ∧
    OperationLog.getCursor.run' f.log = some cursor

variable {config : Config} {events rest : List Event}
  {Holds : δ → Option Bytes → Option Bytes → Prop} {disk : δ} {contents : Contents}
  {g : Follower Checkpointed}

theorem session_spec (hDisk : Disk.Serves config.dataDirectory Holds)
    (hKept : DurableStore.KeptBy Holds disk contents)
    (hAttend : attend events (ofLog (.ofStore (Checkpointed.ofContents contents)) config) =
      .ok () g) :
    ∃ f, session config events disk = .ok f ∧
      Alike (DurableStore.Mirrors config.dataDirectory Holds) f g := by
  obtain ⟨store, hMount, hMirrors⟩ := DurableStore.mount_spec hDisk hKept config.maxRetries
  obtain ⟨f, hRun, hAlike⟩ := (simulates_attend (DurableStore.simulation hDisk) events).exists_of_ok
    (alike_ofStore hMirrors config) hAttend
  refine ⟨f, ?_, hAlike⟩
  simp only [session, hMount, hRun]

theorem getCursor_of_alike {σ τ : Type} [Store σ] [Store τ] {R : σ → τ → Prop}
    (h : Store.Simulation R) {f : Follower σ} {g : Follower τ} (hf : Alike R f g) {cursor : Cursor}
    (hGet : OperationLog.getCursor g.log = .ok cursor g.log) :
    OperationLog.getCursor.run' f.log = some cursor := by
  obtain ⟨log, hGet, _⟩ := (OperationLog.simulates_getCursor h).exists_of_ok hf.log hGet
  simp only [EStateM.run', EStateM.run, hGet]

theorem endsWith_iff (hDisk : Disk.Serves config.dataDirectory Holds)
    (hKept : DurableStore.KeptBy Holds disk contents)
    (hAttend : attend events (ofLog (.ofStore (Checkpointed.ofContents contents)) config) =
      .ok () g)
    {c : Course} {l : Ledger} (hAbreast : Abreast config c g l) {found : Cursor}
    (hDecode : Cursor.decode c.cursor.encode = .ok found) {records : Records} {cursor : Cursor} :
    EndsWith config events disk records cursor ↔ l.records = records ∧ found = cursor := by
  obtain ⟨f, hRun, hAlike⟩ := session_spec hDisk hKept hAttend
  have hHolds : Store.Holds f.log.store records ↔ l.records = records := by
    rw [(DurableStore.simulation hDisk).holds_congr hAlike.log.store,
      Store.holds_checkpointed_iff, hAbreast.shows.store.records]
  have hFound : OperationLog.getCursor.run' f.log = some found := by
    apply getCursor_of_alike (DurableStore.simulation hDisk) hAlike
    rw [OperationLog.getCursor_eq_of_some hAbreast.cursor, hDecode]
    rfl
  rw [EndsWith]
  constructor
  · rintro ⟨other, hOther, hRecords, hCursor⟩
    obtain rfl := Except.ok.inj (hRun.symm.trans hOther)
    exact ⟨hHolds.mp hRecords, Option.some.inj (hFound.symm.trans hCursor)⟩
  · rintro ⟨hRecords, rfl⟩
    exact ⟨f, hRun, hHolds.mpr hRecords, hFound⟩

/-- Events are run over in one session, and the rest of the chain in another one on what the first
one left. Both sessions end well, and the cursor in the end is that of one session over all.
Whatever the rest is, the user records are the same too, if and only if the first session did not
end with a fork that took back more than the next block and left something of it. -/
theorem restart_invisible_iff (hDisk : Disk.Serves config.dataDirectory Holds)
    (hKept : DurableStore.KeptBy Holds disk contents) (hUndo : contents.NoUndo)
    (hValues : contents.records.Addressable) (hCursor : contents[Key.cursor]? = none)
    (hInterval : config.flushInterval = 1) (hStart : 0 < config.startBlock)
    (hOrder : (Course.initial config).InOrder config events)
    (hBound : ∀ block, .data block ∈ events → block.number.toNat + 1 < UInt64.size) :
    ∃ f, session config events disk = .ok f ∧
      ((∀ data after, Disk.read (DurableStore.snapshotPath config.dataDirectory) f.log.store.disk =
          .ok data after → data.length < Wire.lengthLimit) →
        (∀ rest, ((Course.initial config).afterAll config events).InOrder config rest →
          ∃ whole again cursor, EndsWith config (events ++ rest) disk whole cursor ∧
            EndsWith config rest f.log.store.disk again cursor) ∧
        ((∀ rest, ((Course.initial config).afterAll config events).InOrder config rest →
            ∃ records cursor, EndsWith config (events ++ rest) disk records cursor ∧
              EndsWith config rest f.log.store.disk records cursor) ↔
          Course.LeavesNothing contents.records config events)) := by
  obtain ⟨g, l, left, hAttend, hAbreast, hSteps, hDurable, hLeaves⟩ :=
    attend_fresh hUndo hValues hCursor hInterval hStart hOrder
  obtain ⟨f, hRun, hAlike⟩ := session_spec hDisk hKept hAttend
  refine ⟨f, hRun, fun hShort => ?_⟩
  have hAgain := hAlike.log.store.keptBy hDisk hShort
  have hEnds : ∀ rest, ((Course.initial config).afterAll config events).InOrder config rest →
      ∃ l' found, (∀ records cursor, EndsWith config (events ++ rest) disk records cursor ↔
          contents.records.afterAll ((Course.initial config).afterAll config
            (events ++ rest)).progress.history.operations = records ∧ found = cursor) ∧
        (∀ records cursor, EndsWith config rest f.log.store.disk records cursor ↔
          l'.records = records ∧ found = cursor) ∧
        ((Course.initial config).afterAll config events).Steps config left rest l' := by
    intro rest hRest
    have hAll := Course.inOrder_append_iff.mpr ⟨hOrder, hRest⟩
    obtain ⟨g₂, l₂, _, hAttend₂, hAbreast₂, hSteps₂, _⟩ :=
      attend_fresh hUndo hValues hCursor hInterval hStart hAll
    obtain ⟨g₃, l₃, hAttend₃, hAbreast₃, hSteps₃⟩ := attend_again hDurable hLeaves.upcoming
      (Course.tip_lt hOrder (tip_initial_lt hStart) hBound)
      (fun hNot => (hAbreast.waiting hNot).2.1) hInterval hStart hRest
    obtain ⟨_, hAccounts, _⟩ := (Course.accounts_initial config contents).1.steps hSteps₂
      (Placed.fitting_inverts contents.records) hInterval hAll
    rw [← Course.afterAll_append] at hAbreast₃
    obtain ⟨found, hDecode, _⟩ := Cursor.decode_encode
      ((Course.initial config).afterAll config (events ++ rest)).cursor
    rw [← hAccounts.records]
    exact ⟨l₃, found, fun _ _ => endsWith_iff hDisk hKept hAttend₂ hAbreast₂ hDecode,
      fun _ _ => endsWith_iff hDisk hAgain hAttend₃ hAbreast₃ hDecode, hSteps₃⟩
  refine ⟨fun rest hRest => ?_, fun hSame => ?_, fun hNothing rest hRest => ?_⟩
  · obtain ⟨l', found, hWhole, hRestarted, _⟩ := hEnds rest hRest
    exact ⟨_, _, found, (hWhole _ _).mpr ⟨rfl, rfl⟩, (hRestarted _ _).mpr ⟨rfl, rfl⟩⟩
  · by_contra hSome
    obtain ⟨rest, hRest, hDiffers⟩ := hLeaves.exists_revealing hInterval hOrder
      (tip_initial_lt hStart) hBound hSome
    obtain ⟨l', found, hWhole, hRestarted, hSteps'⟩ := hEnds rest hRest
    obtain ⟨records, cursor, hFirst, hSecond⟩ := hSame rest hRest
    apply hDiffers l' hSteps'
    rw [((hRestarted _ _).mp hSecond).1, ((hWhole _ _).mp hFirst).1]
  · obtain ⟨k, hAccounts⟩ := hLeaves.exists_accounts hSteps hInterval hOrder hNothing
    obtain ⟨l', found, hWhole, hRestarted, hSteps'⟩ := hEnds rest hRest
    obtain ⟨_, hAccounts', _⟩ := hAccounts.steps hSteps'
      (Placed.fitting_takenBackBy contents.records) hInterval hRest
    rw [← Course.afterAll_append] at hAccounts'
    exact ⟨_, found, (hWhole _ _).mpr ⟨rfl, rfl⟩, (hRestarted _ _).mpr ⟨hAccounts'.records, rfl⟩⟩

def promptConfig : Config := { dataDirectory := "data", flushInterval := 1, startBlock := 1 }

/-- The last fork takes back the next block alone. -/
def shortFork : List Event :=
  [.data ⟨1, 0, [.assign "c" [0x31]], .blank 1⟩, .data ⟨2, 0, [.assign "c" [0x32]], .blank 2⟩,
    .undo ⟨1, .blank 1⟩]

theorem restart_invisible_after_short_fork :
    ∃ f, session promptConfig shortFork FileTree.withData = .ok f ∧
      ∀ rest,
        ((Course.initial promptConfig).afterAll promptConfig shortFork).InOrder promptConfig rest →
          ∃ records cursor,
            EndsWith promptConfig (shortFork ++ rest) FileTree.withData records cursor ∧
              EndsWith promptConfig rest f.log.store.disk records cursor := by
  have hOrder : (Course.initial promptConfig).InOrder promptConfig shortFork :=
    ⟨.inr ⟨by decide, rfl, by decide, by decide +kernel⟩,
      .inr ⟨by decide, rfl, by decide, by decide +kernel⟩,
      ⟨by decide, rfl, by decide, by decide⟩, trivial⟩
  have hBound : ∀ block, .data block ∈ shortFork → block.number.toNat + 1 < UInt64.size := by
    intro block hBlock
    simp only [shortFork, List.mem_cons, Event.data.injEq, List.not_mem_nil, or_false,
      reduceCtorEq] at hBlock
    obtain rfl | rfl := hBlock <;> decide
  obtain ⟨f, hRun, hRest⟩ := restart_invisible_iff FileTree.HoldsData.serves
    FileTree.HoldsData.keptBy_withData
    Contents.noUndo_empty Contents.addressable_empty (by simp) rfl (by decide) hOrder hBound
  refine ⟨f, hRun, (hRest ?_).2.mpr ?_⟩
  · exact DurableStore.length_of_result hRun "data" (fun f => f.log.store.disk) (by decide +kernel)
  · intro front fork hEvents placed hPlaced hNumber
    have hSplit : [.data ⟨1, 0, [.assign "c" [0x31]], .blank 1⟩,
        .data ⟨2, 0, [.assign "c" [0x32]], .blank 2⟩] ++ [.undo ⟨1, .blank 1⟩] =
          front ++ [Event.undo fork] := hEvents
    obtain ⟨rfl, hFork⟩ := List.append_inj' hSplit rfl
    obtain rfl : fork = ⟨1, .blank 1⟩ := by simpa using hFork.symm
    have hAbove : ((Course.initial promptConfig).afterAll promptConfig
        [.data ⟨1, 0, [.assign "c" [0x31]], .blank 1⟩,
          .data ⟨2, 0, [.assign "c" [0x32]], .blank 2⟩]).progress.history.above 1 =
        [⟨2, [.assign "c" [0x32]], [.assign "c" [0x31]]⟩] := by decide +kernel
    rw [hAbove] at hPlaced
    obtain rfl := List.mem_singleton.mp hPlaced
    exact absurd rfl hNumber

/-- The last fork takes back a block above the next one, which has changed a key. -/
def longFork : List Event :=
  [.data ⟨1, 0, [], .blank 1⟩, .data ⟨2, 0, [.assign "c" [0x31]], .blank 2⟩,
    .data ⟨3, 0, [.assign "c" [0x32]], .blank 3⟩, .undo ⟨1, .blank 1⟩]

def nextBranch : List Event := [.data ⟨2, 0, [.assign "d" [0x33]], .blank 2⟩, .undo ⟨1, .blank 1⟩]

def valueAfter (config : Config) (contents : Contents) (events : List Event) (key : String) :
    Option (Option Bytes) :=
  match attend events (ofLog (.ofStore (Checkpointed.ofContents contents)) config) with
  | .ok _ g => some (g.log.store.current.records key)
  | .error _ _ => none

theorem EndsWith.records_eq {records : Records} {cursor : Cursor} {key : String}
    {value : Option Bytes} (h : EndsWith config events disk records cursor)
    (hDisk : Disk.Serves config.dataDirectory Holds)
    (hKept : DurableStore.KeptBy Holds disk contents)
    (hValue : valueAfter config contents events key = some value) : records key = value := by
  rw [valueAfter] at hValue
  split at hValue
  case h_2 => cases hValue
  case h_1 _ g hAttend =>
    obtain ⟨f, hRun, hRecords, _⟩ := h
    obtain ⟨other, hOther, hAlike⟩ := session_spec hDisk hKept hAttend
    obtain rfl := Except.ok.inj (hRun.symm.trans hOther)
    rw [(DurableStore.simulation hDisk).holds_congr hAlike.log.store,
      Store.holds_checkpointed_iff] at hRecords
    rw [← hRecords]
    exact Option.some.inj hValue

/-- A restart after a long fork is not invisible: the key comes back. -/
theorem restart_visible_after_long_fork :
    (Course.initial promptConfig).InOrder promptConfig (longFork ++ nextBranch) ∧
      ∃ f, session promptConfig longFork FileTree.withData = .ok f ∧
        ¬ ∃ records cursor,
          EndsWith promptConfig (longFork ++ nextBranch) FileTree.withData records cursor ∧
            EndsWith promptConfig nextBranch f.log.store.disk records cursor := by
  have hDisk : Disk.Serves promptConfig.dataDirectory FileTree.HoldsData :=
    FileTree.HoldsData.serves
  have hWhole : valueAfter promptConfig ∅ (longFork ++ nextBranch) "c" = some none := by
    decide +kernel
  have hAgain : (match
      attend longFork (ofLog (.ofStore (Checkpointed.ofContents ∅)) promptConfig) with
    | .ok _ g => valueAfter promptConfig g.log.store.saved nextBranch "c"
    | .error _ _ => none) = some (some [0x31]) := by decide +kernel
  constructor
  · refine ⟨.inr ⟨by decide, rfl, by decide, by decide +kernel⟩,
      .inr ⟨by decide, rfl, by decide, by decide +kernel⟩,
      .inr ⟨by decide, rfl, by decide, by decide +kernel⟩,
      ⟨by decide, rfl, by decide, by decide⟩,
      .inr ⟨by decide, rfl, by decide, by decide +kernel⟩,
      ⟨by decide, rfl, by decide, by decide⟩, trivial⟩
  · split at hAgain
    case h_2 => cases hAgain
    case h_1 _ g hAttend =>
      obtain ⟨f, hRun, hAlike⟩ := session_spec hDisk FileTree.HoldsData.keptBy_withData hAttend
      refine ⟨f, hRun, ?_⟩
      rintro ⟨records, cursor, hFirst, hSecond⟩
      have hGone := hFirst.records_eq hDisk FileTree.HoldsData.keptBy_withData hWhole
      have hShort := DurableStore.length_of_result hRun "data" (fun f => f.log.store.disk)
        (by decide +kernel)
      have hBack := hSecond.records_eq hDisk (hAlike.log.store.keptBy hDisk hShort) hAgain
      rw [hGone] at hBack
      cases hBack

end Follower

end ForkLog
