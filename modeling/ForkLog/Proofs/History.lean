import Mathlib
import ForkLog.Proofs.Ledger
import ForkLog.Proofs.Unwind

/-! # Histories

A history is what is known of a chain apart from any store: the blocks that survive, each with what
had been written when it was recorded, and what is written now. It explains a ledger if the ledger
is what comes of the surviving blocks.
-/

namespace ForkLog

set_option autoImplicit false

structure History where
  /-- The surviving blocks, the oldest first. -/
  chain : List Placed
  /-- The operations that are written. -/
  written : List Operation

namespace History

def empty : History := ⟨[], []⟩

def operations (h : History) : List Operation := Placed.allOperations h.chain

/-- The blocks at or below a height. -/
def upTo (h : History) (height : UInt64) : List Placed :=
  h.chain.filter fun c => c.number ≤ height

def above (h : History) (height : UInt64) : List Placed :=
  h.chain.filter fun c => height < c.number

def place (h : History) (block : UInt64) (ops : List Operation) : History :=
  { h with chain := h.chain ++ [⟨block, ops, h.written⟩] }

def flush (h : History) : History := { h with written := h.operations }

def fork (h : History) (height : UInt64) : History :=
  ⟨h.upTo height, Placed.allOperations (h.upTo height)⟩

/-- Blocks come in ascending order, and the later a block was recorded the more was written, though
never anything that came after the block. -/
structure InStep (h : History) : Prop where
  increasing : h.chain.Pairwise fun c d => c.number < d.number
  layered : h.chain.Pairwise fun c d => c.written <+: d.written
  base : ∀ front c rest, h.chain = front ++ c :: rest → c.written <+: Placed.allOperations front
  behind : ∀ c ∈ h.chain, c.written <+: h.written
  written : h.written <+: h.operations

theorem inStep_empty : empty.InStep where
  increasing := .nil
  layered := .nil
  base front c rest h := by simp [empty] at h
  behind c hc := by simp [empty] at hc
  written := List.prefix_rfl

variable {h : History}

theorem filter_append_filter {chain : List Placed}
    (hChain : chain.Pairwise fun c d => c.number < d.number) (height : UInt64) :
    (chain.filter fun c => c.number ≤ height) ++ (chain.filter fun c => height < c.number) =
      chain := by
  induction chain with
  | nil => rfl
  | cons c chain ih =>
    obtain ⟨hFirst, hRest⟩ := List.pairwise_cons.mp hChain
    by_cases hc : c.number ≤ height
    · rw [List.filter_cons_of_pos (by simpa using hc), List.filter_cons_of_neg (by simpa using hc),
        List.cons_append, ih hRest]
    · rw [UInt64.not_le] at hc
      have hNone : (chain.filter fun d => d.number ≤ height) = [] := by
        rw [List.filter_eq_nil_iff]
        intro d hd
        simpa using UInt64.lt_trans hc (hFirst d hd)
      have hAll := ih hRest
      rw [hNone, List.nil_append] at hAll
      rw [List.filter_cons_of_neg (by simpa using hc), List.filter_cons_of_pos (by simpa using hc),
        hNone, List.nil_append, hAll]

theorem InStep.upTo_append_above (hStep : h.InStep) (height : UInt64) :
    h.upTo height ++ h.above height = h.chain :=
  filter_append_filter hStep.increasing height

theorem InStep.place (hStep : h.InStep) {block : UInt64} (hBlock : ∀ c ∈ h.chain, c.number < block)
    (ops : List Operation) : (h.place block ops).InStep where
  increasing := by
    rw [History.place, List.pairwise_append]
    refine ⟨hStep.increasing, List.pairwise_singleton _ _, ?_⟩
    intro c hc d hd
    obtain rfl := List.mem_singleton.mp hd
    exact hBlock c hc
  layered := by
    rw [History.place, List.pairwise_append]
    refine ⟨hStep.layered, List.pairwise_singleton _ _, ?_⟩
    intro c hc d hd
    obtain rfl := List.mem_singleton.mp hd
    exact hStep.behind c hc
  base front c rest hChain := by
    obtain ⟨tail, hFront, hRest⟩ | ⟨tail, hFront, hRest⟩ := List.append_eq_append_iff.mp hChain
    · cases tail with
      | nil =>
        obtain ⟨rfl, rfl⟩ := List.cons.inj hRest
        rw [hFront, List.append_nil]
        exact hStep.written
      | cons d tail => simp at hRest
    · cases tail with
      | nil =>
        obtain ⟨rfl, rfl⟩ := List.cons.inj hRest.symm
        rw [List.append_nil] at hFront
        rw [← hFront]
        exact hStep.written
      | cons d tail =>
        obtain ⟨rfl, rfl⟩ := List.cons.inj hRest
        exact hStep.base front c tail hFront
  behind c hc := by
    obtain hc | hc := List.mem_append.mp hc
    · exact hStep.behind c hc
    · obtain rfl := List.mem_singleton.mp hc
      exact List.prefix_rfl
  written := by
    rw [operations, History.place, Placed.allOperations_append]
    exact hStep.written.trans (List.prefix_append _ _)

theorem InStep.flush (hStep : h.InStep) : h.flush.InStep :=
  { hStep with
    behind := fun c hc => (hStep.behind c hc).trans hStep.written
    written := List.prefix_rfl }

theorem InStep.fork (hStep : h.InStep) (height : UInt64) : (h.fork height).InStep where
  increasing := hStep.increasing.filter _
  layered := hStep.layered.filter _
  base front c rest hChain := by
    refine hStep.base front c (rest ++ h.above height) ?_
    rw [← hStep.upTo_append_above height, ← List.cons_append, ← List.append_assoc]
    exact congrArg (· ++ h.above height) hChain
  behind c hc := by
    obtain ⟨front, rest, hChain⟩ := List.append_of_mem hc
    have hBase := hStep.base front c (rest ++ h.above height) (by
      rw [← hStep.upTo_append_above height, ← List.cons_append, ← List.append_assoc]
      exact congrArg (· ++ h.above height) hChain)
    have hAll : (h.fork height).written =
        Placed.allOperations front ++ Placed.allOperations (c :: rest) := by
      rw [← Placed.allOperations_append, ← hChain]
      rfl
    rw [hAll]
    exact hBase.trans (List.prefix_append _ _)
  written := List.prefix_rfl

/-- What is to be taken back was recorded in turn on top of what stays. -/
theorem InStep.grounded (hStep : h.InStep) (front : List Placed) {rest : List Placed}
    {done : List Operation} (hChain : h.chain = front ++ rest)
    (hDone : ∀ c ∈ rest, done <+: c.written) :
    Placed.Grounded done (Placed.allOperations front) rest := by
  apply Placed.grounded_of_layered _ hDone
  rintro middle c tail rfl
  rw [← Placed.allOperations_append]
  exact hStep.base (front ++ middle) c tail (by rw [hChain, List.append_assoc])

/-- The ledger comes of the surviving blocks, and nothing else is in its undo log: the blocks that
may still be taken back have what `fits` them, and to the others that may be there is nothing. -/
structure Explains (h : History) (initial : Records) (kept : UInt64 → Prop)
    (fits : Placed → List Operation → Prop) (l : Ledger) : Prop where
  inStep : h.InStep
  records : l.records = initial.afterAll h.written
  upcoming : l.upcoming = initial.afterAll h.operations
  undone : ∀ c ∈ h.chain, kept c.number → fits c (l.undone c.number)
  others : ∀ block, kept block → (∀ c ∈ h.chain, c.number ≠ block) → l.undone block = []

variable {initial : Records} {kept : UInt64 → Prop} {fits : Placed → List Operation → Prop}
  {l : Ledger}

theorem explains_empty (hRecords : l.records = initial) (hUpcoming : l.upcoming = initial)
    (hUndone : ∀ block, l.undone block = []) : empty.Explains initial kept fits l where
  inStep := inStep_empty
  records := hRecords
  upcoming := hUpcoming
  undone c hc := by simp [empty] at hc
  others block _ _ := hUndone block

theorem Explains.mono (hExplains : h.Explains initial kept fits l) {fewer : UInt64 → Prop}
    (hFewer : ∀ block, fewer block → kept block) : h.Explains initial fewer fits l :=
  { hExplains with
    undone := fun c hc hKept => hExplains.undone c hc (hFewer _ hKept)
    others := fun block hKept => hExplains.others block (hFewer _ hKept) }

/-- A block that is recorded. What was recorded under its number before makes no difference. -/
theorem Explains.block {block : UInt64}
    (hExplains : h.Explains initial (fun number => kept number ∧ number ≠ block) fits l)
    {ops : List Operation} (hBlock : ∀ c ∈ h.chain, c.number < block)
    (hFits : fits ⟨block, ops, h.written⟩ ((initial.afterAll h.written).inverse ops)) :
    (h.place block ops).Explains initial kept fits ((l.record block ops).add ops) where
  inStep := hExplains.inStep.place hBlock ops
  records := hExplains.records
  upcoming := by
    simp [Ledger.add, Ledger.record, operations, place, Records.afterAll_append,
      hExplains.upcoming]
  undone c hc hKept := by
    obtain hc | hc := List.mem_append.mp hc
    · have hNe := UInt64.ne_of_lt (hBlock c hc)
      rw [Ledger.undone_add, Ledger.undone_record_of_ne _ _ hNe]
      exact hExplains.undone c hc ⟨hKept, hNe⟩
    · obtain rfl := List.mem_singleton.mp hc
      rw [Ledger.undone_add, Ledger.undone_record_self, hExplains.records]
      exact hFits
  others other hKept hNone := by
    have hNe := hNone ⟨block, ops, h.written⟩ (List.mem_append_right _ List.mem_cons_self)
    rw [Ledger.undone_add, Ledger.undone_record_of_ne _ _ (Ne.symm hNe)]
    exact hExplains.others other ⟨hKept, Ne.symm hNe⟩ fun c hc =>
      hNone c (List.mem_append_left _ hc)

theorem Explains.flush (hExplains : h.Explains initial kept fits l) :
    h.flush.Explains initial kept fits l.flush :=
  { hExplains with
    inStep := hExplains.inStep.flush
    records := hExplains.upcoming }

theorem Explains.purge (hExplains : h.Explains initial kept fits l) (height : UInt64) :
    h.Explains initial (fun block => kept block ∧ height < block) fits (l.purge height) where
  inStep := hExplains.inStep
  records := hExplains.records
  upcoming := hExplains.upcoming
  undone c hc hKept := by
    rw [Ledger.undone_purge, if_neg (UInt64.not_le.mpr hKept.2)]
    exact hExplains.undone c hc hKept.1
  others block hKept hNone := by
    rw [Ledger.undone_purge, if_neg (UInt64.not_le.mpr hKept.2)]
    exact hExplains.others block hKept.1 hNone

theorem Explains.covers (hExplains : h.Explains initial kept fits l) {height : UInt64}
    (hKept : ∀ block, height < block → kept block) :
    Covers l.undone height ((h.above height).map Placed.number).reverse where
  descending := by
    rw [List.pairwise_reverse, List.pairwise_map]
    exact hExplains.inStep.increasing.filter _
  above block hBlock := by
    obtain ⟨c, hc, rfl⟩ := List.mem_map.mp (List.mem_reverse.mp hBlock)
    simpa using (List.mem_filter.mp hc).2
  complete block hAbove hSome := by
    by_contra hNot
    apply hSome
    apply hExplains.others block (hKept block hAbove)
    rintro c hc rfl
    refine hNot (List.mem_reverse.mpr (List.mem_map_of_mem ?_))
    exact List.mem_filter.mpr ⟨hc, by simpa using hAbove⟩

theorem Explains.replay (hExplains : h.Explains initial kept fits l) {height : UInt64}
    (hKept : ∀ block, height < block → kept block) {blocks : List UInt64}
    (hBlocks : Covers l.undone height blocks) :
    l.upcoming.afterAll (blocks.flatMap l.undone) =
      (initial.afterAll (Placed.allOperations (h.upTo height) ++
        Placed.allOperations (h.above height))).afterAll
        (Placed.unwinding l.undone (h.above height)) := by
  rw [hBlocks.flatMap_eq (hExplains.covers hKept), hExplains.upcoming, operations,
    ← Placed.allOperations_append, hExplains.inStep.upTo_append_above, Placed.unwinding]

theorem Explains.fork (hExplains : h.Explains initial kept fits l) {height : UInt64}
    {ops : List Operation}
    (hExact : l.upcoming.afterAll ops = initial.afterAll (Placed.allOperations (h.upTo height))) :
    (h.fork height).Explains initial kept fits ((l.add ops).flush.discard height) where
  inStep := hExplains.inStep.fork height
  records := hExact
  upcoming := hExact
  undone c hc hKept := by
    obtain ⟨hc, hLow⟩ := List.mem_filter.mp hc
    have hUndo := hExplains.undone c hc hKept
    rwa [Ledger.undone_discard, if_neg (UInt64.not_lt.mpr (by simpa using hLow))]
  others block hKept hNone := by
    by_cases hAbove : height < block
    · rw [Ledger.undone_discard, if_pos hAbove]
    · rw [Ledger.undone_discard, if_neg hAbove]
      apply hExplains.others block hKept
      rintro c hc rfl
      refine hNone c (List.mem_filter.mpr ⟨hc, ?_⟩) rfl
      simpa using UInt64.not_lt.mp hAbove

/-- A fork is exact if the first block above its height was recorded when all below was written. -/
theorem Explains.replay_exact (hExplains : h.Explains initial kept fits l) {height : UInt64}
    (hKept : ∀ block, height < block → kept block)
    (hFits : ∀ c undo, fits c undo → c.TakenBackBy initial undo)
    (hFirst : ∀ c, (h.above height).head? = some c →
      c.written = Placed.allOperations (h.upTo height))
    {blocks : List UInt64} (hBlocks : Covers l.undone height blocks) :
    l.upcoming.afterAll (blocks.flatMap l.undone) =
      initial.afterAll (Placed.allOperations (h.upTo height)) := by
  rw [hExplains.replay hKept hBlocks]
  have hSplit := hExplains.inStep.upTo_append_above height
  apply Placed.afterAll_unwinding
  · apply hExplains.inStep.grounded _ hSplit.symm
    intro c hc
    have hLayered := hExplains.inStep.layered
    rw [← hSplit, List.pairwise_append] at hLayered
    generalize hAbove : h.above height = rest at hc hLayered hFirst
    cases rest with
    | nil => cases hc
    | cons d rest =>
      rw [← hFirst d rfl]
      obtain rfl | hc := List.mem_cons.mp hc
      · exact List.prefix_rfl
      · exact (List.pairwise_cons.mp hLayered.2.1).1 c hc
  · intro c hc
    have hMem := List.mem_filter.mp hc
    exact hFits c _ (hExplains.undone c hMem.1 (hKept _ (by simpa using hMem.2)))

end History

end ForkLog
