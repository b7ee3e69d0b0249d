import Mathlib
import ForkLog.Proofs.Follower.Progress

/-! # The course of a chain that is flushed at every block

Where every block is flushed at once, each was recorded when all before it was written, so that every
fork is exact. The undo record of a block that was taken back before does no harm where the next
block would stand: it counts as a block without operations.
-/

namespace ForkLog

set_option autoImplicit false

namespace Placed

theorem allOperations_filter {chain : List Placed} {keeps : Placed → Bool}
    (h : ∀ c ∈ chain, keeps c = false → c.operations = []) :
    allOperations (chain.filter keeps) = allOperations chain := by
  induction chain with
  | nil => rfl
  | cons c chain ih =>
    have hRest := ih fun d hd => h d (List.mem_cons_of_mem c hd)
    cases hKeeps : keeps c with
    | true => rw [List.filter_cons_of_pos hKeeps, allOperations_cons, hRest, allOperations_cons]
    | false =>
      rw [List.filter_cons_of_neg (by simp [hKeeps]), hRest, allOperations_cons,
        h c List.mem_cons_self hKeeps, List.nil_append]

end Placed

namespace History

/-- Every block was recorded when all before it was written, and now all is written. -/
structure Prompt (h : History) : Prop where
  blocks : ∀ front c rest, h.chain = front ++ c :: rest →
    c.written = Placed.allOperations front
  written : h.written = h.operations

variable {g h : History}

theorem prompt_empty : empty.Prompt where
  blocks front c rest h := by simp [empty] at h
  written := rfl

theorem Prompt.place (hPrompt : h.Prompt) (block : UInt64) (ops : List Operation) :
    (h.place block ops).flush.Prompt where
  blocks front c rest hChain := by
    obtain rfl | ⟨last, d, rfl⟩ := List.eq_nil_or_concat rest
    · obtain ⟨rfl, hLast⟩ := List.append_inj' hChain rfl
      obtain ⟨rfl, _⟩ := List.cons.inj hLast
      exact hPrompt.written
    · rw [List.concat_eq_append, ← List.cons_append, ← List.append_assoc] at hChain
      exact hPrompt.blocks front c last (List.append_inj' hChain rfl).1
  written := rfl

theorem Prompt.fork (hPrompt : h.Prompt) (hStep : h.InStep) (height : UInt64) :
    (h.fork height).Prompt where
  blocks front c rest hChain := by
    refine hPrompt.blocks front c (rest ++ h.above height) ?_
    rw [← hStep.upTo_append_above height, ← List.cons_append, ← List.append_assoc]
    exact congrArg (· ++ h.above height) hChain
  written := rfl

theorem Prompt.head_above (hPrompt : h.Prompt) (hStep : h.InStep) {height : UInt64} (c : Placed)
    (hFirst : (h.above height).head? = some c) :
    c.written = Placed.allOperations (h.upTo height) := by
  obtain ⟨rest, hAbove⟩ := List.head?_eq_some_iff.mp hFirst
  refine hPrompt.blocks _ c rest ?_
  rw [← hAbove, hStep.upTo_append_above]

/-- The blocks up to any height come to the same operations. -/
def Same (g h : History) : Prop :=
  ∀ height, Placed.allOperations (g.upTo height) = Placed.allOperations (h.upTo height)

theorem Same.refl (h : History) : Same h h := fun _ => rfl

theorem upTo_lastBlock (h : History) : h.upTo Key.lastBlock = h.chain :=
  List.filter_eq_self.mpr fun c _ => by simpa using Key.le_lastBlock c.number

theorem Same.operations (hSame : Same g h) : g.operations = h.operations := by
  have hAll := hSame Key.lastBlock
  rwa [upTo_lastBlock, upTo_lastBlock] at hAll

theorem allOperations_upTo_place (h : History) (block : UInt64) (ops : List Operation)
    (height : UInt64) :
    Placed.allOperations ((h.place block ops).flush.upTo height) =
      Placed.allOperations (h.upTo height) ++ if block ≤ height then ops else [] := by
  simp only [upTo, flush, History.place, List.filter_append, Placed.allOperations_append]
  by_cases hBlock : block ≤ height <;> simp [hBlock]

theorem Same.place (hSame : Same g h) (block : UInt64) (ops : List Operation) :
    Same (g.place block ops).flush (h.place block ops).flush := by
  intro height
  rw [allOperations_upTo_place, allOperations_upTo_place, hSame height]

theorem same_place_nil (h : History) (block : UInt64) : Same (h.place block []).flush h := by
  intro height
  rw [allOperations_upTo_place, ite_self, List.append_nil]

theorem upTo_fork (h : History) (height bound : UInt64) :
    (h.fork height).upTo bound = h.upTo (if height ≤ bound then height else bound) := by
  rw [upTo, fork, upTo, List.filter_filter, upTo]
  congr 1
  funext c
  rw [← Bool.decide_and, decide_eq_decide]
  split
  case isTrue hLow => exact ⟨And.right, fun hc => ⟨UInt64.le_trans hc hLow, hc⟩⟩
  case isFalse hHigh =>
    have hBound := UInt64.le_of_lt (UInt64.not_le.mp hHigh)
    exact ⟨And.left, fun hc => ⟨hc, UInt64.le_trans hc hBound⟩⟩

theorem Same.fork (hSame : Same g h) (height : UInt64) :
    Same (g.fork height) (h.fork height) := by
  intro bound
  rw [upTo_fork, upTo_fork, hSame]

theorem same_fork {height : UInt64} (h : ∀ c ∈ g.above height, c.operations = []) :
    Same (g.fork height) g := by
  intro bound
  rw [fork, upTo, upTo, List.filter_comm]
  apply Placed.allOperations_filter
  intro c hc hDropped
  apply h c (List.mem_filter.mpr ⟨(List.mem_filter.mp hc).1, ?_⟩)
  simpa using hDropped

/-- Where blocks without operations are about to be overwritten they may be forgotten before. -/
theorem Explains.forget {initial : Records} {kept : UInt64 → Prop}
    {fits : Placed → List Operation → Prop} {l : Ledger}
    (hExplains : g.Explains initial kept fits l) (hPrompt : g.Prompt) {height block : UInt64}
    (hAbove : ∀ c ∈ g.above height, c.number = block ∧ c.operations = []) :
    (g.fork height).Explains initial (fun number => kept number ∧ number ≠ block) fits l where
  inStep := hExplains.inStep.fork height
  records := by
    have hSame : Same (g.fork height) g := same_fork fun c hc => (hAbove c hc).2
    rw [hExplains.records, hPrompt.written, ← hSame.operations]
    rfl
  upcoming := by
    have hSame : Same (g.fork height) g := same_fork fun c hc => (hAbove c hc).2
    rw [hExplains.upcoming, hSame.operations]
  undone c hc hKept := hExplains.undone c (List.mem_filter.mp hc).1 hKept.1
  others number hKept hNone := by
    apply hExplains.others number hKept.1
    rintro c hc rfl
    by_cases hLow : c.number ≤ height
    · exact hNone c (List.mem_filter.mpr ⟨hc, by simpa using hLow⟩) rfl
    · have hHigh : c ∈ g.above height :=
        List.mem_filter.mpr ⟨hc, by simpa using UInt64.not_le.mp hLow⟩
      exact hKept.2 (hAbove c hHigh).1

theorem Prompt.fork_eq_self (hPrompt : h.Prompt) {height : UInt64}
    (hBelow : ∀ c ∈ h.chain, c.number ≤ height) : h.fork height = h := by
  have hAll : h.upTo height = h.chain :=
    List.filter_eq_self.mpr fun c hc => by simpa using hBelow c hc
  obtain ⟨chain, written⟩ := h
  obtain rfl : written = Placed.allOperations chain := hPrompt.written
  rw [History.fork, hAll]

end History

/-- The progress of a follower together with its position: the cursor of the last event that was not
passed over. -/
structure Course where
  progress : Progress
  cursor : Cursor

namespace Course

def initial (config : Config) : Course := ⟨.initial, .blank (previousBlock config.startBlock)⟩

def tip (c : Course) : UInt64 := c.cursor.blockNumber

def after (config : Config) (c : Course) : Event → Course
  | .data block =>
    if c.progress.PassesOver config block then c
    else ⟨c.progress.after config (.data block), block.cursor⟩
  | .undo fork => ⟨c.progress.after config (.undo fork), fork.cursor⟩

def afterAll (config : Config) (c : Course) (events : List Event) : Course :=
  events.foldl (after config) c

/-- A block that is not passed over is above the tip and reports no lower height to be final than
before. A fork is below the tip, though neither below what is final nor below the block before the
start block. Each cursor carries the number of its event. -/
def Allows (config : Config) (c : Course) : Event → Prop
  | .data block =>
    c.progress.PassesOver config block ∨
      c.tip < block.number ∧ block.cursor.blockNumber = block.number ∧
        c.progress.finalized ≤ block.finalizedHeight ∧
        Operation.RecordableAll block.operations
  | .undo fork =>
    fork.lastValidBlock < c.tip ∧ fork.cursor.blockNumber = fork.lastValidBlock ∧
      c.progress.finalized ≤ fork.lastValidBlock ∧
      config.startBlock.toNat ≤ fork.lastValidBlock.toNat + 1

def InOrder (config : Config) : Course → List Event → Prop
  | _, [] => True
  | c, event :: events => c.Allows config event ∧ InOrder config (c.after config event) events

variable {config : Config} {c : Course} {first second : List Event}

theorem afterAll_append :
    c.afterAll config (first ++ second) = (c.afterAll config first).afterAll config second :=
  List.foldl_append

theorem inOrder_append_iff :
    c.InOrder config (first ++ second) ↔
      c.InOrder config first ∧ (c.afterAll config first).InOrder config second := by
  induction first generalizing c with
  | nil => simp [InOrder, afterAll]
  | cons event first ih => exact (and_congr_right fun _ => ih).trans and_assoc.symm

theorem tip_lt (hOrder : c.InOrder config first) (hTip : c.tip.toNat + 1 < UInt64.size)
    (hBound : ∀ block, .data block ∈ first → block.number.toNat + 1 < UInt64.size) :
    (c.afterAll config first).tip.toNat + 1 < UInt64.size := by
  induction first generalizing c with
  | nil => exact hTip
  | cons event first ih =>
    obtain ⟨hAllows, hOrder⟩ := hOrder
    refine ih hOrder ?_ fun block hBlock => hBound block (List.mem_cons_of_mem event hBlock)
    cases event with
    | data block =>
      by_cases hPasses : c.progress.PassesOver config block
      · rwa [after, if_pos hPasses]
      · obtain ⟨_, hNumber, _⟩ := hAllows.resolve_left hPasses
        rw [after, if_neg hPasses, tip, hNumber]
        exact hBound block List.mem_cons_self
    | undo fork =>
      obtain ⟨hLow, hNumber, _⟩ := hAllows
      rw [after, tip, hNumber]
      have hNat := UInt64.lt_iff_toNat_lt.mp hLow
      omega

theorem recordable (hOrder : c.InOrder config first)
    (hChain : ∀ placed ∈ c.progress.history.chain, ∀ op ∈ placed.operations, op.Recordable) :
    ∀ placed ∈ (c.afterAll config first).progress.history.chain, ∀ op ∈ placed.operations,
      op.Recordable := by
  induction first generalizing c with
  | nil => exact hChain
  | cons event first ih =>
    obtain ⟨hAllows, hOrder⟩ := hOrder
    refine ih hOrder fun placed hPlaced => ?_
    cases event with
    | data block =>
      by_cases hPasses : c.progress.PassesOver config block
      · rw [after, if_pos hPasses] at hPlaced
        exact hChain placed hPlaced
      · rw [after, if_neg hPasses, Progress.after, if_neg hPasses, Progress.chain_place] at hPlaced
        obtain hPlaced | hPlaced := List.mem_append.mp hPlaced
        · exact hChain placed hPlaced
        · obtain rfl := List.mem_singleton.mp hPlaced
          exact (hAllows.resolve_left hPasses).2.2.2.each
    | undo fork => exact hChain placed (List.mem_filter.mp hPlaced).1

/-- What a ledger is in the course of a chain. The history `g` that explains it is that of the course
or differs by a block without operations, which may stand right above the tip. -/
structure Accounts (initial : Records) (fits : Placed → List Operation → Prop) (c : Course)
    (l : Ledger) (g : History) : Prop where
  explains : g.Explains initial (fun number => c.progress.finalized < number) fits l
  prompt : g.Prompt
  same : g.Same c.progress.history
  reach : ∀ placed ∈ g.chain, placed.number ≤ c.tip ∨
    placed.number.toNat = c.tip.toNat + 1 ∧ placed.operations = []

/-- No block stands above the tip. -/
structure Plain (c : Course) (g : History) : Prop where
  self : g = c.progress.history
  behind : ∀ placed ∈ g.chain, placed.number ≤ c.tip

variable {initial : Records} {fits : Placed → List Operation → Prop} {l : Ledger} {g : History}

theorem Accounts.records (h : Accounts initial fits c l g) :
    l.records = initial.afterAll c.progress.history.operations := by
  rw [h.explains.records, h.prompt.written, h.same.operations]

theorem flushesAt_one (block : Block) : Follower.flushesAt 1 block = true := by
  rw [Follower.flushesAt, show max (1 : UInt64) 1 = 1 from rfl, Bool.or_eq_true]
  left
  rw [decide_eq_true_eq, ← UInt64.toNat_inj, UInt64.toNat_mod]
  exact Nat.mod_one _

theorem place_one (h : History) (block : Block) :
    Progress.place 1 h block = (h.place block.number block.operations).flush := by
  rw [Progress.place, if_pos (flushesAt_one block)]

theorem after_of_applied {block : Block} (hApplied : ¬ c.progress.PassesOver config block) :
    c.after config (.data block) =
      ⟨⟨true, block.finalizedHeight, Progress.place config.flushInterval c.progress.history block⟩,
        block.cursor⟩ := by
  rw [after, if_neg hApplied, Progress.after, if_neg hApplied]

theorem Accounts.forget (h : Accounts initial fits c l g) {number : UInt64}
    (hNumber : c.tip < number) :
    ∃ g₀ : History, g₀.Explains initial
        (fun other => c.progress.finalized < other ∧ other ≠ number) fits l ∧
      g₀.Prompt ∧ g₀.Same c.progress.history ∧ (∀ placed ∈ g₀.chain, placed.number < number) ∧
      ((∀ placed ∈ g.chain, placed.number ≤ c.tip) → g₀ = g) := by
  have hTip := UInt64.lt_iff_toNat_lt.mp hNumber
  by_cases hNext : number.toNat = c.tip.toNat + 1
  · have hAbove : ∀ placed ∈ g.above c.tip,
        placed.number = number ∧ placed.operations = [] := by
      intro placed hPlaced
      obtain ⟨hMem, hHigh⟩ := List.mem_filter.mp hPlaced
      obtain hLow | ⟨hRight, hEmpty⟩ := h.reach placed hMem
      · exact absurd hLow (UInt64.not_le.mpr (by simpa using hHigh))
      · exact ⟨UInt64.toNat_inj.mp (hRight.trans hNext.symm), hEmpty⟩
    refine ⟨g.fork c.tip, h.explains.forget h.prompt hAbove, h.prompt.fork h.explains.inStep _,
      ?_, fun placed hPlaced => ?_, h.prompt.fork_eq_self⟩
    · have hForget : (g.fork c.tip).Same g := History.same_fork fun d hd => (hAbove d hd).2
      exact fun height => (hForget height).trans (h.same height)
    · have hLow : placed.number ≤ c.tip := by simpa using (List.mem_filter.mp hPlaced).2
      exact UInt64.lt_of_le_of_lt hLow hNumber
  · refine ⟨g, h.explains.mono fun _ => And.left, h.prompt, h.same, fun placed hPlaced => ?_,
      fun _ => rfl⟩
    rw [UInt64.lt_iff_toNat_lt]
    obtain hLow | ⟨hRight, _⟩ := h.reach placed hPlaced
    · exact Nat.lt_of_le_of_lt (UInt64.le_iff_toNat_le.mp hLow) hTip
    · omega

theorem Accounts.block (h : Accounts initial fits c l g) (hFitting : Placed.Fitting initial fits)
    {block : Block} (hInterval : config.flushInterval = 1)
    (hApplied : ¬ c.progress.PassesOver config block) (hAllows : c.Allows config (.data block))
    {last : Option UInt64} (hLast : ∀ height, last = some height → height ≤ c.progress.finalized) :
    ∃ g', Accounts initial fits (c.after config (.data block))
        (l.block last config.flushInterval block) g' ∧
      (c.Plain g → (c.after config (.data block)).Plain g') := by
  obtain ⟨hTip, hNumber, hFinalized, hOps⟩ := hAllows.resolve_left hApplied
  obtain ⟨g₀, hExplains, hPrompt, hSame, hBelow, hPlain⟩ := h.forget hTip
  have hAfter := after_of_applied hApplied
  have hFits := hFitting.inverts ⟨block.number, block.operations, g₀.written⟩ _
    ⟨hOps.kinds, rfl⟩
  have hPlaced := Progress.explains_place hExplains hBelow hFits hFinalized hLast
    config.flushInterval
  have hReach : ∀ placed ∈ (g₀.place block.number block.operations).flush.chain,
      placed.number ≤ block.number := by
    intro placed hMem
    obtain hMem | hMem := List.mem_append.mp hMem
    · exact UInt64.le_of_lt (hBelow placed hMem)
    · obtain rfl := List.mem_singleton.mp hMem
      exact UInt64.le_refl _
  have hNewTip : (c.after config (.data block)).tip = block.number := by rw [hAfter, tip, hNumber]
  have hHistory : (c.after config (.data block)).progress.history =
      (c.progress.history.place block.number block.operations).flush := by
    rw [hAfter, hInterval, place_one]
  rw [hInterval, place_one] at hPlaced
  refine ⟨(g₀.place block.number block.operations).flush, ⟨?_, hPrompt.place _ _, ?_, ?_⟩,
    fun hSelf => ⟨?_, ?_⟩⟩
  · rw [hAfter, hInterval]
    exact hPlaced
  · rw [hHistory]
    exact hSame.place _ _
  · rw [hNewTip]
    exact fun placed hMem => .inl (hReach placed hMem)
  · rw [hHistory, hPlain hSelf.behind, hSelf.self]
  · rw [hNewTip]
    exact hReach

theorem Accounts.fork (h : Accounts initial fits c l g) (hFitting : Placed.Fitting initial fits)
    {fork : Fork} (hAllows : c.Allows config (.undo fork)) {blocks : List UInt64}
    (hBlocks : Covers l.undone fork.lastValidBlock blocks) :
    Accounts initial fits (c.after config (.undo fork))
      ((l.add (blocks.flatMap l.undone)).flush.discard fork.lastValidBlock)
      (g.fork fork.lastValidBlock) := by
  obtain ⟨_, hNumber, hFinalized, _⟩ := hAllows
  have hKept : ∀ block, fork.lastValidBlock < block → c.progress.finalized < block :=
    fun block => UInt64.lt_of_le_of_lt hFinalized
  have hStep := h.explains.inStep
  have hExact := h.explains.replay_exact hKept hFitting.takenBackBy
    (h.prompt.head_above hStep) hBlocks
  refine ⟨h.explains.fork hExact, h.prompt.fork hStep _, h.same.fork _, fun placed hPlaced => ?_⟩
  left
  rw [tip, after, hNumber]
  simpa using (List.mem_filter.mp hPlaced).2

theorem Plain.fork (h : c.Plain g) {fork : Fork} (hAllows : c.Allows config (.undo fork)) :
    (c.after config (.undo fork)).Plain (g.fork fork.lastValidBlock) where
  self := by
    rw [h.self]
    rfl
  behind placed hPlaced := by
    rw [tip, after, hAllows.2.1]
    simpa using (List.mem_filter.mp hPlaced).2

inductive Step (config : Config) (c : Course) (l : Ledger) : Event → Ledger → Prop
  | pass {block : Block} (hPasses : c.progress.PassesOver config block) :
    Step config c l (.data block) l
  | block {block : Block} {last : Option UInt64} (hApplied : ¬ c.progress.PassesOver config block)
    (hLast : ∀ height, last = some height → height ≤ c.progress.finalized) :
    Step config c l (.data block) (l.block last config.flushInterval block)
  | fork {fork : Fork} {blocks : List UInt64}
    (hBlocks : Covers l.undone fork.lastValidBlock blocks) :
    Step config c l (.undo fork)
      ((l.add (blocks.flatMap l.undone)).flush.discard fork.lastValidBlock)

theorem Step.of_applied {l' : Ledger} {block : Block} (h : Step config c l (.data block) l')
    (hApplied : ¬ c.progress.PassesOver config block) :
    ∃ last, (∀ height, last = some height → height ≤ c.progress.finalized) ∧
      l' = l.block last config.flushInterval block := by
  cases h with
  | pass hPasses => exact absurd hPasses hApplied
  | block _ hLast => exact ⟨_, hLast, rfl⟩

inductive Steps (config : Config) : Course → Ledger → List Event → Ledger → Prop
  | nil {c : Course} {l : Ledger} : Steps config c l [] l
  | cons {c : Course} {l l' l'' : Ledger} {event : Event} {events : List Event}
    (hStep : Step config c l event l') (hRest : Steps config (c.after config event) l' events l'') :
    Steps config c l (event :: events) l''

theorem Steps.append {l' l'' : Ledger} (h : Steps config c l first l')
    (h' : Steps config (c.afterAll config first) l' second l'') :
    Steps config c l (first ++ second) l'' := by
  induction h with
  | nil => exact h'
  | cons hStep _ ih => exact .cons hStep (ih h')

/-- What is durable when the events led from `l` to `l'`: all of it, unless they ended with a fork.
Then the undo records are still those from before the fork. -/
structure Leaves (config : Config) (c : Course) (l : Ledger) (events : List Event)
    (l' left : Ledger) : Prop where
  records : left.records = l'.records
  upcoming : left.upcoming = left.records
  whole : (∀ front fork, events ≠ front ++ [.undo fork]) → left = l'
  undo : ∀ front fork, events = front ++ [.undo fork] →
    ∃ before, Steps config c l front before ∧ left.undo = before.undo

theorem Accounts.step (h : Accounts initial fits c l g) (hFitting : Placed.Fitting initial fits)
    (hInterval : config.flushInterval = 1) {event : Event} (hAllows : c.Allows config event)
    {l' : Ledger} (hStep : Step config c l event l') :
    ∃ g', Accounts initial fits (c.after config event) l' g' ∧
      (c.Plain g → (c.after config event).Plain g') := by
  cases hStep with
  | pass hPasses =>
    rw [after, if_pos hPasses]
    exact ⟨g, h, id⟩
  | block hApplied hLast => exact h.block hFitting hInterval hApplied hAllows hLast
  | fork hBlocks => exact ⟨_, h.fork hFitting hAllows hBlocks, fun hPlain => hPlain.fork hAllows⟩

theorem Accounts.steps {events : List Event} {l' : Ledger} (hSteps : Steps config c l events l')
    (h : Accounts initial fits c l g) (hFitting : Placed.Fitting initial fits)
    (hInterval : config.flushInterval = 1) (hOrder : c.InOrder config events) :
    ∃ g', Accounts initial fits (c.afterAll config events) l' g' ∧
      (c.Plain g → (c.afterAll config events).Plain g') := by
  induction hSteps generalizing g with
  | nil => exact ⟨g, h, id⟩
  | cons hStep _ ih =>
    obtain ⟨hAllows, hOrder⟩ := hOrder
    obtain ⟨g₁, h₁, hPlain₁⟩ := h.step hFitting hInterval hAllows hStep
    obtain ⟨g₂, h₂, hPlain₂⟩ := ih h₁ hOrder
    exact ⟨g₂, h₂, fun hPlain => hPlain₂ (hPlain₁ hPlain)⟩

end Course

end ForkLog
