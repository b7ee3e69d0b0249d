import Mathlib
import ForkLog.Proofs.Follower.Tracking

/-! # Forks of a chain that is followed

A fork restores the user records if the first block that it takes back found under its own keys what
the surviving blocks leave there. This may fail: blocks that are final wait to be flushed, and a block
is recorded against what is written.
-/

namespace ForkLog

set_option autoImplicit false

namespace Progress

/-- The first block above a height found, written under its keys, what the blocks up to the height
leave there. -/
def Settled (initial : Records) (p : Progress) (height : UInt64) : Prop :=
  ∀ c, (p.history.above height).head? = some c → ∀ op ∈ c.operations,
    initial.afterAll c.written op.key =
      initial.afterAll (Placed.allOperations (p.history.upTo height)) op.key

/-- The ledger comes of the blocks that were applied. Every block that may be taken back was written
before the next one was recorded. -/
structure Sound (initial : Records) (p : Progress) (l : Ledger) : Prop where
  explains : p.history.Explains initial (fun number => p.finalized < number)
    (Placed.Inverts initial) l
  flushed : ∀ front c rest, p.history.chain = front ++ c :: rest → p.finalized < c.number →
    (∀ d ∈ rest, Placed.allOperations (front ++ [c]) <+: d.written) ∧
      Placed.allOperations (front ++ [c]) <+: p.history.written

variable {initial : Records} {config : Config} {p : Progress} {l : Ledger}

theorem Sound.block (hSound : p.Sound initial l) {block : Block}
    (hApplied : ¬ p.PassesOver config block) (hAllows : p.Allows config (.data block))
    {last : Option UInt64} (hLast : ∀ height, last = some height → height ≤ p.finalized) :
    (p.after config (.data block)).Sound initial (l.block last config.flushInterval block) := by
  obtain ⟨hBlock, hFinalized, hOps⟩ := hAllows.resolve_left hApplied
  have hAfter : p.after config (.data block) =
      ⟨true, block.finalizedHeight, place config.flushInterval p.history block⟩ :=
    if_neg hApplied
  rw [hAfter]
  refine ⟨explains_place (hSound.explains.mono fun _ => And.left) hBlock
    ⟨hOps.kinds, rfl⟩ hFinalized hLast _, ?_⟩
  have hWritten : p.history.written <+: (place config.flushInterval p.history block).written := by
    rw [place]
    split
    · exact (hSound.explains.inStep.place hBlock block.operations).written
    · exact List.prefix_rfl
  intro front c rest hSplit hAbove
  rw [chain_place] at hSplit
  obtain rfl | ⟨last, d, rfl⟩ := List.eq_nil_or_concat rest
  · -- The new block itself is flushed at once, as it is above what it reports final.
    obtain ⟨rfl, hLast⟩ := List.append_inj' hSplit rfl
    obtain ⟨rfl, _⟩ := List.cons.inj hLast
    have hFlushes : Follower.flushesAt config.flushInterval block = true := by
      rw [Follower.flushesAt, decide_eq_true hAbove, Bool.or_true]
    refine ⟨fun d hd => absurd hd List.not_mem_nil, ?_⟩
    simp only [place, hFlushes, if_true]
    exact List.prefix_rfl
  · rw [List.concat_eq_append, ← List.cons_append, ← List.append_assoc] at hSplit
    obtain ⟨hFront, hLast⟩ := List.append_inj' hSplit rfl
    obtain ⟨rfl, _⟩ := List.cons.inj hLast
    obtain ⟨hRest, hBehind⟩ := hSound.flushed front c last hFront
      (UInt64.lt_of_le_of_lt hFinalized hAbove)
    refine ⟨fun e he => ?_, hBehind.trans hWritten⟩
    rw [List.concat_eq_append] at he
    obtain he | he := List.mem_append.mp he
    · exact hRest e he
    · obtain rfl := List.mem_singleton.mp he
      exact hBehind

theorem Sound.replay_eq_iff (hSound : p.Sound initial l) {height : UInt64}
    (hHeight : p.finalized ≤ height) {blocks : List UInt64}
    (hBlocks : Covers l.undone height blocks) :
    l.upcoming.afterAll (blocks.flatMap l.undone) =
        initial.afterAll (Placed.allOperations (p.history.upTo height)) ↔
      p.Settled initial height := by
  have hKept : ∀ block, height < block → p.finalized < block :=
    fun block => UInt64.lt_of_le_of_lt hHeight
  have hExplains := hSound.explains
  have hSplit := hExplains.inStep.upTo_append_above height
  have hInverts : ∀ c ∈ p.history.above height, Placed.Inverts initial c (l.undone c.number) := by
    intro c hc
    obtain ⟨hMem, hAbove⟩ := List.mem_filter.mp hc
    exact hExplains.undone c hMem (hKept _ (by simpa using hAbove))
  rw [hExplains.replay hKept hBlocks, Settled]
  cases hAbove : p.history.above height with
  | nil => simp [Placed.unwinding]
  | cons c rest =>
    rw [hAbove] at hSplit hInverts
    have hNumber : height < c.number := by
      have hMem : c ∈ p.history.above height := hAbove ▸ List.mem_cons_self
      simpa using (List.mem_filter.mp hMem).2
    have hFlushed := (hSound.flushed _ c rest hSplit.symm (hKept _ hNumber)).1
    have hGrounded := hExplains.inStep.grounded (p.history.upTo height ++ [c])
      (by rw [← hSplit, List.append_assoc, List.singleton_append]) hFlushed
    rw [Placed.allOperations_append, Placed.allOperations_cons, Placed.allOperations_nil,
      List.append_nil] at hGrounded
    have hFirst := hInverts c List.mem_cons_self
    have hUnwound (key : String) := Placed.afterAll_unwinding_cons key hFirst.2 hFirst.1
      hGrounded fun d hd => (hInverts d (List.mem_cons_of_mem c hd)).takenBackBy
    simp only [funext_iff, hUnwound, List.head?_cons, Option.some.injEq, forall_eq']
    constructor
    · intro hExact op hOp
      have hKey := hExact op.key
      rwa [if_pos ⟨op, hOp, rfl⟩] at hKey
    · intro hSettled key
      split
      case isTrue hTouched =>
        obtain ⟨op, hOp, rfl⟩ := hTouched
        exact hSettled op hOp
      case isFalse => rfl

theorem Sound.fork (hSound : p.Sound initial l) {fork : Fork}
    (hHeight : p.finalized ≤ fork.lastValidBlock) {blocks : List UInt64}
    (hBlocks : Covers l.undone fork.lastValidBlock blocks)
    (hSettled : p.Settled initial fork.lastValidBlock) :
    (p.after config (.undo fork)).Sound initial
      ((l.add (blocks.flatMap l.undone)).flush.discard fork.lastValidBlock) where
  explains :=
    hSound.explains.fork ((hSound.replay_eq_iff hHeight hBlocks).mpr hSettled)
  flushed front c rest hChain hAbove := by
    have hWhole : p.history.chain =
        front ++ c :: (rest ++ p.history.above fork.lastValidBlock) := by
      rw [← hSound.explains.inStep.upTo_append_above fork.lastValidBlock, ← List.cons_append,
        ← List.append_assoc]
      exact congrArg (· ++ p.history.above fork.lastValidBlock) hChain
    refine ⟨fun d hd => (hSound.flushed _ _ _ hWhole hAbove).1 d (List.mem_append_left _ hd), ?_⟩
    have hWritten : (p.after config (.undo fork)).history.written =
        Placed.allOperations (front ++ [c]) ++ Placed.allOperations rest := by
      rw [← Placed.allOperations_append, List.append_assoc, List.singleton_append, ← hChain]
      rfl
    rw [hWritten]
    exact List.prefix_append _ _

/-- The records after a fork are those of the surviving blocks if and only if the fork was
settled. -/
theorem Sound.records_eq_iff (hSound : p.Sound initial l) {fork : Fork}
    (hAllows : p.Allows config (.undo fork)) {last last' : Option UInt64} {l' : Ledger}
    (hStep : p.Step config last l (.undo fork) last' l') :
    l'.records = initial.afterAll (p.after config (.undo fork)).history.operations ↔
      p.Settled initial fork.lastValidBlock := by
  cases hStep with
  | wait hEmpty =>
    rw [after_of_empty hEmpty, hSound.explains.records, hEmpty]
    refine ⟨fun _ c hc => ?_, fun _ => rfl⟩
    rw [hEmpty] at hc
    cases hc
  | fork hBlocks => exact hSound.replay_eq_iff hAllows.1 hBlocks

theorem Sound.step (hSound : p.Sound initial l) {event : Event} (hAllows : p.Allows config event)
    {last last' : Option UInt64} {l' : Ledger} (hStep : p.Step config last l event last' l')
    (hSettled : ∀ fork, event = .undo fork → p.Settled initial fork.lastValidBlock) :
    (p.after config event).Sound initial l' := by
  cases hStep with
  | pass hPasses => rwa [after_of_passes hPasses]
  | block hApplied hLast => exact hSound.block hApplied hAllows hLast
  | wait hEmpty => rwa [after_of_empty hEmpty]
  | fork hBlocks => exact hSound.fork hAllows.1 hBlocks (hSettled _ rfl)

theorem sound_initial (contents : Contents) :
    Progress.initial.Sound contents.records (.ofContents contents) where
  explains := History.explains_empty rfl rfl fun _ => rfl
  flushed front c rest hChain := by simp [Progress.initial, History.empty] at hChain

end Progress

namespace Follower

variable {config : Config}

def AllSettled (initial : Records) (config : Config) (p : Progress) (events : List Event) : Prop :=
  ∀ front fork, front ++ [.undo fork] <+: events →
    (p.afterAll config front).Settled initial fork.lastValidBlock

theorem sound_of_steps {initial : Records} {p : Progress} {events : List Event}
    {last last' : Option UInt64} {l l' : Ledger} (hSteps : p.Steps config last l events last' l')
    (hSound : p.Sound initial l) (hOrder : p.InOrder config events)
    (hSettled : AllSettled initial config p events) :
    (p.afterAll config events).Sound initial l' := by
  induction hSteps with
  | nil => exact hSound
  | @cons p _ _ _ l l₁ _ event events hStep _ ih =>
    obtain ⟨hAllows, hOrder⟩ := hOrder
    refine ih (hSound.step hAllows hStep ?_) hOrder ?_
    · rintro fork rfl
      exact hSettled [] fork (List.prefix_append [_] events)
    · intro front fork hFront
      exact hSettled (event :: front) fork (List.cons_prefix_cons.mpr ⟨rfl, hFront⟩)

section Stores

variable {σ : Type} [Store σ] {R : σ → Contents → Prop} {store : σ} {contents : Contents}
  {events : List Event}

/-- After the events the user records are the given ones with the operations of the surviving blocks
carried out in order. -/
def EndsExact (store : σ) (config : Config) (records : Records) (events : List Event) : Prop :=
  ∃ f, follow events (ofLog (.ofStore store) config) = .ok () f ∧
    Store.Holds f.log.store
      (records.afterAll (Progress.initial.afterAll config events).history.operations)

theorem endsExact_iff_of_settled (hR : Store.Simulation R) (hStore : R store contents)
    (hUndo : contents.NoUndo) (hValues : contents.records.Addressable)
    (hCursor : contents[Key.cursor]? = none) {fork : Fork}
    (hOrder : Progress.initial.InOrder config (events ++ [.undo fork]))
    (hSettled : AllSettled contents.records config .initial events) :
    EndsExact store config contents.records (events ++ [.undo fork]) ↔
      (Progress.initial.afterAll config events).Settled contents.records fork.lastValidBlock := by
  obtain ⟨hFront, hAllows, _⟩ := hOrder.of_append
  obtain ⟨f₁, l₁, hRun₁, hTracks₁, hSteps₁⟩ := follow_tracks hUndo hValues hCursor hFront
  obtain ⟨f₂, l₂, hRun₂, hTracks₂, hStep₂⟩ := handle_tracks hTracks₁ hAllows
  have hSound := sound_of_steps hSteps₁ (Progress.sound_initial contents) hFront hSettled
  obtain ⟨f, hRun, hAlike⟩ := (simulates_follow hR.checkpointed (events ++ [.undo fork])).exists_of_ok
    (alike_checkpointed hStore config) (follow_concat hRun₁ hRun₂)
  have hAfter : Progress.initial.afterAll config (events ++ [.undo fork]) =
      (Progress.initial.afterAll config events).after config (.undo fork) :=
    Progress.afterAll_append events [.undo fork]
  rw [EndsExact, ← hSound.records_eq_iff hAllows hStep₂, hAfter,
    ← hTracks₂.shows.store.records, ← hR.holds_iff hAlike.log.store]
  constructor
  · rintro ⟨g, hOther, hHolds⟩
    cases hRun.symm.trans hOther
    exact hHolds
  · intro hHolds
    exact ⟨f, hRun, hHolds⟩

/-- Events in order are all handled. Every fork among them leaves the user records exact if and only
if, whenever a fork came, the first block that it took back had found under its own keys what the
surviving blocks leave there. -/
theorem forks_exact_iff (hR : Store.Simulation R) (hStore : R store contents)
    (hUndo : contents.NoUndo) (hValues : contents.records.Addressable)
    (hCursor : contents[Key.cursor]? = none)
    (hOrder : Progress.initial.InOrder config events) :
    (∃ f, follow events (ofLog (.ofStore store) config) = .ok () f) ∧
    ((∀ front fork, front ++ [.undo fork] <+: events →
        EndsExact store config contents.records (front ++ [.undo fork])) ↔
      AllSettled contents.records config .initial events) := by
  constructor
  · obtain ⟨f₁, l₁, hRun₁, _⟩ := follow_tracks hUndo hValues hCursor hOrder
    obtain ⟨f, hRun, _⟩ := (simulates_follow hR.checkpointed events).exists_of_ok
      (alike_checkpointed hStore config) hRun₁
    exact ⟨f, hRun⟩
  · have hStep {front : List Event} {fork : Fork} (hFront : front ++ [.undo fork] <+: events)
        (hSettled : AllSettled contents.records config .initial front) :=
      endsExact_iff_of_settled hR hStore hUndo hValues hCursor
        (hFront.choose_spec ▸ hOrder).of_append.1 hSettled
    constructor
    · -- The forks before one are settled by induction on their number of events.
      intro hExact front
      induction hLength : front.length using Nat.strong_induction_on generalizing front with
      | _ length ih =>
        intro fork hFront
        refine (hStep hFront fun earlier other hEarlier => ?_).mp (hExact front fork hFront)
        have hShorter := hEarlier.length_le
        rw [List.length_append, List.length_singleton, hLength] at hShorter
        exact ih earlier.length hShorter earlier rfl other
          (hEarlier.trans ((List.prefix_append front _).trans hFront))
    · intro hSettled front fork hFront
      refine (hStep hFront fun earlier other hEarlier => ?_).mpr (hSettled front fork hFront)
      exact hSettled earlier other (hEarlier.trans ((List.prefix_append front _).trans hFront))

end Stores

def sparseConfig : Config := { flushInterval := 1000, startBlock := 1 }

/-- A final block, and one on some key that is taken back. -/
def finalThenFork (key : String) : List Event :=
  [.data ⟨1, 1, [.assign "a" [0x31]], .blank 1⟩, .data ⟨2, 1, [.assign key [0x32]], .blank 2⟩,
    .undo ⟨1, .blank 1⟩]

theorem inOrder_finalThenFork {key : String} (hKey : key = "a" ∨ key = "b") :
    Progress.initial.InOrder sparseConfig (finalThenFork key) := by
  obtain rfl | rfl := hKey <;>
    exact ⟨.inr ⟨by decide, by decide, by decide +kernel⟩,
      .inr ⟨by decide, by decide, by decide +kernel⟩, ⟨by decide, by decide⟩, trivial⟩

/-- A final block waits while the next one, on another key, is recorded and taken back. -/
theorem forks_exact_on_another_key :
    EndsExact (∅ : Contents) sparseConfig (∅ : Contents).records (finalThenFork "b") := by
  have hCursor : (∅ : Contents)[Key.cursor]? = none := by simp
  refine (forks_exact_iff Store.simulation_contents rfl Contents.noUndo_empty
    Contents.addressable_empty hCursor (inOrder_finalThenFork (.inr rfl))).2.mpr ?_
    [_, _] _ List.prefix_rfl
  intro front fork hFront
  obtain _ | ⟨first, _ | ⟨second, _ | ⟨third, front⟩⟩⟩ := front
  · simp [finalThenFork] at hFront
  · simp [finalThenFork] at hFront
  · obtain ⟨rfl, rfl, rfl⟩ := by simpa [finalThenFork] using hFront
    intro c hc op hOp
    obtain rfl := Option.some.inj hc
    obtain rfl := List.mem_singleton.mp hOp
    decide +kernel
  · have hLength := hFront.length_le
    simp [finalThenFork] at hLength
    omega

/-- The write of a final block is lost when the next one, on the same key, is taken back. -/
theorem fork_loses_final_write :
    Progress.initial.InOrder sparseConfig (finalThenFork "a") ∧
      ¬ EndsExact (∅ : Contents) sparseConfig (∅ : Contents).records (finalThenFork "a") := by
  refine ⟨inOrder_finalThenFork (.inl rfl), ?_⟩
  rintro ⟨f, hFollow, hHolds⟩
  have hFound : (match follow (finalThenFork "a") (ofLog (.ofStore (∅ : Contents)) sparseConfig) with
      | .ok _ f => (Store.get (Key.user "a") : Action Contents _).run' f.log.store
      | .error _ _ => none) = some none := by decide +kernel
  rw [hFollow] at hFound
  exact absurd ((hHolds "a").symm.trans hFound) (by decide +kernel)

end Follower

end ForkLog
