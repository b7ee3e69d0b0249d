import Mathlib
import ForkLog.Proofs.Cursor
import ForkLog.Proofs.Follower.Progress
import ForkLog.Proofs.Follower.Waiting

/-! # Blocks below the start block

A follower that found no cursor passes over the blocks below its start block, until a fork leads to
before the block that precedes the start block. From then on it applies them as any other block.
-/

namespace ForkLog

set_option autoImplicit false

namespace Event

/-- A block that comes before the start block. -/
def isBelow (start : UInt64) : Event → Bool
  | .data block => block.number < start
  | .undo _ => false

/-- A fork after which there are blocks to come again before the start block. -/
def forksBelow (start : UInt64) : Event → Bool
  | .data _ => false
  | .undo fork => nextBlock fork.lastValidBlock < start

/-- The highest block that is not taken back. -/
def topAfter (top : Option UInt64) : Event → Option UInt64
  | .data block => some block.number
  | .undo fork => top.map fun number => min number fork.lastValidBlock

def Exceeds (top : Option UInt64) : Event → Prop
  | .data block => ∀ number, top = some number → number < block.number
  | .undo _ => True

/-- Every block comes above the blocks that are not taken back. Forks may lead anywhere. -/
def InOrder : Option UInt64 → List Event → Prop
  | _, [] => True
  | top, event :: events => event.Exceeds top ∧ InOrder (event.topAfter top) events

/-- No block below the start block comes after a fork to before the block that precedes it. -/
def Shielded (start : UInt64) (events : List Event) : Prop :=
  events.Pairwise fun earlier later =>
    earlier.forksBelow start = true → later.isBelow start = false

end Event

namespace Follower

variable {σ : Type} {f f' g : Follower σ} {event : Event} {events front rest : List Event}
  {first : UInt64} {top : Option UInt64} {block : Block}

theorem not_skips_of_caughtUp (h : f.caughtUp = true) : ¬ f.Skips event := by
  cases event with
  | data block => exact fun hSkips => Bool.noConfusion (h.symm.trans hSkips.1)
  | undo fork => exact fun hSkips => Bool.noConfusion (h.symm.trans hSkips.1)

/-- Either nothing was applied yet, or no block below the start block can come in order. -/
def Past (first : UInt64) (top : Option UInt64) (f : Follower σ) : Prop :=
  f.caughtUp = false ∧ f.resumeFrom = first ∨
    f.caughtUp = true ∧ ∃ number, top = some number ∧ first ≤ nextBlock number

theorem Past.skips (h : Past first top f) (hExceeds : Event.Exceeds top (.data block))
    (hBelow : block.number < first) : f.Skips (.data block) := by
  obtain ⟨hWaits, hResume⟩ | ⟨-, number, hTop, hStart⟩ := h
  · exact ⟨hWaits, hResume ▸ hBelow⟩
  · have hNext := nextBlock_le (hExceeds number hTop)
    exact absurd hBelow (UInt64.not_lt.mpr (UInt64.le_trans hStart hNext))

theorem Past.not_skips (h : Past first top f) (hForks : event.forksBelow first = true) :
    ¬ f.Skips event := by
  cases event with
  | data block => cases hForks
  | undo fork =>
    obtain ⟨-, hResume⟩ | ⟨hCaughtUp, -⟩ := h
    · rintro ⟨-, hAbove⟩
      rw [hResume] at hAbove
      exact UInt64.not_lt.mpr hAbove (of_decide_eq_true hForks)
    · exact not_skips_of_caughtUp hCaughtUp

variable [Store σ]

theorem keeps_caughtUp_onLog {τ α : Type} (step : Action (OperationLog τ) α) :
    Action.Keeps (fun f : Follower τ => f.caughtUp = true) (onLog step) := by
  intro f hf
  simp only [onLog, Action.within]
  cases step f.log <;> exact hf

theorem keeps_caughtUp_flush (cursor : Cursor) :
    Action.Keeps (fun f : Follower σ => f.caughtUp = true) (flush cursor) :=
  meets_flushIn_of_flushOnceIn fun _ =>
    .bind (keeps_caughtUp_onLog _) fun _ => .bind (fun _ => id) fun _ => .pure fun _ => id

theorem keeps_caughtUp_apply (block : Block) :
    Action.Keeps (fun f : Follower σ => f.caughtUp = true) (apply block) := by
  refine .bind (keeps_purge_of_onLog fun _ => keeps_caughtUp_onLog _) fun _ => ?_
  refine .bind (meets_retrying_of_onLog (keeps_caughtUp_onLog _)) fun _ => ?_
  refine .bind (keeps_caughtUp_onLog _) fun _ => .get_bind fun f _ => ?_
  dsimp only
  split
  · exact .bind (keeps_caughtUp_flush block.cursor) fun _ => fun _ => id
  · exact fun _ => id

/-- An event that is not passed over is the end of catching up. -/
theorem caughtUp_of_handle (hApplies : ¬ f.Skips event) (h : handle event f = .ok () f') :
    f'.caughtUp = true := by
  cases event with
  | data block =>
    have hApply : apply block { f with caughtUp := true } = .ok () f' :=
      (onBlock_eq_of_not_skips hApplies).symm.trans h
    exact (keeps_caughtUp_apply block).after_of_ok rfl hApply
  | undo fork =>
    have hTakeBack : takeBackIn sorted fork f = .ok () f' :=
      (onFork_eq_of_not_skips hApplies).symm.trans h
    obtain ⟨_, _, _, hRest⟩ := Action.exists_of_bind hTakeBack
    obtain ⟨_, _, _, hRest⟩ := Action.exists_of_bind hRest
    obtain ⟨_, _, _, hRest⟩ := Action.exists_of_bind hRest
    cases hRest
    rfl

theorem caughtUp_of_handleAll (hCaughtUp : f.caughtUp = true)
    (h : handleAll events f = .ok () f') : f'.caughtUp = true := by
  induction events generalizing f with
  | nil =>
    cases h
    exact hCaughtUp
  | cons event events ih =>
    obtain ⟨_, g, hFirst, hRest⟩ := Action.exists_of_bind h
    exact ih (caughtUp_of_handle (not_skips_of_caughtUp hCaughtUp) hFirst) hRest

theorem Past.after (h : Past first top f) (hExceeds : event.Exceeds top)
    (hForks : event.forksBelow first = false) (hHandle : handle event f = .ok () f') :
    Past first (event.topAfter top) f' := by
  by_cases hSkips : f.Skips event
  · rw [handle_eq_of_skips hSkips] at hHandle
    cases hHandle
    obtain hWaits | ⟨hCaughtUp, -⟩ := h
    · exact .inl hWaits
    · exact absurd hSkips (not_skips_of_caughtUp hCaughtUp)
  · refine .inr ⟨caughtUp_of_handle hSkips hHandle, ?_⟩
    cases event with
    | data block =>
      have hStart : first ≤ block.number := by
        obtain ⟨hWaits, rfl⟩ | ⟨-, number, hTop, hStart⟩ := h
        · exact UInt64.not_lt.mp fun hBelow => hSkips ⟨hWaits, hBelow⟩
        · exact UInt64.le_trans hStart (nextBlock_le (hExceeds number hTop))
      exact ⟨block.number, rfl, UInt64.le_trans hStart (le_nextBlock (Nat.le_succ _))⟩
    | undo fork =>
      have hFork : first ≤ nextBlock fork.lastValidBlock :=
        UInt64.not_lt.mp (of_decide_eq_false hForks)
      obtain ⟨hWaits, rfl⟩ | ⟨-, number, rfl, hStart⟩ := h
      · exact absurd ⟨hWaits, hFork⟩ hSkips
      · refine ⟨min number fork.lastValidBlock, rfl, ?_⟩
        change first ≤ nextBlock (if number ≤ fork.lastValidBlock then _ else _)
        split
        · exact hStart
        · exact hFork

/-- Shielded from forks, the blocks below the start block make no difference. -/
theorem Past.handleAll_eq (h : Past first top f) (hOrder : Event.InOrder top events)
    (hShielded : Event.Shielded first events) :
    handleAll events f = handleAll (events.filter fun event => !event.isBelow first) f := by
  induction events generalizing f top with
  | nil => rfl
  | cons event events ih =>
    obtain ⟨hExceeds, hOrder⟩ := hOrder
    obtain ⟨hFirst, hRest⟩ := List.pairwise_cons.mp hShielded
    cases hBelow : event.isBelow first with
    | true =>
      obtain ⟨block, rfl⟩ : ∃ block, event = .data block := by
        cases event with
        | data block => exact ⟨block, rfl⟩
        | undo fork => cases hBelow
      have hPasses := handle_eq_of_skips (h.skips hExceeds (of_decide_eq_true hBelow))
      rw [List.filter_cons_of_neg (by simp [hBelow]), handleAll, Action.bind_eq_of_ok hPasses]
      exact ih (h.after hExceeds rfl hPasses) hOrder hRest
    | false =>
      rw [List.filter_cons_of_pos (by simp [hBelow]), handleAll, handleAll]
      cases hHandle : handle event f with
      | error e g => rw [Action.bind_eq_of_error hHandle, Action.bind_eq_of_error hHandle]
      | ok _ g =>
        rw [Action.bind_eq_of_ok hHandle, Action.bind_eq_of_ok hHandle]
        cases hForks : event.forksBelow first with
        | true =>
          have hAll : ∀ later ∈ events, (!later.isBelow first) = true := by
            intro later hLater
            rw [hFirst later hLater hForks]
            rfl
          rw [List.filter_eq_self.mpr hAll]
        | false => exact ih (h.after hExceeds hForks hHandle) hOrder hRest

theorem Past.handle_eq (h : Past first top f)
    (hOrder : Event.InOrder top (front ++ .data block :: rest))
    (hFront : handleAll front f = .ok () g) (hBelow : block.number < first) :
    handle (.data block) g =
      if front.any (Event.forksBelow first) then apply block g else .ok () g := by
  induction front generalizing f top with
  | nil =>
    cases hFront
    exact handle_eq_of_skips (h.skips hOrder.1 hBelow)
  | cons event front ih =>
    obtain ⟨hExceeds, hOrder⟩ := hOrder
    obtain ⟨_, f', hFirst, hRest⟩ := Action.exists_of_bind hFront
    rw [List.any_cons]
    cases hForks : event.forksBelow first with
    | true =>
      have hCaughtUp : g.caughtUp = true :=
        caughtUp_of_handleAll (caughtUp_of_handle (h.not_skips hForks) hFirst) hRest
      have hApplies : handle (.data block) g = apply block { g with caughtUp := true } :=
        onBlock_eq_of_not_skips (not_skips_of_caughtUp hCaughtUp)
      have hSame : { g with caughtUp := true } = g := by rw [← hCaughtUp]
      rw [hApplies, hSame, Bool.true_or, if_pos rfl]
    | false => exact ih (h.after hExceeds hForks hFirst) hOrder hRest

variable {store : σ} {config : Config} {cursor : Cursor} {log : OperationLog σ}

theorem past_of_start (hNone : OperationLog.getCursor (.ofStore store) = .error .cursorNotFound log)
    (hStart : start (ofLog (.ofStore store) config) = .ok cursor f) :
    Past config.startBlock none f := by
  have hGet : onLog OperationLog.getCursor (ofLog (.ofStore store) config) =
      .error .cursorNotFound { ofLog (.ofStore store) config with log } := by
    simp only [onLog, Action.within, ofLog, hNone]
  unfold start at hStart
  rw [hGet] at hStart
  simp only [onLog, Action.within, ofLog] at hStart
  cases hWrite : OperationLog.writeCursor (.blank (previousBlock config.startBlock)) log with
  | ok _ written =>
    rw [hWrite] at hStart
    cases hStart
    exact .inl ⟨rfl, rfl⟩
  | error e written =>
    rw [hWrite] at hStart
    cases hStart

/-- A follower that found no cursor passes over a block below its start block, unless a fork to before
the block that precedes the start block came first: then it applies it. If no such fork comes before
such a block, events are handled as if the blocks below the start block were not among them. -/
theorem below_start_passed_over
    (hNone : OperationLog.getCursor (.ofStore store) = .error .cursorNotFound log)
    (hStart : start (ofLog (.ofStore store) config) = .ok cursor f)
    (hOrder : Event.InOrder none events) :
    (∀ front block rest g, events = front ++ .data block :: rest →
      block.number < config.startBlock → handleAll front f = .ok () g →
        handle (.data block) g =
          if front.any (Event.forksBelow config.startBlock) then apply block g else .ok () g) ∧
      (Event.Shielded config.startBlock events →
        handleAll events f =
          handleAll (events.filter fun event => !event.isBelow config.startBlock) f) := by
  have hPast := past_of_start hNone hStart
  constructor
  · rintro front block rest g rfl hBelow hFront
    exact hPast.handle_eq hOrder hFront hBelow
  · exact hPast.handleAll_eq hOrder

def lateConfig : Config := { startBlock := 10 }

/-- A block below the start block, one at it, and a fork that takes this one back. -/
def lateBlocks : List Event :=
  [.data ⟨4, 0, [.assign "a" [0x31]], .blank 4⟩, .data ⟨10, 9, [.assign "b" [0x32]], .blank 10⟩,
    .undo ⟨9, .blank 9⟩]

theorem below_start_passed_over_before_fork :
    ∃ cursor f, start (ofLog (.ofStore (∅ : Contents)) lateConfig) = .ok cursor f ∧
      handle (.data ⟨4, 0, [.assign "a" [0x31]], .blank 4⟩) f = .ok () f ∧
      handleAll lateBlocks f = handleAll lateBlocks.tail f := by
  have hOrder : Event.InOrder none lateBlocks := by
    refine ⟨nofun, ?_, trivial, trivial⟩
    rintro _ ⟨⟩
    decide
  have hShielded : Event.Shielded lateConfig.startBlock lateBlocks := by
    simp only [Event.Shielded]
    decide
  obtain ⟨hEach, hAll⟩ := below_start_passed_over rfl (start_empty lateConfig) hOrder
  exact ⟨_, _, start_empty lateConfig, hEach [] _ _ _ rfl (by decide) rfl, hAll hShielded⟩

/-- A fork to block three makes way for block four, though the follower is to begin with block ten. -/
theorem below_start_applied_after_fork :
    ∃ cursor f g, start (ofLog (.ofStore (∅ : Contents)) lateConfig) = .ok cursor f ∧
      Event.InOrder none [.undo ⟨3, .blank 3⟩, .data ⟨4, 0, [.assign "a" [0x31]], .blank 4⟩] ∧
      handleAll [.undo ⟨3, .blank 3⟩, .data ⟨4, 0, [.assign "a" [0x31]], .blank 4⟩] f =
        .ok () g ∧ g.log.store[Key.user "a"]? = some [0x31] := by
  have hEnds : (match handleAll [.undo ⟨3, .blank 3⟩,
      .data ⟨4, 0, [.assign "a" [0x31]], .blank 4⟩] (begun lateConfig) with
    | .ok _ g => g.log.store[Key.user "a"]?
    | .error _ _ => none) = some [0x31] := by decide +kernel
  split at hEnds
  case h_1 g hRun =>
    exact ⟨_, _, g, start_empty lateConfig, ⟨trivial, nofun, trivial⟩, hRun, hEnds⟩
  case h_2 => cases hEnds

end Follower

end ForkLog
