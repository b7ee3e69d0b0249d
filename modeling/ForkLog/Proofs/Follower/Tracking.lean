import Mathlib
import ForkLog.Proofs.Cursor
import ForkLog.Proofs.Follower.Progress

/-! # Keeping track of a chain

A follower handles every event that is in order and makes the progress that is due. What it makes of
its ledger is said event by event.
-/

namespace ForkLog

set_option autoImplicit false

namespace Progress

/-- What an event makes of a ledger and of the height that was reported final with the last block. A
fork that comes before any block was applied has nothing to take back. -/
inductive Step (config : Config) (p : Progress) (last : Option UInt64) (l : Ledger) :
    Event → Option UInt64 → Ledger → Prop
  | pass {block : Block} (hPasses : p.PassesOver config block) :
    Step config p last l (.data block) last l
  | block {block : Block} (hApplied : ¬ p.PassesOver config block)
    (hLast : ∀ height, last = some height → height ≤ p.finalized) :
    Step config p last l (.data block) (some block.finalizedHeight)
      (l.block last config.flushInterval block)
  | wait {fork : Fork} (hHistory : p.history = .empty) : Step config p last l (.undo fork) last l
  | fork {fork : Fork} {blocks : List UInt64}
    (hBlocks : Covers l.undone fork.lastValidBlock blocks) :
    Step config p last l (.undo fork) last
      ((l.add (blocks.flatMap l.undone)).flush.discard fork.lastValidBlock)

inductive Steps (config : Config) :
    Progress → Option UInt64 → Ledger → List Event → Option UInt64 → Ledger → Prop
  | nil {p : Progress} {last : Option UInt64} {l : Ledger} : Steps config p last l [] last l
  | cons {p : Progress} {last last' last'' : Option UInt64} {l l' l'' : Ledger} {event : Event}
    {events : List Event} (hStep : Step config p last l event last' l')
    (hRest : Steps config (p.after config event) last' l' events last'' l'') :
    Steps config p last l (event :: events) last'' l''

variable {config : Config} {p : Progress}

theorem after_of_applied {block : Block} (hApplied : ¬ p.PassesOver config block) :
    p.after config (.data block) =
      ⟨true, block.finalizedHeight, place config.flushInterval p.history block⟩ :=
  if_neg hApplied

theorem after_of_passes {block : Block} (hPasses : p.PassesOver config block) :
    p.after config (.data block) = p :=
  if_pos hPasses

theorem after_of_empty (hHistory : p.history = .empty) (fork : Fork) :
    p.after config (.undo fork) = p := by
  obtain ⟨begun, finalized, history⟩ := p
  obtain rfl : history = .empty := hHistory
  rfl

end Progress

namespace Follower

structure Tracks (config : Config) (p : Progress) (f : Follower Checkpointed) (l : Ledger) :
    Prop where
  shows : f.log.Shows Key.undoEnd l
  settings : f.config = config
  begun : f.caughtUp = p.begun
  finalized : ∀ height, f.lastFinalized = some height → height ≤ p.finalized
  waiting : p.begun = false → f.resumeFrom = config.startBlock ∧ p.history = .empty

variable {config : Config} {p : Progress} {f : Follower Checkpointed} {l : Ledger}

theorem onBlock_tracks (hTracks : Tracks config p f l) {block : Block}
    (hAllows : p.Allows config (.data block)) :
    ∃ f' l', onBlock block f = .ok () f' ∧ Tracks config (p.after config (.data block)) f' l' ∧
      p.Step config f.lastFinalized l (.data block) f'.lastFinalized l' := by
  by_cases hPasses : p.PassesOver config block
  · have hResume := (hTracks.waiting hPasses.1).1
    rw [Progress.after_of_passes hPasses]
    exact ⟨f, l, onBlock_eq_of_passes (hTracks.begun.trans hPasses.1) (hResume ▸ hPasses.2),
      hTracks, .pass hPasses⟩
  · obtain ⟨_, _, hOps⟩ := hAllows.resolve_left hPasses
    have hApplies : f.caughtUp = true ∨ f.resumeFrom ≤ block.number := by
      cases hBegun : p.begun with
      | true => exact .inl (hTracks.begun.trans hBegun)
      | false =>
        right
        rw [(hTracks.waiting hBegun).1]
        exact UInt64.not_lt.mp fun hLow => hPasses ⟨hBegun, hLow⟩
    obtain ⟨f', hRun, hFields, hShows, _⟩ := onBlock_spec hTracks.shows hOps hApplies
    rw [hTracks.settings] at hShows
    refine ⟨f', l.block f.lastFinalized config.flushInterval block, hRun, ?_, ?_⟩
    · rw [Progress.after_of_applied hPasses, hFields]
      refine ⟨hShows, hTracks.settings, rfl, ?_, nofun⟩
      rintro height hHeight
      obtain rfl := Option.some.inj hHeight
      exact UInt64.le_refl _
    · rw [hFields]
      exact .block hPasses hTracks.finalized

theorem onFork_tracks (hTracks : Tracks config p f l) {fork : Fork}
    (hAllows : p.Allows config (.undo fork)) :
    ∃ f' l', onFork fork f = .ok () f' ∧ Tracks config (p.after config (.undo fork)) f' l' ∧
      p.Step config f.lastFinalized l (.undo fork) f'.lastFinalized l' := by
  cases hBegun : p.begun with
  | false =>
    obtain ⟨hResume, hEmpty⟩ := hTracks.waiting hBegun
    have hPasses : f.resumeFrom ≤ nextBlock fork.lastValidBlock := by
      rw [hResume]
      exact le_nextBlock hAllows.2
    rw [Progress.after_of_empty hEmpty]
    exact ⟨f, l, onFork_eq_of_passes (hTracks.begun.trans hBegun) hPasses, hTracks, .wait hEmpty⟩
  | true =>
    have hCaughtUp : f.caughtUp = true := hTracks.begun.trans hBegun
    obtain ⟨blocks, f', hCovers, hRun, hFields, hShows, _⟩ :=
      takeBack_spec hTracks.shows (List.le_of_lt (Key.undo_lt_undoEnd fork.lastValidBlock))
    refine ⟨f', (l.add (blocks.flatMap l.undone)).flush.discard fork.lastValidBlock,
      (onFork_eq_takeBackIn (.inl hCaughtUp)).trans hRun, ?_, ?_⟩
    · rw [hFields]
      refine ⟨hShows, hTracks.settings, hBegun.symm, hTracks.finalized, fun hNot => ?_⟩
      rw [Progress.after] at hNot
      rw [hBegun] at hNot
      cases hNot
    · rw [hFields]
      exact .fork hCovers

theorem handle_tracks (hTracks : Tracks config p f l) {event : Event}
    (hAllows : p.Allows config event) :
    ∃ f' l', handle event f = .ok () f' ∧ Tracks config (p.after config event) f' l' ∧
      p.Step config f.lastFinalized l event f'.lastFinalized l' := by
  cases event with
  | data block => exact onBlock_tracks hTracks hAllows
  | undo fork => exact onFork_tracks hTracks hAllows

theorem handleAll_tracks {events : List Event} (hTracks : Tracks config p f l)
    (hOrder : p.InOrder config events) :
    ∃ f' l', handleAll events f = .ok () f' ∧ Tracks config (p.afterAll config events) f' l' ∧
      p.Steps config f.lastFinalized l events f'.lastFinalized l' := by
  induction events generalizing p f l with
  | nil => exact ⟨f, l, rfl, hTracks, .nil⟩
  | cons event events ih =>
    obtain ⟨hAllows, hOrder⟩ := hOrder
    obtain ⟨f₁, l₁, hRun₁, hTracks₁, hStep₁⟩ := handle_tracks hTracks hAllows
    obtain ⟨f₂, l₂, hRun₂, hTracks₂, hSteps₂⟩ := ih hTracks₁ hOrder
    exact ⟨f₂, l₂, (Action.bind_eq_of_ok hRun₁ _).trans hRun₂, hTracks₂, .cons hStep₁ hSteps₂⟩

theorem start_tracks {contents : Contents} (hUndo : contents.NoUndo)
    (hValues : contents.records.Addressable) (hCursor : contents[Key.cursor]? = none)
    (config : Config) :
    ∃ cursor f, start (ofLog (.ofStore (Checkpointed.ofContents contents)) config) =
        .ok cursor f ∧
      Tracks config .initial f (.ofContents contents) ∧ f.lastFinalized = none := by
  have hShows := OperationLog.shows_ofStore (hUndo.shows hValues) rfl
  obtain ⟨f, hStart, hFields, hShows, _⟩ :=
    start_of_none (f := ofLog (.ofStore (Checkpointed.ofContents contents)) config) hShows hCursor
  refine ⟨_, f, hStart, ?_, ?_⟩
  · rw [hFields]
    exact ⟨hShows, rfl, rfl, nofun, fun _ => ⟨rfl, rfl⟩⟩
  · rw [hFields]
    rfl

theorem follow_tracks {contents : Contents} (hUndo : contents.NoUndo)
    (hValues : contents.records.Addressable) (hCursor : contents[Key.cursor]? = none)
    {events : List Event} (hOrder : Progress.initial.InOrder config events) :
    ∃ f l, follow events (ofLog (.ofStore (Checkpointed.ofContents contents)) config) = .ok () f ∧
      Tracks config (Progress.initial.afterAll config events) f l ∧
      Progress.initial.Steps config none (.ofContents contents) events f.lastFinalized l := by
  obtain ⟨_, f₀, hStart, hTracks₀, hNone⟩ := start_tracks hUndo hValues hCursor config
  obtain ⟨f, l, hRun, hTracks, hSteps⟩ := handleAll_tracks hTracks₀ hOrder
  exact ⟨f, l, (Action.bind_eq_of_ok hStart _).trans hRun, hTracks, hNone ▸ hSteps⟩

end Follower

end ForkLog
