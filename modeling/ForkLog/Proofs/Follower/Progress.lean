import Mathlib
import ForkLog.Proofs.Follower
import ForkLog.Proofs.History

/-! # The progress of a follower

What a follower should have made of the events so far is said apart from any store: whether it has
begun, what it was told to be final, and the history of the blocks that it applied. Events are in
order if they are those of one chain with its forks.
-/

namespace ForkLog

set_option autoImplicit false

structure Progress where
  /-- A block was applied; until then blocks below the start block are passed over. -/
  begun : Bool
  /-- The height reported final with the last block. -/
  finalized : UInt64
  history : History

namespace Progress

def initial : Progress := ⟨false, 0, .empty⟩

/-- The history after a block that a follower applies. -/
def place (interval : UInt64) (h : History) (block : Block) : History :=
  let placed := h.place block.number block.operations
  if Follower.flushesAt interval block then placed.flush else placed

def PassesOver (config : Config) (p : Progress) (block : Block) : Prop :=
  p.begun = false ∧ block.number < config.startBlock

instance (config : Config) (p : Progress) (block : Block) :
    Decidable (p.PassesOver config block) :=
  inferInstanceAs (Decidable (_ ∧ _))

def after (config : Config) (p : Progress) : Event → Progress
  | .data block =>
    if p.PassesOver config block then p
    else ⟨true, block.finalizedHeight, place config.flushInterval p.history block⟩
  | .undo fork => { p with history := p.history.fork fork.lastValidBlock }

def afterAll (config : Config) (p : Progress) (events : List Event) : Progress :=
  events.foldl (after config) p

/-- A block that is not passed over is above those that survive, reports no lower height to be final
than before, and has valid operations. A fork goes neither below what is final nor below the block
before the start block. -/
def Allows (config : Config) (p : Progress) : Event → Prop
  | .data block =>
    p.PassesOver config block ∨
      (∀ c ∈ p.history.chain, c.number < block.number) ∧ p.finalized ≤ block.finalizedHeight ∧
        Operation.RecordableAll block.operations
  | .undo fork =>
    p.finalized ≤ fork.lastValidBlock ∧
      config.startBlock.toNat ≤ fork.lastValidBlock.toNat + 1

def InOrder (config : Config) : Progress → List Event → Prop
  | _, [] => True
  | p, event :: events => p.Allows config event ∧ InOrder config (p.after config event) events

variable {config : Config} {p : Progress}

theorem afterAll_append (front rest : List Event) :
    p.afterAll config (front ++ rest) = (p.afterAll config front).afterAll config rest :=
  List.foldl_append

theorem InOrder.of_append {front rest : List Event} (hOrder : p.InOrder config (front ++ rest)) :
    p.InOrder config front ∧ (p.afterAll config front).InOrder config rest := by
  induction front generalizing p with
  | nil => exact ⟨trivial, hOrder⟩
  | cons event front ih =>
    obtain ⟨hAllows, hRest⟩ := hOrder
    obtain ⟨hFront, hRest⟩ := ih hRest
    exact ⟨⟨hAllows, hFront⟩, hRest⟩

theorem chain_place (interval : UInt64) (h : History) (block : Block) :
    (place interval h block).chain = h.chain ++ [⟨block.number, block.operations, h.written⟩] := by
  rw [place]
  split <;> rfl

theorem explains_place {h : History} {initial : Records} {finalized : UInt64}
    {fits : Placed → List Operation → Prop} {l : Ledger}
    {block : Block}
    (hExplains : h.Explains initial
      (fun number => finalized < number ∧ number ≠ block.number) fits l)
    (hBlock : ∀ c ∈ h.chain, c.number < block.number)
    (hFits : fits ⟨block.number, block.operations, h.written⟩
      ((initial.afterAll h.written).inverse block.operations))
    (hFinalized : finalized ≤ block.finalizedHeight) {last : Option UInt64}
    (hLast : ∀ height, last = some height → height ≤ finalized) (interval : UInt64) :
    (place interval h block).Explains initial (fun number => block.finalizedHeight < number) fits
      (l.block last interval block) := by
  have hPurged : h.Explains initial
      (fun number => block.finalizedHeight < number ∧ number ≠ block.number) fits
      (l.purgeFinal last) := by
    cases last with
    | none => exact hExplains.mono fun number hNumber =>
        ⟨UInt64.lt_of_le_of_lt hFinalized hNumber.1, hNumber.2⟩
    | some height =>
      refine (hExplains.purge height).mono fun number hNumber => ?_
      have hAbove := UInt64.lt_of_le_of_lt hFinalized hNumber.1
      exact ⟨⟨hAbove, hNumber.2⟩, UInt64.lt_of_le_of_lt (hLast height rfl) hAbove⟩
  have hPlaced := hPurged.block hBlock hFits
  simp only [place, Ledger.block]
  split
  · exact hPlaced.flush
  · exact hPlaced

end Progress

namespace Follower

variable {σ τ : Type} [Store σ] [Store τ]

def handleAll : List Event → Action (Follower σ) Unit
  | [] => pure ()
  | event :: events => do
    handle event
    handleAll events

def follow (events : List Event) : Action (Follower σ) Unit := do
  let _ ← start
  handleAll events

theorem handleAll_append (front rest : List Event) :
    (handleAll (front ++ rest) : Action (Follower σ) Unit) =
      handleAll front >>= fun _ => handleAll rest := by
  induction front with
  | nil => rfl
  | cons event front ih =>
    rw [List.cons_append, handleAll, handleAll, ih]
    exact (bind_assoc _ _ _).symm

theorem follow_concat {front : List Event} {event : Event} {f g h : Follower σ}
    (hFollow : follow front f = .ok () g) (hHandle : handle event g = .ok () h) :
    follow (front ++ [event]) f = .ok () h := by
  simp only [follow, handleAll_append, bind, EStateM.bind] at hFollow ⊢
  cases hStart : start f with
  | error e f₁ => simp [hStart] at hFollow
  | ok cursor f₁ =>
    simp only [hStart] at hFollow ⊢
    rw [hFollow]
    exact Action.bind_eq_of_ok hHandle _

variable {R : σ → τ → Prop}

theorem simulates_handleAll (h : Store.Simulation R) (events : List Event) :
    Action.Simulates (Alike R) (handleAll events) (handleAll events) := by
  induction events with
  | nil => exact .pure ()
  | cons event events ih => exact (simulates_handle h event).bind fun _ => ih

theorem simulates_follow (h : Store.Simulation R) (events : List Event) :
    Action.Simulates (Alike R) (follow events) (follow events) :=
  (simulates_start h).bind fun _ => simulates_handleAll h events

/-- A follower that has begun on an empty store. -/
def begun (config : Config) : Follower Contents :=
  let cursor := Cursor.blank (previousBlock config.startBlock)
  { ofLog ⟨(∅ : Contents).insert Key.cursor cursor.encode, ∅, some cursor⟩ config with
    resumeFrom := config.startBlock }

theorem start_empty (config : Config) :
    start (ofLog (.ofStore (∅ : Contents)) config) =
      .ok (.blank (previousBlock config.startBlock)) (begun config) := rfl

end Follower

end ForkLog
