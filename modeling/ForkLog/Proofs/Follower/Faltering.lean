import Mathlib
import ForkLog.Proofs.Follower.Waiting

/-! # A follower on a store with calls that fail

Every step that a follower makes again is made from what its last attempt left. It ends as on a store
that never fails, or it fails; and it fails for a passing reason only after too many failures in a
row. Of a block that failed the store may have a part.
-/

namespace ForkLog

set_option autoImplicit false

/-- Writes the changes by their keys, the last one first. -/
def PendingSet.Order.reversed : PendingSet.Order :=
  ⟨fun pending => pending.operations.reverse, fun _ => List.reverse_perm _⟩

namespace Follower

section

variable {σ α : Type} {R : σ → Checkpointed → Prop} {errs : Error → Prop}
  {step : Action (OperationLog σ) α} {other : Action (OperationLog Checkpointed) α}

theorem falters_onLog (h : Action.Falters (OperationLog.Alike R) errs step other) :
    Action.Falters (Alike R) errs (onLog step) (onLog other) :=
  .within (fun _ _ hf => hf.log) (fun _ _ _ _ hf hLog => { hf with log := hLog }) (fun _ => rfl) h

theorem retried_falters (h : Action.Falters (OperationLog.Alike R) errs step other)
    (hLasting : Action.Lasting other) {f : Follower σ} {g : Follower Checkpointed}
    (hf : Alike R f g) :
    Action.AgreeOr (Alike R) (fun e f' => errs e ∧ Alike R f' g ∧ (e.isTransient = true →
        Action.FailsInARow (f.config.maxRetries + 1) (onLog step) f))
      (retrying step f) (retrying other g) := by
  have hOnLog : Action.Lasting (onLog other) := hLasting.within
  rw [retrying_eq_onLog hLasting, retrying]
  exact Action.attempting_falters (Q := fun f => Alike R f g) (fun _ f hf => falters_onLog h f g hf)
    (fun e g' hFails => hOnLog.of_error hFails) f.config.maxRetries hf

/-- The first follower is in the middle of a flush of what is pending in both. -/
def Flushing (R : σ → Checkpointed → Prop) (cursor : Cursor) (f : Follower σ)
    (g : Follower Checkpointed) : Prop :=
  OperationLog.Flushing R cursor f.log g.log ∧ Alike (fun _ _ => True) f g

end

variable {σ : Type} [Store σ] {R : σ → Checkpointed → Prop} {errs : Error → Prop}
  {f : Follower σ} {g : Follower Checkpointed} {cursor : Cursor}

theorem flushOnceIn_falters (h : Store.Falters R errs) {order otherOrder : PendingSet.Order}
    (hOrders : g.log.pending.Valid ∨ order = otherOrder) (hf : Flushing R cursor f g) :
    Action.AgreeOr (Alike R) (fun e f' => errs e ∧ Flushing R cursor f' g)
      (flushOnceIn order cursor f) (flushOnceIn otherOrder cursor g) := by
  obtain ⟨hLog, hRest⟩ := hf
  refine Action.AgreeOr.bind ?_ fun count f' g' _ _ hf' => .inl ?_
  · obtain hAgree | ⟨e, log, hFails, hError, hStill⟩ :=
      OperationLog.flushIn_falters h hOrders hLog
    · exact .inl (hAgree.within fun _ _ hLog' => { hRest with log := hLog' })
    · exact .inr ⟨e, _, Action.within_eq_of_error hFails, hError, hStill,
        { hRest with log := ⟨trivial, hStill.pending, hStill.lastCursor⟩ }⟩
  · exact .ok count { hf' with stats := congrArg (Stats.recordFlush count 0) hf'.stats }

/-- What cannot be written is refused before any call, and not tried again. -/
theorem flushIn_eq_of_invalid {orders : Nat → PendingSet.Order} {e : Error}
    (hInvalid : Operation.validateAll ((orders 0).list f.log.pending) = .error e) :
    flushIn orders cursor f = .error e f :=
  Action.attempting_eq_of_error (Action.bind_eq_of_error
    (Action.within_eq_of_error (OperationLog.flushIn_eq_of_invalid hInvalid)) _)
    (OperationLog.lasting_validateAll hInvalid) _

/-- Attempts to write what is pending, each in an order of its own, write what one attempt in any
order writes. What cannot be written is refused at the operation that its order has first. -/
theorem flushIn_falters (h : Store.Falters R errs) {orders otherOrders : Nat → PendingSet.Order}
    (hOrders : g.log.pending.Valid ∨ orders = otherOrders) (hf : Alike R f g) (cursor : Cursor) :
    Action.AgreeOr (Alike R) (fun e f' => errs e ∧ Flushing R cursor f' g ∧
        (e.isTransient = true → Action.AllFail (f.config.maxRetries + 1)
          (fun attempt => flushOnceIn (orders attempt) cursor) f))
      (flushIn orders cursor f) (flushIn otherOrders cursor g) := by
  by_cases hValid : g.log.pending.Valid
  · rw [flushIn_eq_flushOnceIn, flushIn]
    exact Action.attempting_falters (Q := fun f => Flushing R cursor f g)
      (fun attempt f hf => flushOnceIn_falters h (.inl hValid) hf)
      (fun e g' hFails => (lasting_flushOnceIn _ cursor).of_error hFails) f.config.maxRetries
      ⟨hf.log.flushing cursor, { hf with log := { hf.log with store := trivial } }⟩
  · obtain rfl := hOrders.resolve_left hValid
    cases hCheck : Operation.validateAll ((orders 0).list g.log.pending) with
    | ok _ => exact absurd ((OperationLog.validateAll_list_eq_ok_iff _ _).mp hCheck) hValid
    | error e =>
      rw [flushIn_eq_of_invalid hCheck, flushIn_eq_of_invalid (hf.log.pending ▸ hCheck)]
      exact .inl (.error e hf)

/-- Handling an event comes to attempts of a step, the first of which is made in the state on the
right. -/
inductive Attempts (orders : Nat → PendingSet.Order) (f : Follower σ) :
    Event → (Nat → Action (Follower σ) Nat) → Follower σ → Prop
  | purge {block : Block} {height : UInt64} (hApplies : ¬ f.Skips (.data block))
      (hFinal : f.lastFinalized = some height) :
      Attempts orders f (.data block) (fun _ => onLog (OperationLog.purge height))
        { f with caughtUp := true }
  | record {block : Block} {f₁ : Follower σ} (hApplies : ¬ f.Skips (.data block))
      (hPurge : Follower.purge { f with caughtUp := true } = .ok () f₁) :
      Attempts orders f (.data block)
        (fun _ => onLog (OperationLog.record block.number block.operations)) f₁
  | flush {block : Block} {f₁ f₂ f₃ : Follower σ} {count : Nat}
      (hApplies : ¬ f.Skips (.data block))
      (hPurge : Follower.purge { f with caughtUp := true } = .ok () f₁)
      (hRecord : retrying (OperationLog.record block.number block.operations) f₁ = .ok count f₂)
      (hAdd : onLog (OperationLog.add block.operations) f₂ = .ok () f₃)
      (hFlushes : flushesAt f₃.config.flushInterval block = true) :
      Attempts orders f (.data block) (fun attempt => flushOnceIn (orders attempt) block.cursor) f₃
  | replay {fork : Fork} (hApplies : ¬ f.Skips (.undo fork)) :
      Attempts orders f (.undo fork) (fun _ => onLog (OperationLog.replay fork.lastValidBlock)) f
  | flushBack {fork : Fork} {f₁ : Follower σ} {replayed : Nat} (hApplies : ¬ f.Skips (.undo fork))
      (hReplay : retrying (OperationLog.replay fork.lastValidBlock) f = .ok replayed f₁) :
      Attempts orders f (.undo fork) (fun attempt => flushOnceIn (orders attempt) fork.cursor) f₁
  | discard {fork : Fork} {f₁ f₂ : Follower σ} {replayed count : Nat}
      (hApplies : ¬ f.Skips (.undo fork))
      (hReplay : retrying (OperationLog.replay fork.lastValidBlock) f = .ok replayed f₁)
      (hFlush : flushIn orders fork.cursor f₁ = .ok count f₂) :
      Attempts orders f (.undo fork)
        (fun _ => onLog (OperationLog.discardAbove fork.lastValidBlock)) f₂

/-- In the course of handling an event a step fails too often. -/
def Founders (orders : Nat → PendingSet.Order) (f : Follower σ) (event : Event) : Prop :=
  ∃ steps f', f.Attempts orders event steps f' ∧ Action.AllFail (f'.config.maxRetries + 1) steps f'

/-- The first follower's store has a part of what the second one is about to write for a block. -/
def Torn (R : σ → Checkpointed → Prop) (block : Block) (f : Follower σ)
    (g : Follower Checkpointed) : Prop :=
  ∃ base contents, g.log.store.current.Accords base ∧ R f.log.store ⟨contents, g.log.store.saved⟩ ∧
    Contents.Underway base (OperationLog.writtenContents base
      (g.log.pending.addAll block.operations).operations block.cursor) contents

theorem Alike.skips_iff {σ τ : Type} {R : σ → τ → Prop} {f : Follower σ} {g : Follower τ}
    (hf : Alike R f g) (event : Event) : f.Skips event ↔ g.Skips event := by
  cases event <;> simp only [Skips, hf.caughtUp, hf.resumeFrom]

theorem purge_falters (h : Store.Falters R errs) (hf : Alike R f g) :
    Action.AgreeOr (Alike R) (fun e f' => errs e ∧ Alike R f' g ∧ (e.isTransient = true →
        ∃ height, f.lastFinalized = some height ∧
          Action.FailsInARow (f.config.maxRetries + 1) (onLog (OperationLog.purge height)) f))
      (purge f) (purge g) := by
  obtain hNone | ⟨height, hSome⟩ := Option.eq_none_or_eq_some f.lastFinalized
  · rw [purge_eq_of_none hNone, purge_eq_of_none (hf.lastFinalized.symm.trans hNone)]
    exact .inl (.ok () hf)
  · rw [purge_eq_of_some hSome, purge_eq_of_some (hf.lastFinalized.symm.trans hSome)]
    have hPurge := retried_falters (OperationLog.falters_onStore (UndoLog.falters_purge h height))
      (OperationLog.lasting_purge height) hf
    refine Action.AgreeOr.bind (hPurge.imp ?_) fun _ f' g' _ _ hf' => .inl (.ok () hf')
    rintro e f' ⟨hError, hStill, hInARow⟩
    exact ⟨hError, hStill, fun hTransient => ⟨height, hSome, hInARow hTransient⟩⟩

variable {orders otherOrders : Nat → PendingSet.Order}

theorem settleIn_falters (h : Store.Falters R errs)
    (hOrders : g.log.pending.Valid ∨ orders = otherOrders) (hf : Alike R f g) (block : Block) :
    Action.AgreeOr (Alike R) (fun e f' => errs e ∧ Flushing R block.cursor f' g ∧
        (e.isTransient = true → flushesAt f.config.flushInterval block = true ∧
          Action.AllFail (f.config.maxRetries + 1)
            (fun attempt => flushOnceIn (orders attempt) block.cursor) f))
      (settleIn orders block f) (settleIn otherOrders block g) := by
  simp only [settleIn, Action.get_bind_eq, ← hf.config]
  split
  case isTrue hFlushes =>
    refine Action.AgreeOr.bind ((flushIn_falters h hOrders hf block.cursor).imp ?_)
      fun count f' g' _ _ hf' => .inl (.ok () ?_)
    · rintro e f' ⟨hError, hStill, hInARow⟩
      exact ⟨hError, hStill, fun hTransient => ⟨hFlushes, hInARow hTransient⟩⟩
    · exact { hf' with lastFinalized := rfl, lastCursor := rfl, stats := by simp only [hf'.stats] }
  case isFalse =>
    exact .inl (.ok () { hf with
      lastFinalized := rfl
      lastCursor := rfl
      stats := by simp only [hf.stats] })

theorem onBlockIn_falters (h : Store.Falters R errs)
    (hOrders : g.log.pending.Valid ∨ orders = otherOrders) (hf : Alike R f g) (block : Block) :
    Action.AgreeOr (Alike R) (fun e f' => errs e ∧ Torn R block f' g ∧
        (e.isTransient = true → f.Founders orders (.data block)))
      (onBlockIn orders block f) (onBlockIn otherOrders block g) := by
  by_cases hSkips : f.Skips (.data block)
  · have hOther := (hf.skips_iff _).mp hSkips
    rw [onBlockIn_eq_of_passes orders hSkips.1 hSkips.2,
      onBlockIn_eq_of_passes otherOrders hOther.1 hOther.2]
    exact .inl (.ok () hf)
  · rw [onBlockIn_eq_of_not_skips orders hSkips,
      onBlockIn_eq_of_not_skips otherOrders (mt (hf.skips_iff _).mpr hSkips)]
    have hf₀ : Alike R { f with caughtUp := true } { g with caughtUp := true } :=
      { hf with caughtUp := rfl }
    refine Action.AgreeOr.bind ((purge_falters h hf₀).imp ?_) fun _ f₁ g₁ hPurge hPurge' hf₁ => ?_
    · rintro e f' ⟨hError, hStill, hInARow⟩
      refine ⟨hError, ⟨g.log.store.current, g.log.store.current, .refl _, hStill.log.store,
        .refl _ _⟩, fun hTransient => ?_⟩
      obtain ⟨height, hFinal, hFails⟩ := hInARow hTransient
      exact ⟨_, _, .purge hSkips hFinal, hFails⟩
    obtain ⟨-, hQuiet₁⟩ := purge_of_ok hPurge'
    have hRecord := retried_falters (OperationLog.falters_onStore
      (UndoLog.falters_record h block.number block.operations))
      (OperationLog.lasting_record block.number block.operations) hf₁
    refine Action.AgreeOr.bind (hRecord.imp ?_) fun _ f₂ g₂ hRecord hRecord' hf₂ => ?_
    · rintro e f' ⟨hError, hStill, hInARow⟩
      refine ⟨hError, ⟨g₁.log.store.current, g₁.log.store.current, hQuiet₁.accords, ?_,
        .refl _ _⟩, fun hTransient => ⟨_, _, .record hSkips hPurge, hInARow hTransient⟩⟩
      have hSaved : g₁.log.store.saved = g.log.store.saved := hQuiet₁.saved
      exact hSaved ▸ hStill.log.store
    obtain ⟨-, hQuiet₂, hKinds⟩ := record_of_ok hRecord'
    have hQuiet := hQuiet₁.trans hQuiet₂
    have hPending : g₂.log.pending = g.log.pending := hQuiet.pending
    refine Action.AgreeOr.bind (.inl (simulates_onLog (OperationLog.simulates_add block.operations)
      f₂ g₂ hf₂)) fun _ f₃ g₃ hAdd hAdd' hf₃ => ?_
    cases hAdd'
    have hOrders₃ : (g₂.log.pending.addAll block.operations).Valid ∨ orders = otherOrders :=
      hOrders.imp_left fun hValid => (hPending ▸ hValid).addAll hKinds
    refine (settleIn_falters h hOrders₃ hf₃ block).imp ?_
    rintro e f' ⟨hError, ⟨⟨_, _, contents, hContents, hUnderway, _⟩, _⟩, hInARow⟩
    refine ⟨hError, ⟨g₂.log.store.current, contents, hQuiet.accords, ?_, hPending ▸ hUnderway⟩,
      fun hTransient => ?_⟩
    · have hSaved : g₂.log.store.saved = g.log.store.saved := hQuiet.saved
      exact hSaved ▸ hContents
    · obtain ⟨hFlushes, hFails⟩ := hInARow hTransient
      exact ⟨_, _, .flush hSkips hPurge hRecord hAdd hFlushes, hFails⟩

theorem onForkIn_falters (h : Store.Falters R errs)
    (hOrders : g.log.pending.Valid ∨ orders = otherOrders) (hf : Alike R f g) (fork : Fork) :
    Action.AgreeOr (Alike R)
      (fun e _ => errs e ∧ (e.isTransient = true → f.Founders orders (.undo fork)))
      (onForkIn orders fork f) (onForkIn otherOrders fork g) := by
  by_cases hSkips : f.Skips (.undo fork)
  · have hOther := (hf.skips_iff _).mp hSkips
    rw [onForkIn_eq_of_passes orders hSkips.1 hSkips.2,
      onForkIn_eq_of_passes otherOrders hOther.1 hOther.2]
    exact .inl (.ok () hf)
  · rw [onForkIn_eq_of_not_skips orders hSkips,
      onForkIn_eq_of_not_skips otherOrders (mt (hf.skips_iff _).mpr hSkips)]
    have hReplay := retried_falters (OperationLog.falters_replay h fork.lastValidBlock)
      (OperationLog.lasting_replay fork.lastValidBlock) hf
    refine Action.AgreeOr.bind (hReplay.imp ?_) fun replayed f₁ g₁ hReplay hReplay' hf₁ => ?_
    · rintro e f' ⟨hError, -, hInARow⟩
      exact ⟨hError, fun hTransient => ⟨_, _, .replay hSkips, hInARow hTransient⟩⟩
    have hOrders₁ : g₁.log.pending.Valid ∨ orders = otherOrders :=
      hOrders.imp_left fun hValid => valid_of_replay hValid hReplay'
    refine Action.AgreeOr.bind ((flushIn_falters h hOrders₁ hf₁ fork.cursor).imp ?_)
      fun _ f₂ g₂ hFlush _ hf₂ => ?_
    · rintro e f' ⟨hError, -, hInARow⟩
      exact ⟨hError, fun hTransient => ⟨_, _, .flushBack hSkips hReplay, hInARow hTransient⟩⟩
    have hDiscard := retried_falters (OperationLog.falters_onStore
      (UndoLog.falters_discardAbove h fork.lastValidBlock))
      (OperationLog.lasting_discardAbove fork.lastValidBlock) hf₂
    refine Action.AgreeOr.bind (hDiscard.imp ?_) fun _ f₃ g₃ _ _ hf₃ => .inl (.ok () ?_)
    · rintro e f' ⟨hError, -, hInARow⟩
      exact ⟨hError, fun hTransient => ⟨_, _, .discard hSkips hReplay hFlush, hInARow hTransient⟩⟩
    · exact { hf₃ with
        resumeFrom := by simp only [hf₃.caughtUp, hf₃.resumeFrom]
        caughtUp := rfl
        lastCursor := rfl
        stats := by simp only [hf₃.stats] }

/-- An event comes to the same on a store with calls that fail as on one that never fails, in whatever
orders its attempts write, or it fails; and for a passing reason only if it founders. -/
theorem handleIn_falters (h : Store.Falters R errs)
    (hOrders : g.log.pending.Valid ∨ orders = otherOrders) (hf : Alike R f g) (event : Event) :
    Action.AgreeOr (Alike R)
      (fun e _ => errs e ∧ (e.isTransient = true → f.Founders orders event))
      (handleIn orders event f) (handleIn otherOrders event g) := by
  cases event with
  | data block =>
    exact (onBlockIn_falters h hOrders hf block).imp fun e _ hFails => ⟨hFails.1, hFails.2.2⟩
  | undo fork => exact onForkIn_falters h hOrders hf fork

/-- Where no call fails it makes no difference in which orders the changes of an event are written. -/
theorem exists_handleIn_of_ok (h : Store.Simulation R) (hValid : g.log.pending.Valid)
    (hf : Alike R f g) (orders : Nat → PendingSet.Order) {event : Event}
    {g' : Follower Checkpointed} (hRun : handle event g = .ok () g') :
    ∃ f', handleIn orders event f = .ok () f' ∧ Alike R f' g' ∧ g'.log.pending.Valid := by
  have hAgree : Action.Agree (Alike R) (handleIn orders event f) (handle event g) :=
    (handleIn_falters (h.falters fun _ => False) (.inl hValid) hf event).resolve_right
      fun ⟨_, _, _, hNone, _⟩ => hNone
  rw [hRun] at hAgree
  obtain ⟨f', hRun', hf'⟩ := hAgree.exists_of_ok
  exact ⟨f', hRun', hf', valid_of_handleIn hValid hRun⟩

theorem cursor_eq_none_of_getCursor {g' : Follower Checkpointed}
    (h : onLog OperationLog.getCursor g = .error .cursorNotFound g') :
    g' = g ∧ g.log.store.current[Key.cursor]? = none := by
  simp only [onLog, Action.within] at h
  cases hCursor : g.log.store.current[Key.cursor]? with
  | none =>
    rw [OperationLog.getCursor_eq_of_none hCursor] at h
    cases h
    exact ⟨rfl, rfl⟩
  | some text =>
    rw [OperationLog.getCursor_eq_of_some hCursor] at h
    cases hDecode : Cursor.decode text with
    | ok cursor =>
      rw [hDecode] at h
      cases h
    | error e =>
      obtain ⟨reason, rfl⟩ := Cursor.decode_error hDecode
      rw [hDecode] at h
      cases h

/-- Where starting fails the cursor may be there already. -/
theorem start_falters (h : Store.Falters R errs) (hErrors : ∀ e, errs e → e ≠ .cursorNotFound)
    (hf : Alike R f g) :
    Action.AgreeOr (Alike R) (fun e f' => errs e ∧
        ∃ contents, R f'.log.store ⟨contents, g.log.store.saved⟩ ∧
          (contents = g.log.store.current ∨ g.log.store.current[Key.cursor]? = none ∧
            Contents.Underway g.log.store.current (g.log.store.current.insert Key.cursor
              (Cursor.blank (previousBlock g.config.startBlock)).encode) contents))
      (start f) (start g) := by
  obtain hAgree | ⟨e, f', hFails, hError, hStill⟩ :=
    falters_onLog (OperationLog.falters_getCursor h) f g hf
  · simp only [start]
    cases hGet : onLog OperationLog.getCursor g with
    | ok cursor g' =>
      rw [hGet] at hAgree
      generalize onLog OperationLog.getCursor f = result at hAgree
      cases hAgree with
      | ok _ hf' => exact .inl (.ok cursor { hf' with resumeFrom := rfl })
    | error e g' =>
      rw [hGet] at hAgree
      generalize onLog OperationLog.getCursor f = result at hAgree
      cases hAgree with
      | error _ hf' =>
        cases e with
        | cursorNotFound =>
          obtain ⟨rfl, hNone⟩ := cursor_eq_none_of_getCursor hGet
          have hWrite := OperationLog.writeCursor_falters h hf'.log
            (.blank (previousBlock g'.config.startBlock))
          simp only [onLog, Action.within, hf'.config]
          obtain hAgree | ⟨e, log, hFails, hError, contents, hStore, hUnderway⟩ := hWrite
          · left
            generalize OperationLog.writeCursor _ (_ : OperationLog σ) = result at hAgree
            generalize OperationLog.writeCursor _ g'.log = otherResult at hAgree
            cases hAgree with
            | ok _ hLog => exact .ok _ { hf' with log := hLog, config := rfl, resumeFrom := rfl }
            | error e hLog => exact .error e { hf' with log := hLog, config := rfl }
          · rw [hFails]
            exact .inr ⟨e, _, rfl, hError, contents, hStore, .inr ⟨hNone, hUnderway⟩⟩
        | _ => exact .inl (.error _ hf')
  · have hRun : start f = .error e f' := by
      simp only [start, hFails]
      cases e with
      | cursorNotFound => exact absurd rfl (hErrors _ hError)
      | _ => rfl
    exact .inr ⟨e, f', hRun, hError, _, hStill.log.store, .inl rfl⟩

end Follower

end ForkLog
