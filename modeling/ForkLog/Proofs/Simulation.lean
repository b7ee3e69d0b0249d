import Mathlib
import ForkLog.Follower
import ForkLog.Proofs.Action

/-! # Stores that behave alike

Two stores simulate each other when each call on one has the same outcome as on the other and leaves
them related. Whatever is made of calls is then the same on both: the undo log, the operation log
and the follower.
-/

namespace ForkLog

set_option autoImplicit false

namespace Action

variable {σ τ α β : Type} {R : σ → τ → Prop}

/-- The same outcome, and states that are related. -/
inductive Agree (R : σ → τ → Prop) :
    EStateM.Result Error σ α → EStateM.Result Error τ α → Prop
  | ok (a : α) {s : σ} {t : τ} (h : R s t) : Agree R (.ok a s) (.ok a t)
  | error (e : Error) {s : σ} {t : τ} (h : R s t) : Agree R (.error e s) (.error e t)

namespace Agree

variable {step : Action σ α} {other : Action τ α} {s : σ} {t : τ}

theorem exists_of_ok {result : EStateM.Result Error σ α} {a : α} (h : Agree R result (.ok a t)) :
    ∃ s, result = .ok a s ∧ R s t := by
  cases h with
  | ok _ hst => exact ⟨_, rfl, hst⟩

theorem exists_of_error {result : EStateM.Result Error σ α} {e : Error}
    (h : Agree R result (.error e t)) : ∃ s, result = .error e s ∧ R s t := by
  cases h with
  | error _ hst => exact ⟨_, rfl, hst⟩

theorem bind {next : α → Action σ β} {otherNext : α → Action τ β} (h : Agree R (step s) (other t))
    (hNext : ∀ a s' t', R s' t' → Agree R (next a s') (otherNext a t')) :
    Agree R ((step >>= next) s) ((other >>= otherNext) t) := by
  simp only [Bind.bind, EStateM.bind]
  generalize step s = result at h
  generalize other t = otherResult at h
  cases h with
  | ok a h' => exact hNext a _ _ h'
  | error e h' => exact .error e h'

theorem within_right {τ' : Type} {R' : σ → τ' → Prop} {view : τ' → τ} {update : τ' → τ → τ'}
    {t : τ'} (h : Agree R (step s) (other (view t)))
    (hUpdate : ∀ a b, R a b → R' a (update t b)) :
    Agree R' (step s) (Action.within view update other t) := by
  simp only [Action.within]
  generalize step s = result at h
  generalize other (view t) = otherResult at h
  cases h with
  | ok a h' => exact .ok a (hUpdate _ _ h')
  | error e h' => exact .error e (hUpdate _ _ h')

theorem within_left {σ' : Type} {R' : σ' → τ → Prop} {view : σ' → σ} {update : σ' → σ → σ'}
    {s : σ'} (h : Agree R (step (view s)) (other t))
    (hUpdate : ∀ a b, R a b → R' (update s a) b) :
    Agree R' (Action.within view update step s) (other t) := by
  simp only [Action.within]
  generalize step (view s) = result at h
  generalize other t = otherResult at h
  cases h with
  | ok a h' => exact .ok a (hUpdate _ _ h')
  | error e h' => exact .error e (hUpdate _ _ h')

theorem within {σ' τ' : Type} {R' : σ' → τ' → Prop} {view : σ' → σ} {otherView : τ' → τ}
    {update : σ' → σ → σ'} {otherUpdate : τ' → τ → τ'} {s : σ'} {t : τ'}
    (h : Agree R (step (view s)) (other (otherView t)))
    (hUpdate : ∀ a b, R a b → R' (update s a) (otherUpdate t b)) :
    Agree R' (Action.within view update step s) (Action.within otherView otherUpdate other t) := by
  have hLeft : Agree (fun a b => R' a (otherUpdate t b)) (Action.within view update step s)
      (other (otherView t)) := h.within_left hUpdate
  exact hLeft.within_right fun _ _ => id

end Agree

def Simulates (R : σ → τ → Prop) (step : Action σ α) (other : Action τ α) : Prop :=
  ∀ s t, R s t → Agree R (step s) (other t)

namespace Simulates

theorem pure (a : α) : Simulates R (Pure.pure a) (Pure.pure a) := fun _ _ h => .ok a h

theorem exists_of_ok {step : Action σ α} {other : Action τ α} (h : Simulates R step other) {s : σ}
    {t t' : τ} {a : α} (hst : R s t) (hOk : other t = .ok a t') :
    ∃ s', step s = .ok a s' ∧ R s' t' :=
  Agree.exists_of_ok (hOk ▸ h s t hst)

theorem exists_of_error {step : Action σ α} {other : Action τ α} (h : Simulates R step other) {s : σ}
    {t t' : τ} {e : Error} (hst : R s t) (hFails : other t = .error e t') :
    ∃ s', step s = .error e s' ∧ R s' t' :=
  Agree.exists_of_error (hFails ▸ h s t hst)

theorem exists_of_step_ok {step : Action σ α} {other : Action τ α} (h : Simulates R step other)
    {s s' : σ} {t : τ} {a : α} (hst : R s t) (hOk : step s = .ok a s') :
    ∃ t', other t = .ok a t' ∧ R s' t' := by
  have hAgree := h s t hst
  rw [hOk] at hAgree
  generalize other t = result at hAgree
  cases hAgree with
  | ok _ h' => exact ⟨_, rfl, h'⟩

theorem outcome_eq {step : Action σ α} {other : Action τ α} (h : Simulates R step other) {s : σ}
    {t : τ} (hst : R s t) : step.outcome s = other.outcome t := by
  have hAgree := h s t hst
  simp only [Action.outcome]
  generalize step s = result at hAgree
  generalize other t = otherResult at hAgree
  cases hAgree with
  | ok _ _ => rfl
  | error _ _ => rfl

theorem leave {step : Action σ α} {other : Action τ α} (h : Simulates R step other) {s : σ} {t : τ}
    (hst : R s t) : R (step.leave s) (other.leave t) := by
  have hAgree := h s t hst
  simp only [Action.leave]
  generalize step s = result at hAgree
  generalize other t = otherResult at hAgree
  cases hAgree with
  | ok _ h' => exact h'
  | error _ h' => exact h'

theorem refl (step : Action σ α) : Simulates Eq step step := by
  rintro s _ rfl
  cases step s with
  | ok a s' => exact .ok a rfl
  | error e s' => exact .error e rfl

theorem throw (e : Error) :
    Simulates R (MonadExcept.throw e : Action σ α) (MonadExcept.throw e) := fun _ _ h => .error e h

theorem ofExcept (result : Except Error α) :
    Simulates R (Action.ofExcept result) (Action.ofExcept result) := by
  intro s t h
  cases result with
  | ok a => exact .ok a h
  | error e => exact .error e h

theorem bind {step : Action σ α} {other : Action τ α} {next : α → Action σ β}
    {otherNext : α → Action τ β} (h : Simulates R step other)
    (hNext : ∀ a, Simulates R (next a) (otherNext a)) :
    Simulates R (step >>= next) (other >>= otherNext) := fun s t hst =>
  (h s t hst).bind hNext

theorem get_bind {next : σ → Action σ β} {otherNext : τ → Action τ β}
    (h : ∀ s t, R s t → Agree R (next s s) (otherNext t t)) :
    Simulates R (get >>= next) (get >>= otherNext) := fun s t hst => h s t hst

theorem attempting {steps : Nat → Action σ α} {others : Nat → Action τ α}
    (h : ∀ attempt, Simulates R (steps attempt) (others attempt)) (limit : Nat) :
    Simulates R (Action.attempting limit steps) (Action.attempting limit others) := by
  induction limit generalizing steps others with
  | zero => exact h 0
  | succ limit ih =>
    intro s t hst
    have hStep := h 0 s t hst
    simp only [Action.attempting]
    generalize steps 0 s = result at hStep
    generalize others 0 t = otherResult at hStep
    cases hStep with
    | ok a h' => exact .ok a h'
    | error e h' =>
      by_cases hTransient : e.isTransient = true
      · simp only [hTransient, if_true]
        exact ih (fun attempt => h (attempt + 1)) _ _ h'
      · simp only [hTransient]
        exact .error e h'

theorem retrying {step : Action σ α} {other : Action τ α} (h : Simulates R step other)
    (limit : Nat) : Simulates R (Action.retrying limit step) (Action.retrying limit other) :=
  .attempting (fun _ => h) limit

theorem within {σ' τ' : Type} {R' : σ' → τ' → Prop} {view : σ' → σ} {otherView : τ' → τ}
    {update : σ' → σ → σ'} {otherUpdate : τ' → τ → τ'} {step : Action σ α} {other : Action τ α}
    (hView : ∀ s t, R' s t → R (view s) (otherView t))
    (hUpdate : ∀ s t a b, R' s t → R a b → R' (update s a) (otherUpdate t b))
    (h : Simulates R step other) :
    Simulates R' (Action.within view update step) (Action.within otherView otherUpdate other) :=
  fun s t hst => (h _ _ (hView s t hst)).within fun a b => hUpdate s t a b hst

end Simulates

end Action

/-- Every call has the same outcome on both stores and leaves them related. -/
structure Store.Simulation {σ τ : Type} [Store σ] [Store τ] (R : σ → τ → Prop) : Prop where
  get : ∀ key, Action.Simulates R (Store.get key) (Store.get key)
  getMany : ∀ keys, Action.Simulates R (Store.getMany keys) (Store.getMany keys)
  put : ∀ key value, Action.Simulates R (Store.put key value) (Store.put key value)
  deleteMany : ∀ keys, Action.Simulates R (Store.deleteMany keys) (Store.deleteMany keys)
  range : ∀ start stop limit,
    Action.Simulates R (Store.range start stop limit) (Store.range start stop limit)
  startingWith : ∀ beginning limit,
    Action.Simulates R (Store.startingWith beginning limit) (Store.startingWith beginning limit)
  sync : Action.Simulates R Store.sync Store.sync

theorem Store.Simulation.refl {σ : Type} [Store σ] : Store.Simulation (Eq : σ → σ → Prop) where
  get _ := .refl _
  getMany _ := .refl _
  put _ _ := .refl _
  deleteMany _ := .refl _
  range _ _ _ := .refl _
  startingWith _ _ := .refl _
  sync := .refl _

namespace UndoLog

variable {σ τ : Type} [Store σ] [Store τ] {R : σ → τ → Prop}

theorem simulates_inverse (h : Store.Simulation R) (ops : List Operation) :
    Action.Simulates R (inverse ops) (inverse ops) :=
  .bind (.ofExcept _) fun _ => .bind (h.getMany _) fun _ => .pure _

theorem simulates_record (h : Store.Simulation R) (block : UInt64) (ops : List Operation) :
    Action.Simulates R (record block ops) (record block ops) :=
  .bind (simulates_inverse h ops) fun _ => .bind (h.put _ _) fun _ => .pure _

theorem simulates_deleteEntries (h : Store.Simulation R) (entries : List Entry) :
    Action.Simulates R (deleteEntries entries) (deleteEntries entries) := by
  unfold deleteEntries
  split
  · exact .pure 0
  · exact .bind (h.deleteMany _) fun _ => .pure _

theorem simulates_purge (h : Store.Simulation R) (height : UInt64) :
    Action.Simulates R (purge height) (purge height) :=
  .bind (h.range _ _ _) fun entries => simulates_deleteEntries h entries

theorem simulates_discardAbove (h : Store.Simulation R) (height : UInt64) :
    Action.Simulates R (discardAbove height) (discardAbove height) :=
  .bind (h.range _ _ _) fun entries => simulates_deleteEntries h entries

theorem simulates_batchesAbove (h : Store.Simulation R) (height : UInt64) :
    Action.Simulates R (batchesAbove height) (batchesAbove height) :=
  .bind (h.range _ _ _) fun _ => .ofExcept _

theorem simulates_blocks (h : Store.Simulation R) :
    Action.Simulates R (blocks : Action σ (List UInt64)) blocks :=
  .bind (h.range _ _ _) fun _ => .pure _

end UndoLog

namespace OperationLog

variable {σ τ : Type} {R : σ → τ → Prop}

/-- Logs that differ in their stores only, which are related. -/
structure Alike (R : σ → τ → Prop) (log : OperationLog σ) (other : OperationLog τ) : Prop where
  store : R log.store other.store
  pending : log.pending = other.pending
  lastCursor : log.lastCursor = other.lastCursor

theorem simulates_onStore {α : Type} {step : Action σ α} {other : Action τ α}
    (h : Action.Simulates R step other) :
    Action.Simulates (Alike R) (onStore step) (onStore other) :=
  .within (fun _ _ hLog => hLog.store) (fun _ _ _ _ hLog hStore => { hLog with store := hStore }) h

theorem simulates_add (ops : List Operation) :
    Action.Simulates (Alike R) (add ops : Action (OperationLog σ) Unit) (add ops) :=
  fun _ _ hLog => .ok () { hLog with pending := by rw [hLog.pending] }

theorem simulates_setLastCursor (cursor : Cursor) :
    Action.Simulates (Alike R) (setLastCursor cursor : Action (OperationLog σ) Unit)
      (setLastCursor cursor) :=
  fun _ _ hLog => .ok () { hLog with lastCursor := rfl }

theorem simulates_clearPending :
    Action.Simulates (Alike R) (clearPending : Action (OperationLog σ) Unit) clearPending :=
  fun _ _ hLog => .ok () { hLog with pending := rfl }

variable [Store σ] [Store τ]

theorem simulates_replay (h : Store.Simulation R) (height : UInt64) :
    Action.Simulates (Alike R) (replay height) (replay height) :=
  .bind (simulates_onStore (UndoLog.simulates_batchesAbove h height)) fun batches =>
    .bind (simulates_add batches.flatten) fun _ => .pure _

theorem simulates_putAll (h : Store.Simulation R) (ops : List Operation) :
    Action.Simulates R (putAll ops) (putAll ops) := by
  induction ops with
  | nil => exact .pure ()
  | cons op ops ih => exact .bind (h.put _ _) fun _ => ih

theorem simulates_putCursor (h : Store.Simulation R) (cursor : Cursor) :
    Action.Simulates R (putCursor cursor) (putCursor cursor) :=
  .bind (h.put _ _) fun _ => h.sync

theorem simulates_writeOut (h : Store.Simulation R) (ops : List Operation) (cursor : Cursor) :
    Action.Simulates R (writeOut ops cursor) (writeOut ops cursor) := by
  refine .bind (.ofExcept _) fun _ => .bind (simulates_putAll h _) fun _ => ?_
  simp only []
  split
  · exact .bind (h.deleteMany _) fun _ => .bind (simulates_putCursor h cursor) fun _ => .pure _
  · exact .bind (simulates_putCursor h cursor) fun _ => .pure _

theorem simulates_flushListed (h : Store.Simulation R) (listing : List Operation)
    (cursor : Cursor) :
    Action.Simulates (Alike R) (flushListed listing cursor) (flushListed listing cursor) := by
  apply Action.Simulates.get_bind
  intro log other hLog
  rw [hLog.pending, hLog.lastCursor]
  split
  · exact .ok 0 hLog
  · have hWrite := simulates_onStore (simulates_writeOut h listing cursor)
    exact (hWrite.bind fun count => simulates_clearPending.bind fun _ =>
      (simulates_setLastCursor cursor).bind fun _ => .pure count) log other hLog

theorem simulates_flushIn (h : Store.Simulation R) (order : PendingSet.Order) (cursor : Cursor) :
    Action.Simulates (Alike R) (flushIn order cursor) (flushIn order cursor) := by
  apply Action.Simulates.get_bind
  intro log other hLog
  rw [hLog.pending]
  exact simulates_flushListed h _ cursor log other hLog

theorem simulates_flush (h : Store.Simulation R) (cursor : Cursor) :
    Action.Simulates (Alike R) (flush cursor) (flush cursor) :=
  simulates_flushIn h .sorted cursor

theorem simulates_getCursor (h : Store.Simulation R) :
    Action.Simulates (Alike R) (getCursor : Action (OperationLog σ) Cursor) getCursor := by
  refine .bind (simulates_onStore (h.get Key.cursor)) fun text => ?_
  cases text with
  | none => exact .throw _
  | some text => exact .ofExcept _

theorem simulates_writeCursor (h : Store.Simulation R) (cursor : Cursor) :
    Action.Simulates (Alike R) (writeCursor cursor) (writeCursor cursor) :=
  .bind (simulates_onStore (simulates_putCursor h cursor)) fun _ => simulates_setLastCursor cursor

end OperationLog

namespace Follower

variable {σ τ : Type} {R : σ → τ → Prop}

/-- Followers that differ in their stores only, which are related. -/
structure Alike (R : σ → τ → Prop) (f : Follower σ) (other : Follower τ) : Prop where
  log : OperationLog.Alike R f.log other.log
  config : f.config = other.config
  stats : f.stats = other.stats
  stopRequested : f.stopRequested = other.stopRequested
  lastFinalized : f.lastFinalized = other.lastFinalized
  lastCursor : f.lastCursor = other.lastCursor
  resumeFrom : f.resumeFrom = other.resumeFrom
  caughtUp : f.caughtUp = other.caughtUp

theorem alike_ofStore {store : σ} {other : τ} (h : R store other) (config : Config) :
    Alike R (ofLog (.ofStore store) config) (ofLog (.ofStore other) config) :=
  ⟨⟨h, rfl, rfl⟩, rfl, rfl, rfl, rfl, rfl, rfl, rfl⟩

theorem simulates_onLog {α : Type} {step : Action (OperationLog σ) α}
    {other : Action (OperationLog τ) α} (h : Action.Simulates (OperationLog.Alike R) step other) :
    Action.Simulates (Alike R) (onLog step) (onLog other) :=
  .within (fun _ _ hf => hf.log) (fun _ _ _ _ hf hLog => { hf with log := hLog }) h

theorem simulates_update {change : Follower σ → Follower σ} {other : Follower τ → Follower τ}
    (h : ∀ f g, Alike R f g → Alike R (change f) (other g)) :
    Action.Simulates (Alike R) (update change) (update other) :=
  fun f g hf => .ok () (h f g hf)

theorem simulates_retrying {α : Type} {step : Action (OperationLog σ) α}
    {other : Action (OperationLog τ) α} (h : Action.Simulates (OperationLog.Alike R) step other) :
    Action.Simulates (Alike R) (retrying step) (retrying other) := by
  intro f g hf
  rw [retrying, retrying, hf.config]
  exact (simulates_onLog h).retrying _ f g hf

variable [Store σ] [Store τ]

theorem simulates_flushIn (h : Store.Simulation R) (orders : Nat → PendingSet.Order)
    (cursor : Cursor) :
    Action.Simulates (Alike R) (flushIn orders cursor) (flushIn orders cursor) := by
  intro f g hf
  rw [flushIn, flushIn, hf.config]
  refine Action.Simulates.attempting (fun attempt => ?_) _ f g hf
  refine (simulates_onLog (OperationLog.simulates_flushIn h (orders attempt) cursor)).bind
    fun count => ?_
  refine (simulates_update fun f g hf => ?_).bind fun _ => .pure count
  exact { hf with stats := by rw [hf.stats] }

theorem simulates_purge (h : Store.Simulation R) :
    Action.Simulates (Alike R) (purge : Action (Follower σ) Unit) purge := by
  apply Action.Simulates.get_bind
  intro f g hf
  rw [hf.lastFinalized]
  cases g.lastFinalized with
  | none => exact .ok () hf
  | some height =>
    have hPurge := OperationLog.simulates_onStore (UndoLog.simulates_purge h height)
    exact ((simulates_retrying hPurge).bind fun _ => .pure ()) f g hf

theorem simulates_applyIn (h : Store.Simulation R) (orders : Nat → PendingSet.Order)
    (block : Block) :
    Action.Simulates (Alike R) (applyIn orders block) (applyIn orders block) := by
  refine (simulates_purge h).bind fun _ => ?_
  refine (simulates_retrying (OperationLog.simulates_onStore
    (UndoLog.simulates_record h block.number block.operations))).bind fun _ => ?_
  refine (simulates_onLog (OperationLog.simulates_add block.operations)).bind fun _ => ?_
  apply Action.Simulates.get_bind
  intro f g hf
  rw [hf.config]
  have hUpdate : Action.Simulates (Alike R)
      (update fun f : Follower σ => { f with
        lastFinalized := some block.finalizedHeight
        lastCursor := some block.cursor
        stats := f.stats.recordBlock block.number block.finalizedHeight })
      (update fun f : Follower τ => { f with
        lastFinalized := some block.finalizedHeight
        lastCursor := some block.cursor
        stats := f.stats.recordBlock block.number block.finalizedHeight }) :=
    simulates_update fun f g hf =>
      { hf with lastFinalized := rfl, lastCursor := rfl, stats := by rw [hf.stats] }
  split
  · exact ((simulates_flushIn h orders block.cursor).bind fun _ => hUpdate) f g hf
  · exact hUpdate f g hf

theorem simulates_onBlockIn (h : Store.Simulation R) (orders : Nat → PendingSet.Order)
    (block : Block) :
    Action.Simulates (Alike R) (onBlockIn orders block) (onBlockIn orders block) := by
  apply Action.Simulates.get_bind
  intro f g hf
  rw [hf.caughtUp, hf.resumeFrom]
  split
  · exact .ok () hf
  · refine ((simulates_update fun f g hf => ?_).bind
      fun _ => simulates_applyIn h orders block) f g hf
    exact { hf with caughtUp := rfl }

theorem simulates_takeBackIn (h : Store.Simulation R) (orders : Nat → PendingSet.Order)
    (fork : Fork) :
    Action.Simulates (Alike R) (takeBackIn orders fork) (takeBackIn orders fork) := by
  refine (simulates_retrying (OperationLog.simulates_replay h fork.lastValidBlock)).bind
    fun replayed => ?_
  refine (simulates_flushIn h orders fork.cursor).bind fun _ => ?_
  refine (simulates_retrying (OperationLog.simulates_onStore
    (UndoLog.simulates_discardAbove h fork.lastValidBlock))).bind fun _ => ?_
  refine simulates_update fun f g hf => ?_
  exact { hf with
    resumeFrom := by rw [hf.caughtUp, hf.resumeFrom]
    caughtUp := rfl, lastCursor := rfl, stats := by rw [hf.stats] }

theorem simulates_onForkIn (h : Store.Simulation R) (orders : Nat → PendingSet.Order)
    (fork : Fork) :
    Action.Simulates (Alike R) (onForkIn orders fork) (onForkIn orders fork) := by
  apply Action.Simulates.get_bind
  intro f g hf
  rw [hf.caughtUp, hf.resumeFrom]
  split
  · exact .ok () hf
  · exact simulates_takeBackIn h orders fork f g hf

theorem simulates_handleIn (h : Store.Simulation R) (orders : Nat → PendingSet.Order)
    (event : Event) :
    Action.Simulates (Alike R) (handleIn orders event) (handleIn orders event) := by
  cases event with
  | data block => exact simulates_onBlockIn h orders block
  | undo fork => exact simulates_onForkIn h orders fork

theorem simulates_start (h : Store.Simulation R) :
    Action.Simulates (Alike R) (start : Action (Follower σ) Cursor) start := by
  intro f g hf
  have hGet := simulates_onLog (OperationLog.simulates_getCursor h) f g hf
  unfold start
  generalize onLog OperationLog.getCursor f = result at hGet
  generalize onLog OperationLog.getCursor g = otherResult at hGet
  cases hGet with
  | ok cursor hf' => exact .ok cursor { hf' with resumeFrom := rfl }
  | @error e f' g' hf' =>
    cases e with
    | cursorNotFound =>
      have hWrite := simulates_onLog (OperationLog.simulates_writeCursor h
        (.blank (previousBlock g'.config.startBlock))) f' g' hf'
      simp only [hf'.config]
      generalize onLog (OperationLog.writeCursor _) f' = result at hWrite
      generalize onLog (OperationLog.writeCursor _) g' = otherResult at hWrite
      cases hWrite with
      | ok _ hf'' => exact .ok _ { hf'' with resumeFrom := by simp only [hf''.config] }
      | error e hf'' => exact .error e hf''
    | _ => exact .error _ hf'

theorem simulates_shutdownIn (h : Store.Simulation R) (orders : Nat → PendingSet.Order) :
    Action.Simulates (Alike R) (shutdownIn orders : Action (Follower σ) Unit)
      (shutdownIn orders) := by
  apply Action.Simulates.get_bind
  intro f g hf
  rw [hf.lastCursor]
  cases g.lastCursor with
  | none => exact .ok () hf
  | some cursor => exact ((simulates_flushIn h orders cursor).bind fun _ => .pure ()) f g hf

/-- As long as every event is handled alike, so is what is consumed. `safe` is what the events to come
need of the follower for it. -/
theorem alike_consume_of_handle {orders otherOrders : Nat → Nat → PendingSet.Order}
    (safe : List Arrival → Nat → Follower σ → Prop)
    (hHandle : ∀ event rest taken f (g : Follower τ), safe (⟨.ok event, false⟩ :: rest) taken f →
      f.stopRequested = false → Alike R f g →
        Action.Agree (Alike R) (handleIn (orders taken) event f)
          (handleIn (otherOrders taken) event g))
    (hSafe : ∀ event rest taken f f', safe (⟨.ok event, false⟩ :: rest) taken f →
      f.stopRequested = false → handleIn (orders taken) event f = .ok () f' →
        safe rest (taken + 1) f')
    (arrivals : List Arrival) (taken : Nat) {f : Follower σ} {g : Follower τ} (hf : Alike R f g)
    (h : safe arrivals taken f) :
    (consumeIn orders arrivals taken f).1 = (consumeIn otherOrders arrivals taken g).1 ∧
      Alike R (consumeIn orders arrivals taken f).2 (consumeIn otherOrders arrivals taken g).2 := by
  induction arrivals generalizing taken f g with
  | nil => exact ⟨rfl, hf⟩
  | cons arrival rest ih =>
    obtain ⟨item, stopping⟩ := arrival
    cases stopping with
    | true => exact ⟨rfl, { hf with stopRequested := rfl }⟩
    | false =>
      simp only [consumeIn, Bool.false_eq_true, if_false, ← hf.stopRequested]
      cases hGoing : f.stopRequested with
      | true => exact ⟨rfl, hf⟩
      | false =>
        cases item with
        | error e => exact ⟨rfl, hf⟩
        | ok event =>
          have hAgree := hHandle event rest taken f g h hGoing hf
          have hNext (f' : Follower σ) := hSafe event rest taken f f' h hGoing
          simp only [Bool.false_eq_true, if_false]
          generalize handleIn (orders taken) event f = result at hAgree hNext
          generalize handleIn (otherOrders taken) event g = otherResult at hAgree
          cases hAgree with
          | ok _ h' => exact ih (taken + 1) h' (hNext _ rfl)
          | error e h' => exact ⟨rfl, h'⟩

theorem alike_consumeIn (h : Store.Simulation R) (orders : Nat → Nat → PendingSet.Order)
    (arrivals : List Arrival) (taken : Nat) {f : Follower σ} {g : Follower τ} (hf : Alike R f g) :
    (consumeIn orders arrivals taken f).1 = (consumeIn orders arrivals taken g).1 ∧
      Alike R (consumeIn orders arrivals taken f).2 (consumeIn orders arrivals taken g).2 :=
  alike_consume_of_handle (fun _ _ _ => True)
    (fun event _ taken f g _ _ => simulates_handleIn h (orders taken) event f g)
    (fun _ _ _ _ _ _ _ _ => trivial) arrivals taken hf trivial

/-- Runs agree when what they consumed does, and the shutdown after it where there is one. -/
theorem alike_run_of_consume {orders otherOrders : Nat → Nat → PendingSet.Order}
    {arrivals : List Arrival} {f : Follower σ} {g : Follower τ}
    (hResult : (consumeIn orders arrivals 0 f).1 = (consumeIn otherOrders arrivals 0 g).1)
    (hConsumed : Alike R (consumeIn orders arrivals 0 f).2 (consumeIn otherOrders arrivals 0 g).2)
    (hShutdown : flushesAfter (consumeIn orders arrivals 0 f).1.outcome = true →
      Action.Agree (Alike R)
        (shutdownIn (orders (consumeIn orders arrivals 0 f).1.taken)
          (consumeIn orders arrivals 0 f).2)
        (shutdownIn (otherOrders (consumeIn orders arrivals 0 f).1.taken)
          (consumeIn otherOrders arrivals 0 g).2)) :
    (runIn orders arrivals f).1 = (runIn otherOrders arrivals g).1 ∧
      Alike R (runIn orders arrivals f).2 (runIn otherOrders arrivals g).2 := by
  simp only [runIn]
  generalize consumeIn orders arrivals 0 f = left at hResult hConsumed hShutdown
  generalize consumeIn otherOrders arrivals 0 g = right at hResult hConsumed hShutdown
  obtain ⟨result, f'⟩ := left
  obtain ⟨_, g'⟩ := right
  obtain rfl : result = _ := hResult
  simp only []
  split
  case isFalse => exact ⟨rfl, hConsumed⟩
  case isTrue hFlushes =>
    have hEnding := hShutdown hFlushes
    simp only [] at hEnding
    generalize shutdownIn (orders result.taken) f' = ending at hEnding
    generalize shutdownIn (otherOrders result.taken) g' = otherEnding at hEnding
    cases hEnding with
    | ok _ h' => exact ⟨rfl, h'⟩
    | error e h' => cases result.outcome <;> exact ⟨rfl, h'⟩

theorem alike_runIn (h : Store.Simulation R) (orders : Nat → Nat → PendingSet.Order)
    (arrivals : List Arrival) {f : Follower σ} {g : Follower τ} (hf : Alike R f g) :
    (runIn orders arrivals f).1 = (runIn orders arrivals g).1 ∧
      Alike R (runIn orders arrivals f).2 (runIn orders arrivals g).2 := by
  obtain ⟨hResult, hConsumed⟩ := alike_consumeIn h orders arrivals 0 hf
  exact alike_run_of_consume hResult hConsumed fun _ => simulates_shutdownIn h _ _ _ hConsumed

theorem simulates_handle (h : Store.Simulation R) (event : Event) :
    Action.Simulates (Alike R) (handle event) (handle event) :=
  simulates_handleIn h sorted event

theorem simulates_shutdown (h : Store.Simulation R) :
    Action.Simulates (Alike R) (shutdown : Action (Follower σ) Unit) shutdown :=
  simulates_shutdownIn h sorted

theorem alike_consume (h : Store.Simulation R) (arrivals : List Arrival) (taken : Nat)
    {f : Follower σ} {g : Follower τ} (hf : Alike R f g) :
    (consume arrivals taken f).1 = (consume arrivals taken g).1 ∧
      Alike R (consume arrivals taken f).2 (consume arrivals taken g).2 :=
  alike_consumeIn h (fun _ => sorted) arrivals taken hf

theorem alike_run (h : Store.Simulation R) (arrivals : List Arrival) {f : Follower σ}
    {g : Follower τ} (hf : Alike R f g) :
    (run arrivals f).1 = (run arrivals g).1 ∧ Alike R (run arrivals f).2 (run arrivals g).2 :=
  alike_runIn h (fun _ => sorted) arrivals hf

end Follower

end ForkLog
