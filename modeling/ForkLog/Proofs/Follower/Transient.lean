import Mathlib
import ForkLog.Proofs.Follower.Faltering
import ForkLog.Proofs.Follower.Restart

/-! # Failures that pass

Where calls fail for passing reasons only, and no step fails more often in a row than it may be made
again, a run is not told apart from one on a store that never fails, in whatever orders the attempts of
both write.
-/

namespace ForkLog

set_option autoImplicit false

namespace Follower

variable {σ τ υ : Type}

section

variable [Store σ] {orders : Nat → Nat → PendingSet.Order} {f f' g : Follower σ}
  {steps : Nat → Action (Follower σ) Nat} {event : Event} {arrivals : List Arrival} {taken : Nat}

theorem handleIn_error_of_attempts {orders : Nat → PendingSet.Order}
    (h : f.Attempts orders event steps f')
    (hFails : Action.AllFail (f'.config.maxRetries + 1) steps f') :
    ∃ e g, handleIn orders event f = .error e g ∧ e.isTransient = true := by
  obtain ⟨e, g, hError, hTransient⟩ := Action.allFail_iff.mp hFails
  refine ⟨e, g, ?_, hTransient⟩
  cases h with
  | @purge block height hApplies hFinal =>
    have hPurge : purge { f with caughtUp := true } = .error e g :=
      (purge_eq_of_some (f := { f with caughtUp := true }) hFinal).trans
        (Action.bind_eq_of_error hError _)
    exact (onBlockIn_eq_of_not_skips orders hApplies).trans (Action.bind_eq_of_error hPurge _)
  | record hApplies hPurge =>
    exact (onBlockIn_eq_of_not_skips orders hApplies).trans ((Action.bind_eq_of_ok hPurge _).trans
      (Action.bind_eq_of_error hError _))
  | @flush block f₁ f₂ _ count hApplies hPurge hRecord hAdd hFlushes =>
    have hSettle : settleIn orders block f' = .error e g := by
      simp only [settleIn, Action.get_bind_eq, hFlushes, if_true]
      exact Action.bind_eq_of_error hError _
    exact (onBlockIn_eq_of_not_skips orders hApplies).trans ((Action.bind_eq_of_ok hPurge _).trans
      ((Action.bind_eq_of_ok hRecord _).trans ((Action.bind_eq_of_ok hAdd _).trans hSettle)))
  | replay hApplies =>
    exact (onForkIn_eq_of_not_skips orders hApplies).trans (Action.bind_eq_of_error hError _)
  | flushBack hApplies hReplay =>
    exact (onForkIn_eq_of_not_skips orders hApplies).trans ((Action.bind_eq_of_ok hReplay _).trans
      (Action.bind_eq_of_error hError _))
  | discard hApplies hReplay hFlush =>
    exact (onForkIn_eq_of_not_skips orders hApplies).trans ((Action.bind_eq_of_ok hReplay _).trans
      ((Action.bind_eq_of_ok hFlush _).trans (Action.bind_eq_of_error hError _)))

/-- Among the events of a run, of which so many were taken before, one comes to attempts of a step. -/
inductive ConsumeAttempts (orders : Nat → Nat → PendingSet.Order) :
    List Arrival → Nat → Follower σ → (Nat → Action (Follower σ) Nat) → Follower σ → Prop
  | here {rest : List Arrival} {taken : Nat} {f : Follower σ} {event : Event}
      {steps : Nat → Action (Follower σ) Nat} {f' : Follower σ} (hGoing : f.stopRequested = false)
      (hEvent : f.Attempts (orders taken) event steps f') :
      ConsumeAttempts orders (⟨.ok event, false⟩ :: rest) taken f steps f'
  | later {rest : List Arrival} {taken : Nat} {f g : Follower σ} {event : Event}
      {steps : Nat → Action (Follower σ) Nat} {f' : Follower σ} (hGoing : f.stopRequested = false)
      (hHandle : handleIn (orders taken) event f = .ok () g)
      (hRest : ConsumeAttempts orders rest (taken + 1) g steps f') :
      ConsumeAttempts orders (⟨.ok event, false⟩ :: rest) taken f steps f'

/-- A run comes to attempts of a step: in an event, or as it flushes at its end. -/
inductive RunAttempts (orders : Nat → Nat → PendingSet.Order) (arrivals : List Arrival)
    (f : Follower σ) : (Nat → Action (Follower σ) Nat) → Follower σ → Prop
  | event {steps : Nat → Action (Follower σ) Nat} {f' : Follower σ}
      (hEvents : ConsumeAttempts orders arrivals 0 f steps f') :
      RunAttempts orders arrivals f steps f'
  | shutdown {result : RunResult} {g : Follower σ} {cursor : Cursor}
      (hConsume : consumeIn orders arrivals 0 f = (result, g))
      (hFlushes : flushesAfter result.outcome = true) (hCursor : g.lastCursor = some cursor) :
      RunAttempts orders arrivals f (fun attempt => flushOnceIn (orders result.taken attempt) cursor)
        g

/-- No step of a run fails more often in a row than it may be made again. -/
def Patient (orders : Nat → Nat → PendingSet.Order) (arrivals : List Arrival) (f : Follower σ) :
    Prop :=
  ∀ steps f', RunAttempts orders arrivals f steps f' →
    ¬ Action.AllFail (f'.config.maxRetries + 1) steps f'

theorem consumeIn_error_of_attempts (h : ConsumeAttempts orders arrivals taken f steps f')
    (hFails : Action.AllFail (f'.config.maxRetries + 1) steps f') :
    ∃ e last, (consumeIn orders arrivals taken f).1 = ⟨.error e, last⟩ := by
  induction h with
  | here hGoing hEvent =>
    obtain ⟨e, g, hHandle, -⟩ := handleIn_error_of_attempts hEvent hFails
    simp [consumeIn, hGoing, hHandle]
  | later hGoing hHandle hRest ih =>
    simp only [consumeIn, Bool.false_eq_true, if_false, hGoing, hHandle]
    exact ih hFails

/-- Whenever a run ends well no step of it has failed too often. -/
theorem patient_of_runIn (hRun : runIn orders arrivals f = (⟨.ok (), taken⟩, g)) :
    Patient orders arrivals f := by
  intro steps f' hAttempts hFails
  obtain ⟨h, hConsume, hShutdown⟩ := exists_of_runIn hRun
  cases hAttempts with
  | event hEvents =>
    obtain ⟨e, last, hError⟩ := consumeIn_error_of_attempts hEvents hFails
    rw [hConsume] at hError
    cases hError
  | shutdown hConsume' hFlushes hCursor =>
    rw [hConsume] at hConsume'
    cases hConsume'
    obtain ⟨e, g', hError, -⟩ := Action.allFail_iff.mp hFails
    rw [shutdownIn_eq_of_some _ hCursor] at hShutdown
    have hFlush := Action.bind_eq_of_error hError fun _ => (pure () : Action (Follower σ) Unit)
    cases hFlush.symm.trans hShutdown

end

section

variable [Store σ] {R : σ → Checkpointed → Prop} {f : Follower σ} {g : Follower Checkpointed}
  {arrivals : List Arrival}

theorem shutdownIn_agrees {orders otherOrders : Nat → PendingSet.Order}
    (h : Store.Falters R fun e => e.isTransient = true)
    (hOrders : g.log.pending.Valid ∨ orders = otherOrders) (hf : Alike R f g)
    (hPatient : ∀ cursor, f.lastCursor = some cursor →
      ¬ Action.AllFail (f.config.maxRetries + 1)
        (fun attempt => flushOnceIn (orders attempt) cursor) f) :
    Action.Agree (Alike R) (shutdownIn orders f) (shutdownIn otherOrders g) := by
  obtain hNone | ⟨cursor, hSome⟩ := Option.eq_none_or_eq_some f.lastCursor
  · rw [shutdownIn_eq_of_none orders hNone,
      shutdownIn_eq_of_none otherOrders (hf.lastCursor.symm.trans hNone)]
    exact .ok () hf
  · rw [shutdownIn_eq_of_some orders hSome,
      shutdownIn_eq_of_some otherOrders (hf.lastCursor.symm.trans hSome)]
    have hFlush : Action.Agree (Alike R) (flushIn orders cursor f)
        (flushIn otherOrders cursor g) := by
      refine (flushIn_falters h hOrders hf cursor).resolve_right ?_
      rintro ⟨e, s, -, hTransient, -, hFails⟩
      exact hPatient cursor hSome (hFails hTransient)
    exact hFlush.bind fun _ _ _ h' => .ok () h'

variable {orders otherOrders : Nat → Nat → PendingSet.Order}

theorem consumeIn_agrees (h : Store.Falters R fun e => e.isTransient = true)
    (hOrders : f.log.pending.Valid ∨ orders = otherOrders) (hf : Alike R f g) {taken : Nat}
    (hPatient : ∀ steps f', ConsumeAttempts orders arrivals taken f steps f' →
      ¬ Action.AllFail (f'.config.maxRetries + 1) steps f') :
    (consumeIn orders arrivals taken f).1 = (consumeIn otherOrders arrivals taken g).1 ∧
      Alike R (consumeIn orders arrivals taken f).2 (consumeIn otherOrders arrivals taken g).2 := by
  refine alike_consume_of_handle
    (fun arrivals taken f => (f.log.pending.Valid ∨ orders = otherOrders) ∧
      ∀ steps f', ConsumeAttempts orders arrivals taken f steps f' →
        ¬ Action.AllFail (f'.config.maxRetries + 1) steps f') ?_ ?_ arrivals taken hf
      ⟨hOrders, hPatient⟩
  · rintro event rest taken f g ⟨hOrders, hPatient⟩ hGoing hf
    have hOther : g.log.pending.Valid ∨ orders taken = otherOrders taken :=
      hOrders.imp (fun hValid => hf.log.pending ▸ hValid) fun hSame => congrFun hSame taken
    refine (handleIn_falters h hOther hf event).resolve_right ?_
    rintro ⟨e, s, -, hTransient, hFounders⟩
    obtain ⟨steps, f', hAttempts, hFails⟩ := hFounders hTransient
    exact hPatient steps f' (.here hGoing hAttempts) hFails
  · rintro event rest taken f f' ⟨hOrders, hPatient⟩ hGoing hRun
    exact ⟨hOrders.imp_left fun hValid => valid_of_handleIn hValid hRun, fun steps f'' hLater =>
      hPatient steps f'' (.later hGoing hRun hLater)⟩

theorem runIn_agrees (h : Store.Falters R fun e => e.isTransient = true)
    (hOrders : f.log.pending.Valid ∨ orders = otherOrders) (hf : Alike R f g)
    (hPatient : Patient orders arrivals f) :
    (runIn orders arrivals f).1 = (runIn otherOrders arrivals g).1 ∧
      Alike R (runIn orders arrivals f).2 (runIn otherOrders arrivals g).2 := by
  obtain ⟨hResult, hConsumed⟩ := consumeIn_agrees h hOrders hf
    fun steps f' hEvents => hPatient steps f' (.event hEvents)
  have hEnding : (consumeIn otherOrders arrivals 0 g).2.log.pending.Valid ∨ orders = otherOrders :=
    hOrders.imp_left fun hValid => hConsumed.log.pending ▸ valid_consumeIn orders hValid arrivals 0
  exact alike_run_of_consume hResult hConsumed fun hFlushes =>
    shutdownIn_agrees h (hEnding.imp_right fun hSame => congrFun hSame _) hConsumed
      fun cursor hCursor => hPatient _ _ (.shutdown rfl hFlushes hCursor)

end

/-- The stores have the same contents. -/
def Sharing (R : σ → Contents → Prop) (S : τ → Contents → Prop) (s : σ) (t : τ) : Prop :=
  ∃ contents, R s contents ∧ S t contents

theorem Alike.of_common {R : σ → υ → Prop} {S : τ → υ → Prop} {T : σ → τ → Prop} {f : Follower σ}
    {g : Follower τ} {h : Follower υ} (hf : Alike R f h) (hg : Alike S g h)
    (hStore : ∀ s t u, R s u → S t u → T s t) : Alike T f g where
  log := ⟨hStore _ _ _ hf.log.store hg.log.store, hf.log.pending.trans hg.log.pending.symm,
    hf.log.lastCursor.trans hg.log.lastCursor.symm⟩
  config := hf.config.trans hg.config.symm
  stats := hf.stats.trans hg.stats.symm
  stopRequested := hf.stopRequested.trans hg.stopRequested.symm
  lastFinalized := hf.lastFinalized.trans hg.lastFinalized.symm
  lastCursor := hf.lastCursor.trans hg.lastCursor.symm
  resumeFrom := hf.resumeFrom.trans hg.resumeFrom.symm
  caughtUp := hf.caughtUp.trans hg.caughtUp.symm

variable [Store σ] [Store τ] {R : σ → Contents → Prop} {S : τ → Contents → Prop} {f : Follower σ}
  {g : Follower τ} {arrivals : List Arrival} {orders otherOrders : Nat → Nat → PendingSet.Order}

/-- A patient run over a store with calls that fail has the same result as a run over one that never
fails, and it leaves the same contents, the same pending changes and the same counts. Each attempt to
write may do so in an order of its own, in both runs. The orders are of no account unless a run begins
with a pending change that cannot be written, of which it complains by its order. -/
theorem run_transparent (hR : Store.Falters R fun e => e.isTransient = true)
    (hS : Store.Simulation S) (hf : Alike (Sharing R S) f g)
    (hOrders : f.log.pending.Valid ∨ orders = otherOrders)
    (hPatient : Patient orders arrivals f) :
    (runIn orders arrivals f).1 = (runIn otherOrders arrivals g).1 ∧
      Alike (Sharing R S) (runIn orders arrivals f).2 (runIn otherOrders arrivals g).2 := by
  obtain ⟨contents, hLeft, hRight⟩ := hf.log.store
  let common : Follower Checkpointed :=
    ⟨⟨.ofContents contents, g.log.pending, g.log.lastCursor⟩, g.config, g.stats, g.stopRequested,
      g.lastFinalized, g.lastCursor, g.resumeFrom, g.caughtUp⟩
  have hf' : Alike (fun s (t : Checkpointed) => R s t.current) f common :=
    { hf with log := { hf.log with store := hLeft } }
  have hg' : Alike (fun s (t : Checkpointed) => S s t.current) g common :=
    ⟨⟨hRight, rfl, rfl⟩, rfl, rfl, rfl, rfl, rfl, rfl, rfl⟩
  obtain ⟨hResult, hAlike⟩ := runIn_agrees hR.checkpointed hOrders hf' hPatient
  obtain ⟨hResult', hAlike'⟩ := alike_runIn hS.checkpointed otherOrders arrivals hg'
  exact ⟨hResult.trans hResult'.symm,
    hAlike.of_common hAlike' fun _ _ u hs ht => ⟨u.current, hs, ht⟩⟩

/-- Every second attempt writes backwards. -/
def swaying (_taken attempt : Nat) : PendingSet.Order :=
  if attempt % 2 = 0 then .reversed else .sorted

def pairFork : List Arrival :=
  Follower.arrivals [.data ⟨1, 0, [.assign "a" [0x31], .assign "b" [0x31]], .blank 1⟩,
    .data ⟨2, 0, [.remove "a", .assign "b" [0x32]], .blank 2⟩, .undo ⟨1, .blank 1⟩]

/-- An empty store on which some of the puts of a key and some syncs fail for a passing reason. -/
def faltering : Faulty Contents :=
  ⟨∅, [⟨.put, some (Key.user "a"), 0, 2, .transientStore "busy"⟩,
    ⟨.sync, none, 1, 3, .transientStore "busy"⟩], .zero⟩

def falteringRun : RunResult × Follower (Faulty Contents) :=
  runIn swaying pairFork (ofLog (.ofStore faltering) {})

/-- All faults strike, three of them in a row. The first one strikes when the other key of the block
is written already. -/
theorem run_transparent_despite_faults :
    falteringRun.1 = (run pairFork (ofLog (.ofStore (∅ : Contents)) {})).1 ∧
      Alike (fun (s : Faulty Contents) t => s.inner = t) falteringRun.2
        (run pairFork (ofLog (.ofStore (∅ : Contents)) {})).2 ∧
      falteringRun.2.log.store.faults.map Fault.times = [0, 0] := by
  have hFaults : ∀ fault ∈ faltering.faults, fault.error.isTransient = true := by decide
  have hEnds : (match falteringRun with
      | (⟨.ok (), _⟩, f) => f.log.store.faults.map Fault.times
      | (⟨.error _, _⟩, _) => []) = [0, 0] := by decide +kernel
  split at hEnds
  case h_2 => cases hEnds
  case h_1 taken f hRun =>
    have hAlike : Alike (Sharing (Faulty.Above Eq fun e => e.isTransient = true) Eq)
        (ofLog (.ofStore faltering) {}) (ofLog (.ofStore (∅ : Contents)) {}) :=
      alike_ofStore ⟨∅, ⟨rfl, hFaults⟩, rfl⟩ {}
    have hOrders : (ofLog (.ofStore faltering) {}).log.pending.Valid ∨ swaying = fun _ => sorted :=
      .inl PendingSet.valid_empty
    obtain ⟨hResult, hAfter⟩ := run_transparent (Faulty.falters Store.simulation_contents)
      Store.simulation_contents hAlike hOrders (patient_of_runIn hRun)
    obtain ⟨contents, ⟨hLeft, _⟩, hRight⟩ := hAfter.log.store
    rw [falteringRun] at hRun ⊢
    rw [run]
    refine ⟨hResult, { hAfter with log := { hAfter.log with store := hLeft.trans hRight.symm } }, ?_⟩
    rw [hRun]
    exact hEnds

end Follower

end ForkLog
