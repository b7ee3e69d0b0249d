import Mathlib
import ForkLog.Proofs.Store.Checkpointed
import ForkLog.Store.Faulty

/-! # Stores with calls that fail

A call that fails has no effect, and so has a step that has looked around before the one call that
changes something. Where no call fails the step does what it does on a store that never fails.
-/

namespace ForkLog

set_option autoImplicit false

namespace Action

variable {σ τ α β : Type} {R : σ → τ → Prop} {errs : Error → Prop}

/-- The same outcome, or a failure that satisfies `failed`. -/
def AgreeOr (R : σ → τ → Prop) (failed : Error → σ → Prop) (result : EStateM.Result Error σ α)
    (other : EStateM.Result Error τ α) : Prop :=
  Agree R result other ∨ ∃ e s, result = .error e s ∧ failed e s

theorem AgreeOr.imp_of_fails {failed failed' : Error → σ → Prop}
    {result : EStateM.Result Error σ α} {other : EStateM.Result Error τ α}
    (h : AgreeOr R failed result other)
    (hFailed : ∀ e s, result = .error e s → failed e s → failed' e s) :
    AgreeOr R failed' result other :=
  Or.imp_right (fun ⟨e, s, hFails, hs⟩ => ⟨e, s, hFails, hFailed e s hFails hs⟩) h

theorem AgreeOr.imp {failed failed' : Error → σ → Prop} {result : EStateM.Result Error σ α}
    {other : EStateM.Result Error τ α} (h : AgreeOr R failed result other)
    (hFailed : ∀ e s, failed e s → failed' e s) : AgreeOr R failed' result other :=
  h.imp_of_fails fun e s _ => hFailed e s

theorem AgreeOr.bind {failed : Error → σ → Prop} {step : Action σ α} {other : Action τ α}
    {next : α → Action σ β} {otherNext : α → Action τ β} {s : σ} {t : τ}
    (h : AgreeOr R failed (step s) (other t))
    (hNext : ∀ a s' t', step s = .ok a s' → other t = .ok a t' → R s' t' →
      AgreeOr R failed (next a s') (otherNext a t')) :
    AgreeOr R failed ((step >>= next) s) ((other >>= otherNext) t) := by
  simp only [Bind.bind, EStateM.bind]
  obtain hAgree | ⟨e, s', hFails, hFailed⟩ := h
  · generalize step s = result at hAgree hNext
    generalize other t = otherResult at hAgree hNext
    cases hAgree with
    | ok a h' => exact hNext a _ _ rfl rfl h'
    | error e h' => exact .inl (.error e h')
  · rw [hFails]
    exact .inr ⟨e, s', rfl, hFailed⟩

theorem AgreeOr.of_ok {failed : Error → σ → Prop} {result : EStateM.Result Error σ α} {a : α}
    {t : τ} (h : AgreeOr R failed result (.ok a t)) :
    (∃ s, result = .ok a s ∧ R s t) ∨ ∃ e s, result = .error e s ∧ failed e s := by
  refine h.imp_left fun hAgree => ?_
  cases hAgree with
  | ok _ hst => exact ⟨_, rfl, hst⟩

/-- Failing has no effect. -/
def Falters (R : σ → τ → Prop) (errs : Error → Prop) (step : Action σ α) (other : Action τ α) :
    Prop :=
  ∀ s t, R s t → AgreeOr R (fun e s' => errs e ∧ R s' t) (step s) (other t)

/-- A step that changes nothing unless it fails. -/
def Looks (step : Action τ α) : Prop := ∀ t a t', step t = .ok a t' → t' = t

theorem Looks.ofExcept (result : Except Error α) : Looks (Action.ofExcept result : Action τ α) := by
  intro t a t' h
  cases result with
  | ok _ => cases h; rfl
  | error _ => cases h

theorem Looks.bind {step : Action τ α} {next : α → Action τ β} (h : Looks step)
    (hNext : ∀ a, Looks (next a)) : Looks (step >>= next) := by
  intro t b t' hRun
  simp only [Bind.bind, EStateM.bind] at hRun
  cases hStep : step t with
  | ok a s =>
    rw [hStep] at hRun
    rw [hNext a s b t' hRun, h t a s hStep]
  | error e s => rw [hStep] at hRun; cases hRun

namespace Falters

variable {step : Action σ α} {other : Action τ α} {next : α → Action σ β}
  {otherNext : α → Action τ β}

theorem of_simulates (h : Simulates R step other) : Falters R errs step other :=
  fun s t hst => .inl (h s t hst)

theorem bind_of_looks (h : Falters R errs step other) (hLooks : Looks other)
    (hNext : ∀ a, Falters R errs (next a) (otherNext a)) :
    Falters R errs (step >>= next) (other >>= otherNext) := fun s t hst =>
  (h s t hst).bind fun a s' t' _ hOther h' => by
    obtain rfl := hLooks t a t' hOther
    exact hNext a s' t' h'

theorem bind_simulates (h : Falters R errs step other)
    (hNext : ∀ a, Simulates R (next a) (otherNext a)) :
    Falters R errs (step >>= next) (other >>= otherNext) := fun s t hst =>
  (h s t hst).bind fun a s' t' _ _ h' => .inl (hNext a s' t' h')

theorem within {σ' τ' : Type} {R' : σ' → τ' → Prop} {view : σ' → σ} {otherView : τ' → τ}
    {update : σ' → σ → σ'} {otherUpdate : τ' → τ → τ'}
    (hView : ∀ s t, R' s t → R (view s) (otherView t))
    (hUpdate : ∀ s t a b, R' s t → R a b → R' (update s a) (otherUpdate t b))
    (hSame : ∀ t, otherUpdate t (otherView t) = t) (h : Falters R errs step other) :
    Falters R' errs (Action.within view update step)
      (Action.within otherView otherUpdate other) := by
  intro s t hst
  obtain hAgree | ⟨e, s', hFails, hError, hStill⟩ := h _ _ (hView s t hst)
  · exact .inl (hAgree.within fun a b => hUpdate s t a b hst)
  · refine .inr ⟨e, _, Action.within_eq_of_error hFails, hError, ?_⟩
    have hKept := hUpdate s t s' (otherView t) hst hStill
    rwa [hSame] at hKept

theorem lands_of_ok (h : Falters R errs step other) {s : σ} {t t' : τ} {a : α} (hst : R s t)
    (hOk : other t = .ok a t') :
    Lands step (fun b s' => b = a ∧ R s' t') (fun e s' => errs e ∧ R s' t) s := by
  have hAgree := h s t hst
  rw [hOk] at hAgree
  rw [Lands]
  obtain ⟨s', hRun, h'⟩ | ⟨e, s', hFails, hError, hStill⟩ := hAgree.of_ok
  · rw [hRun]
    exact ⟨rfl, h'⟩
  · rw [hFails]
    exact ⟨hError, hStill⟩

/-- What holds after a step that never fails holds after one that falters. -/
theorem meets (h : Falters R errs step other) {before : τ → Prop} {after : α → τ → Prop}
    (hOther : Action.Meets before other after before) :
    Action.Meets (fun s => ∃ t, R s t ∧ before t) step (fun a s => ∃ t, R s t ∧ after a t)
      (fun s => ∃ t, R s t ∧ before t) := by
  rintro s ⟨t, hst, hBefore⟩
  have hMeets := hOther t hBefore
  obtain hAgree | ⟨e, s', hFails, -, hStill⟩ := h s t hst
  · generalize step s = result at hAgree
    generalize other t = otherResult at hAgree hMeets
    cases hAgree with
    | ok a h' => exact ⟨_, h', hMeets⟩
    | error e h' => exact ⟨_, h', hMeets⟩
  · rw [hFails]
    exact ⟨t, hStill, hBefore⟩

end Falters

end Action

namespace Action

variable {σ τ α β : Type} {R : σ → τ → Prop} {errs : Error → Prop}

/-- Where the step fails, making it again is of no use. -/
def Lasting (step : Action τ α) : Prop :=
  ∀ t, step.Lands (fun _ _ => True) (fun e _ => e.isTransient = false) t

namespace Lasting

variable {step : Action τ α} {next : α → Action τ β}

theorem of_error (h : Lasting step) {t t' : τ} {e : Error} (hFails : step t = .error e t') :
    e.isTransient = false := by
  have hLands := h t
  rwa [Lands, hFails] at hLands

theorem pure (a : α) : Lasting (Pure.pure a : Action τ α) := fun _ => trivial

theorem of_ok (h : ∀ t, ∃ a t', step t = .ok a t') : Lasting step := by
  intro t
  obtain ⟨a, t', hOk⟩ := h t
  rw [Lands, hOk]
  trivial

theorem ofExcept {result : Except Error α}
    (h : ∀ e, result = .error e → e.isTransient = false) :
    Lasting (Action.ofExcept result : Action τ α) := by
  intro t
  cases result with
  | ok a => trivial
  | error e => exact h e rfl

theorem bind (h : Lasting step) (hNext : ∀ a, Lasting (next a)) : Lasting (step >>= next) :=
  fun t => (h t).bind fun a s _ => hNext a s

theorem within {τ' : Type} {view : τ' → τ} {update : τ' → τ → τ'} (h : Lasting step) :
    Lasting (Action.within view update step) := by
  intro t
  have hStep := h (view t)
  simp only [Lands, Action.within] at hStep ⊢
  generalize step (view t) = result at hStep
  cases result <;> exact hStep

theorem attempting_eq {steps : Nat → Action τ α} (h : Lasting (steps 0)) (limit : Nat) :
    attempting limit steps = steps 0 := by
  funext t
  cases hStep : steps 0 t with
  | ok a t' => exact attempting_eq_of_ok hStep limit
  | error e t' => exact attempting_eq_of_error hStep (h.of_error hStep) limit

theorem retrying_eq (h : Lasting step) (limit : Nat) : Action.retrying limit step = step :=
  attempting_eq h limit

end Lasting

/-- Made one after another, this many attempts fail in a row, each for a reason that may be gone the
next time. -/
def AllFail : Nat → (Nat → Action σ α) → σ → Prop
  | 0, _, _ => True
  | count + 1, steps, s => ∃ e s', steps 0 s = .error e s' ∧ e.isTransient = true ∧
      AllFail count (fun attempt => steps (attempt + 1)) s'

/-- Made again and again, the step fails this many times in a row. -/
def FailsInARow (count : Nat) (step : Action σ α) (s : σ) : Prop := AllFail count (fun _ => step) s

/-- Failing once more than there may be attempts after the first one, a step fails for good. -/
theorem allFail_iff {steps : Nat → Action σ α} {limit : Nat} {s : σ} :
    AllFail (limit + 1) steps s ↔
      ∃ e s', attempting limit steps s = .error e s' ∧ e.isTransient = true := by
  induction limit generalizing steps s with
  | zero => exact ⟨fun ⟨e, s', hFails, hTransient, _⟩ => ⟨e, s', hFails, hTransient⟩,
      fun ⟨e, s', hFails, hTransient⟩ => ⟨e, s', hFails, hTransient, trivial⟩⟩
  | succ limit ih =>
    constructor
    · rintro ⟨e, s', hFails, hTransient, hRest⟩
      rw [attempting_succ_of_error hFails hTransient]
      exact ih.mp hRest
    · rintro ⟨e, s', hAll, hTransient⟩
      cases hFirst : steps 0 s with
      | ok a t =>
        rw [attempting_eq_of_ok hFirst] at hAll
        cases hAll
      | error reason t =>
        cases hPassing : reason.isTransient with
        | false =>
          rw [attempting_eq_of_error hFirst hPassing] at hAll
          cases hAll
          rw [hPassing] at hTransient
          cases hTransient
        | true =>
          rw [attempting_succ_of_error hFirst hPassing] at hAll
          exact ⟨reason, t, hFirst, hPassing, ih.mpr ⟨e, s', hAll, hTransient⟩⟩

theorem failsInARow_iff {step : Action σ α} {limit : Nat} {s : σ} :
    FailsInARow (limit + 1) step s ↔
      ∃ e s', retrying limit step s = .error e s' ∧ e.isTransient = true :=
  allFail_iff

/-- If each attempt ends as the other step does or fails and may be made again, then so do all the
attempts together; and they fail for such a reason only after too many failures in a row. -/
theorem attempting_falters {steps : Nat → Action σ α} {Q : σ → Prop}
    {result : EStateM.Result Error τ α}
    (hStep : ∀ attempt s, Q s → AgreeOr R (fun e s' => errs e ∧ Q s') (steps attempt s) result)
    (hLasting : ∀ e t, result = .error e t → e.isTransient = false) (limit : Nat) {s : σ}
    (hs : Q s) :
    AgreeOr R (fun e s' => errs e ∧ Q s' ∧ (e.isTransient = true → AllFail (limit + 1) steps s))
      (attempting limit steps s) result := by
  -- The attempts start from different states, of which `Q` is all that is known.
  induction limit generalizing s steps with
  | zero =>
    refine AgreeOr.imp_of_fails (hStep 0 s hs) ?_
    rintro e s' hFails ⟨hError, hAgain⟩
    exact ⟨hError, hAgain, fun hTransient => ⟨e, s', hFails, hTransient, trivial⟩⟩
  | succ limit ih =>
    obtain hAgree | ⟨e, s', hFails, hError, hAgain⟩ := hStep 0 s hs
    · left
      simp only [attempting]
      generalize steps 0 s = ended at hAgree
      cases hAgree with
      | ok a h' => exact .ok a h'
      | error e h' =>
        simp only [hLasting e _ rfl, Bool.false_eq_true, if_false]
        exact .error e h'
    · cases hTransient : e.isTransient with
      | false =>
        refine .inr ⟨e, s', ?_, hError, hAgain, fun hNot => ?_⟩
        · exact attempting_eq_of_error hFails hTransient _
        · rw [hTransient] at hNot
          cases hNot
      | true =>
        rw [attempting_succ_of_error hFails hTransient]
        refine (ih (fun attempt => hStep (attempt + 1)) hAgain).imp ?_
        rintro e' s'' ⟨hError', hAgain', hAllFail⟩
        exact ⟨hError', hAgain', fun hNot => ⟨e, s', hFails, hTransient, hAllFail hNot⟩⟩

end Action

/-- Every call has the same outcome on both stores and leaves them related, or it fails on the first
one with one of the errors and has no effect. -/
structure Store.Falters {σ τ : Type} [Store σ] [Store τ] (R : σ → τ → Prop) (errs : Error → Prop) :
    Prop where
  get : ∀ key, Action.Falters R errs (Store.get key) (Store.get key)
  getMany : ∀ keys, Action.Falters R errs (Store.getMany keys) (Store.getMany keys)
  put : ∀ key value, Action.Falters R errs (Store.put key value) (Store.put key value)
  deleteMany : ∀ keys, Action.Falters R errs (Store.deleteMany keys) (Store.deleteMany keys)
  range : ∀ start stop limit,
    Action.Falters R errs (Store.range start stop limit) (Store.range start stop limit)
  startingWith : ∀ beginning limit,
    Action.Falters R errs (Store.startingWith beginning limit) (Store.startingWith beginning limit)
  sync : Action.Falters R errs Store.sync Store.sync

theorem Store.Simulation.falters {σ τ : Type} [Store σ] [Store τ] {R : σ → τ → Prop}
    (h : Store.Simulation R) (errs : Error → Prop) : Store.Falters R errs where
  get key := .of_simulates (h.get key)
  getMany keys := .of_simulates (h.getMany keys)
  put key value := .of_simulates (h.put key value)
  deleteMany keys := .of_simulates (h.deleteMany keys)
  range start stop limit := .of_simulates (h.range start stop limit)
  startingWith beginning limit := .of_simulates (h.startingWith beginning limit)
  sync := .of_simulates h.sync

namespace Checkpointed

variable {σ α : Type} {R : σ → Contents → Prop} {errs : Error → Prop}

theorem falters_onCurrent {step : Action σ α} {other : Action Contents α}
    (h : Action.Falters R errs step other) :
    Action.Falters (fun s (t : Checkpointed) => R s t.current) errs step (onCurrent other) := by
  intro s t hst
  obtain hAgree | ⟨e, s', hFails, hError, hStill⟩ := h s t.current hst
  · exact .inl (hAgree.within_right fun _ _ => id)
  · exact .inr ⟨e, s', hFails, hError, hStill⟩

end Checkpointed

theorem Store.Falters.checkpointed {σ : Type} [Store σ] {R : σ → Contents → Prop}
    {errs : Error → Prop} (h : Store.Falters R errs) :
    Store.Falters (fun s (t : Checkpointed) => R s t.current) errs where
  get key := Checkpointed.falters_onCurrent (h.get key)
  getMany keys := Checkpointed.falters_onCurrent (h.getMany keys)
  put key value := Checkpointed.falters_onCurrent (h.put key value)
  deleteMany keys := Checkpointed.falters_onCurrent (h.deleteMany keys)
  range start stop limit := Checkpointed.falters_onCurrent (h.range start stop limit)
  startingWith beginning limit := Checkpointed.falters_onCurrent (h.startingWith beginning limit)
  sync := by
    intro s t hst
    obtain hAgree | ⟨e, s', hFails, hError, hStill⟩ := h.sync s t.current hst
    · left
      generalize Store.sync s = result at hAgree
      cases hAgree with
      | ok _ h' => exact .ok () h'
    · exact .inr ⟨e, s', hFails, hError, hStill⟩

namespace Faulty

variable {σ τ α : Type} {R : σ → τ → Prop} {errs : Error → Prop}

/-- The faults to come are of the given kinds, and the stores under them are related. -/
def Above (R : σ → τ → Prop) (errs : Error → Prop) (s : Faulty σ) (t : τ) : Prop :=
  R s.inner t ∧ ∀ fault ∈ s.faults, errs fault.error

theorem strike_errors (call : StoreCall) (key : Option Bytes) {faults : List Fault}
    (h : ∀ fault ∈ faults, errs fault.error) :
    (∀ e, (strike call key faults).1 = some e → errs e) ∧
      ∀ fault ∈ (strike call key faults).2, errs fault.error := by
  induction faults with
  | nil => exact ⟨nofun, nofun⟩
  | cons first rest ih =>
    obtain ⟨hFirst, hRest⟩ := List.forall_mem_cons.mp h
    obtain ⟨hError, hLeft⟩ := ih hRest
    rw [strike]
    split
    · split
      · refine ⟨?_, List.forall_mem_cons.mpr ⟨hFirst, hRest⟩⟩
        rintro e ⟨⟩
        exact hFirst
      · exact ⟨hError, List.forall_mem_cons.mpr ⟨hFirst, hLeft⟩⟩
    · exact ⟨hError, List.forall_mem_cons.mpr ⟨hFirst, hLeft⟩⟩

theorem falters_passing {step : Action σ α} {other : Action τ α}
    (h : Action.Simulates R step other) (call : StoreCall) (key : Option Bytes)
    (count : CallCounts → CallCounts) :
    Action.Falters (Above R errs) errs (passing call key count step) other := by
  rintro s t ⟨hInner, hFaults⟩
  obtain ⟨hError, hLeft⟩ := strike_errors call key hFaults
  rcases hStrike : strike call key s.faults with ⟨struck, faults⟩
  rw [hStrike] at hError hLeft
  cases struck with
  | some e =>
    simp only [passing, hStrike]
    exact .inr ⟨e, _, rfl, hError e rfl, hInner, hLeft⟩
  | none =>
    simp only [passing, hStrike]
    refine .inl (.within_left ?_ fun _ _ h' => ⟨h', hLeft⟩)
    exact h s.inner t hInner

theorem falters [Store σ] [Store τ] (h : Store.Simulation R) :
    Store.Falters (Above R errs) errs where
  get key := falters_passing (h.get key) _ _ _
  getMany keys := falters_passing (h.getMany keys) _ _ _
  put key value := falters_passing (h.put key value) _ _ _
  deleteMany keys := falters_passing (h.deleteMany keys) _ _ _
  range start stop limit := falters_passing (h.range start stop limit) _ _ _
  startingWith beginning limit := falters_passing (h.startingWith beginning limit) _ _ _
  sync := falters_passing h.sync _ _ _

end Faulty

/-- A store that is used by a process which dies after so many calls. These are done, and no other is
done after them. -/
structure Mortal (σ : Type) where
  inner : σ
  calls : Nat

namespace Mortal

variable {σ τ α : Type} {R : σ → τ → Prop}

def gone : Error := .store "the process is gone"

def living (step : Action σ α) : Action (Mortal σ) α := fun s =>
  match s.calls with
  | 0 => .error gone s
  | calls + 1 => Action.within inner (fun s inner => { s with inner }) step { s with calls }

instance [Store σ] : Store (Mortal σ) where
  get key := living (Store.get key)
  getMany keys := living (Store.getMany keys)
  put key value := living (Store.put key value)
  deleteMany keys := living (Store.deleteMany keys)
  range start stop limit := living (Store.range start stop limit)
  startingWith beginning limit := living (Store.startingWith beginning limit)
  sync := living Store.sync
  bound s := Store.bound s.inner

theorem falters_living {step : Action σ α} {other : Action τ α}
    (h : Action.Simulates R step other) :
    Action.Falters (fun (s : Mortal σ) t => R s.inner t) (fun e => e = gone) (living step)
      other := by
  rintro ⟨inner, calls⟩ t hInner
  cases calls with
  | zero => exact .inr ⟨gone, _, rfl, rfl, hInner⟩
  | succ calls =>
    simp only [living]
    exact .inl ((h inner t hInner).within_left fun _ _ => id)

theorem falters [Store σ] [Store τ] (h : Store.Simulation R) :
    Store.Falters (fun (s : Mortal σ) t => R s.inner t) fun e => e = gone where
  get key := falters_living (h.get key)
  getMany keys := falters_living (h.getMany keys)
  put key value := falters_living (h.put key value)
  deleteMany keys := falters_living (h.deleteMany keys)
  range start stop limit := falters_living (h.range start stop limit)
  startingWith beginning limit := falters_living (h.startingWith beginning limit)
  sync := falters_living h.sync

end Mortal

end ForkLog
