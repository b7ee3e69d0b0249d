import ForkLog.Action

/-! # Steps that succeed and steps that may fail

A step that succeeds is an equation. Of a step that may fail it is said what holds after it in either
case; what is made of such steps is then judged part by part.
-/

namespace ForkLog.Action

set_option autoImplicit false

theorem exists_of_bind_eq_ok {ε α β : Type} {first : Except ε α} {next : α → Except ε β} {b : β}
    (h : first >>= next = .ok b) : ∃ a, first = .ok a ∧ next a = .ok b := by
  cases first with
  | error e => cases h
  | ok a => exact ⟨a, rfl, h⟩

theorem error_or_exists_of_bind_eq_error {ε α β : Type} {first : Except ε α}
    {next : α → Except ε β} {e : ε} (h : first >>= next = .error e) :
    first = .error e ∨ ∃ a, first = .ok a ∧ next a = .error e := by
  cases first with
  | error e' => cases h; exact .inl rfl
  | ok a => exact .inr ⟨a, rfl, h⟩

/-- Where reading items one after another fails, reading one of them does. -/
theorem exists_of_mapM_error {ε α β : Type} {read : α → Except ε β} {items : List α} {e : ε}
    (h : items.mapM read = .error e) : ∃ a ∈ items, read a = .error e := by
  induction items with
  | nil => cases h
  | cons first rest ih =>
    rw [List.mapM_cons] at h
    obtain hFirst | ⟨b, -, h⟩ := error_or_exists_of_bind_eq_error h
    · exact ⟨first, List.mem_cons_self, hFirst⟩
    · obtain hRest | ⟨bs, -, h⟩ := error_or_exists_of_bind_eq_error h
      · obtain ⟨a, hMem, hFails⟩ := ih hRest
        exact ⟨a, List.mem_cons_of_mem first hMem, hFails⟩
      · cases h

theorem exists_mapM_eq_error {ε α β : Type} {read : α → Except ε β} {items : List α} {a : α} {e : ε}
    (hMem : a ∈ items) (h : read a = .error e) : ∃ e', items.mapM read = .error e' := by
  cases hRead : items.mapM read with
  | error e' => exact ⟨e', rfl⟩
  | ok found =>
    induction items generalizing found with
    | nil => cases hMem
    | cons first rest ih =>
      rw [List.mapM_cons] at hRead
      obtain ⟨b, hFirst, hRead⟩ := exists_of_bind_eq_ok hRead
      obtain ⟨bs, hRest, -⟩ := exists_of_bind_eq_ok hRead
      obtain rfl | hMem := List.mem_cons.mp hMem
      · rw [h] at hFirst
        cases hFirst
      · obtain ⟨e', hFails⟩ := ih hMem bs hRest
        cases hFails

/-- Reading items one after another reads each of them. -/
theorem forall_mem_of_mapM_ok {ε α β : Type} {read : α → Except ε β} {good : β → Prop}
    (h : ∀ a b, read a = .ok b → good b) {items : List α} {found : List β}
    (hFound : items.mapM read = .ok found) : ∀ b ∈ found, good b := by
  induction items generalizing found with
  | nil =>
    cases hFound
    exact nofun
  | cons first rest ih =>
    rw [List.mapM_cons] at hFound
    obtain ⟨b, hFirst, hFound⟩ := exists_of_bind_eq_ok hFound
    obtain ⟨bs, hRest, hFound⟩ := exists_of_bind_eq_ok hFound
    cases hFound
    exact List.forall_mem_cons.mpr ⟨h first b hFirst, ih hRest⟩

/-- Items that were written one by one are read back one by one. -/
theorem mapM_map_eq_ok {ε α β γ : Type} {write : α → β} {read : β → Except ε γ} {found : α → γ}
    {items : List α} (h : ∀ a ∈ items, read (write a) = .ok (found a)) :
    (items.map write).mapM read = .ok (items.map found) := by
  induction items with
  | nil => rfl
  | cons first rest ih =>
    obtain ⟨hFirst, hRest⟩ := List.forall_mem_cons.mp h
    rw [List.map_cons, List.mapM_cons, hFirst, ih hRest]
    rfl

variable {σ α β : Type} {step : Action σ α} {s s' : σ} {a : α}

theorem bind_eq_of_ok (h : step s = .ok a s') (next : α → Action σ β) :
    (step >>= next) s = next a s' := by
  simp only [bind, EStateM.bind, h]

theorem bind_eq_of_error {e : Error} (h : step s = .error e s') (next : α → Action σ β) :
    (step >>= next) s = .error e s' := by
  simp only [bind, EStateM.bind, h]

theorem exists_of_bind {next : α → Action σ β} {b : β} (h : (step >>= next) s = .ok b s') :
    ∃ a t, step s = .ok a t ∧ next a t = .ok b s' := by
  simp only [bind, EStateM.bind] at h
  cases hStep : step s with
  | ok a t => rw [hStep] at h; exact ⟨a, t, rfl, h⟩
  | error e t => rw [hStep] at h; cases h

/-- Reading the state and going on. -/
theorem get_bind_eq (next : σ → Action σ β) (s : σ) : (get >>= next) s = next s s := rfl

theorem pure_eq (a : α) (s : σ) : (Pure.pure a : Action σ α) s = .ok a s := rfl

variable {steps : Nat → Action σ α}

theorem attempting_eq_of_ok (h : steps 0 s = .ok a s') (limit : Nat) :
    attempting limit steps s = .ok a s' := by
  cases limit with
  | zero => exact h
  | succ limit => simp only [attempting, h]

theorem attempting_eq_of_error {e : Error} (h : steps 0 s = .error e s')
    (hPermanent : e.isTransient = false) (limit : Nat) : attempting limit steps s = .error e s' := by
  cases limit with
  | zero => exact h
  | succ limit => simp only [attempting, h, hPermanent, Bool.false_eq_true, if_false]

theorem attempting_succ_of_error {e : Error} (h : steps 0 s = .error e s')
    (hTransient : e.isTransient = true) (limit : Nat) :
    attempting (limit + 1) steps s = attempting limit (fun attempt => steps (attempt + 1)) s' := by
  simp only [attempting, h, hTransient, if_true]

/-- The first attempt is the only one, or it failed and the others are made from where it left. -/
theorem attempting_succ_cases (limit : Nat) (steps : Nat → Action σ α) (s : σ) :
    attempting (limit + 1) steps s = steps 0 s ∨
      ∃ e s', steps 0 s = .error e s' ∧
        attempting (limit + 1) steps s = attempting limit (fun attempt => steps (attempt + 1)) s' := by
  cases hStep : steps 0 s with
  | ok a s' => exact .inl (attempting_eq_of_ok hStep _)
  | error e s' =>
    cases hTransient : e.isTransient with
    | false => exact .inl (attempting_eq_of_error hStep hTransient _)
    | true => exact .inr ⟨e, s', rfl, attempting_succ_of_error hStep hTransient limit⟩

theorem retrying_eq_of_ok (h : step s = .ok a s') (limit : Nat) :
    retrying limit step s = .ok a s' :=
  attempting_eq_of_ok h limit

theorem retrying_eq_of_error {e : Error} (h : step s = .error e s')
    (hPermanent : e.isTransient = false) (limit : Nat) : retrying limit step s = .error e s' :=
  attempting_eq_of_error h hPermanent limit

theorem retrying_succ_of_error {e : Error} (h : step s = .error e s')
    (hTransient : e.isTransient = true) (limit : Nat) :
    retrying (limit + 1) step s = retrying limit step s' :=
  attempting_succ_of_error h hTransient limit

theorem within_eq_of_ok {τ : Type} {view : τ → σ} {update : τ → σ → τ} {t : τ}
    (h : step (view t) = .ok a s') : within view update step t = .ok a (update t s') := by
  simp only [within, h]

theorem within_eq_of_error {τ : Type} {view : τ → σ} {update : τ → σ → τ} {t : τ} {e : Error}
    (h : step (view t) = .error e s') :
    (within view update step : Action τ α) t = .error e (update t s') := by
  simp only [within, h]

/-- What a step comes to, whatever it leaves. -/
def outcome (step : Action σ α) (s : σ) : Except Error α :=
  match step s with
  | .ok a _ => .ok a
  | .error e _ => .error e

theorem outcome_bind_of_ok (h : step s = .ok a s') (next : α → Action σ β) :
    (step >>= next).outcome s = (next a).outcome s' := by
  rw [outcome, outcome, bind_eq_of_ok h]

theorem exists_of_outcome_eq_ok (h : step.outcome s = .ok a) : ∃ s', step s = .ok a s' := by
  rw [outcome] at h
  cases hRun : step s with
  | ok b s' =>
    rw [hRun] at h
    cases h
    exact ⟨s', rfl⟩
  | error e s' =>
    rw [hRun] at h
    cases h

theorem outcome_ofExcept (result : Except Error α) (s : σ) :
    (ofExcept result : Action σ α).outcome s = result := by
  cases result <;> rfl

theorem outcome_ofExcept_bind (result : Except Error α) (next : α → Action σ β) (s : σ) :
    (ofExcept result >>= next).outcome s = result.bind fun a => (next a).outcome s := by
  cases result <;> rfl

/-- What a step leaves, whatever it comes to. -/
def leave (step : Action σ α) (s : σ) : σ :=
  match step s with
  | .ok _ s' | .error _ s' => s'

theorem leave_eq_of_ok (h : step s = .ok a s') : step.leave s = s' := by
  rw [leave, h]

theorem leave_eq_of_error {e : Error} (h : step s = .error e s') : step.leave s = s' := by
  rw [leave, h]

theorem eq_ok_of_outcome (h : step.outcome s = .ok a) : step s = .ok a (step.leave s) := by
  obtain ⟨s', hRun⟩ := exists_of_outcome_eq_ok h
  rw [hRun, leave_eq_of_ok hRun]

theorem eq_error_of_outcome {e : Error} (h : step.outcome s = .error e) :
    step s = .error e (step.leave s) := by
  rw [outcome] at h
  cases hRun : step s with
  | ok b s' =>
    rw [hRun] at h
    cases h
  | error e' s' =>
    rw [hRun] at h
    cases h
    rw [leave_eq_of_error hRun]

/-- From a state that satisfies `before` the step ends in one that satisfies `after`, or it fails
in one that satisfies `failed`. -/
def Meets (before : σ → Prop) (step : Action σ α) (after : α → σ → Prop) (failed : σ → Prop) :
    Prop :=
  ∀ s, before s →
    match step s with
    | .ok a s' => after a s'
    | .error _ s' => failed s'

namespace Meets

variable {before failed : σ → Prop} {after : α → σ → Prop} {last : β → σ → Prop}
  {next : α → Action σ β}

theorem after_of_ok (h : Meets before step after failed) (hs : before s)
    (hRun : step s = .ok a s') : after a s' := by
  have hStep := h s hs
  rwa [hRun] at hStep

theorem failed_of_error (h : Meets before step after failed) {e : Error} (hs : before s)
    (hFails : step s = .error e s') : failed s' := by
  have hStep := h s hs
  rwa [hFails] at hStep

theorem imp (h : Meets before step after failed) {before' failed' : σ → Prop}
    {after' : α → σ → Prop} (hBefore : ∀ s, before' s → before s)
    (hAfter : ∀ a s, after a s → after' a s) (hFailed : ∀ s, failed s → failed' s) :
    Meets before' step after' failed' := by
  intro s hs
  have hStep := h s (hBefore s hs)
  cases hRun : step s with
  | ok a s' => rw [hRun] at hStep; exact hAfter a s' hStep
  | error e s' => rw [hRun] at hStep; exact hFailed s' hStep

theorem imp_failed (h : Meets before step after failed) {failed' : σ → Prop}
    (hFailed : ∀ s, failed s → failed' s) : Meets before step after failed' :=
  h.imp (fun _ => id) (fun _ _ => id) hFailed

theorem of_fact (fact : Prop) (hFact : ∀ s, before s → fact)
    (h : fact → Meets before step after failed) : Meets before step after failed :=
  fun s hs => h (hFact s hs) s hs

theorem pure {a : α} (h : ∀ s, before s → after a s) :
    Meets before (Pure.pure a) after failed := fun s hs => h s hs

theorem ofExcept {result : Except Error α} (hOk : ∀ a s, result = .ok a → before s → after a s)
    (hFailed : ∀ s, before s → failed s) :
    Meets before (Action.ofExcept result) after failed := by
  intro s hs
  cases result with
  | ok a => exact hOk a s rfl hs
  | error e => exact hFailed s hs

theorem bind (h : Meets before step after failed)
    (hNext : ∀ a, Meets (after a) (next a) last failed) :
    Meets before (step >>= next) last failed := by
  intro s hs
  have hStep := h s hs
  simp only [Bind.bind, EStateM.bind]
  generalize step s = result at hStep
  cases result with
  | ok a s' => exact hNext a s' hStep
  | error e s' => exact hStep

theorem get_bind {next : σ → Action σ β}
    (h : ∀ s, before s → Meets before (next s) last failed) :
    Meets before (get >>= next) last failed := fun s hs => h s hs s hs

theorem attempting (h : ∀ attempt, Meets before (steps attempt) after before) (limit : Nat) :
    Meets before (Action.attempting limit steps) after before := by
  induction limit generalizing steps with
  | zero => exact h 0
  | succ limit ih =>
    intro s hs
    obtain hOnce | ⟨e, s', hFails, hAgain⟩ := attempting_succ_cases limit steps s
    · rw [hOnce]
      exact h 0 s hs
    · rw [hAgain]
      exact ih (fun attempt => h (attempt + 1)) s' ((h 0).failed_of_error hs hFails)

theorem retrying (h : Meets before step after before) (limit : Nat) :
    Meets before (Action.retrying limit step) after before :=
  .attempting (fun _ => h) limit

theorem within {τ : Type} {view : τ → σ} {update : τ → σ → τ} {rest : τ → Prop}
    (hView : ∀ t s, view (update t s) = s) (hRest : ∀ t s, rest t → rest (update t s))
    (h : Meets before step after failed) :
    Meets (fun t => before (view t) ∧ rest t) (Action.within view update step)
      (fun a t => after a (view t) ∧ rest t) (fun t => failed (view t) ∧ rest t) := by
  rintro t ⟨hBefore, hOther⟩
  have hStep := h (view t) hBefore
  simp only [Action.within]
  generalize step (view t) = result at hStep
  cases result with
  | ok a s' => exact ⟨(hView t s').symm ▸ hStep, hRest t s' hOther⟩
  | error e s' => exact ⟨(hView t s').symm ▸ hStep, hRest t s' hOther⟩

end Meets

/-- From this state the step ends well with `ok`, or it fails with `failed`. -/
def Lands (step : Action σ α) (ok : α → σ → Prop) (failed : Error → σ → Prop) (s : σ) : Prop :=
  match step s with
  | .ok a s' => ok a s'
  | .error e s' => failed e s'

namespace Lands

variable {ok : α → σ → Prop} {failed : Error → σ → Prop} {last : β → σ → Prop}
  {next : α → Action σ β}

theorem pure (h : ok a s) : Lands (Pure.pure a) ok failed s := h

theorem bind (h : Lands step ok failed s) (hNext : ∀ a s', ok a s' → Lands (next a) last failed s') :
    Lands (step >>= next) last failed s := by
  simp only [Lands, Bind.bind, EStateM.bind] at h ⊢
  generalize step s = result at h
  cases result with
  | ok a s' => exact hNext a s' h
  | error e s' => exact h

theorem imp (h : Lands step ok failed s) {ok' : α → σ → Prop} {failed' : Error → σ → Prop}
    (hOk : ∀ a s', ok a s' → ok' a s') (hFailed : ∀ e s', failed e s' → failed' e s') :
    Lands step ok' failed' s := by
  simp only [Lands] at h ⊢
  cases hRun : step s with
  | ok a s' => rw [hRun] at h; exact hOk a s' h
  | error e s' => rw [hRun] at h; exact hFailed e s' h

theorem imp_failed (h : Lands step ok failed s) {failed' : Error → σ → Prop}
    (hFailed : ∀ e s', failed e s' → failed' e s') : Lands step ok failed' s :=
  h.imp (fun _ _ => id) hFailed

/-- Each attempt may be made wherever the one before it failed. -/
theorem attempting {before : σ → Prop} (h : ∀ attempt s, before s → Lands (steps attempt) ok failed s)
    (hAgain : ∀ e s, failed e s → before s) (limit : Nat) (hs : before s) :
    Lands (Action.attempting limit steps) ok failed s := by
  induction limit generalizing s steps with
  | zero => exact h 0 s hs
  | succ limit ih =>
    have hStep := h 0 s hs
    rw [Lands]
    obtain hOnce | ⟨e, s', hFails, hRest⟩ := attempting_succ_cases limit steps s
    · rw [hOnce]
      exact hStep
    · rw [Lands, hFails] at hStep
      rw [hRest]
      exact ih (fun attempt => h (attempt + 1)) (hAgain e s' hStep)

theorem retrying {before : σ → Prop} (h : ∀ s, before s → Lands step ok failed s)
    (hAgain : ∀ e s, failed e s → before s) (limit : Nat) (hs : before s) :
    Lands (Action.retrying limit step) ok failed s :=
  .attempting (fun _ => h) hAgain limit hs

theorem within {τ : Type} {view : τ → σ} {update : τ → σ → τ} {ok' : α → τ → Prop}
    {failed' : Error → τ → Prop} {t : τ} (h : Lands step ok failed (view t))
    (hOk : ∀ a s', ok a s' → ok' a (update t s'))
    (hFailed : ∀ e s', failed e s' → failed' e (update t s')) :
    Lands (Action.within view update step) ok' failed' t := by
  simp only [Lands, Action.within] at h ⊢
  generalize step (view t) = result at h
  cases result with
  | ok a s' => exact hOk a s' h
  | error e s' => exact hFailed e s' h

theorem leave {after : σ → Prop} (h : Lands step (fun _ => after) (fun _ => after) s) :
    after (step.leave s) := by
  rw [Lands] at h
  rw [Action.leave]
  generalize step s = result at h
  cases result <;> exact h

end Lands

/-- The condition holds after the step as it did before, whether the step succeeds or fails. -/
abbrev Keeps (kept : σ → Prop) (step : Action σ α) : Prop := Meets kept step (fun _ => kept) kept

theorem keeps_true (step : Action σ α) : Keeps (fun _ => True) step := fun s _ => by
  cases step s <;> trivial

theorem Keeps.leave {kept : σ → Prop} (h : Keeps kept step) (hs : kept s) :
    kept (step.leave s) := by
  have hStep := h s hs
  rw [Action.leave]
  generalize step s = result at hStep
  cases result <;> exact hStep

end ForkLog.Action
