import Mathlib.Data.ENat.Lattice
import ForkLog.Proofs.Action

/-! # Steps that are made again

A step that may be repeated comes to what the last of its calls comes to. The calls before that one
all failed for a reason that might have been gone the next time. The last one did not, or no
repetition was left.
-/

namespace ForkLog.Action

set_option autoImplicit false

variable {σ α : Type} {step : Action σ α} {s : σ}

/-- A failure that may be gone when the call is made again. -/
def Passing (outcome : Except Error α) : Prop :=
  ∃ reason, outcome = .error (.transientStore reason)

theorem passing_outcome_iff :
    Passing (step.outcome s) ↔ ∃ e, step s = .error e (step.leave s) ∧ e.isTransient = true := by
  constructor
  · rintro ⟨reason, hFails⟩
    exact ⟨.transientStore reason, eq_error_of_outcome hFails, rfl⟩
  · rintro ⟨e, hFails, hTransient⟩
    cases e with
    | transientStore reason => exact ⟨reason, by rw [outcome, hFails]⟩
    | _ => cases hTransient

theorem retrying_succ_of_passing (h : Passing (step.outcome s)) (limit : Nat) :
    retrying (limit + 1) step s = retrying limit step (step.leave s) := by
  obtain ⟨e, hFails, hTransient⟩ := passing_outcome_iff.mp h
  exact retrying_succ_of_error hFails hTransient limit

theorem retrying_eq_of_not_passing (h : ¬ Passing (step.outcome s)) (limit : Nat) :
    retrying limit step s = step s := by
  cases hStep : step s with
  | ok a s' => exact retrying_eq_of_ok hStep limit
  | error e s' =>
    have hPermanent : e.isTransient = false := by
      rw [← Bool.not_eq_true]
      intro hTransient
      exact h (passing_outcome_iff.mpr ⟨e, by rw [hStep, leave_eq_of_error hStep], hTransient⟩)
    exact retrying_eq_of_error hStep hPermanent limit

/-- What the calls of a step come to, one after another, if it is made without end. -/
def outcomes (step : Action σ α) (s : σ) (call : Nat) : Except Error α :=
  step.outcome (step.leave^[call] s)

/-- The call after which no other is made, when so many repetitions are allowed. -/
structure IsLast (limit : Nat) (outcomes : Nat → Except Error α) (last : Nat) : Prop where
  le_limit : last ≤ limit
  passing : ∀ call < last, Passing (outcomes call)
  not_passing : last < limit → ¬ Passing (outcomes last)

namespace IsLast

variable {limit last : Nat} {outcomes : Nat → Except Error α}

theorem of_not_passing (h : ¬ Passing (outcomes 0)) : IsLast limit outcomes 0 where
  le_limit := Nat.zero_le limit
  passing call hCall := absurd hCall (Nat.not_lt_zero call)
  not_passing _ := h

theorem no_repetition (outcomes : Nat → Except Error α) : IsLast 0 outcomes 0 where
  le_limit := le_rfl
  passing call hCall := absurd hCall (Nat.not_lt_zero call)
  not_passing h := absurd h (lt_irrefl 0)

theorem succ (hFirst : Passing (outcomes 0))
    (h : IsLast limit (fun call => outcomes (call + 1)) last) :
    IsLast (limit + 1) outcomes (last + 1) where
  le_limit := Nat.succ_le_succ h.le_limit
  passing call hCall := by
    cases call with
    | zero => exact hFirst
    | succ call => exact h.passing call (Nat.lt_of_succ_lt_succ hCall)
  not_passing hLess := h.not_passing (Nat.lt_of_succ_lt_succ hLess)

end IsLast

/-- All calls but the last leave nothing but the state that the next one is made from. -/
theorem exists_retrying_eq (limit : Nat) (step : Action σ α) (s : σ) :
    ∃ last, IsLast limit (step.outcomes s) last ∧
      retrying limit step s = step (step.leave^[last] s) := by
  induction limit generalizing s with
  | zero => exact ⟨0, .no_repetition _, rfl⟩
  | succ limit ih =>
    by_cases hPassing : Passing (step.outcome s)
    · obtain ⟨last, hLast, hEnds⟩ := ih (step.leave s)
      refine ⟨last + 1, hLast.succ hPassing, ?_⟩
      rw [retrying_succ_of_passing hPassing, hEnds, Function.iterate_succ_apply]
    · exact ⟨0, .of_not_passing hPassing, retrying_eq_of_not_passing hPassing _⟩

/-- The number of the first outcome after which there is no reason to make the call again. It is
infinite if there is none. -/
noncomputable def firstSettled (outcomes : Nat → Except Error α) : ℕ∞ :=
  ⨅ (call : Nat) (_ : ¬ Passing (outcomes call)), (call : ℕ∞)

theorem IsLast.eq_min {limit last : Nat} {outcomes : Nat → Except Error α}
    (h : IsLast limit outcomes last) : (last : ℕ∞) = min (firstSettled outcomes) limit := by
  apply le_antisymm
  · refine le_min (le_iInf₂ fun call hSettled => ?_) (Nat.cast_le.mpr h.le_limit)
    have hNotBefore : ¬ call < last := fun hCall => hSettled (h.passing call hCall)
    exact Nat.cast_le.mpr (Nat.le_of_not_lt hNotBefore)
  · obtain rfl | hLess := h.le_limit.eq_or_lt
    · exact min_le_right _ _
    · exact (min_le_left _ _).trans (iInf₂_le last (h.not_passing hLess))

/-- Comes to these outcomes call after call. The state is the number of calls made. -/
def scripted (outcomes : Nat → Except Error α) : Action Nat α := fun calls =>
  ofExcept (outcomes calls) (calls + 1)

theorem outcome_scripted (outcomes : Nat → Except Error α) (calls : Nat) :
    (scripted outcomes).outcome calls = outcomes calls :=
  outcome_ofExcept (outcomes calls) (calls + 1)

theorem leave_scripted (outcomes : Nat → Except Error α) :
    (scripted outcomes).leave = Nat.succ := by
  funext calls
  rw [leave, scripted]
  cases outcomes calls <;> rfl

theorem iterate_leave_scripted (outcomes : Nat → Except Error α) (call : Nat) :
    (scripted outcomes).leave^[call] 0 = call := by
  rw [leave_scripted, Nat.succ_iterate, Nat.zero_add]

theorem outcomes_scripted (outcomes : Nat → Except Error α) :
    (scripted outcomes).outcomes 0 = outcomes := by
  funext call
  rw [Action.outcomes, iterate_leave_scripted, outcome_scripted]

/-- The calls are one more than the number of the first outcome that settles the matter, or one more
than the limit if that is smaller. The step comes to what the last call comes to, and no call follows
a success or a failure that lasts. -/
theorem retries_bounded (limit : Nat) (outcomes : Nat → Except Error α) :
    ∃ last : Nat, (last : ℕ∞) = min (firstSettled outcomes) limit ∧
      (retrying limit (scripted outcomes)).leave 0 = last + 1 ∧
      (retrying limit (scripted outcomes)).outcome 0 = outcomes last ∧
      ∀ call < last, Passing (outcomes call) := by
  obtain ⟨last, hLast, hEnds⟩ := exists_retrying_eq limit (scripted outcomes) 0
  rw [outcomes_scripted] at hLast
  rw [iterate_leave_scripted] at hEnds
  refine ⟨last, hLast.eq_min, ?_, ?_, hLast.passing⟩
  · calc
      (retrying limit (scripted outcomes)).leave 0 = (scripted outcomes).leave last := by
        rw [leave, hEnds, ← leave]
      _ = last + 1 := by rw [leave_scripted]
  · calc
      (retrying limit (scripted outcomes)).outcome 0 = (scripted outcomes).outcome last := by
        rw [outcome, hEnds, ← outcome]
      _ = outcomes last := outcome_scripted outcomes last

/-- Two repetitions are three calls. -/
example : retrying 2 (scripted fun _ => (.error (.transientStore "busy") : Except Error Unit)) 0 =
    .error (.transientStore "busy") 3 := rfl

end ForkLog.Action
