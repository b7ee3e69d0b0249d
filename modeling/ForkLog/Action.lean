import ForkLog.Error

/-! # Failing steps

A step that fails still leaves a state behind: what it did before the failure has happened.
-/

namespace ForkLog

set_option autoImplicit false

/-- A step on a state `σ` that returns an `α` or fails. -/
abbrev Action (σ α : Type) := EStateM Error σ α

namespace Action

variable {σ τ α : Type}

def ofExcept : Except Error α → Action σ α
  | .ok a => fun s => .ok a s
  | .error e => fun s => .error e s

def within (view : τ → σ) (update : τ → σ → τ) (step : Action σ α) : Action τ α := fun t =>
  match step (view t) with
  | .ok a s => .ok a (update t s)
  | .error e s => .error e (update t s)

/-- Makes the steps one after another, each from the state that the last one left, until one of
them does not fail for a transient reason. At most `limit` come after the first one. -/
def attempting : Nat → (Nat → Action σ α) → Action σ α
  | 0, steps => steps 0
  | limit + 1, steps => fun s =>
    match steps 0 s with
    | .ok a s' => .ok a s'
    | .error e s' =>
      if e.isTransient then attempting limit (fun attempt => steps (attempt + 1)) s'
      else .error e s'

/-- Makes the step again from the state it left, at most `limit` times, as long as its failures
are transient. -/
def retrying (limit : Nat) (step : Action σ α) : Action σ α := attempting limit fun _ => step

end Action

end ForkLog
