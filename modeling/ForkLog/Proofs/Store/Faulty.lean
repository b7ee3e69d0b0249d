import Mathlib
import ForkLog.Proofs.Action
import ForkLog.Proofs.Simulation
import ForkLog.Proofs.Store.Contents
import ForkLog.Store.Faulty

/-! # Stores with faults

Where no fault is left a faulty store behaves as the store under it. Where one strikes, the contents
are what they were before the call.
-/

namespace ForkLog.Faulty

set_option autoImplicit false

variable {σ α : Type} {R : σ → Contents → Prop} {step : Action σ α} {other : Action Contents α}

/-- No fault is left, and the store under the faults has the given contents. -/
def Mended (R : σ → Contents → Prop) (s : Faulty σ) (contents : Contents) : Prop :=
  s.faults = [] ∧ R s.inner contents

theorem simulates_passing (h : Action.Simulates R step other) (call : StoreCall)
    (key : Option Bytes) (count : CallCounts → CallCounts) :
    Action.Simulates (Mended R) (passing call key count step) other := by
  rintro ⟨inner, faults, counts⟩ contents ⟨rfl, hInner⟩
  simp only [passing, strike]
  exact (h inner contents hInner).within_left fun _ _ h' => ⟨rfl, h'⟩

/-- The store under the faults has contents of which `P` holds. -/
def Holding (R : σ → Contents → Prop) (P : Contents → Prop) (s : Faulty σ) : Prop :=
  ∃ contents, R s.inner contents ∧ P contents

/-- A call that may be taken away does what it does to contents, or nothing at all. -/
theorem meets_passing (h : Action.Simulates R step other) (call : StoreCall) (key : Option Bytes)
    (count : CallCounts → CallCounts) {P : Contents → Prop} {Q : α → Contents → Prop}
    (hOther : Action.Meets P other Q P) :
    Action.Meets (Holding R P) (passing call key count step) (fun a => Holding R (Q a))
      (Holding R P) := by
  rintro s ⟨contents, hInner, hContents⟩
  rcases hStrike : strike call key s.faults with ⟨struck, faults⟩
  cases struck with
  | some e =>
    simp only [passing, hStrike]
    exact ⟨contents, hInner, hContents⟩
  | none =>
    have hStep := h s.inner contents hInner
    have hMeets := hOther contents hContents
    simp only [passing, hStrike, Action.within]
    generalize step s.inner = result at hStep
    generalize other contents = otherResult at hStep hMeets
    cases hStep with
    | ok a h' => exact ⟨_, h', hMeets⟩
    | error e h' => exact ⟨_, h', hMeets⟩

variable [Store σ]

theorem simulation_mended (h : Store.Simulation R) : Store.Simulation (Mended R) where
  get key := simulates_passing (h.get key) _ _ _
  getMany keys := simulates_passing (h.getMany keys) _ _ _
  put key value := simulates_passing (h.put key value) _ _ _
  deleteMany keys := simulates_passing (h.deleteMany keys) _ _ _
  range start stop limit := simulates_passing (h.range start stop limit) _ _ _
  startingWith beginning limit := simulates_passing (h.startingWith beginning limit) _ _ _
  sync := simulates_passing h.sync _ _ _

variable {P Q : Contents → Prop}

theorem meets_getMany (h : Store.Simulation R) (keys : List Bytes) :
    Action.Meets (Holding R P) (Store.getMany keys)
      (fun values => Holding R fun contents =>
        P contents ∧ values = keys.map fun key => contents[key]?)
      (Holding R P) :=
  meets_passing (h.getMany keys) _ _ _ fun _ hContents => ⟨hContents, rfl⟩

theorem meets_range (h : Store.Simulation R) (start stop : Bytes) :
    Action.Meets (Holding R P) (Store.range start stop 0)
      (fun entries => Holding R fun contents => P contents ∧ entries = contents.between start stop)
      (Holding R P) :=
  meets_passing (h.range start stop 0) _ _ _ fun _ hContents => ⟨hContents, rfl⟩

theorem meets_put (h : Store.Simulation R) {key value : Bytes}
    (hPut : ∀ contents, P contents → Q (contents.insert key value)) :
    Action.Meets (Holding R P) (Store.put key value) (fun _ => Holding R Q) (Holding R P) :=
  meets_passing (h.put key value) _ _ _ hPut

theorem meets_deleteMany (h : Store.Simulation R) {keys : List Bytes}
    (hDelete : ∀ contents, P contents → Q (contents.eraseAll keys)) :
    Action.Meets (Holding R P) (Store.deleteMany keys) (fun _ => Holding R Q) (Holding R P) :=
  meets_passing (h.deleteMany keys) _ _ _ hDelete

theorem meets_sync (h : Store.Simulation R) :
    Action.Meets (Holding R P) Store.sync (fun _ => Holding R P) (Holding R P) :=
  meets_passing h.sync _ _ _ fun _ hContents => hContents

end ForkLog.Faulty
