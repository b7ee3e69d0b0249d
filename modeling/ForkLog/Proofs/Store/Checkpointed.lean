import Mathlib
import ForkLog.Proofs.Simulation
import ForkLog.Proofs.Store.Contents

/-! # Stores that never fail

A store that never fails is told by its contents and by what of them was last made durable. Stores
that behave as contents do behave as these whatever was made durable. What writes
leave is told for any store, whether they succeed or fail.
-/

namespace ForkLog

set_option autoImplicit false

/-- Contents together with what they were when they were last synced. -/
structure Checkpointed where
  current : Contents
  saved : Contents

namespace Checkpointed

variable {σ α : Type}

def onCurrent (step : Action Contents α) : Action Checkpointed α :=
  Action.within current (fun s current => { s with current }) step

instance : Store Checkpointed where
  get key := onCurrent (Store.get key)
  getMany keys := onCurrent (Store.getMany keys)
  put key value := onCurrent (Store.put key value)
  deleteMany keys := onCurrent (Store.deleteMany keys)
  range start stop limit := onCurrent (Store.range start stop limit)
  startingWith beginning limit := onCurrent (Store.startingWith beginning limit)
  sync := fun s => .ok () { s with saved := s.current }
  bound s := Store.bound s.current

def ofContents (contents : Contents) : Checkpointed := ⟨contents, contents⟩

theorem simulates_onCurrent {R : σ → Contents → Prop} {step : Action σ α}
    {other : Action Contents α} (h : Action.Simulates R step other) :
    Action.Simulates (fun s (t : Checkpointed) => R s t.current) step (onCurrent other) :=
  fun s t hst => (h s t.current hst).within_right fun _ _ => id

end Checkpointed

namespace Store

variable {σ : Type} [Store σ] {R : σ → Contents → Prop}

theorem Simulation.checkpointed (h : Store.Simulation R) :
    Store.Simulation (fun s (t : Checkpointed) => R s t.current) where
  get key := Checkpointed.simulates_onCurrent (h.get key)
  getMany keys := Checkpointed.simulates_onCurrent (h.getMany keys)
  put key value := Checkpointed.simulates_onCurrent (h.put key value)
  deleteMany keys := Checkpointed.simulates_onCurrent (h.deleteMany keys)
  range start stop limit := Checkpointed.simulates_onCurrent (h.range start stop limit)
  startingWith beginning limit :=
    Checkpointed.simulates_onCurrent (h.startingWith beginning limit)
  sync := by
    intro s t hst
    have hSync := h.sync s t.current hst
    generalize Store.sync s = result at hSync
    cases hSync with
    | ok _ h' => exact .ok () h'

theorem simulation_contents : Store.Simulation (Eq : Contents → Contents → Prop) :=
  .refl

/-- The calls that write. -/
inductive Write where
  | put (key value : Bytes)
  | deleteMany (keys : List Bytes)
  | sync

def Write.make : Write → Action σ Unit
  | .put key value => Store.put key value
  | .deleteMany keys => Store.deleteMany keys
  | .sync => Store.sync

/-- The store after a write, which may have failed. -/
def Write.leave (write : Write) (s : σ) : σ := write.make.leave s

/-- The store after writes, some of which may have failed. -/
def afterWrites (writes : List Write) (s : σ) : σ :=
  writes.foldl (fun s write => write.leave s) s

/-- The user records as they are answered to queries. -/
def Holds (store : σ) (records : Records) : Prop :=
  ∀ key, (Store.get (Key.user key) : Action σ (Option Bytes)).run' store = some (records key)

theorem Simulation.holds_congr {τ : Type} [Store τ] {R : σ → τ → Prop}
    (h : Store.Simulation R) {store : σ} {other : τ} (hStore : R store other) {records : Records} :
    Holds store records ↔ Holds other records := by
  have hGet (key : String) :
      (Store.get (Key.user key) : Action σ (Option Bytes)).run' store =
        (Store.get (Key.user key) : Action τ (Option Bytes)).run' other := by
    have hAgree := h.get (Key.user key) store other hStore
    simp only [EStateM.run', EStateM.run]
    generalize Store.get (Key.user key) store = result at hAgree
    generalize Store.get (Key.user key) other = otherResult at hAgree
    cases hAgree with
    | ok a _ => rfl
    | error e _ => rfl
  simp only [Holds, hGet]

theorem Simulation.holds_iff (h : Store.Simulation R) {store : σ} {contents : Contents}
    (hStore : R store contents) {records : Records} :
    Holds store records ↔ contents.records = records := by
  rw [h.holds_congr hStore, funext_iff]
  exact forall_congr' fun _ => Option.some_inj

theorem holds_checkpointed_iff {store : Checkpointed} {records : Records} :
    Holds store records ↔ store.current.records = records := by
  rw [funext_iff]
  exact forall_congr' fun _ => Option.some_inj

end Store

end ForkLog
