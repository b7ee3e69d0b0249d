import ForkLog.Action
import ForkLog.Bytes

/-! # Ordered key–value stores -/

namespace ForkLog

set_option autoImplicit false

abbrev Entry := Bytes × Bytes

/-- The calls that everything above a store is made of. Ranges and prefixes are listed in key
order; a limit of `0` lists all. -/
class Store (σ : Type) where
  get : Bytes → Action σ (Option Bytes)
  getMany : List Bytes → Action σ (List (Option Bytes))
  put : Bytes → Bytes → Action σ Unit
  deleteMany : List Bytes → Action σ Unit
  /-- The entries from `start` up to but not including `stop`. -/
  range : (start stop : Bytes) → (limit : Nat) → Action σ (List Entry)
  startingWith : (beginning : Bytes) → (limit : Nat) → Action σ (List Entry)
  sync : Action σ Unit
  /-- No walk over the store meets more entries than this. -/
  bound : σ → Nat

end ForkLog
