import Std.Data.ExtTreeMap
import ForkLog.Operation

/-! # Pending changes

The changes that wait to be written: for each key the latest one, in key order.
-/

namespace ForkLog

set_option autoImplicit false

abbrev PendingSet := Std.ExtTreeMap String Change

namespace PendingSet

def add (pending : PendingSet) (op : Operation) : PendingSet :=
  pending.insert op.key op.toChange

def addAll (pending : PendingSet) (ops : List Operation) : PendingSet := ops.foldl add pending

def operations (pending : PendingSet) : List Operation :=
  pending.toList.map fun (key, change) => { change with key }

def find? (pending : PendingSet) (key : String) : Option Operation :=
  pending[key]?.map fun change => { change with key }

/-- An order to write pending changes in. Nothing prescribes one. -/
structure Order where
  list : PendingSet → List Operation
  perm : ∀ pending, (list pending).Perm pending.operations

/-- Writes the changes by their keys. -/
def Order.sorted : Order := ⟨operations, fun _ => .refl _⟩

/-- Adds what was taken out before. Changes that came since are newer and stay. -/
def restore (pending : PendingSet) (taken : List Operation) : PendingSet :=
  taken.foldl (fun pending op => pending.insertIfNew op.key op.toChange) pending

theorem find?_add (pending : PendingSet) (op : Operation) (key : String) :
    (pending.add op).find? key = if op.key = key then some op else pending.find? key := by
  unfold find? add
  rw [Std.ExtTreeMap.getElem?_insert]
  by_cases h : op.key = key
  · subst h
    simp
  · simp [h]

end PendingSet

end ForkLog
