import ForkLog.Store

/-! # Stores with scheduled faults

A faulty store passes its calls on to another one, except those that a fault in its list takes
away. A call that is taken away has no effect. The calls that write are counted when they are
passed on.
-/

namespace ForkLog

set_option autoImplicit false

inductive StoreCall where
  | get
  | getMany
  | put
  | deleteMany
  | range
  | startingWith
  | sync
  deriving DecidableEq, Repr

structure Fault where
  call : StoreCall
  /-- Only calls on this key are meant. -/
  key : Option Bytes
  /-- Calls to let pass before the first failure. -/
  skip : Nat
  times : Nat
  error : Error
  deriving Repr

structure CallCounts where
  put : Nat
  deleteMany : Nat
  sync : Nat
  deriving DecidableEq, Repr

def CallCounts.zero : CallCounts := ⟨0, 0, 0⟩

structure Faulty (σ : Type) where
  inner : σ
  faults : List Fault
  counts : CallCounts

namespace Faulty

variable {σ α : Type}

def ofStore (inner : σ) : Faulty σ := ⟨inner, [], .zero⟩

def concerns (call : StoreCall) (key : Option Bytes) (f : Fault) : Bool :=
  f.call = call && f.times ≠ 0 && (f.key.isNone || f.key = key)

/-- Finds the fault that takes a call away, and the faults as they stand after the call. Each
fault that lets the call pass uses up one of its skips. -/
def strike (call : StoreCall) (key : Option Bytes) : List Fault → Option Error × List Fault
  | [] => (none, [])
  | f :: rest =>
    if concerns call key f then
      match f.skip with
      | 0 => (some f.error, { f with times := f.times - 1 } :: rest)
      | skip + 1 =>
        let (error, rest) := strike call key rest
        (error, { f with skip } :: rest)
    else
      let (error, rest) := strike call key rest
      (error, f :: rest)

def passing (call : StoreCall) (key : Option Bytes) (count : CallCounts → CallCounts)
    (step : Action σ α) : Action (Faulty σ) α := fun s =>
  match strike call key s.faults with
  | (some e, faults) => .error e { s with faults }
  | (none, faults) =>
    Action.within inner (fun s inner => { s with inner }) step
      { s with faults, counts := count s.counts }

instance [Store σ] : Store (Faulty σ) where
  get key := passing .get (some key) id (Store.get key)
  getMany keys := passing .getMany none id (Store.getMany keys)
  put key value :=
    passing .put (some key) (fun c => { c with put := c.put + 1 }) (Store.put key value)
  deleteMany keys :=
    passing .deleteMany none (fun c => { c with deleteMany := c.deleteMany + 1 })
      (Store.deleteMany keys)
  range start stop limit := passing .range none id (Store.range start stop limit)
  startingWith beginning limit :=
    passing .startingWith none id (Store.startingWith beginning limit)
  sync := passing .sync none (fun c => { c with sync := c.sync + 1 }) Store.sync
  bound s := Store.bound s.inner

def addFault (f : Fault) (s : Faulty σ) : Faulty σ := { s with faults := s.faults ++ [f] }

def clearFaults (s : Faulty σ) : Faulty σ := { s with faults := [] }

end Faulty

end ForkLog
