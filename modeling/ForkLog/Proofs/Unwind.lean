import Mathlib
import ForkLog.Proofs.Records

/-! # Unwinding a chain

The blocks of a chain are taken back from the last one to the first. Each inverse was computed from
the records as they were written when its block was recorded, which may be some blocks behind. What
counts for a key is the first block that does anything to it.
-/

namespace ForkLog

set_option autoImplicit false

/-- A block as it was recorded. -/
structure Placed where
  number : UInt64
  operations : List Operation
  /-- The operations that had been written when the block was recorded. -/
  written : List Operation
  deriving DecidableEq

namespace Placed

def allOperations (chain : List Placed) : List Operation := chain.flatMap operations

@[simp] theorem allOperations_nil : allOperations [] = [] := rfl

@[simp] theorem allOperations_cons (c : Placed) (chain : List Placed) :
    allOperations (c :: chain) = c.operations ++ allOperations chain := rfl

@[simp] theorem allOperations_append (front chain : List Placed) :
    allOperations (front ++ chain) = allOperations front ++ allOperations chain :=
  List.flatMap_append

/-- The operations that take a chain back, the last block first. -/
def unwinding (undo : UInt64 → List Operation) (chain : List Placed) : List Operation :=
  (chain.map number).reverse.flatMap undo

theorem unwinding_cons (undo : UInt64 → List Operation) (c : Placed) (chain : List Placed) :
    unwinding undo (c :: chain) = unwinding undo chain ++ undo c.number := by
  simp [unwinding]

/-- Every block of a chain was recorded when `done` was written, and nothing beyond what came
before the block. -/
def Grounded (done : List Operation) : List Operation → List Placed → Prop
  | _, [] => True
  | before, c :: chain =>
    done <+: c.written ∧ c.written <+: before ∧ Grounded done (before ++ c.operations) chain

theorem grounded_of_layered {done : List Operation} {chain : List Placed} {before : List Operation}
    (hLayered : ∀ front c rest, chain = front ++ c :: rest →
      c.written <+: before ++ allOperations front)
    (hDone : ∀ c ∈ chain, done <+: c.written) : Grounded done before chain := by
  induction chain generalizing before with
  | nil => trivial
  | cons c chain ih =>
    have hFirst := hLayered [] c chain rfl
    rw [allOperations_nil, List.append_nil] at hFirst
    refine ⟨hDone c List.mem_cons_self, hFirst, ih ?_ fun d hd => hDone d (.tail c hd)⟩
    rintro front d rest rfl
    have hNext := hLayered (c :: front) d rest rfl
    rwa [allOperations_cons, ← List.append_assoc] at hNext

end Placed

namespace Records

/-- Under each key, `undo` puts back what was there before the operations. Where these spare the
key it may also leave the key alone. -/
def TakesBack (before : Records) (ops undo : List Operation) : Prop :=
  ∀ (records : Records) (key : String),
    records.afterAll undo key = before key ∨
      before.Spares ops key ∧ records.afterAll undo key = records key

theorem takesBack_inverse (before : Records) {ops : List Operation}
    (hValid : ∀ op ∈ ops, op.kind ≠ .unset) : before.TakesBack ops (before.inverse ops) := by
  intro records key
  by_cases h : before.Spares ops key
  · exact .inr ⟨h, afterAll_inverse_of_spares hValid h⟩
  · exact .inl (afterAll_inverse_of_not_spares hValid h)

end Records

namespace Placed

/-- What was recorded for a block of valid operations. -/
def Inverts (initial : Records) (c : Placed) (undo : List Operation) : Prop :=
  (∀ op ∈ c.operations, op.kind ≠ .unset) ∧
    undo = (initial.afterAll c.written).inverse c.operations

/-- What takes a block back may be recorded for it. -/
def TakenBackBy (initial : Records) (c : Placed) (undo : List Operation) : Prop :=
  (initial.afterAll c.written).TakesBack c.operations undo

theorem Inverts.takenBackBy {initial : Records} {c : Placed} {undo : List Operation}
    (h : Inverts initial c undo) : c.TakenBackBy initial undo :=
  h.2 ▸ Records.takesBack_inverse _ h.1

/-- What is recorded for a block fits it, and what fits it takes it back. -/
structure Fitting (initial : Records) (fits : Placed → List Operation → Prop) : Prop where
  inverts : ∀ c undo, Inverts initial c undo → fits c undo
  takenBackBy : ∀ c undo, fits c undo → c.TakenBackBy initial undo

theorem fitting_inverts (initial : Records) : Fitting initial (Inverts initial) :=
  ⟨fun _ _ => id, fun _ _ => Inverts.takenBackBy⟩

theorem fitting_takenBackBy (initial : Records) : Fitting initial (TakenBackBy initial) :=
  ⟨fun _ _ => Inverts.takenBackBy, fun _ _ => id⟩

variable {initial : Records} {undo : UInt64 → List Operation} {chain : List Placed}
  {done before : List Operation} {key : String} {value : Option Bytes}

/-- A key that holds `value` all the way from `done` to the beginning of a chain holds it again
when the chain is taken back. The induction follows the chain until a block does something to the
key: its inverse decides, whatever the inverses of the later blocks left there. -/
theorem afterAll_unwinding_of_steady (hBefore : done <+: before)
    (hSteady : ∀ w, done <+: w → w <+: before → initial.afterAll w key = value)
    (hGrounded : Grounded done before chain)
    (hUndo : ∀ c ∈ chain, c.TakenBackBy initial (undo c.number)) :
    (initial.afterAll (before ++ allOperations chain)).afterAll (unwinding undo chain) key =
      value := by
  induction chain generalizing before with
  | nil =>
    rw [allOperations_nil, List.append_nil]
    exact hSteady before hBefore List.prefix_rfl
  | cons c chain ih =>
    obtain ⟨hDone, hWritten, hRest⟩ := hGrounded
    have hBase := hSteady c.written hDone hWritten
    rw [unwinding_cons, Records.afterAll_append]
    obtain hBack | ⟨hSpares, hSame⟩ := hUndo c List.mem_cons_self _ key
    · rw [hBack, hBase]
    · rw [hSame, allOperations_cons, ← List.append_assoc]
      refine ih (hBefore.trans (List.prefix_append _ _)) ?_ hRest fun d hd => hUndo d (.tail c hd)
      intro w hLow hHigh
      obtain hw | ⟨part, rfl⟩ :=
        List.prefix_or_prefix_of_prefix hHigh (List.prefix_append before c.operations)
      · exact hSteady w hLow hw
      · have hPart : part <+: c.operations := (List.prefix_append_right_inj before).mp hHigh
        have hSparesPart : (initial.afterAll c.written).Spares part key :=
          fun op hOp => hSpares op (hPart.subset hOp)
        have hStart := hSteady before hBefore List.prefix_rfl
        rw [Records.afterAll_append, hSparesPart.afterAll (hStart.trans hBase.symm), hStart]

/-- A chain of which every block was recorded when just what came before the chain was written, or
more, is taken back exactly. -/
theorem afterAll_unwinding (hGrounded : Grounded done done chain)
    (hUndo : ∀ c ∈ chain, c.TakenBackBy initial (undo c.number)) :
    (initial.afterAll (done ++ allOperations chain)).afterAll (unwinding undo chain) =
      initial.afterAll done := by
  funext key
  refine afterAll_unwinding_of_steady List.prefix_rfl ?_ hGrounded hUndo
  intro w hLow hHigh
  rw [hLow.eq_of_length (hLow.length_le.antisymm hHigh.length_le)]

/-- The first block of a chain may have been recorded too early. As long as it was written itself
before the others were recorded, its inverse decides about every key that it touches. -/
theorem afterAll_unwinding_cons {c : Placed} (key : String)
    (hUndo : undo c.number = (initial.afterAll c.written).inverse c.operations)
    (hValid : ∀ op ∈ c.operations, op.kind ≠ .unset)
    (hGrounded : Grounded (done ++ c.operations) (done ++ c.operations) chain)
    (hRest : ∀ d ∈ chain, d.TakenBackBy initial (undo d.number)) :
    (initial.afterAll (done ++ allOperations (c :: chain))).afterAll (unwinding undo (c :: chain))
      key =
      if ∃ op ∈ c.operations, op.key = key then initial.afterAll c.written key
      else initial.afterAll done key := by
  rw [allOperations_cons, ← List.append_assoc, unwinding_cons, Records.afterAll_append,
    afterAll_unwinding hGrounded hRest, hUndo]
  by_cases hSpares : (initial.afterAll c.written).Spares c.operations key
  · rw [Records.afterAll_inverse_of_spares hValid hSpares, Records.afterAll_append]
    split
    case isTrue hTouched =>
      obtain ⟨op, hOp, hKey⟩ := hTouched
      rw [(hSpares op hOp hKey).2]
      apply Records.afterAll_eq_of_outcome _ (.inl ⟨op, hOp, hKey⟩)
      intro o ho hSame
      rw [Change.outcome, (hSpares o ho hSame).1]
      exact ⟨by decide, rfl⟩
    case isFalse hUntouched =>
      exact Records.afterAll_of_not_mem fun op hOp hKey => hUntouched ⟨op, hOp, hKey⟩
  · have hTouched : ∃ op ∈ c.operations, op.key = key := by
      by_contra hNone
      exact hSpares fun op hOp hKey => absurd ⟨op, hOp, hKey⟩ hNone
    rw [Records.afterAll_inverse_of_not_spares hValid hSpares, if_pos hTouched]

end Placed

end ForkLog
