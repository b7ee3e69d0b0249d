import Mathlib
import ForkLog.Proofs.Store.Durable

/-! # Durable stores on a disk whose steps may fail

A snapshot is written in four steps, each of which may fail. As long as a step that fails leaves the
last snapshot alone, a sync saves all contents or has no effect, however often it tries.
-/

namespace ForkLog

set_option autoImplicit false

/-- The step is done, or it fails and the snapshot is what it was. Of the draft nothing is known
then. -/
def FileAction.DoneOr {δ : Type} (Holds : δ → Option Bytes → Option Bytes → Prop)
    (snapshot : Option Bytes) (done : δ → Prop) (step : FileAction δ Unit) (disk : δ) : Prop :=
  match step disk with
  | .ok _ disk' => done disk'
  | .error _ disk' => ∃ draft, Holds disk' snapshot draft

/-- The disk tells of the snapshot in a directory, and each step that writes the next one is done or
fails and leaves the snapshot as it was. -/
structure Disk.Withstands {δ : Type} [Disk δ] (directory : String)
    (Holds : δ → Option Bytes → Option Bytes → Prop) : Prop
    extends Disk.Recalls directory Holds where
  create : ∀ disk snapshot draft, Holds disk snapshot draft →
    FileAction.DoneOr Holds snapshot (fun disk' => Holds disk' snapshot (some []))
      (Disk.create (DurableStore.temporaryPath (DurableStore.snapshotPath directory))) disk
  write : ∀ disk snapshot data, Holds disk snapshot (some []) →
    FileAction.DoneOr Holds snapshot (fun disk' => Holds disk' snapshot (some data))
      (Disk.write (DurableStore.temporaryPath (DurableStore.snapshotPath directory)) data) disk
  sync : ∀ disk snapshot draft, Holds disk snapshot draft →
    FileAction.DoneOr Holds snapshot (fun disk' => Holds disk' snapshot draft)
      (Disk.sync (DurableStore.temporaryPath (DurableStore.snapshotPath directory))) disk
  rename : ∀ disk snapshot data, Holds disk snapshot (some data) →
    FileAction.DoneOr Holds snapshot (fun disk' => Holds disk' (some data) none)
      (Disk.rename (DurableStore.temporaryPath (DurableStore.snapshotPath directory))
        (DurableStore.snapshotPath directory)) disk

theorem FileFault.isStoreFailure_toError (context : String) (fault : FileFault) :
    (fault.toError context).isStoreFailure = true := by
  obtain ⟨kind, text⟩ := fault
  cases kind <;> rfl

theorem FileAction.DoneOr.lands {δ : Type} {Holds : δ → Option Bytes → Option Bytes → Prop}
    {snapshot : Option Bytes} {done : δ → Prop} {step : FileAction δ Unit} {disk : δ}
    (h : FileAction.DoneOr Holds snapshot done step disk) (context : String) :
    (FileAction.inContext context step).Lands (fun _ => done)
      (fun e disk' => e.isStoreFailure = true ∧ ∃ draft, Holds disk' snapshot draft) disk := by
  rw [FileAction.DoneOr] at h
  simp only [Action.Lands, FileAction.inContext]
  generalize step disk = result at h
  cases result with
  | ok _ disk' => exact h
  | error fault disk' => exact ⟨fault.isStoreFailure_toError context, h⟩

namespace DurableStore

variable {δ : Type} [Disk δ] {directory : String}
  {Holds : δ → Option Bytes → Option Bytes → Prop}

theorem writeSnapshot_lands (hDisk : Disk.Withstands directory Holds) {disk : δ}
    {snapshot draft : Option Bytes} (hHolds : Holds disk snapshot draft) (entries : List Entry) :
    (writeSnapshot (snapshotPath directory) entries).Lands
      (fun _ disk' => Holds disk' (some (Snapshot.encode entries)) none)
      (fun e disk' => e.isStoreFailure = true ∧ ∃ draft, Holds disk' snapshot draft) disk := by
  refine ((hDisk.create _ _ _ hHolds).lands _).bind fun _ disk₁ h₁ => ?_
  refine ((hDisk.write _ _ _ h₁).lands _).bind fun _ disk₂ h₂ => ?_
  refine ((hDisk.sync _ _ _ h₂).lands _).bind fun _ disk₃ h₃ => ?_
  exact (hDisk.rename _ _ _ h₃).lands _

theorem retrying_writeSnapshot_lands (hDisk : Disk.Withstands directory Holds) {disk : δ}
    {snapshot draft : Option Bytes} (hHolds : Holds disk snapshot draft) (entries : List Entry)
    (limit : Nat) :
    (Action.retrying limit (writeSnapshot (snapshotPath directory) entries)).Lands
      (fun _ disk' => Holds disk' (some (Snapshot.encode entries)) none)
      (fun e disk' => e.isStoreFailure = true ∧ ∃ draft, Holds disk' snapshot draft) disk := by
  have hAttempt : ∀ disk, (∃ draft, Holds disk snapshot draft) →
      (writeSnapshot (snapshotPath directory) entries).Lands
        (fun _ disk' => Holds disk' (some (Snapshot.encode entries)) none)
        (fun e disk' => e.isStoreFailure = true ∧ ∃ draft, Holds disk' snapshot draft) disk :=
    fun disk ⟨_, hDraft⟩ => writeSnapshot_lands hDisk hDraft entries
  exact .retrying hAttempt (fun _ _ hFailed => hFailed.2) limit ⟨draft, hHolds⟩

theorem persist_lands (hDisk : Disk.Withstands directory Holds) {s : DurableStore δ}
    {v : Checkpointed} (h : Mirrors directory Holds s v) :
    persist.Lands (fun _ s' => Mirrors directory Holds s' { v with saved := v.current })
      (fun e s' => e.isStoreFailure = true ∧ Mirrors directory Holds s' v) s := by
  obtain ⟨snapshot, draft, hHolds, hSaved⟩ := h.snapshot
  cases hDirty : s.dirty with
  | false =>
    rw [Action.Lands, persist_eq_of_clean hDirty]
    exact h.idle hDirty
  | true =>
    rw [Action.Lands, persist_eq_of_dirty hDirty, h.path]
    -- After a failure the store is still dirty, so its contents need not be what was saved.
    have hFailed (disk : δ) (hStill : ∃ draft, Holds disk snapshot draft) :
        Mirrors directory Holds { s with disk } v := by
      obtain ⟨draft, hStill⟩ := hStill
      refine ⟨h.contents, h.path, ⟨snapshot, draft, hStill, hSaved⟩, fun hClean => ?_⟩
      exact absurd (hDirty.symm.trans hClean) Bool.true_eq_false.mp
    have hWrite : (onDisk (Action.retrying s.maxRetries
          (writeSnapshot (snapshotPath directory) s.contents.entries))).Lands
        (fun _ s' => ∃ disk, s' = { s with disk } ∧
          Holds disk (some (Snapshot.encode s.contents.entries)) none)
        (fun e s' => e.isStoreFailure = true ∧ Mirrors directory Holds s' v) s :=
      (retrying_writeSnapshot_lands hDisk hHolds s.contents.entries s.maxRetries).within
        (fun _ disk hDone => ⟨disk, rfl, hDone⟩)
        fun _ disk hStill => ⟨hStill.1, hFailed disk hStill.2⟩
    refine hWrite.bind ?_
    rintro _ _ ⟨disk, rfl, hDone⟩
    exact h.written hDone

end DurableStore

/-- A disk on which the steps that write a snapshot fail as they are told to. -/
structure Brittle (δ : Type) where
  inner : δ
  /-- What becomes of the steps to come, one after another. Those that follow are all done. -/
  faults : List (Option FileFault)

namespace Brittle

variable {δ α : Type} {directory : String} {Holds : δ → Option Bytes → Option Bytes → Prop}

def passing (step : FileAction δ α) : FileAction (Brittle δ) α := fun s =>
  match step s.inner with
  | .ok a inner => .ok a { s with inner }
  | .error fault inner => .error fault { s with inner }

/-- Where a fault strikes, only `begun` is made of the step. -/
def striking (step begun : FileAction δ Unit) : FileAction (Brittle δ) Unit := fun s =>
  match s.faults with
  | [] => passing step s
  | none :: faults => passing step { s with faults }
  | some fault :: faults =>
    match begun s.inner with
    | .ok _ inner | .error _ inner => .error fault ⟨inner, faults⟩

theorem passing_eq_of_ok {step : FileAction δ α} {s : Brittle δ} {a : α} {inner : δ}
    (h : step s.inner = .ok a inner) : passing step s = .ok a { s with inner } := by
  rw [passing, h]

theorem striking_doneOr {step begun : FileAction δ Unit} {snapshot : Option Bytes} {done : δ → Prop}
    {s : Brittle δ} (hStep : ∃ inner, step s.inner = .ok () inner ∧ done inner)
    (hBegun : ∃ inner draft, begun s.inner = .ok () inner ∧ Holds inner snapshot draft) :
    FileAction.DoneOr (fun s : Brittle δ => Holds s.inner) snapshot (fun s => done s.inner)
      (striking step begun) s := by
  obtain ⟨inner, hStep, hDone⟩ := hStep
  obtain ⟨left, draft, hBegun, hLeft⟩ := hBegun
  obtain ⟨disk, faults⟩ := s
  rw [FileAction.DoneOr, striking]
  cases faults with
  | nil =>
    simp only [passing, hStep]
    exact hDone
  | cons fault faults =>
    cases fault with
    | none =>
      simp only [passing, hStep]
      exact hDone
    | some fault =>
      simp only [hBegun]
      exact ⟨draft, hLeft⟩

variable [Disk δ]

instance : Disk (Brittle δ) where
  isPresent path s := Disk.isPresent path s.inner
  makeDirectories path := passing (Disk.makeDirectories path)
  openFile path := passing (Disk.openFile path)
  read path := passing (Disk.read path)
  create path := striking (Disk.create path) (pure ())
  write path data :=
    striking (Disk.write path data) (Disk.write path (data.take (data.length / 2)))
  sync path := striking (Disk.sync path) (pure ())
  rename source target := striking (Disk.rename source target) (pure ())

theorem withstands (h : Disk.Serves directory Holds) :
    Disk.Withstands directory fun s : Brittle δ => Holds s.inner where
  isPresent s := h.isPresent s.inner
  makeDirectories s snapshot draft hHolds := by
    obtain ⟨inner, hStep, hInner⟩ := h.makeDirectories _ _ _ hHolds
    exact ⟨_, passing_eq_of_ok hStep, hInner⟩
  openFile s data draft hHolds := by
    obtain ⟨inner, hStep, hInner⟩ := h.openFile _ _ _ hHolds
    exact ⟨_, passing_eq_of_ok hStep, hInner⟩
  read s data draft hHolds := by
    obtain ⟨inner, hStep, hInner⟩ := h.read _ _ _ hHolds
    exact ⟨_, passing_eq_of_ok hStep, hInner⟩
  create s snapshot draft hHolds :=
    striking_doneOr (h.create _ _ _ hHolds) ⟨s.inner, draft, rfl, hHolds⟩
  write s snapshot data hHolds := by
    obtain ⟨left, hBegun, hLeft⟩ := h.write _ _ (data.take (data.length / 2)) hHolds
    exact striking_doneOr (h.write _ _ data hHolds) ⟨left, _, hBegun, hLeft⟩
  sync s snapshot draft hHolds :=
    striking_doneOr (h.sync _ _ _ hHolds) ⟨s.inner, draft, rfl, hHolds⟩
  rename s snapshot data hHolds :=
    striking_doneOr (h.rename _ _ _ hHolds) ⟨s.inner, some data, rfl, hHolds⟩

end Brittle

end ForkLog
