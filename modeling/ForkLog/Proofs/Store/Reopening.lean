import Mathlib
import ForkLog.Proofs.Disk.FileTree
import ForkLog.Proofs.Store.Faltering
import ForkLog.Proofs.Store.Withstanding

/-! # What a durable store is opened with again

Whatever calls are made of a durable store and however many of them fail, its directory leads back to
what the store had in memory when a sync last ended well.
-/

namespace ForkLog

set_option autoImplicit false

namespace DurableStore

variable {δ : Type} [Disk δ] {directory : String}
  {Holds : δ → Option Bytes → Option Bytes → Prop} {maxRetries : Nat} {opened : DurableStore δ}

/-- The contents that should be durable after a write, if before it these were: a sync that ends well
takes what is in memory. -/
def savedBy (saved : Contents) (s : DurableStore δ) : Store.Write → Contents
  | .put _ _ | .deleteMany _ => saved
  | .sync =>
    match Store.Write.sync.make s with
    | .ok _ s' => s'.contents
    | .error _ _ => saved

/-- What was in memory when a sync last ended well, and before the first one the given contents. -/
def lastSynced (saved : Contents) (s : DurableStore δ) : List Store.Write → Contents
  | [] => saved
  | write :: writes => lastSynced (savedBy saved s write) (write.leave s) writes

theorem Mirrors.leave (hDisk : Disk.Withstands directory Holds) {s : DurableStore δ}
    {contents saved : Contents} (h : Mirrors directory Holds s ⟨contents, saved⟩)
    (write : Store.Write) :
    Mirrors directory Holds (write.leave s) ⟨write.leave contents, savedBy saved s write⟩ := by
  cases write with
  | put key value =>
    obtain ⟨s', hPut, hLeft⟩ := (simulates_put key value).exists_of_ok h rfl
    have hMake : (Store.Write.put key value).make s = .ok () s' := hPut
    rw [Store.Write.leave, Action.leave_eq_of_ok hMake]
    exact hLeft
  | deleteMany keys =>
    obtain ⟨s', hDelete, hLeft⟩ := (simulates_deleteMany keys).exists_of_ok h rfl
    have hMake : (Store.Write.deleteMany keys).make s = .ok () s' := hDelete
    rw [Store.Write.leave, Action.leave_eq_of_ok hMake]
    exact hLeft
  | sync =>
    have hSync := persist_lands hDisk h
    rw [Action.Lands] at hSync
    cases hRun : persist s with
    | ok _ s' =>
      rw [hRun] at hSync
      have hMake : Store.Write.sync.make s = .ok () s' := hRun
      have hSaved : savedBy saved s .sync = contents := by
        simp only [savedBy, hMake, hSync.contents]
      rw [Store.Write.leave, Action.leave_eq_of_ok hMake, hSaved]
      exact hSync
    | error e s' =>
      rw [hRun] at hSync
      have hMake : Store.Write.sync.make s = .error e s' := hRun
      have hSaved : savedBy saved s .sync = saved := by
        simp only [savedBy, hMake]
      rw [Store.Write.leave, Action.leave_eq_of_error hMake, hSaved]
      exact hSync.2

/-- After any writes the store has in memory what contents would be, and on its disk what was last
synced. -/
theorem Mirrors.afterWrites (hDisk : Disk.Withstands directory Holds) {s : DurableStore δ}
    {contents saved : Contents} (h : Mirrors directory Holds s ⟨contents, saved⟩)
    (writes : List Store.Write) :
    Mirrors directory Holds (Store.afterWrites writes s)
      ⟨Store.afterWrites writes contents, lastSynced saved s writes⟩ := by
  induction writes generalizing s contents saved with
  | nil => exact h
  | cons write writes ih => exact ih (h.leave hDisk write)

theorem keeps_maxRetries_persist :
    Action.Keeps (fun s : DurableStore δ => s.maxRetries = maxRetries) persist := by
  refine .get_bind fun s _ => ?_
  split
  · have hWrite (step : Action δ Unit) :
        Action.Keeps (fun s : DurableStore δ => s.maxRetries = maxRetries) (onDisk step) := by
      intro s hs
      simp only [onDisk, Action.within]
      generalize step s.disk = result
      cases result <;> exact hs
    exact .bind (hWrite _) fun _ _ => id
  · exact .pure fun _ => id

theorem keeps_maxRetries (write : Store.Write) (maxRetries : Nat) :
    Action.Keeps (fun s : DurableStore δ => s.maxRetries = maxRetries) write.make := by
  cases write with
  | put key value => exact fun _ => id
  | deleteMany keys =>
    intro s hs
    cases keys <;> exact hs
  | sync => exact keeps_maxRetries_persist

theorem maxRetries_afterWrites (writes : List Store.Write) (s : DurableStore δ) :
    (Store.afterWrites writes s).maxRetries = s.maxRetries := by
  induction writes generalizing s with
  | nil => rfl
  | cons write writes ih =>
    have hLeave : (write.leave s).maxRetries = s.maxRetries :=
      (keeps_maxRetries write s.maxRetries).leave rfl
    exact (ih _).trans hLeave

theorem maxRetries_of_mount {disk : δ} (h : mount directory maxRetries disk = .ok opened) :
    opened.maxRetries = maxRetries := by
  rw [mount] at h
  split at h
  · cases h
    rfl
  · cases h

/-- A sync fails for a reason that may pass if and only if there was something to write and each of
the attempts that it may make failed for such a reason. -/
theorem gives_up_iff {s : DurableStore δ} :
    (∃ e s', (Store.sync : Action (DurableStore δ) Unit) s = .error e s' ∧
        e.isTransient = true) ↔
      s.dirty = true ∧ Action.FailsInARow (s.maxRetries + 1)
        (writeSnapshot s.path s.contents.entries) s.disk := by
  change (∃ e s', persist s = .error e s' ∧ _) ↔ _
  cases hDirty : s.dirty with
  | false => simp [persist_eq_of_clean hDirty]
  | true =>
    rw [persist_eq_of_dirty hDirty, Action.failsInARow_iff]
    simp only [bind, EStateM.bind, onDisk, Action.within]
    cases Action.retrying s.maxRetries (writeSnapshot s.path s.contents.entries) s.disk with
    | ok _ disk => simp [setDirty]
    | error e disk => simp

/-- Calls that write are made of a durable store, and any of the steps on its files may fail. In
memory the store has what the calls amount to. When its directory is opened again, there is what was
in memory when a sync last ended well; before the first such sync, what the directory held. A sync
gives up on a failure that may pass only when it has made all its attempts. -/
theorem reopened_as_last_synced (hDisk : Disk.Withstands directory Holds) {disk : δ}
    {snapshot draft : Option Bytes} (hHolds : Holds disk snapshot draft)
    (hMount : mount directory maxRetries disk = .ok opened) (writes : List Store.Write)
    (hShort : ∀ data after, Disk.read (snapshotPath directory)
      (Store.afterWrites writes opened).disk = .ok data after → data.length < Wire.lengthLimit) :
    (Store.afterWrites writes opened).contents = Store.afterWrites writes opened.contents ∧
    (∀ retries, ∃ reopened,
      mount directory retries (Store.afterWrites writes opened).disk = .ok reopened ∧
        reopened.contents = lastSynced opened.contents opened writes) ∧
    ((∃ e s', (Store.sync : Action (DurableStore δ) Unit) (Store.afterWrites writes opened) =
        .error e s' ∧ e.isTransient = true) ↔
      (Store.afterWrites writes opened).dirty = true ∧
        Action.FailsInARow (maxRetries + 1)
          (writeSnapshot (snapshotPath directory)
            (Store.afterWrites writes opened).contents.entries)
          (Store.afterWrites writes opened).disk) := by
  have hOpened := mirrors_of_recalls hDisk.toRecalls hHolds hMount
  have hLeft := Mirrors.afterWrites hDisk hOpened writes
  refine ⟨hLeft.contents, fun retries => ?_, ?_⟩
  · have hKept := hLeft.kept_of_recalls hDisk.toRecalls hShort
    obtain ⟨reopened, hReopen, hMirrors⟩ := mount_of_recalls hDisk.toRecalls hKept retries
    exact ⟨reopened, hReopen, hMirrors.contents⟩
  · rw [gives_up_iff, hLeft.path, maxRetries_afterWrites, maxRetries_of_mount hMount]

/-- The second and the tenth step that write files fail. -/
def flakyDisk : Brittle FileTree :=
  ⟨.withData, [none, some ⟨.interrupted, "Interrupted system call (os error 4)"⟩, none, none, none,
    none, none, none, none, some ⟨.permanent, "No space left on device (os error 28)"⟩]⟩

def flakyStore : DurableStore (Brittle FileTree) :=
  { contents := ∅, dirty := false, disk := flakyDisk, path := "data/kv.snapshot", maxRetries := 3 }

def twoSyncs : List Store.Write :=
  [.put [0x6B, 0x61] [0x31], .sync, .put [0x6B, 0x62] [0x32], .deleteMany [[0x6B, 0x61], [0x6B]],
    .deleteMany [], .sync, .put [0x6B, 0x63] [0x33]]

/-- The first sync writes half of a snapshot and ends well when it tries again. The second one fails
when it renames the draft. -/
theorem reopened_after_failed_sync :
    mount "data" 3 flakyDisk = .ok flakyStore ∧
      (Store.afterWrites twoSyncs flakyStore).disk.faults = [] ∧
      (Store.afterWrites twoSyncs flakyStore).contents.entries =
        [([0x6B, 0x62], [0x32]), ([0x6B, 0x63], [0x33])] ∧
      ∃ reopened,
        mount "data" 3 (Store.afterWrites twoSyncs flakyStore).disk = .ok reopened ∧
          reopened.contents.entries = [([0x6B, 0x61], [0x31])] := by
  have hMount : mount "data" 3 flakyDisk = .ok flakyStore := rfl
  have hHolds : FileTree.HoldsData flakyDisk.inner none none := .of_withData
  have hShort : ∀ data after, Disk.read (snapshotPath "data")
      (Store.afterWrites twoSyncs flakyStore).disk = .ok data after →
        data.length < Wire.lengthLimit := length_of_isShort (by decide +kernel)
  obtain ⟨-, hReopen, -⟩ := reopened_as_last_synced (Brittle.withstands FileTree.HoldsData.serves)
    hHolds hMount twoSyncs hShort
  obtain ⟨reopened, hAgain, hContents⟩ := hReopen 3
  refine ⟨hMount, by decide +kernel, by decide +kernel, reopened, hAgain, ?_⟩
  rw [hContents]
  decide +kernel

end DurableStore

end ForkLog
