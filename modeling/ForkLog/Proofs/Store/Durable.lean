import Mathlib
import ForkLog.Proofs.Action
import ForkLog.Proofs.Store.Checkpointed
import ForkLog.Proofs.Store.Snapshot
import ForkLog.Store.Durable

/-! # Durable stores on a disk that serves them

As long as no step on its files fails a durable store behaves as its contents together with what of
them was saved. When it is opened again it has what was saved.
-/

namespace ForkLog

set_option autoImplicit false

/-- The disk tells of the snapshot in a directory. `Holds disk snapshot draft` says which files are
there, the snapshot and the draft of the next one, and what is in them. -/
structure Disk.Recalls {δ : Type} [Disk δ] (directory : String)
    (Holds : δ → Option Bytes → Option Bytes → Prop) : Prop where
  isPresent : ∀ disk snapshot draft, Holds disk snapshot draft →
    Disk.isPresent (DurableStore.snapshotPath directory) disk = snapshot.isSome
  makeDirectories : ∀ disk snapshot draft, Holds disk snapshot draft →
    ∃ disk', Disk.makeDirectories directory disk = .ok () disk' ∧ Holds disk' snapshot draft
  openFile : ∀ disk data draft, Holds disk (some data) draft →
    ∃ disk', Disk.openFile (DurableStore.snapshotPath directory) disk = .ok () disk' ∧
      Holds disk' (some data) draft
  read : ∀ disk data draft, Holds disk (some data) draft →
    ∃ disk', Disk.read (DurableStore.snapshotPath directory) disk = .ok data disk' ∧
      Holds disk' (some data) draft

/-- The disk does what it is asked to do with the snapshot and with the draft. -/
structure Disk.Serves {δ : Type} [Disk δ] (directory : String)
    (Holds : δ → Option Bytes → Option Bytes → Prop) : Prop extends
    Disk.Recalls directory Holds where
  create : ∀ disk snapshot draft, Holds disk snapshot draft →
    ∃ disk', Disk.create (DurableStore.temporaryPath (DurableStore.snapshotPath directory)) disk =
      .ok () disk' ∧ Holds disk' snapshot (some [])
  write : ∀ disk snapshot data, Holds disk snapshot (some []) →
    ∃ disk', Disk.write (DurableStore.temporaryPath (DurableStore.snapshotPath directory)) data
      disk = .ok () disk' ∧ Holds disk' snapshot (some data)
  sync : ∀ disk snapshot draft, Holds disk snapshot draft →
    ∃ disk', Disk.sync (DurableStore.temporaryPath (DurableStore.snapshotPath directory)) disk =
      .ok () disk' ∧ Holds disk' snapshot draft
  rename : ∀ disk snapshot data, Holds disk snapshot (some data) →
    ∃ disk', Disk.rename (DurableStore.temporaryPath (DurableStore.snapshotPath directory))
      (DurableStore.snapshotPath directory) disk = .ok () disk' ∧ Holds disk' (some data) none

/-- What a snapshot that can be read leads to. -/
def Contents.SavedAs (contents : Contents) : Option Bytes → Prop
  | none => contents = ∅
  | some data => data.length < Wire.lengthLimit →
    ∃ entries, Snapshot.decode data = .ok entries ∧ Contents.ofEntries entries = contents

theorem Contents.savedAs_encode (contents : Contents) :
    contents.SavedAs (some (Snapshot.encode contents.entries)) := fun hSize =>
  ⟨contents.entries, Snapshot.decode_encode hSize, contents.ofEntries_entries⟩

theorem FileAction.inContext_eq_of_ok {δ α : Type} {step : FileAction δ α} {disk disk' : δ} {a : α}
    (h : step disk = .ok a disk') (context : String) :
    FileAction.inContext context step disk = .ok a disk' := by
  simp only [FileAction.inContext, h]

namespace DurableStore

variable {δ : Type} {directory : String} {Holds : δ → Option Bytes → Option Bytes → Prop}

/-- A store that has the contents on the left and whose snapshot leads to those on the right. -/
structure Mirrors (directory : String) (Holds : δ → Option Bytes → Option Bytes → Prop)
    (s : DurableStore δ) (v : Checkpointed) : Prop where
  contents : s.contents = v.current
  path : s.path = snapshotPath directory
  snapshot : ∃ snapshot draft, Holds s.disk snapshot draft ∧ v.saved.SavedAs snapshot
  clean : s.dirty = false → v.current = v.saved

theorem simulates_onContents {α : Type} {step : Action Contents α}
    (hLooks : ∀ contents, ∃ a, step contents = .ok a contents) :
    Action.Simulates (Mirrors directory Holds) (onContents step)
      (Checkpointed.onCurrent step) := by
  intro s v h
  obtain ⟨a, hStep⟩ := hLooks v.current
  have hView : step s.contents = .ok a s.contents := by rw [h.contents, hStep]
  have hLeft : onContents step s = .ok a s := Action.within_eq_of_ok hView
  have hRight : Checkpointed.onCurrent step v = .ok a v := Action.within_eq_of_ok hStep
  rw [hLeft, hRight]
  exact .ok a h

/-- The contents that a disk keeps, in a snapshot that is not too long to be read. -/
def KeptBy (Holds : δ → Option Bytes → Option Bytes → Prop) (disk : δ) (contents : Contents) :
    Prop :=
  ∃ snapshot draft, Holds disk snapshot draft ∧ contents.SavedAs snapshot ∧
    ∀ data, snapshot = some data → data.length < Wire.lengthLimit

theorem Mirrors.written {s : DurableStore δ} {v : Checkpointed} (h : Mirrors directory Holds s v)
    {disk : δ} (hHolds : Holds disk (some (Snapshot.encode s.contents.entries)) none) :
    Mirrors directory Holds { s with disk, dirty := false } { v with saved := v.current } := by
  refine ⟨h.contents, h.path, ⟨_, _, hHolds, ?_⟩, fun _ => rfl⟩
  rw [h.contents]
  exact v.current.savedAs_encode

theorem Mirrors.idle {s : DurableStore δ} {v : Checkpointed} (h : Mirrors directory Holds s v)
    (hDirty : s.dirty = false) : Mirrors directory Holds s { v with saved := v.current } := by
  obtain ⟨snapshot, draft, hHolds, hSaved⟩ := h.snapshot
  refine ⟨h.contents, h.path, ⟨snapshot, draft, hHolds, ?_⟩, fun _ => rfl⟩
  rw [h.clean hDirty]
  exact hSaved

variable [Disk δ]

theorem writeSnapshot_spec (hDisk : Disk.Serves directory Holds) {disk : δ}
    {snapshot draft : Option Bytes} (hHolds : Holds disk snapshot draft) (entries : List Entry) :
    ∃ disk', writeSnapshot (snapshotPath directory) entries disk = .ok () disk' ∧
      Holds disk' (some (Snapshot.encode entries)) none := by
  obtain ⟨disk₁, hCreate, h₁⟩ := hDisk.create _ _ _ hHolds
  obtain ⟨disk₂, hWrite, h₂⟩ := hDisk.write _ _ (Snapshot.encode entries) h₁
  obtain ⟨disk₃, hSync, h₃⟩ := hDisk.sync _ _ _ h₂
  obtain ⟨disk₄, hRename, h₄⟩ := hDisk.rename _ _ _ h₃
  refine ⟨disk₄, ?_, h₄⟩
  exact (Action.bind_eq_of_ok (FileAction.inContext_eq_of_ok hCreate _) _).trans
    ((Action.bind_eq_of_ok (FileAction.inContext_eq_of_ok hWrite _) _).trans
      ((Action.bind_eq_of_ok (FileAction.inContext_eq_of_ok hSync _) _).trans
        (FileAction.inContext_eq_of_ok hRename _)))

theorem persist_eq_of_clean {s : DurableStore δ} (h : s.dirty = false) :
    persist s = .ok () s := by
  simp [persist, Action.get_bind_eq, h, Action.pure_eq]

theorem persist_eq_of_dirty {s : DurableStore δ} (h : s.dirty = true) :
    persist s =
      (onDisk (Action.retrying s.maxRetries (writeSnapshot s.path s.contents.entries)) >>=
        fun _ => setDirty false) s := by
  simp only [persist, Action.get_bind_eq, h, if_true]

theorem simulates_persist (hDisk : Disk.Serves directory Holds) :
    Action.Simulates (Mirrors directory Holds) persist Store.sync := by
  intro s v h
  obtain ⟨snapshot, draft, hHolds, hSaved⟩ := h.snapshot
  cases hDirty : s.dirty with
  | false =>
    rw [persist_eq_of_clean hDirty]
    exact .ok () (h.idle hDirty)
  | true =>
    obtain ⟨disk', hWrite, hHolds'⟩ := writeSnapshot_spec hDisk hHolds s.contents.entries
    rw [← h.path] at hWrite
    have hDisk' : onDisk (Action.retrying s.maxRetries (writeSnapshot s.path s.contents.entries))
        s = .ok () { s with disk := disk' } :=
      Action.within_eq_of_ok (Action.retrying_eq_of_ok hWrite _)
    rw [persist_eq_of_dirty hDirty, Action.bind_eq_of_ok hDisk']
    exact .ok () (h.written hHolds')

theorem simulates_put (key value : Bytes) :
    Action.Simulates (Mirrors directory Holds) (Store.put key value) (Store.put key value) := by
  intro s v h
  have hContents : (s.contents.insert key value : Contents) = v.current.insert key value := by
    rw [h.contents]
  exact .ok () ⟨hContents, h.path, h.snapshot, nofun⟩

theorem simulates_deleteMany (keys : List Bytes) :
    Action.Simulates (Mirrors directory Holds) (Store.deleteMany keys) (Store.deleteMany keys) := by
  intro s v h
  cases keys with
  | nil => exact .ok () ⟨h.contents, h.path, h.snapshot, h.clean⟩
  | cons key keys =>
    have hContents : s.contents.eraseAll (key :: keys) = v.current.eraseAll (key :: keys) := by
      rw [h.contents]
    exact .ok () ⟨hContents, h.path, h.snapshot, nofun⟩

theorem simulation (hDisk : Disk.Serves directory Holds) :
    Store.Simulation (Mirrors directory Holds) where
  get _ := simulates_onContents fun _ => ⟨_, rfl⟩
  getMany _ := simulates_onContents fun _ => ⟨_, rfl⟩
  put key value := simulates_put key value
  deleteMany keys := simulates_deleteMany keys
  range _ _ _ := simulates_onContents fun _ => ⟨_, rfl⟩
  startingWith _ _ := simulates_onContents fun _ => ⟨_, rfl⟩
  sync := simulates_persist hDisk

/-- The snapshot that the disk holds is read, and that is all that reading it depends on. -/
theorem readSnapshot_eq (hDisk : Disk.Recalls directory Holds) {disk : δ} {data : Bytes}
    {draft : Option Bytes} (hHolds : Holds disk (some data) draft) :
    ∃ disk', Holds disk' (some data) draft ∧
      readSnapshot (snapshotPath directory) disk =
        Action.ofExcept ((Snapshot.decode data).mapError
          (Snapshot.Fault.toError (snapshotPath directory))) disk' := by
  obtain ⟨disk₁, hOpen, h₁⟩ := hDisk.openFile _ _ _ hHolds
  obtain ⟨disk₂, hRead, h₂⟩ := hDisk.read _ _ _ h₁
  refine ⟨disk₂, h₂, ?_⟩
  exact (Action.bind_eq_of_ok (FileAction.inContext_eq_of_ok hOpen _) _).trans
    (Action.bind_eq_of_ok (FileAction.inContext_eq_of_ok hRead _) _)

/-- What is found in a directory with this snapshot. -/
def loaded (directory : String) : Option Bytes → Except Error Contents
  | none => .ok ∅
  | some data =>
    ((Snapshot.decode data).mapError (Snapshot.Fault.toError (snapshotPath directory))).map
      .ofEntries

theorem savedAs_of_loaded {snapshot : Option Bytes} {contents : Contents}
    (h : loaded directory snapshot = .ok contents) : contents.SavedAs snapshot := by
  cases snapshot with
  | none => exact (Except.ok.inj h).symm
  | some data =>
    intro _
    rw [loaded] at h
    cases hDecode : Snapshot.decode data with
    | error fault =>
      rw [hDecode] at h
      cases h
    | ok entries =>
      rw [hDecode] at h
      exact ⟨entries, rfl, Except.ok.inj h⟩

theorem loaded_of_savedAs {snapshot : Option Bytes} {contents : Contents}
    (h : contents.SavedAs snapshot)
    (hSize : ∀ data, snapshot = some data → data.length < Wire.lengthLimit) :
    loaded directory snapshot = .ok contents := by
  cases snapshot with
  | none => exact congrArg Except.ok h.symm
  | some data =>
    obtain ⟨entries, hDecode, rfl⟩ := h (hSize data rfl)
    rw [loaded, hDecode]
    rfl

theorem load_eq (hDisk : Disk.Recalls directory Holds) {disk : δ} {snapshot draft : Option Bytes}
    (hHolds : Holds disk snapshot draft) (maxRetries : Nat) :
    ∃ disk', Holds disk' snapshot draft ∧
      load directory maxRetries disk = Action.ofExcept (loaded directory snapshot) disk' := by
  obtain ⟨disk₁, hMake, h₁⟩ := hDisk.makeDirectories _ _ _ hHolds
  have hMake := FileAction.inContext_eq_of_ok hMake "Failed to create data directory"
  have hPresent := hDisk.isPresent _ _ _ h₁
  rw [load, Action.bind_eq_of_ok hMake, Action.get_bind_eq, hPresent]
  cases snapshot with
  | none => exact ⟨disk₁, h₁, rfl⟩
  | some data =>
    obtain ⟨disk₂, h₂, hRead⟩ := readSnapshot_eq hDisk h₁
    refine ⟨disk₂, h₂, ?_⟩
    rw [loaded]
    cases hDecode : Snapshot.decode data with
    | ok entries =>
      rw [hDecode] at hRead
      exact Action.bind_eq_of_ok (Action.retrying_eq_of_ok hRead maxRetries) _
    | error fault =>
      rw [hDecode] at hRead
      -- No fault of a snapshot passes, so that the file is not read a second time.
      have hLasts : (fault.toError (snapshotPath directory)).isTransient = false := by
        cases fault <;> rfl
      exact Action.bind_eq_of_error (Action.retrying_eq_of_error hRead hLasts maxRetries) _

theorem mount_eq (hDisk : Disk.Recalls directory Holds) {disk : δ} {snapshot draft : Option Bytes}
    (hHolds : Holds disk snapshot draft) (maxRetries : Nat) :
    ∃ disk', Holds disk' snapshot draft ∧
      mount directory maxRetries disk =
        match loaded directory snapshot with
        | .ok contents => .ok ⟨contents, false, disk', snapshotPath directory, maxRetries⟩
        | .error e => .error (e, disk') := by
  obtain ⟨disk', h', hLoad⟩ := load_eq hDisk hHolds maxRetries
  refine ⟨disk', h', ?_⟩
  rw [mount, hLoad]
  cases loaded directory snapshot <;> rfl

theorem mount_of_recalls (hDisk : Disk.Recalls directory Holds) {disk : δ} {contents : Contents}
    (hKept : KeptBy Holds disk contents) (maxRetries : Nat) :
    ∃ s, mount directory maxRetries disk = .ok s ∧
      Mirrors directory Holds s (.ofContents contents) := by
  obtain ⟨snapshot, draft, hHolds, hSaved, hSize⟩ := hKept
  obtain ⟨disk', h', hMount⟩ := mount_eq hDisk hHolds maxRetries
  rw [loaded_of_savedAs hSaved hSize] at hMount
  exact ⟨_, hMount, rfl, rfl, ⟨snapshot, draft, h', hSaved⟩, fun _ => rfl⟩

theorem mount_spec (hDisk : Disk.Serves directory Holds) {disk : δ} {contents : Contents}
    (hKept : KeptBy Holds disk contents) (maxRetries : Nat) :
    ∃ s, mount directory maxRetries disk = .ok s ∧
      Mirrors directory Holds s (.ofContents contents) :=
  mount_of_recalls hDisk.toRecalls hKept maxRetries

/-- A store that was opened on any directory has what its snapshot leads to. -/
theorem mirrors_of_recalls (hDisk : Disk.Recalls directory Holds) {disk : δ}
    {snapshot draft : Option Bytes} (hHolds : Holds disk snapshot draft) {maxRetries : Nat}
    {s : DurableStore δ} (hMount : mount directory maxRetries disk = .ok s) :
    Mirrors directory Holds s (.ofContents s.contents) := by
  obtain ⟨disk', h', hEq⟩ := mount_eq hDisk hHolds maxRetries
  rw [hMount] at hEq
  cases hLoaded : loaded directory snapshot with
  | error e =>
    rw [hLoaded] at hEq
    cases hEq
  | ok contents =>
    rw [hLoaded] at hEq
    cases hEq
    exact ⟨rfl, rfl, ⟨snapshot, draft, h', savedAs_of_loaded hLoaded⟩, fun _ => rfl⟩

theorem mirrors_of_mount (hDisk : Disk.Serves directory Holds) {disk : δ}
    {snapshot draft : Option Bytes} (hHolds : Holds disk snapshot draft) {maxRetries : Nat}
    {s : DurableStore δ} (hMount : mount directory maxRetries disk = .ok s) :
    Mirrors directory Holds s (.ofContents s.contents) :=
  mirrors_of_recalls hDisk.toRecalls hHolds hMount

theorem Mirrors.kept_of_recalls {s : DurableStore δ} {v : Checkpointed} (h : Mirrors directory Holds s v)
    (hDisk : Disk.Recalls directory Holds)
    (hShort : ∀ data after, Disk.read (snapshotPath directory) s.disk = .ok data after →
      data.length < Wire.lengthLimit) : KeptBy Holds s.disk v.saved := by
  obtain ⟨snapshot, draft, hHolds, hSaved⟩ := h.snapshot
  refine ⟨snapshot, draft, hHolds, hSaved, ?_⟩
  rintro data rfl
  obtain ⟨after, hRead, _⟩ := hDisk.read _ _ _ hHolds
  exact hShort data after hRead

theorem Mirrors.keptBy {s : DurableStore δ} {v : Checkpointed} (h : Mirrors directory Holds s v)
    (hDisk : Disk.Serves directory Holds)
    (hShort : ∀ data after, Disk.read (snapshotPath directory) s.disk = .ok data after →
      data.length < Wire.lengthLimit) : KeptBy Holds s.disk v.saved :=
  h.kept_of_recalls hDisk.toRecalls hShort

/-- The snapshot in a directory, if it can be read, is short enough to have its length told. -/
def isShort (directory : String) (disk : δ) : Bool :=
  match Disk.read (snapshotPath directory) disk with
  | .ok data _ => data.length < Wire.lengthLimit
  | .error _ _ => true

theorem length_of_isShort {disk : δ} (h : isShort directory disk = true) (data : Bytes) (after : δ)
    (hRead : Disk.read (snapshotPath directory) disk = .ok data after) :
    data.length < Wire.lengthLimit := by
  rw [isShort, hRead] at h
  exact of_decide_eq_true h

theorem length_of_result {ε α : Type} {result : Except ε α} {a : α} (hResult : result = .ok a)
    (directory : String) (left : α → δ)
    (h : (result.toOption.all fun a => isShort directory (left a)) = true)
    (data : Bytes) (after : δ)
    (hRead : Disk.read (snapshotPath directory) (left a) = .ok data after) :
    data.length < Wire.lengthLimit := by
  subst hResult
  exact length_of_isShort h data after hRead

end DurableStore

end ForkLog
