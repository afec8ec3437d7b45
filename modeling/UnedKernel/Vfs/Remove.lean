import UnedKernel.Vfs.DescriptorRuns

/-! # Removing a file that may be open

`vfs_remove` asks `is_open` before it calls the file system, and takes the
answer for a yes when it is positive. The answer is a slot of one of two tables,
found by the native name alone. -/

namespace Vfs
open ByteMem CString

/-- The `.` of a path. -/
def dot : Byte := 0x2e#8

/-- The loop of `vfs_normalize_path`; `out` is what is written so far, last byte
first. -/
def normalizeFrom : List Byte → List Byte → List Byte
  | [], out => out
  | [c], out => c :: out
  | [c, d], out =>
    if c = dot ∧ d = slash then out else normalizeFrom [d] (c :: out)
  | c :: d :: e :: rest, out =>
    if c = dot ∧ d = slash then normalizeFrom (e :: rest) out
    else if c = dot ∧ d = dot ∧ e = slash then normalizeFrom rest (out.dropWhile (· ≠ slash))
    else normalizeFrom (d :: e :: rest) (c :: out)

/-- `vfs_normalize_path`: `.` and `..` substituted, trailing slashes and dots removed. -/
def vfsNormalizePath (path : List Byte) : List Byte :=
  ((normalizeFrom path []).dropWhile fun c => c = slash ∨ c = dot).reverse

/-- The callbacks of a file system that `vfs_remove` uses, over its state `σ`. -/
structure FileSystem (σ : Type) where
  prepareRemove : Int → List Byte → σ → Int
  remove : Int → List Byte → σ → Int × σ

/-- How a call of `vfs_remove` ends: before the callback with -1, -2 or -1, or in it. -/
inductive RemoveExit (δ σ : Type) where
  | noMount
  | unprepared
  | refused
  | called (s : Descriptors) (result : Int × σ)

variable {δ σ : Type}

namespace Descriptors

def isSafeForRemoving (s : Descriptors) (path : List Byte) (force : Nat) : Bool × Descriptors :=
  if 0 < s.isOpen path then
    if force = 0 then (false, s) else (true, (s.forceRelease path).2)
  else (true, s)

end Descriptors

def vfsRemove (mounts : List (VfsMount δ (FileSystem σ))) (s : Descriptors) (fs : σ)
    (path : List Byte) (force : Nat) : RemoveExit δ σ :=
  match getMountFromPath (vfsNormalizePath path) mounts with
  | none => .noMount
  | some (mount, native) =>
    match mount.fst with
    | none => .noMount
    | some fst =>
      if fst.prepareRemove mount.internalIndex native fs = 0 then .unprepared
      else
        let (safe, s) := s.isSafeForRemoving native force
        if safe then .called s (fst.remove mount.internalIndex native fs) else .refused

/-! ## What a descriptor is open on -/

/-- The name under which a driver keeps a mount: `snprintf` into 32 bytes. -/
def Mount.driverName (m : Mount δ (FileSystem σ)) : List Byte := m.name.take 31

/-- The array of `n` bytes at `a` holds the string `s`; a string that fills it
has no terminator there. -/
def FieldReads (m : Bytes) (a n : Nat) (s : List Byte) : Prop :=
  s.length ≤ n ∧ ∀ i, i ≤ s.length → i < n → m (a + i) = s.getD i 0

/-- The descriptor is in use on this native name of this mount. -/
def OpenOn (e : Bytes) (mount native : List Byte) : Prop :=
  FdEntry.loaded.get e 0 = 1 ∧ FieldReads e FdEntry.name VFS_FDE_NAME_MAX_LEN native ∧
    FieldReads e FdEntry.mount VFS_FDE_NAME_MAX_LEN mount

namespace Descriptors

/-- Some file or directory descriptor is open on it. -/
def HasOpen (s : Descriptors) (mount native : List Byte) : Prop :=
  (∃ i, i < VFS_COMPAT_MAX_OPEN_FILES ∧ OpenOn (s.files i) mount native) ∨
  ∃ i, i < VFS_COMPAT_MAX_OPEN_DIRECTORIES ∧ OpenOn (s.dirs i).fd mount native

/-- Some entry in use reads as this native name, whatever its mount. -/
def ReadsOpen (s : Descriptors) (native : List Byte) : Prop :=
  (∃ i, i < VFS_COMPAT_MAX_OPEN_FILES ∧ OpenAs (s.files i) native) ∨
  ∃ i, i < VFS_COMPAT_MAX_OPEN_DIRECTORIES ∧ OpenAs (s.dirs i).fd native

/-- The first entry that reads as this name, files before directories, is entry 0. -/
def FirstAtZero (s : Descriptors) (native : List Byte) : Prop :=
  OpenAs (s.files 0) native ∨
  (∀ i, i < VFS_COMPAT_MAX_OPEN_FILES → ¬ OpenAs (s.files i) native) ∧ OpenAs (s.dirs 0).fd native

end Descriptors

/-- `vfs_remove` without force reaches the file system only for what no
descriptor is open on, and refuses nothing else. -/
def RemovesClosed (mounts : List (VfsMount δ (FileSystem σ))) (s : Descriptors) (fs : σ)
    (path : List Byte) : Prop :=
  ∀ (m : Mount δ (FileSystem σ)) (native : List Byte),
    getMountFromPath (vfsNormalizePath path) mounts = some (m.node, native) →
    ((∃ s' r, vfsRemove mounts s fs path 0 = .called s' r) → ¬ s.HasOpen m.driverName native) ∧
    (¬ s.HasOpen m.driverName native → vfsRemove mounts s fs path 0 ≠ .refused)

/-- When the open-file check is right: an open name is read by an entry and the
first that reads it is not entry 0; and a name that is not open on this mount is
read by no entry, or by entry 0 first. -/
def CheckSees (mounts : List (VfsMount δ (FileSystem σ))) (s : Descriptors) (fs : σ)
    (path : List Byte) : Prop :=
  ∀ (m : Mount δ (FileSystem σ)) (native : List Byte),
    getMountFromPath (vfsNormalizePath path) mounts = some (m.node, native) →
    m.fst.prepareRemove m.internalIndex native fs ≠ 0 →
    (s.HasOpen m.driverName native → s.ReadsOpen native ∧ ¬ s.FirstAtZero native) ∧
    (¬ s.HasOpen m.driverName native → s.ReadsOpen native → s.FirstAtZero native)

namespace Descriptors

variable {s : Descriptors} {table : Nat → Bytes} {path : List Byte} {n k i : Nat}

theorem firstOpen_none (h : firstOpen table path n i = none) :
    ∀ j, j < n → ¬ OpenAs (table (i + j)) path := by
  induction n generalizing i with
  | zero => exact fun j hj => absurd hj (Nat.not_lt_zero j)
  | succ n ih =>
    unfold firstOpen at h
    split at h
    · cases h
    · rename_i hfirst
      intro j hj
      cases j with
      | zero => exact hfirst
      | succ j =>
        rw [← Nat.add_assoc, Nat.add_right_comm]
        exact ih h j (Nat.lt_of_succ_lt_succ hj)

theorem firstOpen_some {j : Nat} (h : firstOpen table path n i = some j) :
    i ≤ j ∧ j < i + n ∧ OpenAs (table j) path ∧
      ∀ k, i ≤ k → k < j → ¬ OpenAs (table k) path := by
  induction n generalizing i with
  | zero => cases h
  | succ n ih =>
    unfold firstOpen at h
    split at h
    · rename_i hfirst
      cases h
      exact ⟨Nat.le_refl _, by omega, hfirst, fun k hk hlt => absurd hlt (Nat.not_lt.mpr hk)⟩
    · rename_i hfirst
      obtain ⟨hle, hlt, hopen, hbefore⟩ := ih h
      refine ⟨by omega, by omega, hopen, fun k hk hkj => ?_⟩
      rcases Nat.lt_or_eq_of_le hk with hlt' | heq
      · exact hbefore k hlt' hkj
      · exact heq ▸ hfirst

/-- `is_open` answers with a positive slot exactly when some entry reads as the
name and the first that does is not entry 0. -/
theorem openSlot_pos_iff (hn : 0 < n) :
    0 < openSlot path n k s ↔
      ((∃ i, i < n ∧ OpenAs (s.files i) path) ∨ ∃ i, i < k ∧ OpenAs (s.dirs i).fd path) ∧
      ¬ (OpenAs (s.files 0) path ∨
        (∀ i, i < n → ¬ OpenAs (s.files i) path) ∧ OpenAs (s.dirs 0).fd path) := by
  unfold openSlot
  cases hf : firstOpen s.files path n 0 with
  | some i =>
    obtain ⟨-, hlt, hopen, hbefore⟩ := firstOpen_some hf
    rw [Nat.zero_add] at hlt
    simp only [Int.natCast_pos]
    constructor
    · intro hpos
      refine ⟨.inl ⟨i, hlt, hopen⟩, ?_⟩
      rintro (h0 | ⟨hnone, -⟩)
      · exact hbefore 0 (Nat.le_refl 0) hpos h0
      · exact hnone i hlt hopen
    · rintro ⟨-, hnot⟩
      refine Nat.pos_of_ne_zero fun h0 => hnot (.inl ?_)
      exact h0 ▸ hopen
  | none =>
    have hnone : ∀ i, i < n → ¬ OpenAs (s.files i) path := fun i hi => by
      have h := firstOpen_none hf i hi
      rwa [Nat.zero_add] at h
    cases hd : firstOpen (fun i => (s.dirs i).fd) path k 0 with
    | some i =>
      obtain ⟨-, hlt, hopen, hbefore⟩ := firstOpen_some hd
      rw [Nat.zero_add] at hlt
      simp only [Int.natCast_pos]
      constructor
      · intro hpos
        refine ⟨.inr ⟨i, hlt, hopen⟩, ?_⟩
        rintro (h0 | ⟨-, h0⟩)
        · exact hnone 0 hn h0
        · exact hbefore 0 (Nat.le_refl 0) hpos h0
      · rintro ⟨-, hnot⟩
        refine Nat.pos_of_ne_zero fun h0 => hnot (.inr ⟨hnone, ?_⟩)
        exact h0 ▸ hopen
    | none =>
      refine iff_of_false (by decide) ?_
      rintro ⟨⟨i, hi, hopen⟩ | ⟨i, hi, hopen⟩, -⟩
      · exact hnone i hi hopen
      · have h := firstOpen_none hd i hi
        rw [Nat.zero_add] at h
        exact h hopen

theorem isOpen_pos_iff (native : List Byte) :
    0 < s.isOpen native ↔ s.ReadsOpen native ∧ ¬ s.FirstAtZero native :=
  openSlot_pos_iff (by decide)

end Descriptors

variable {mounts : List (VfsMount δ (FileSystem σ))} {s : Descriptors} {fs : σ}
  {path native : List Byte} {m : Mount δ (FileSystem σ)}

/-- The exits of `vfs_remove` without force once the mount is known. -/
theorem vfsRemove_eq (h : getMountFromPath (vfsNormalizePath path) mounts = some (m.node, native)) :
    vfsRemove mounts s fs path 0 =
      if m.fst.prepareRemove m.internalIndex native fs = 0 then .unprepared
      else if 0 < s.isOpen native then .refused
      else .called s (m.fst.remove m.internalIndex native fs) := by
  unfold vfsRemove Descriptors.isSafeForRemoving
  rw [h]
  simp only [Mount.node]
  split
  · rfl
  · split <;> rfl

/-- Removal without force respects the open files exactly when the check sees
them. -/
theorem removesClosed_iff (mounts : List (VfsMount δ (FileSystem σ))) (s : Descriptors) (fs : σ)
    (path : List Byte) : RemovesClosed mounts s fs path ↔ CheckSees mounts s fs path := by
  refine forall_congr' fun m => forall_congr' fun native => forall_congr' fun hmount => ?_
  rw [vfsRemove_eq hmount]
  by_cases hprep : m.fst.prepareRemove m.internalIndex native fs = 0
  · rw [if_pos hprep]
    refine iff_of_true ⟨?_, fun _ => nofun⟩ fun hne => absurd hprep hne
    rintro ⟨s', r, h⟩
    cases h
  · rw [if_neg hprep]
    have hseen := Descriptors.isOpen_pos_iff (s := s) native
    by_cases hpos : 0 < s.isOpen native
    · rw [if_pos hpos]
      obtain ⟨hreads, hfirst⟩ := hseen.mp hpos
      constructor
      · rintro ⟨-, hrefused⟩ -
        exact ⟨fun _ => ⟨hreads, hfirst⟩, fun hno _ => absurd rfl (hrefused hno)⟩
      · intro h
        refine ⟨?_, fun hno _ => hfirst ((h hprep).2 hno hreads)⟩
        rintro ⟨s', r, hcalled⟩
        cases hcalled
    · rw [if_neg hpos]
      have hnot : s.ReadsOpen native → s.FirstAtZero native := fun hreads =>
        not_not.mp fun hfirst => hpos (hseen.mpr ⟨hreads, hfirst⟩)
      constructor
      · rintro ⟨hclosed, -⟩ -
        exact ⟨fun hopen => absurd hopen (hclosed ⟨_, _, rfl⟩), fun _ => hnot⟩
      · intro h
        exact ⟨fun _ hopen => hpos (hseen.mpr ((h hprep).1 hopen)), fun _ => nofun⟩

/-! ## The first file opened -/

/-- A file system that prepares every removal and removes. -/
def removing : FileSystem Unit := ⟨fun _ _ _ => 1, fun _ _ _ => (0, ())⟩

/-- Partition 1 of `sda`, with that file system. -/
def removingMount : Mount Str (FileSystem Unit) := ⟨diskName, mountedPartition diskName 1, removing, 0⟩

/-- `/a`. -/
def filePath : Str := ⟨[slash, 0x61#8], by decide⟩

/-- `sdap1`. -/
def partitionName : Str := ⟨mountpoint diskName 1, by decide⟩

namespace Descriptors

/-- One call on the tables. -/
def Step (s s' : Descriptors) : Prop := ∃ op, Next s op s'

/-- The tables after `/a` of `sdap1` is opened as their first file. -/
def firstOpened : Descriptors :=
  { initial.setFile 0 (openEntry (initial.files 0) filePath.chars partitionName.chars 0 0) with
    fileCursor := 1 }

theorem initial_loaded (i : Nat) : initial.fileLoaded i = 0 := by
  simp [fileLoaded, initial, Field.get, load, FdEntry.loaded]

theorem initial_step : Step initial firstOpened := by
  refine ⟨.getFd filePath partitionName 0 0, 0, ?_⟩
  have hget : getFdFrom filePath.chars partitionName.chars 0 0 (65535 + 1) initial =
      some (0, firstOpened) := by
    unfold getFdFrom
    rw [if_neg (by decide), if_pos (initial_loaded _)]
    rfl
  show initial.getFd filePath.chars partitionName.chars 0 0 = some (0, firstOpened)
  unfold Descriptors.getFd
  rw [if_neg (by decide), if_neg (by decide)]
  exact hget

theorem firstOpened_entry : firstOpened.files 0 =
    openEntry (initial.files 0) filePath.chars partitionName.chars 0 0 :=
  setFile_same initial 0 _

end Descriptors

/-- A string shorter than its array is read from the array. -/
theorem fieldReads_of_reads {e : Bytes} {a n : Nat} {t : List Byte} (h : Reads e a t)
    (ht : t.length ≤ n) : FieldReads e a n t := ⟨ht, fun i hi _ => h i hi⟩

/-- The first file opened has descriptor 0, and removing it without force
reaches the file system. -/
theorem not_removesClosed :
    ¬ ∀ (s : Descriptors) (mounts : List (VfsMount Str (FileSystem Unit))) (path : List Byte),
      Run.Reaches Descriptors.Step Descriptors.initial s → Built mounts → NulFree path →
      RemovesClosed mounts s () path := by
  intro h
  have hbuilt : Built [removingMount.node, initMountHeader] :=
    .add [initMountHeader] _ (some diskName) (some (mountedPartition diskName 1)) (some removing)
      0 .header rfl
  have hclosed := (h Descriptors.firstOpened _ (partitionName.chars ++ filePath.chars)
    (.single Descriptors.initial_step) hbuilt (by decide) removingMount filePath.chars
    (by rfl)).1
  have hentry := Descriptors.firstOpened_entry
  have hname : Reads (Descriptors.firstOpened.files 0) FdEntry.name filePath.chars := by
    rw [hentry]
    exact (Descriptors.openEntry_name_iff partitionName.nulFree (by decide) (by decide)).mpr
      fun hlen => absurd hlen (by decide)
  have hloaded : FdEntry.loaded.get (Descriptors.firstOpened.files 0) 0 = 1 := by
    rw [hentry]
    exact Descriptors.openEntry_loaded (by decide) (by decide)
  have hmount : Reads (Descriptors.firstOpened.files 0) FdEntry.mount partitionName.chars := by
    rw [hentry]
    exact Descriptors.openEntry_mount (by decide)
  have hfirst : Descriptors.firstOpened.FirstAtZero filePath.chars :=
    .inl ⟨hloaded, (strcmp_eq_zero filePath.nulFree).mpr hname⟩
  refine hclosed ⟨Descriptors.firstOpened, (0, ()), ?_⟩ (.inl ⟨0, by decide, hloaded,
    fieldReads_of_reads hname (by decide), fieldReads_of_reads hmount (by decide)⟩)
  have hfound : getMountFromPath (vfsNormalizePath (partitionName.chars ++ filePath.chars))
      [removingMount.node, initMountHeader] = some (removingMount.node, filePath.chars) := by rfl
  rw [vfsRemove_eq hfound]
  rw [if_neg (by decide), if_neg fun hpos => ((Descriptors.isOpen_pos_iff _).mp hpos).2 hfirst]
  rfl

end Vfs
