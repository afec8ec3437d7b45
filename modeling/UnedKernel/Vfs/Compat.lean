import UnedKernel.Lib.CString
import UnedKernel.Lib.Record
import UnedKernel.Vfs.Mount

/-! # The open-file tables

`vfs_compat.c` keeps one table of open files and one of open directories. Each
has a cursor, a static of the function that hands the descriptors out, which
walks the table round and stays where the last descriptor was found. -/

namespace Vfs
open ByteMem CString

def VFS_COMPAT_MAX_OPEN_FILES : Nat := 65536
def VFS_COMPAT_MAX_OPEN_DIRECTORIES : Nat := 4096
def VFS_FDE_NAME_MAX_LEN : Nat := 256

/-! ## `struct file_descriptor_entry` -/

def FdEntry.name : Nat := 0
def FdEntry.mount : Nat := 256
def FdEntry.flags : Field := ⟨512, 4⟩
def FdEntry.mode : Field := ⟨516, 4⟩
def FdEntry.offset : Field := ⟨520, 8⟩
def FdEntry.loaded : Field := ⟨528, 1⟩

/-- The dentries of an open directory: the pointer before the first open, the
list after its empty head, and the list after its nodes are freed. -/
inductive DentryList where
  | null
  | live (entries : List Bytes)
  | freed

/-- `struct dir`. -/
structure Dir where
  fd : Bytes
  dentries : DentryList
  number : Nat
  index : Nat

/-- The two tables and the cursors of `get_fd` and `get_dirfd`. -/
structure Descriptors where
  files : Nat → Bytes
  fileCursor : Nat
  dirs : Nat → Dir
  dirCursor : Nat

namespace Descriptors

/-- The tables as the kernel starts with them. -/
def initial : Descriptors := ⟨fun _ _ => 0, 0, fun _ => ⟨fun _ => 0, .null, 0, 0⟩, 0⟩

def setFile (s : Descriptors) (i : Nat) (e : Bytes) : Descriptors :=
  { s with files := Function.update s.files i e }

def setDir (s : Descriptors) (i : Nat) (d : Dir) : Descriptors :=
  { s with dirs := Function.update s.dirs i d }

@[simp] theorem setFile_same (s : Descriptors) (i : Nat) (e : Bytes) :
    (s.setFile i e).files i = e := by
  simp [setFile]

theorem setFile_of_ne (s : Descriptors) {i j : Nat} (e : Bytes) (h : j ≠ i) :
    (s.setFile i e).files j = s.files j := by
  simp [setFile, h]

@[simp] theorem setDir_same (s : Descriptors) (i : Nat) (d : Dir) :
    (s.setDir i d).dirs i = d := by
  simp [setDir]

theorem setDir_of_ne (s : Descriptors) {i j : Nat} (d : Dir) (h : j ≠ i) :
    (s.setDir i d).dirs j = s.dirs j := by
  simp [setDir, h]

def fileLoaded (s : Descriptors) (i : Nat) : Nat := FdEntry.loaded.get (s.files i) 0

def dirLoaded (s : Descriptors) (i : Nat) : Nat := FdEntry.loaded.get (s.dirs i).fd 0

/-- The entry as `get_fd` and `get_dirfd` fill it. -/
def openEntry (e : Bytes) (path mount : List Byte) (flags mode : Nat) : Bytes :=
  let e := FdEntry.loaded.set e 0 1
  let e := FdEntry.flags.set e 0 flags
  let e := FdEntry.mode.set e 0 mode
  let e := FdEntry.offset.set e 0 0
  let e := strncpy e FdEntry.name path (strlen STR_MAX_SIZE path)
  strncpy e FdEntry.mount mount (strlen STR_MAX_SIZE mount)

/-- The loop of `get_fd`, `n` turns of it to go. `none` is an access outside the
table. -/
def getFdFrom (path mount : List Byte) (flags mode : Nat) :
    Nat → Descriptors → Option (Int × Descriptors)
  | 0, s => some (-1, s)
  | n + 1, s =>
    let fd := s.fileCursor
    if VFS_COMPAT_MAX_OPEN_FILES ≤ fd then none
    else if s.fileLoaded fd = 0 then
      some (fd, { s.setFile fd (openEntry (s.files fd) path mount flags mode) with
        fileCursor := fd + 1 })
    else
      getFdFrom path mount flags mode n
        { s with fileCursor := if VFS_COMPAT_MAX_OPEN_FILES ≤ fd + 1 then 0 else fd + 1 }

def getFd (s : Descriptors) (path mount : List Byte) (flags mode : Nat) :
    Option (Int × Descriptors) :=
  if VFS_FDE_NAME_MAX_LEN < strlen STR_MAX_SIZE path then some (-1, s)
  else if VFS_FDE_NAME_MAX_LEN < strlen STR_MAX_SIZE mount then some (-1, s)
  else getFdFrom path mount flags mode VFS_COMPAT_MAX_OPEN_FILES s

/-- The loop of `get_dirfd`. -/
def getDirfdFrom (path mount : List Byte) (flags mode : Nat) :
    Nat → Descriptors → Option (Int × Descriptors)
  | 0, s => some (-1, s)
  | n + 1, s =>
    let fd := s.dirCursor
    if VFS_COMPAT_MAX_OPEN_DIRECTORIES ≤ fd then none
    else if s.dirLoaded fd = 0 then
      some (fd, { s.setDir fd ⟨openEntry (s.dirs fd).fd path mount flags mode, .live [], 0, 0⟩ with
        dirCursor := fd + 1 })
    else
      getDirfdFrom path mount flags mode n
        { s with dirCursor := if VFS_COMPAT_MAX_OPEN_DIRECTORIES ≤ fd + 1 then 0 else fd + 1 }

def getDirfd (s : Descriptors) (path mount : List Byte) (flags mode : Nat) :
    Option (Int × Descriptors) :=
  if VFS_FDE_NAME_MAX_LEN < strlen STR_MAX_SIZE path then some (-1, s)
  else if VFS_FDE_NAME_MAX_LEN < strlen STR_MAX_SIZE mount then some (-1, s)
  else getDirfdFrom path mount flags mode VFS_COMPAT_MAX_OPEN_DIRECTORIES s

/-- The test of `is_open` and `force_release` on an entry. -/
def OpenAs (e : Bytes) (path : List Byte) : Prop :=
  FdEntry.loaded.get e 0 = 1 ∧ strcmp e FdEntry.name path = 0

instance (e : Bytes) (path : List Byte) : Decidable (OpenAs e path) :=
  inferInstanceAs (Decidable (_ ∧ _))

/-- The first of `n` entries from `i` on that is open under the path. -/
def firstOpen (table : Nat → Bytes) (path : List Byte) : Nat → Nat → Option Nat
  | 0, _ => none
  | n + 1, i => if OpenAs (table i) path then some i else firstOpen table path n (i + 1)

/-- Both loops of `is_open`, over `n` files and `k` directories. -/
def openSlot (path : List Byte) (n k : Nat) (s : Descriptors) : Int :=
  match firstOpen s.files path n 0 with
  | some i => i
  | none =>
    match firstOpen (fun i => (s.dirs i).fd) path k 0 with
    | some i => i
    | none => -1

def isOpen (s : Descriptors) (path : List Byte) : Int :=
  openSlot path VFS_COMPAT_MAX_OPEN_FILES VFS_COMPAT_MAX_OPEN_DIRECTORIES s

/-- The loop of `force_release` over the first `n` files. -/
def releaseFiles (path : List Byte) : Nat → Descriptors → Int × Descriptors
  | 0, s => (0, s)
  | n + 1, s =>
    let (changes, s) := releaseFiles path n s
    if OpenAs (s.files n) path then
      (changes + 1, s.setFile n (FdEntry.loaded.set (s.files n) 0 0))
    else (changes, s)

/-- The loop of `force_release` over the first `n` directories. -/
def releaseDirs (path : List Byte) : Nat → Descriptors → Int × Descriptors
  | 0, s => (0, s)
  | n + 1, s =>
    let (changes, s) := releaseDirs path n s
    if OpenAs (s.dirs n).fd path then
      (changes + 1, s.setDir n { s.dirs n with fd := FdEntry.loaded.set (s.dirs n).fd 0 0 })
    else (changes, s)

/-- Both loops of `force_release`, over `n` files and `k` directories. -/
def releaseBoth (path : List Byte) (n k : Nat) (s : Descriptors) : Int × Descriptors :=
  let files := releaseFiles path n s
  let dirs := releaseDirs path k files.2
  (files.1 + dirs.1, dirs.2)

def forceRelease (s : Descriptors) (path : List Byte) : Int × Descriptors :=
  releaseBoth path VFS_COMPAT_MAX_OPEN_FILES VFS_COMPAT_MAX_OPEN_DIRECTORIES s

/-- `release_fd` checks its argument from above only. -/
def releaseFd (s : Descriptors) (fd : Int) : Option (Int × Descriptors) :=
  if VFS_COMPAT_MAX_OPEN_FILES ≤ fd then some (-1, s)
  else if fd < 0 then none
  else some (0, s.setFile fd.toNat (FdEntry.loaded.set (s.files fd.toNat) 0 0))

end Descriptors
end Vfs
