import UnedKernel.Ext2.Path
import UnedKernel.Lib.Run
import UnedKernel.Lib.Word
import UnedKernel.Vfs.Remove

/-! # Calls on a file descriptor

`vfs_interface.c` finds the file system of a call from the names its descriptor
was opened with, and leaves it to the callbacks of `generic_ext2.h` and
`generic_fifo.h` to look whether the descriptor is still open. -/

namespace Vfs
open ByteMem CString Word

/-! ## Queues -/

/-- `struct fifo`. -/
structure Fifo where
  buf : Bytes
  head : Nat
  tail : Nat
  size : Nat
  size_lt : size < 18446744073709551616

namespace Fifo

def fifoSize (f : Fifo) : Nat := u64 (sub64 f.tail f.head + f.size) % f.size

def put (f : Fifo) (data : Byte) : Fifo :=
  if f.head = (f.tail + 1) % f.size then f
  else { f with buf := Function.update f.buf f.tail data, tail := (f.tail + 1) % f.size }

def get (f : Fifo) : Byte × Fifo :=
  if f.head = f.tail then (0, f) else (f.buf f.head, { f with head := (f.head + 1) % f.size })

def flush (f : Fifo) : Fifo := { f with head := 0, tail := 0 }

/-- The bytes in the queue, the next one first. -/
def contents (f : Fifo) : List Byte :=
  (List.range f.fifoSize).map fun i => f.buf ((f.head + i) % f.size)

/-- The loop of `fifo_dd_read`; each of its turns takes one byte of the queue. -/
def ddReadFrom (size : Nat) : Nat → (i skip : Nat) → Bytes → Fifo → Nat × Bytes × Fifo
  | 0, i, _, buffer, f => (i, buffer, f)
  | turns + 1, i, skip, buffer, f =>
    if i < size then
      if 0 < skip then ddReadFrom size turns i (skip - 1) buffer f.get.2
      else ddReadFrom size turns (i + 1) skip (Function.update buffer i f.get.1) f.get.2
    else (i, buffer, f)

def ddRead (f : Fifo) (size skip : Nat) (buffer : Bytes) : Nat × Bytes × Fifo :=
  ddReadFrom size f.fifoSize 0 skip buffer f

/-- `fifo_dd_write`: every byte of the buffer counts as written, kept or not. -/
def ddWrite (f : Fifo) (size : Nat) (buffer : Bytes) : Nat × Fifo :=
  (size, (List.range size).foldl (fun f i => f.put (buffer i)) f)

end Fifo

/-! ## The state below the interface -/

/-- The file systems. -/
inductive Fst where
  | ext2
  | fifo
  deriving DecidableEq

/-- `ext2.c` on a partition that holds `σ`: each function takes the path of a file in it.
`content` is what its files hold. -/
structure Ext2 (σ : Type) where
  readFile : σ → List Byte → Bytes → (size skip : Nat) → Nat × Bytes
  writeFile : σ → List Byte → Bytes → (size skip : Nat) → Nat × σ
  getFileSize : σ → List Byte → Nat
  content : σ → List Byte → Option Bytes

/-- The mounts, the partitions and devices under them, and the open-file tables. -/
structure State (σ : Type) where
  mounts : List (VfsMount Unit Fst)
  ext2Partitions : Nat → Option σ
  fifoDevices : Nat → Option Fifo
  descriptors : Descriptors

/-- `MAX_EXT2_PARTITIONS` and `MAX_FIFO_DEVICES`. -/
def MAX_DEVICES : Nat := 32

/-- -1 as a `uint64_t`. -/
def minusOne : Nat := 18446744073709551615

/-- A `uint64_t` that passed through an `int`. -/
def throughInt (r : Nat) : Nat := sext32 (u32 r)

def SEEK_SET : Int := 0
def SEEK_CUR : Int := 1
def SEEK_END : Int := 2

/-- The string of an entry at `a`, which ends before the flags or at their first byte. -/
def entryString (e : Bytes) (a : Nat) : List Byte :=
  ((List.range (FdEntry.flags.off + 1 - a)).map fun i => e (a + i)).takeWhile (· ≠ 0)

/-- `get_full_path_from_fdentry`. -/
def fullPath (e : Bytes) : List Byte := entryString e FdEntry.mount ++ entryString e FdEntry.name

/-- What `vfs_compat_get_file_descriptor` points at. -/
inductive EntryPointer where
  | null
  | entry (i : Nat)
  | outside

def getFileDescriptor (fd : Int) : EntryPointer :=
  if VFS_COMPAT_MAX_OPEN_FILES ≤ fd then .null else if fd < 0 then .outside else .entry fd.toNat

namespace State

variable {σ : Type}

def entry (s : State σ) (i : Nat) : Bytes := s.descriptors.files i

def setEntry (s : State σ) (i : Nat) (e : Bytes) : State σ :=
  { s with descriptors := s.descriptors.setFile i e }

def setPartition (s : State σ) (p : Nat) (x : σ) : State σ :=
  { s with ext2Partitions := Function.update s.ext2Partitions p (some x) }

def setDevice (s : State σ) (d : Nat) (f : Fifo) : State σ :=
  { s with fifoDevices := Function.update s.fifoDevices d (some f) }

/-- `ext2_partitions[partno]` behind the check of `partno`. -/
def partition (s : State σ) (partno : Int) : Option σ :=
  if partno < 0 ∨ MAX_DEVICES ≤ partno then none else s.ext2Partitions partno.toNat

/-- `fifo_devices[devno]` behind the check of `devno`. -/
def device (s : State σ) (devno : Int) : Option Fifo :=
  if devno < 0 ∨ MAX_DEVICES ≤ devno then none else s.fifoDevices devno.toNat

/-- The driver has the partition or device that an index stands for. -/
def registered (s : State σ) (fst : Fst) (index : Int) : Bool :=
  match fst with
  | .ext2 => (s.partition index).isSome
  | .fifo => (s.device index).isSome

/-! ## `generic_ext2.h` -/

section ext2

variable (ext2 : Ext2 σ) (s : State σ) (partno : Int) (i : Nat)

def ext2FileRead (buffer : Bytes) (size : Nat) : Nat × Bytes × State σ :=
  match s.partition partno with
  | none => (0, buffer, s)
  | some x =>
    if FdEntry.loaded.get (s.entry i) 0 = 0 then (1, buffer, s)
    else
      let (r, buffer) := ext2.readFile x (entryString (s.entry i) FdEntry.name) buffer size
        (FdEntry.offset.get (s.entry i) 0)
      (r, buffer, s)

def ext2FileSeek (offset : Nat) (whence : Int) : Nat × State σ :=
  match s.partition partno with
  | none => (0, s)
  | some x =>
    if whence = SEEK_SET then
      let e := FdEntry.offset.set (s.entry i) 0 offset
      (FdEntry.offset.get e 0, s.setEntry i e)
    else if whence = SEEK_CUR then
      let e := FdEntry.offset.set (s.entry i) 0 (u64 (FdEntry.offset.get (s.entry i) 0 + offset))
      (FdEntry.offset.get e 0, s.setEntry i e)
    else if whence = SEEK_END then
      let size := ext2.getFileSize x (entryString (s.entry i) FdEntry.name)
      let e := FdEntry.offset.set (s.entry i) 0 (u64 (size + offset))
      (FdEntry.offset.get e 0, s.setEntry i e)
    else (0, s)

def ext2FileWrite (buffer : Bytes) (size : Nat) : Nat × State σ :=
  match s.partition partno with
  | none => (minusOne, s)
  | some x =>
    let (written, x) := ext2.writeFile x (entryString (s.entry i) FdEntry.name) buffer size
      (FdEntry.offset.get (s.entry i) 0)
    (written, (ext2FileSeek ext2 (s.setPartition partno.toNat x) partno i size SEEK_CUR).2)

def ext2FileTell : Nat × State σ :=
  match s.partition partno with
  | none => (0, s)
  | some _ => (FdEntry.offset.get (s.entry i) 0, s)

end ext2

/-! ## `generic_fifo.h` -/

section fifo

variable (s : State σ) (devno : Int) (i : Nat)

def fifoFileRead (buffer : Bytes) (size : Nat) : Nat × Bytes × State σ :=
  match s.device devno with
  | none => (minusOne, buffer, s)
  | some f =>
    if FdEntry.loaded.get (s.entry i) 0 = 0 then (minusOne, buffer, s)
    else
      let (r, buffer, f) := f.ddRead (u32 size) (u32 (FdEntry.offset.get (s.entry i) 0)) buffer
      (r % 256, buffer, s.setDevice devno.toNat f)

def fifoFileWrite (buffer : Bytes) (size : Nat) : Nat × State σ :=
  match s.device devno with
  | none => (minusOne, s)
  | some f =>
    if FdEntry.loaded.get (s.entry i) 0 = 0 then (minusOne, s)
    else
      let (r, f) := f.ddWrite (u32 size) buffer
      (r % 256, s.setDevice devno.toNat f)

def fifoFileSeek (offset : Nat) (whence : Int) : Nat × State σ :=
  match s.device devno with
  | none => (minusOne, s)
  | some f =>
    if FdEntry.loaded.get (s.entry i) 0 = 0 then (minusOne, s)
    else
      let seek (offset : Nat) : Nat × State σ :=
        let e := FdEntry.offset.set (s.entry i) 0 offset
        (FdEntry.offset.get e 0, s.setEntry i e)
      if whence = SEEK_SET then seek offset
      else if whence = SEEK_CUR then seek (u64 (FdEntry.offset.get (s.entry i) 0 + offset))
      else if whence = SEEK_END then seek (u64 (f.fifoSize + offset))
      else (0, s)

def fifoFileTell : Nat × State σ :=
  match s.device devno with
  | none => (minusOne, s)
  | some _ =>
    if FdEntry.loaded.get (s.entry i) 0 = 0 then (minusOne, s)
    else (FdEntry.offset.get (s.entry i) 0, s)

/-- `fifo_compat_file_flush` does not look at the descriptor. `none` is a null device. -/
def fifoFileFlush : Option (State σ) :=
  if devno < 0 ∨ MAX_DEVICES ≤ devno then some s
  else match s.fifoDevices devno.toNat with
    | none => none
    | some f => some (s.setDevice devno.toNat f.flush)

end fifo

/-! ## `vfs_interface.c` -/

/-- The steps every call on a descriptor begins with: the full path of the entry, and the
mount it resolves to. The results are those for a null path and for no mount; `none`
is an access outside the table. -/
def callOnEntry {α : Type} (s : State σ) (fd : Int) (noPath noMount : α)
    (call : Fst → Int → Nat → Option (α × State σ)) : Option (α × State σ) :=
  match getFileDescriptor fd with
  | .null => some (noPath, s)
  | .outside => none
  | .entry i =>
    match getMountFromPath (fullPath (s.entry i)) s.mounts with
    | none => some (noMount, s)
    | some (mount, _) =>
      match mount.fst with
      | none => some (noMount, s)
      | some fst => call fst mount.internalIndex i

variable (ext2 : Ext2 σ) (s : State σ) (fd : Int)

/-- `vfs_file_read`: the result and the buffer. -/
def vfsFileRead (buffer : Bytes) (size : Nat) : Option ((Nat × Bytes) × State σ) :=
  s.callOnEntry fd (minusOne, buffer) (minusOne, buffer) fun fst index i =>
    let (r, buffer, s) := match fst with
      | .ext2 => s.ext2FileRead ext2 index i buffer size
      | .fifo => s.fifoFileRead index i buffer size
    some ((throughInt r, buffer), s)

def vfsFileWrite (buffer : Bytes) (size : Nat) : Option (Nat × State σ) :=
  s.callOnEntry fd minusOne minusOne fun fst index i =>
    let (r, s) := match fst with
      | .ext2 => s.ext2FileWrite ext2 index i buffer size
      | .fifo => s.fifoFileWrite index i buffer size
    some (throughInt r, s)

def vfsFileSeek (offset : Nat) (whence : Int) : Option (Nat × State σ) :=
  s.callOnEntry fd minusOne 0 fun fst index i =>
    match fst with
    | .ext2 => some (s.ext2FileSeek ext2 index i offset whence)
    | .fifo => some (s.fifoFileSeek index i offset whence)

def vfsFileTell : Option (Nat × State σ) :=
  s.callOnEntry fd minusOne 0 fun fst index i =>
    match fst with
    | .ext2 => some (s.ext2FileTell index i)
    | .fifo => some (s.fifoFileTell index i)

/-- `vfs_file_flush`. The `file_flush` of ext2 is a null pointer. -/
def vfsFileFlush : Option (Unit × State σ) :=
  s.callOnEntry fd () () fun fst index _ =>
    match fst with
    | .ext2 => none
    | .fifo => (s.fifoFileFlush index).map fun s => ((), s)

/-- `get_fd` of a driver. -/
def getFd (path mount : List Byte) (flags mode : Nat) : Option (Int × State σ) :=
  (s.descriptors.getFd path mount flags mode).map fun (r, d) => (r, { s with descriptors := d })

/-- `vfs_file_open`, with `ext2_compat_file_open` and `fifo_compat_file_open`: a driver keeps
the first 31 bytes of the name of its mount. -/
def vfsFileOpen (path : List Byte) (flags mode : Nat) : Option (Int × State σ) :=
  match getMountFromPath (vfsNormalizePath path) s.mounts with
  | none => some (-1, s)
  | some (mount, native) =>
    match mount.fst, mount.partition with
    | some fst, some part =>
      if ¬ s.registered fst mount.internalIndex then some (-1, s)
      else if fst = .fifo ∧ native ≠ [slash] then some (-1, s)
      else s.getFd native (part.name.chars.take 31) flags mode
    | _, _ => some (-1, s)

/-- `vfs_file_close`, with the callbacks of both drivers. -/
def vfsFileClose : Option (Int × State σ) :=
  s.callOnEntry fd (-1) (-1) fun fst index _ =>
    if s.registered fst index then
      (s.descriptors.releaseFd fd).map fun (r, d) => (r, { s with descriptors := d })
    else some (-1, s)

/-- `mount_fs` of a device that a driver took: the driver fills its first free slot. -/
def mountFs (part : VfsPartition) (fst : Fst) (x : σ) (f : Fifo) : State σ :=
  let free := match fst with
    | .ext2 => (List.range MAX_DEVICES).find? fun i => (s.ext2Partitions i).isNone
    | .fifo => (List.range MAX_DEVICES).find? fun i => (s.fifoDevices i).isNone
  match free with
  | none => s
  | some i =>
    match addMount s.mounts (some ()) (some part) (some fst) i with
    | .error _ => s
    | .ok mounts =>
      match fst with
      | .ext2 => { s.setPartition i x with mounts := mounts }
      | .fifo => { s.setDevice i f with mounts := mounts }

end State
end Vfs
