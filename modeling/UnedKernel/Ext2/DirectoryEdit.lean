import UnedKernel.Ext2.ByteWrites
import UnedKernel.Ext2.Dentry

/-! # Changes of a directory

`ext2_create_directory_entry`, `ext2_delete_dentry`, `ext2_initialize_directory`
and `ext2_operate_on_dentry`, over any `ext2_read_inode_bytes` and
`ext2_write_inode_bytes`. -/

namespace UnedKernel.Ext2
open ByteMem CString Word

/-- `ext2_write_inode_bytes`: the inode, the source, the count and what to skip. -/
abbrev InodeWriter := Volume → Nat → Bytes → Nat → Nat → Int × Volume

def EXT2_NAME_LEN : Nat := 255

def EXT2_DIR_TYPE_DIRECTORY : Nat := 2

/-- `sizeof(struct ext2_directory_entry) + name_len - EXT2_NAME_LEN`. -/
def entrySize (nameLen : Nat) : Nat := sizeofDirectoryEntry + nameLen - EXT2_NAME_LEN

/-- `(size + 3) & ~3`. -/
def align4 (size : Nat) : Nat := u32 (size + 3) / 4 * 4

/-- The fields of a `struct ext2_directory_entry` before its name. -/
def entryHeader (inode recLen nameLen fileType : Nat) : Bytes :=
  [(DirectoryEntry.inode, inode), (DirectoryEntry.recLen, recLen), (DirectoryEntry.nameLen, nameLen),
    (DirectoryEntry.fileType, fileType)].foldl (fun m f => f.1.set m 0 f.2) fun _ => 0

/-- The bytes of a string and the zeros after it. -/
def chars (s : List Byte) : Bytes := fun i => s.getD i 0

/-! ## `ext2_create_directory_entry` -/

/-- Its loop: the last entry, and where it ends. The outer `none` is a loop that does not end. -/
def lastEntryFrom (block : Bytes) (size : Nat) :
    (turns parsed : Nat) → (entry : Option Nat) → Option (Option Nat × Nat)
  | 0, parsed, entry => if parsed < size then none else some (entry, parsed)
  | turns + 1, parsed, entry =>
    if parsed < size then
      lastEntryFrom block size turns (u32 (parsed + DirectoryEntry.recLen.get block parsed)) (some parsed)
    else some (entry, parsed)

/-- The buffer after the last entry at `entry` is split: it keeps what its name needs, and the
child has the rest. -/
def splitEntry (block : Bytes) (entry parsed childInode : Nat) (name : List Byte) (nameLen type : Nat) :
    Bytes :=
  let size := entrySize (DirectoryEntry.nameLen.get block entry)
  let aligned := align4 size
  let original := DirectoryEntry.recLen.get block entry
  let block := DirectoryEntry.recLen.set block entry aligned
  let block := copy block (parsed - original) block entry size
  let child := entryHeader childInode (original - aligned) nameLen type
  let block := copy block (parsed - original + aligned) child 0 (sizeofDirectoryEntry - EXT2_NAME_LEN)
  copy block (parsed - original + aligned + sizeofDirectoryEntry - EXT2_NAME_LEN) (chars name) 0 nameLen

/-- `ext2_create_directory_entry`: 0 on success. -/
def createDirectoryEntryBy (readB : InodeReader) (writeB : InodeWriter) (v : Volume)
    (inodeNumber childInode : Nat) (name : List Byte) (type : Nat) : Option (Nat × Volume) :=
  match readInode v inodeNumber with
  | (none, v) => some (1, v)
  | (some inode, v) =>
    -- `name_len` is a byte
    let nameLen := strlen STR_MAX_SIZE name % 256
    if InodeDescriptor.mode.get inode 0 &&& INODE_TYPE_DIR ≠ 0 then
      let size := InodeDescriptor.size.get inode 0
      let (buffer, v) := kmalloc v
      let (read, block, v) := readB v inodeNumber buffer size 0
      if read = EXT2_READ_FAILED then some (1, v)
      else match lastEntryFrom block size POSITIONS 0 none with
        | none => none
        | some (none, _) => some (1, v)
        | some (some entry, parsed) =>
          if align4 (entrySize (DirectoryEntry.nameLen.get block entry)) + align4 (entrySize nameLen) >
              DirectoryEntry.recLen.get block entry then some (1, v)
          else
            let (written, v) :=
              writeB v inodeNumber (splitEntry block entry parsed childInode name nameLen type) size 0
            if written = EXT2_WRITE_FAILED then some (1, v) else some (0, v)
    else some (1, v)

def createDirectoryEntry (v : Volume) (inodeNumber childInode : Nat) (name : List Byte) (type : Nat) :
    Option (Nat × Volume) :=
  createDirectoryEntryBy readInodeBytes writeInodeBytes v inodeNumber childInode name type

/-! ## `ext2_delete_dentry` -/

/-- The last slash among the first characters, 0 when there is none. -/
def lastSlashFrom (i last : Nat) : List Byte → Nat
  | [] => last
  | c :: s => lastSlashFrom (i + 1) (if c = slash then i else last) s

/-- `ext2_path_to_parent_and_name`, `none` for an empty path. -/
def pathToParentAndName (source : List Byte) : Option (List Byte × List Byte) :=
  let path := source.take (strlen STR_MAX_SIZE source)
  if path.length = 0 then none
  else
    let lastSlash := lastSlashFrom 0 0 path
    if lastSlash = 0 then some ([slash], path.drop 1)
    else some (path.take lastSlash, path.drop (lastSlash + 1))

/-- The loop of `ext2_delete_dentry`: the first entry of the inode and the entry before it. -/
def findInodeFrom (block : Bytes) (target size : Nat) :
    (turns parsed : Nat) → (previous : Option Nat) → Option (Option (Nat × Option Nat))
  | 0, parsed, _ => if parsed < size then none else some none
  | turns + 1, parsed, previous =>
    if parsed < size then
      if DirectoryEntry.inode.get block parsed = target then some (some (parsed, previous))
      else
        findInodeFrom block target size turns (u32 (parsed + DirectoryEntry.recLen.get block parsed))
          (some parsed)
    else some none

/-- The buffer after the entry is cleared and its length is given to the entry before it. -/
def clearEntry (block : Bytes) (entry : Nat) (previous : Option Nat) : Bytes :=
  let block := DirectoryEntry.inode.set block entry 0
  let block := DirectoryEntry.nameLen.set block entry 0
  let block := DirectoryEntry.fileType.set block entry 0
  let block := store block (entry + DirectoryEntry.name) 1 0
  let block := match previous with
    | none => block
    | some previous => DirectoryEntry.recLen.set block previous
        (u16 (DirectoryEntry.recLen.get block previous + DirectoryEntry.recLen.get block entry))
  DirectoryEntry.recLen.set block entry 0

/-- What `ext2_delete_dentry` does in the parent directory, once the inodes are found. -/
def deleteEntryBy (readB : InodeReader) (writeB : InodeWriter) (v : Volume) (inode : Bytes)
    (parentInode targetInode : Nat) : Option (Nat × Volume) :=
  if InodeDescriptor.mode.get inode 0 &&& INODE_TYPE_DIR ≠ 0 then
    let size := InodeDescriptor.size.get inode 0
    let (buffer, v) := kmalloc v
    let (read, block, v) := readB v parentInode buffer size 0
    if read = EXT2_READ_FAILED then some (1, v)
    else match findInodeFrom block targetInode size POSITIONS 0 none with
      | none => none
      | some none => some (1, v)
      | some (some (entry, previous)) =>
        let (written, v) := writeB v parentInode (clearEntry block entry previous) size 0
        if written = EXT2_WRITE_FAILED then some (1, v) else some (0, v)
  else some (1, v)

/-- `ext2_delete_dentry`: 0 on success. -/
def deleteDentryBy (readB : InodeReader) (writeB : InodeWriter) (v : Volume) (path : List Byte) :
    Option (Nat × Volume) :=
  match pathToParentAndName path with
  | none => some (1, v)
  | some (parentPath, _) => match pathToInodeBy readB v parentPath with
    | none => none
    | some (parentInode, v) =>
      if parentInode = EXT2_INO_PTI_ERROR then some (1, v)
      else match readInode v parentInode with
        | (none, v) => some (1, v)
        | (some inode, v) => match pathToInodeBy readB v path with
          | none => none
          | some (targetInode, v) =>
            if targetInode = EXT2_INO_PTI_ERROR then some (1, v)
            else deleteEntryBy readB writeB v inode parentInode targetInode

def deleteDentry (v : Volume) (path : List Byte) : Option (Nat × Volume) :=
  deleteDentryBy readInodeBytes writeInodeBytes v path

/-! ## `ext2_initialize_directory` -/

/-- The buffer with the entries `.` and `..`. -/
def dotEntries (block : Bytes) (inodeNumber parentInode : Nat) : Bytes :=
  let first := entryHeader inodeNumber (align4 (entrySize 1)) 1 EXT2_DIR_TYPE_DIRECTORY
  let second := entryHeader parentInode (1024 - align4 (entrySize 1)) 2 EXT2_DIR_TYPE_DIRECTORY
  let block := copy block 0 (copy first DirectoryEntry.name (chars [0x2E]) 0 1) 0 (entrySize 1)
  copy block (align4 (entrySize 1)) (copy second DirectoryEntry.name (chars [0x2E, 0x2E]) 0 2) 0
    (entrySize 2)

/-- `ext2_initialize_directory`: 0 on success. -/
def initializeDirectoryBy (readB : InodeReader) (writeB : InodeWriter) (v : Volume)
    (inodeNumber parentInode : Nat) : Nat × Volume :=
  match readInode v inodeNumber with
  | (none, v) => (1, v)
  | (some inode, v) =>
    let size := InodeDescriptor.size.get inode 0
    let (buffer, v) := kmalloc v
    let (read, block, v) := readB v inodeNumber (fill buffer 0 v.part.blockSize 0) size 0
    if read = EXT2_READ_FAILED then (1, v)
    else
      let (written, v) := writeB v inodeNumber (dotEntries block inodeNumber parentInode) size 0
      if written = EXT2_WRITE_FAILED then (1, v) else (0, v)

def initializeDirectory (v : Volume) (inodeNumber parentInode : Nat) : Nat × Volume :=
  initializeDirectoryBy readInodeBytes writeInodeBytes v inodeNumber parentInode

/-! ## `ext2_operate_on_dentry` -/

/-- Its loop: 1 when the callback stops it. -/
def operateOnDentryFrom (callback : Volume → Nat → Bool × Volume) (block : Bytes) (size : Nat) :
    (turns : Nat) → Volume → (parsed : Nat) → Option (Nat × Volume)
  | 0, v, parsed => if parsed < size then none else some (0, v)
  | turns + 1, v, parsed =>
    if parsed < size then
      let (stop, v) := callback v (DirectoryEntry.inode.get block parsed)
      if stop then some (1, v)
      else operateOnDentryFrom callback block size turns v
        (u32 (parsed + DirectoryEntry.recLen.get block parsed))
    else some (0, v)

/-- `ext2_operate_on_dentry`. -/
def operateOnDentryBy (readB : InodeReader) (v : Volume) (path : List Byte)
    (callback : Volume → Nat → Bool × Volume) : Option (Nat × Volume) :=
  match pathToInode v path with
  | none => none
  | some (inodeNumber, v) =>
    if inodeNumber = EXT2_INO_PTI_ERROR then some (0, v)
    else match readInode v inodeNumber with
      | (none, v) => some (0, v)
      | (some inode, v) =>
        if InodeDescriptor.mode.get inode 0 &&& INODE_TYPE_DIR ≠ 0 then
          let size := InodeDescriptor.size.get inode 0
          let (buffer, v) := kmalloc v
          let (read, block, v) := readB v inodeNumber buffer size 0
          if read = EXT2_READ_FAILED then some (0, v)
          else operateOnDentryFrom callback block size POSITIONS v 0
        else some (0, v)

end UnedKernel.Ext2
