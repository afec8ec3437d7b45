import UnedKernel.Ext2.ByteReads
import UnedKernel.Lib.CString

/-! # From a path to an inode

`ext2_path_to_inode`, with the `strtok` of `string.c` that takes its path apart
and the search of one directory for one component. -/

namespace UnedKernel.Ext2
open ByteMem CString Word

def EXT2_INO_PAP_NOTFOUND : Int := -1
def EXT2_INO_PAP_ERROR : Int := -2
def EXT2_INO_PTI_ERROR : Nat := 0
def EXT2_ROOT_INO_INDEX : Nat := 2

def STR_MAX_SIZE : Nat := 65536

/-! ## What the functions of `ext2.c` return -/

def EXT2_RESULT_ERROR : Nat := 0
def EXT2_RESULT_OK : Nat := 1

/-! ## `struct ext2_directory_entry` -/

namespace DirectoryEntry

def inode : Field := ⟨0, 4⟩
def recLen : Field := ⟨4, 2⟩
def nameLen : Field := ⟨6, 1⟩
def fileType : Field := ⟨7, 1⟩

/-- The offset of the name. -/
def name : Nat := 8

end DirectoryEntry

/-- How often a loop over 32-bit positions may turn: after that many turns a position came
again, and it does not end. -/
def POSITIONS : Nat := 4294967296

/-! ## Tokens -/

/-- The loop of `strtok` inside a token: the token and what follows its delimiter. -/
def tokenFrom (delim : Byte) : (token rest : List Byte) → List Byte × List Byte
  | token, [] => (token, [])
  | token, c :: rest =>
    if c = delim then (token, rest) else tokenFrom delim (token ++ [c]) rest

/-- The inner loop of `strtok`, which goes on over delimiters, and the `lastToken++` that
follows it whatever character stopped it. `none` is a read behind the terminator. -/
def tokenAfter (delim : Byte) : List Byte → Option (List Byte × List Byte)
  | [] => none
  | c :: rest => if c = delim then tokenAfter delim rest else some (tokenFrom delim [c] rest)

/-- `strtok` with one delimiter on what is left of its string: the token, `[]` for a null
pointer, and what is left then. -/
def strtok (delim : Byte) : List Byte → Option (List Byte × List Byte)
  | [] => some ([], [])
  | c :: rest =>
    if c = delim then tokenAfter delim rest else some (tokenFrom delim [c] rest)

/-! ## Components -/

/-- A 32-bit word as an `int32_t`. -/
def int32 (x : Nat) : Int := if x < 2147483648 then x else x - 4294967296

/-- The loop of `ext2_inode_from_path_and_parent`: where the first entry stands that
`strncmp` finds equal to the path. The outer `none` is a loop that does not end. -/
def findEntry (block : Bytes) (path : List Byte) (size : Nat) :
    (turns parsed : Nat) → Option (Option Nat)
  | 0, parsed => if parsed < size then none else some none
  | turns + 1, parsed =>
    if parsed < size then
      let nameLen := DirectoryEntry.nameLen.get block parsed
      if strncmp (stringAt block (parsed + DirectoryEntry.name) nameLen) path nameLen = 0 then
        some (some parsed)
      else
        findEntry block path size turns (u32 (parsed + DirectoryEntry.recLen.get block parsed))
    else some none

/-- `ext2_inode_from_path_and_parent`. -/
def inodeFromPathAndParent (v : Volume) (parent : Nat) (path : List Byte) : Option (Int × Volume) :=
  match readInode v parent with
  | (none, v) => some (EXT2_INO_PAP_ERROR, v)
  | (some inode, v) =>
    if InodeDescriptor.mode.get inode 0 &&& INODE_TYPE_DIR ≠ 0 then
      let size := InodeDescriptor.size.get inode 0
      let (read, block, v) := readInodeBytes v parent (fun _ => 0) size 0
      if read = EXT2_READ_FAILED then some (EXT2_INO_PAP_ERROR, v)
      else match findEntry block path size POSITIONS 0 with
        | none => none
        | some none => some (EXT2_INO_PAP_NOTFOUND, v)
        | some (some parsed) => some (int32 (DirectoryEntry.inode.get block parsed), v)
    else some (EXT2_INO_PAP_NOTFOUND, v)

/-- `/`. -/
def slash : Byte := 0x2F

/-- The loop of `ext2_path_to_inode` over the tokens: each takes a character at least.
`none` is a run that does not return: the panic over inode 0, a directory without an end, or
a read behind the path. -/
def pathToInodeFrom (v : Volume) :
    (turns inodeIndex : Nat) → (rest : List Byte) → Option (Nat × Volume)
  | 0, _, _ => none
  | turns + 1, inodeIndex, rest =>
    match strtok slash rest with
    | none => none
    | some ([], _) => if inodeIndex = 0 then none else some (inodeIndex, v)
    | some (token, rest) =>
      match inodeFromPathAndParent v inodeIndex token with
      | none => none
      | some (index, v) =>
        if index = EXT2_INO_PAP_ERROR ∨ index = EXT2_INO_PAP_NOTFOUND then
          some (EXT2_INO_PTI_ERROR, v)
        else pathToInodeFrom v turns (index % 4294967296).toNat rest

/-- `ext2_path_to_inode`: the copy of the path is as long as `strlen` finds it. -/
def pathToInode (v : Volume) (path : List Byte) : Option (Nat × Volume) :=
  let copy := path.take (strlen STR_MAX_SIZE path)
  pathToInodeFrom v (copy.length + 1) EXT2_ROOT_INO_INDEX copy

/-! ## Over any reader

The same searches with the `ext2_read_inode_bytes` that they call as a parameter. -/

/-- `ext2_read_inode_bytes`: the inode, the destination, the count and what to skip. -/
abbrev InodeReader := Volume → Nat → Bytes → Nat → Nat → Int × Bytes × Volume

/-- `ext2_inode_from_path_and_parent`. -/
def inodeFromPathAndParentBy (readB : InodeReader) (v : Volume) (parent : Nat) (path : List Byte) :
    Option (Int × Volume) :=
  match readInode v parent with
  | (none, v) => some (EXT2_INO_PAP_ERROR, v)
  | (some inode, v) =>
    if InodeDescriptor.mode.get inode 0 &&& INODE_TYPE_DIR ≠ 0 then
      let size := InodeDescriptor.size.get inode 0
      let (read, block, v) := readB v parent (fun _ => 0) size 0
      if read = EXT2_READ_FAILED then some (EXT2_INO_PAP_ERROR, v)
      else match findEntry block path size POSITIONS 0 with
        | none => none
        | some none => some (EXT2_INO_PAP_NOTFOUND, v)
        | some (some parsed) => some (int32 (DirectoryEntry.inode.get block parsed), v)
    else some (EXT2_INO_PAP_NOTFOUND, v)

/-- The loop of `ext2_path_to_inode` over the tokens. -/
def pathToInodeFromBy (readB : InodeReader) (v : Volume) :
    (turns inodeIndex : Nat) → (rest : List Byte) → Option (Nat × Volume)
  | 0, _, _ => none
  | turns + 1, inodeIndex, rest =>
    match strtok slash rest with
    | none => none
    | some ([], _) => if inodeIndex = 0 then none else some (inodeIndex, v)
    | some (token, rest) =>
      match inodeFromPathAndParentBy readB v inodeIndex token with
      | none => none
      | some (index, v) =>
        if index = EXT2_INO_PAP_ERROR ∨ index = EXT2_INO_PAP_NOTFOUND then
          some (EXT2_INO_PTI_ERROR, v)
        else pathToInodeFromBy readB v turns (index % 4294967296).toNat rest

/-- `ext2_path_to_inode`. -/
def pathToInodeBy (readB : InodeReader) (v : Volume) (path : List Byte) : Option (Nat × Volume) :=
  let copy := path.take (strlen STR_MAX_SIZE path)
  pathToInodeFromBy readB v (copy.length + 1) EXT2_ROOT_INO_INDEX copy

theorem inodeFromPathAndParentBy_readInodeBytes (v : Volume) (parent : Nat) (path : List Byte) :
    inodeFromPathAndParentBy readInodeBytes v parent path = inodeFromPathAndParent v parent path := by
  rw [inodeFromPathAndParentBy, inodeFromPathAndParent]

theorem pathToInodeFromBy_readInodeBytes (v : Volume) (turns inodeIndex : Nat) (rest : List Byte) :
    pathToInodeFromBy readInodeBytes v turns inodeIndex rest =
      pathToInodeFrom v turns inodeIndex rest := by
  induction turns generalizing v inodeIndex rest with
  | zero => rfl
  | succ turns ih =>
    rw [pathToInodeFromBy, pathToInodeFrom]
    simp only [inodeFromPathAndParentBy_readInodeBytes, ih]

/-- With the code's own reader it is the path search of the code. -/
theorem pathToInodeBy_readInodeBytes (v : Volume) (path : List Byte) :
    pathToInodeBy readInodeBytes v path = pathToInode v path :=
  pathToInodeFromBy_readInodeBytes v _ _ _

end UnedKernel.Ext2
