import UnedKernel.Ext2.Lookups
import UnedKernel.Vfs.DirectoryRuns

/-! # Listing a directory

`ext2_compat_dir_open`, `ext2_compat_dir_load` and the calls of `read_dirfd` that
follow. The entries go through two copies: `ext2_get_all_dirs` packs them as structs
of fixed size, whose names have no terminator, and `add_file_to_dirfd` measures the
names with `strlen`. -/

namespace UnedKernel.Ext2
open ByteMem CString

/-- What the buffer of the directory holds once it is read: behind the bytes of the directory what
`kmalloc` left there. -/
def dirBuffer (v : Volume) (n : Nat) (heap : ListingHeap) : Bytes := fun x =>
  if x < v.fileSize n then v.fileBytes n x else heap.block x

/-- The records in use where they stand. -/
theorem Laid.positions {block : Bytes} {p : Nat} {rs : List Record} (h : Laid block p rs) :
    List.Forall₂ (fun q r => Ext2.recordAt block q = r ∧ r.WellFormed ∧ r.inode ≠ 0)
      (Ext2.positions p rs) (inUse rs) := by
  induction rs generalizing p with
  | nil => exact .nil
  | cons r rs ih =>
    have hrecord := h.recordAt
    obtain ⟨-, hwf, hrest⟩ := h
    rw [Ext2.positions]
    by_cases hr : r.inode = 0
    · rw [if_neg (not_not.mpr hr), inUse, List.filter_cons_of_neg (by simpa using hr)]
      exact ih hrest
    · rw [if_pos hr, inUse, List.filter_cons_of_pos (by simpa using hr)]
      exact .cons ⟨hrecord, hwf, hr⟩ (ih hrest)

theorem Laid.length_le {block : Bytes} {p : Nat} {rs : List Record} (h : Laid block p rs) :
    rs.length ≤ span rs := by
  induction rs generalizing p with
  | nil => exact Nat.le_refl 0
  | cons r rs ih =>
    have hfits := h.2.1.fits
    have hrest := ih h.2.2
    rw [span_cons, List.length_cons]
    omega

/-- A struct is copied with its record. -/
theorem recordAt_packed {block entries : Bytes} {ps : List Nat} {i : Nat} (hi : i < ps.length) :
    recordAt (packed block entries 0 ps) (sizeofDirectoryEntry * i) = recordAt block (ps.getD i 0) := by
  have hbyte (y : Nat) (hy : y < sizeofDirectoryEntry) :
      packed block entries 0 ps (sizeofDirectoryEntry * i + y) = block (ps.getD i 0 + y) :=
    packed_apply hi hy
  generalize packed block entries 0 ps = m at hbyte ⊢
  have hfield (f : Field) (hf : f.Within 8) :
      f.get m (sizeofDirectoryEntry * i) = f.get block (ps.getD i 0) := by
    unfold Field.Within at hf
    refine load_shift fun j hj => ?_
    rw [Nat.add_assoc, hbyte _ (by unfold sizeofDirectoryEntry; omega), Nat.add_assoc]
  have hlen : DirectoryEntry.nameLen.get block (ps.getD i 0) < 256 := DirectoryEntry.nameLen.get_lt block
  rw [recordAt, recordAt, hfield _ (by decide), hfield _ (by decide), hfield _ (by decide),
    hfield _ (by decide)]
  congr 1
  refine List.map_congr_left fun j hj => ?_
  have hj := List.mem_range.mp hj
  rw [Nat.add_assoc, hbyte _ (by unfold DirectoryEntry.name sizeofDirectoryEntry; omega), Nat.add_assoc]

namespace Directories

variable {v : Volume} {dir : Nat → Option (List Record)} {n : Nat} {path : List Byte}
  {rs : List Record}

theorem laid_dirBuffer (h : Directories v dir) (hn : Linked dir n) (hdir : dir n = some rs)
    (heap : ListingHeap) : Laid (dirBuffer v n heap) 0 rs := by
  obtain ⟨hlaid, hspan⟩ := h.laid n rs hn hdir
  refine hlaid.congr fun x _ hx => if_pos ?_
  rwa [Nat.zero_add, hspan] at hx

/-- The entries in use of a directory that is read are copied. -/
theorem getAllDirs_small (h : Directories v dir) (hwalk : walk v dir path = .leads n)
    (hdir : dir n = some rs) (hsmall : v.fileSize n ≤ 12 * v.part.blockSize) (heap : ListingHeap) :
    ∃ w, getAllDirs heap v path = some ((inUse rs).length,
      packed (dirBuffer v n heap) heap.entries 0 (positions 0 rs), w) := by
  have hpath := h.pathToInode path
  rw [hwalk] at hpath
  obtain ⟨w, hfind, hw, hn, hne, -⟩ := hpath
  obtain ⟨inode, w₁, hread, hw₁, htyped, hsize⟩ := h.readInode hw hn
  rw [hdir] at htyped
  -- the loops and the read stay closed terms that nothing evaluates
  obtain ⟨turns, hturns⟩ : ∃ turns, turns = POSITIONS := ⟨_, rfl⟩
  obtain ⟨readB, hreadB⟩ : ∃ readB, readB = readInodeBytes := ⟨_, rfl⟩
  rw [getAllDirs, hfind, ← hreadB, ← hturns]
  simp only [EXT2_INO_PTI_ERROR, if_neg hne, hread, hsize]
  rw [if_pos (htyped.mpr rfl)]
  obtain ⟨⟨read, block, w₂⟩, hbytes⟩ : ∃ x, readB w₁ n heap.block (v.fileSize n) 0 = x := ⟨_, rfl⟩
  obtain ⟨-, hok, -, hread⟩ := h.readInodeBytes_small hw₁ hn hdir hsmall (hreadB ▸ hbytes)
  have hblock : block = dirBuffer v n heap := funext hread
  have hlaid := h.laid_dirBuffer hn hdir heap
  have hspan : 0 + span rs = v.fileSize n := by
    rw [Nat.zero_add]
    exact (h.laid n rs hn hdir).2
  have hlt : v.fileSize n < 4294967296 := InodeDescriptor.size.get_lt _
  have hle : v.fileSize n ≤ 0 + turns := by
    rw [hturns]
    unfold POSITIONS
    omega
  simp only [hbytes, if_neg hok, hblock]
  rw [countDirsFrom_laid hlaid hspan hlt hle, copyDirsFrom_laid hlaid hspan hlt hle, Nat.zero_add]
  exact ⟨w₂, rfl⟩

/-- A directory that is too large is listed as empty. -/
theorem getAllDirs_large (h : Directories v dir) (hwalk : walk v dir path = .leads n)
    (hdir : dir n = some rs) (hlarge : 12 * v.part.blockSize < v.fileSize n) (heap : ListingHeap) :
    ∃ w, getAllDirs heap v path = some (0, heap.entries, w) := by
  have hpath := h.pathToInode path
  rw [hwalk] at hpath
  obtain ⟨w, hfind, hw, hn, hne, -⟩ := hpath
  obtain ⟨inode, w₁, hread, hw₁, htyped, hsize⟩ := h.readInode hw hn
  rw [hdir] at htyped
  obtain ⟨readB, hreadB⟩ : ∃ readB, readB = readInodeBytes := ⟨_, rfl⟩
  have hfailed := h.readInodeBytes_large hw₁ hn hlarge heap.block
  rw [getAllDirs, hfind, ← hreadB]
  rw [← hreadB] at hfailed
  simp only [EXT2_INO_PTI_ERROR, if_neg hne, hread, hsize]
  rw [if_pos (htyped.mpr rfl), if_pos hfailed]
  exact ⟨_, rfl⟩

end Directories
end UnedKernel.Ext2

namespace Vfs
open ByteMem CString Blocks
open UnedKernel.Ext2

namespace DirTable

/-- `ext2_compat_dir_open` of a partition with this name. -/
def compatDirOpen (s : DirTable) (path partition : List Byte) (block : Block) : Option (Int × DirTable) :=
  s.getDirfd path partition 0 0 block

/-- The loop of `ext2_compat_dir_load` over the entries from `i` on, `n` of them to go. -/
def addEntries (fd : Int) (entries : Bytes) (blocks : Nat → Block) :
    (n i : Nat) → DirTable → Option DirTable
  | 0, _, s => some s
  | n + 1, i, s =>
    let entry := sizeofDirectoryEntry * i
    match s.addFileToDirfd fd (stringAt entries (entry + DirectoryEntry.name) STR_MAX_SIZE)
        (DirectoryEntry.inode.get entries entry) (DirectoryEntry.fileType.get entries entry)
        (DirectoryEntry.nameLen.get entries entry) (blocks i) with
    | none => none
    | some (_, s) => addEntries fd entries blocks n (i + 1) s

/-- The path that `ext2_compat_dir_load` reads from a descriptor. -/
def openName (s : DirTable) (fd : Nat) : List Byte := stringAt (s.dirs fd).fd FdEntry.name STR_MAX_SIZE

/-- `ext2_compat_dir_load` of a partition in the table; entry `i` gets `blocks i` from `kmalloc`.
It does not look at what `add_file_to_dirfd` returns. -/
def compatDirLoad (s : DirTable) (fd : Int) (v : Volume) (heap : ListingHeap) (blocks : Nat → Block) :
    Option (Int × DirTable × Volume) :=
  if VFS_COMPAT_MAX_OPEN_DIRECTORIES ≤ fd then some (0, s, v)
  else if fd < 0 then none
  else if s.loaded fd.toNat = 0 then some (0, s, v)
  else
    match getAllDirs heap v (s.openName fd.toNat) with
    | none => none
    | some (count, entries, v) => (addEntries fd entries blocks count 0 s).map fun s => (1, s, v)

/-! ## What the calls of `read_dirfd` return -/

/-- `read_dirfd` returned this entry. -/
structure Returned (r : Record) (found : Found) : Prop where
  name : Reads found.name 0 r.name
  nameLen : found.nameLen = r.name.length
  type : found.type = r.type

/-- The calls of `read_dirfd` on a descriptor return these entries, one after the other, and then
0, with the table as it was, so that they return 0 from then on. -/
def Drains (fd : Int) : DirTable → List Record → Prop
  | s, [] => ∀ buffer, s.readDirfd fd buffer = some (0, none, s)
  | s, r :: rs => ∀ buffer, ∃ found t, s.readDirfd fd buffer = some (1, some found, t) ∧
      Returned r found ∧ Drains fd t rs

/-- The directory is loaded, and the calls that read it return its entries in use. -/
def ListsExactly (s : DirTable) (fd : Int) (v : Volume) (heap : ListingHeap) (blocks : Nat → Block)
    (rs : List Record) : Prop :=
  ∃ t w, s.compatDirLoad fd v heap blocks = some (1, t, w) ∧ Drains fd t (inUse rs)

/-- `kmalloc` gives the nodes of `count` entries blocks that are not in use. -/
structure Given (s : DirTable) (blocks : Nat → Block) (count : Nat) : Prop where
  unused : ∀ i, i < count → (blocks i).addr ∉ live s.nodes.trace
  distinct : ∀ i j, i < j → j < count → (blocks i).addr ≠ (blocks j).addr

/-- Byte `y` from the start of the `i`-th of the names at these positions, as `strlen` meets it: 255
bytes of the struct, and then the first byte of the next struct, or what lies behind the last. -/
def nameByte (buffer : Bytes) (heap : ListingHeap) (ps : List Nat) (i y : Nat) : Byte :=
  if y < 255 then buffer (ps.getD i 0 + DirectoryEntry.name + y)
  else if i + 1 < ps.length then buffer (ps.getD (i + 1) 0)
  else heap.entries (sizeofDirectoryEntry * ps.length)

/-- The directory has no entry in use; or it has twelve blocks at most, and a zero byte stands among
the 256 bytes from each name on. -/
def NamesEnd (v : Volume) (n : Nat) (heap : ListingHeap) (rs : List Record) : Prop :=
  inUse rs = [] ∨ v.fileSize n ≤ 12 * v.part.blockSize ∧
    ∀ i, i < (inUse rs).length → ∃ y, y ≤ 255 ∧ nameByte (dirBuffer v n heap) heap (positions 0 rs) i y = 0

/-! ## What a node holds -/

/-- The name, its length and the type in a node. -/
structure Held where
  name : Str
  nameLen : Nat
  type : Nat

/-- The node holds these. -/
structure Holds (b : Bytes) (e : Held) : Prop where
  name : Reads b Dentry.name e.name.chars
  length : e.name.chars.length ≤ VFS_FDE_NAME_MAX_LEN
  nameLen : Dentry.nameLen.get b 0 = e.nameLen
  type : Dentry.type.get b 0 = e.type

/-- What `read_dirfd` gives of a node. -/
def Held.found (e : Held) (buffer : Bytes) : Found :=
  ⟨strncpy buffer 0 e.name.chars e.nameLen, e.nameLen, e.type⟩

section nodes

variable {b : Bytes} {e : Held} {name : Str} {inode type nameLen : Nat}

/-- The pointer of a node lies behind what it holds. -/
theorem Holds.setNext (h : Holds b e) (x : Nat) : Holds (Dentry.next.set b 0 x) e := by
  have hlength := h.length
  unfold VFS_FDE_NAME_MAX_LEN at hlength
  refine ⟨h.name.congr fun i hi => store_apply_out b (.inl ?_), h.length,
    (Field.get_set_disjoint _ _ (by decide)).trans h.nameLen,
    (Field.get_set_disjoint _ _ (by decide)).trans h.type⟩
  simp only [Dentry.next, Dentry.name]
  omega

/-- The terminator of a name of 256 bytes goes to the first byte of `name_len`. -/
theorem fillDentry_holds (hname : name.chars.length ≤ VFS_FDE_NAME_MAX_LEN) (hlen : nameLen < 256)
    (htype : type < 256) : Holds (fillDentry b name.chars inode type nameLen)
      ⟨name, if name.chars.length = VFS_FDE_NAME_MAX_LEN then 0 else nameLen, type⟩ := by
  have hstrlen : strlen STR_MAX_SIZE name.chars = name.chars.length := Descriptors.strlen_of_le hname
  have hcopied : min name.chars.length (strlen STR_MAX_SIZE name.chars) = name.chars.length := by
    rw [hstrlen, Nat.min_self]
  unfold VFS_FDE_NAME_MAX_LEN at hname ⊢
  refine ⟨strncpy_reads (Nat.le_of_eq hstrlen.symm), hname, ?_, ?_⟩
  · generalize hb : Dentry.type.set (Dentry.inode.set (Dentry.next.set b 0 0) 0 inode) 0 type = b'
    have hfill : fillDentry b name.chars inode type nameLen =
        strncpy (Dentry.nameLen.set b' 0 nameLen) Dentry.name name.chars
          (strlen STR_MAX_SIZE name.chars) := by
      rw [← hb]
      rfl
    have hstored : Dentry.nameLen.get (Dentry.nameLen.set b' 0 nameLen) 0 = nameLen := by
      rw [Field.get_set_same]
      exact Nat.mod_eq_of_lt (Nat.lt_trans hlen (by decide))
    rw [hfill]
    generalize Dentry.nameLen.set b' 0 nameLen = m at hstored ⊢
    split
    · rename_i hfull
      have hfirst : strncpy m Dentry.name name.chars (strlen STR_MAX_SIZE name.chars) 256 = 0 := by
        rw [strncpy_in (show Dentry.name ≤ 256 from Nat.zero_le _) (by rw [hcopied, hfull, Dentry.name]),
          hcopied, hfull]
        rfl
      have hrest : load (strncpy m Dentry.name name.chars (strlen STR_MAX_SIZE name.chars)) 257 3 =
          load m 257 3 := by
        refine load_congr fun i _ => strncpy_out (.inr ?_)
        rw [hcopied, hfull]
        simp only [Dentry.name]
        omega
      have hbyte : load m 257 3 = 0 := by
        have hsum : (m 256).toNat + 256 * load m 257 3 = nameLen := hstored
        omega
      show (strncpy m Dentry.name name.chars (strlen STR_MAX_SIZE name.chars) 256).toNat +
        256 * load (strncpy m Dentry.name name.chars (strlen STR_MAX_SIZE name.chars)) 257 3 = 0
      rw [hfirst, hrest, hbyte]
      rfl
    · refine (load_congr fun i _ => strncpy_out (.inr ?_)).trans hstored
      rw [hcopied]
      simp only [Dentry.name, Dentry.nameLen]
      omega
  · have hcopy : Dentry.type.get (fillDentry b name.chars inode type nameLen) 0 =
        Dentry.type.get (Dentry.nameLen.set (Dentry.type.set (Dentry.inode.set
          (Dentry.next.set b 0 0) 0 inode) 0 type) 0 nameLen) 0 := by
      refine load_congr fun i _ => strncpy_out (.inr ?_)
      rw [hcopied]
      simp only [Dentry.name, Dentry.type]
      omega
    rw [hcopy, Field.get_set_disjoint _ _ (by decide), Field.get_set_same]
    exact Nat.mod_eq_of_lt (Nat.lt_trans htype (by decide))

end nodes

/-! ## The list of a descriptor -/

/-- Behind the empty node of the descriptor stand these nodes, and they hold these entries. -/
structure Filled (s : DirTable) (fd : Nat) (as : List Nat) (es : List Held) : Prop where
  inside : fd < VFS_COMPAT_MAX_OPEN_DIRECTORIES
  loaded : s.loaded fd ≠ 0
  head : pointer (s.dirs fd).dentries = some (s.dirs fd).dentries
  list : NodeList s.nodes.next (some (s.dirs fd).dentries) ((s.dirs fd).dentries :: as)
  holds : List.Forall₂ (fun a e => Holds (s.nodes.bytes a) e) as es
  number : (s.dirs fd).number = es.length

variable {s t : DirTable} {path partition : List Byte} {block : Block} {fd : Nat} {as : List Nat}
  {es : List Held} {name : Str} {inode type nameLen : Nat}

/-- A descriptor is returned for an entry of the table that is opened. -/
theorem open_cases {r : Int} (h : s.compatDirOpen path partition block = some (r, t)) (hr : 0 ≤ r) :
    ∃ fd : Nat, r = fd ∧ fd < VFS_COMPAT_MAX_OPEN_DIRECTORIES ∧
      path.length ≤ VFS_FDE_NAME_MAX_LEN ∧ partition.length ≤ VFS_FDE_NAME_MAX_LEN ∧
      t = s.openAt fd path partition 0 0 block := by
  unfold compatDirOpen getDirfd at h
  split at h
  · cases h
    exact absurd hr (by decide)
  rename_i hpath
  split at h
  · cases h
    exact absurd hr (by decide)
  rename_i hpartition
  have hpath := Nat.not_lt.mp (mt Descriptors.strlen_gt_iff.mpr hpath)
  have hpartition := Nat.not_lt.mp (mt Descriptors.strlen_gt_iff.mpr hpartition)
  by_cases hcursor : s.cursor < VFS_COMPAT_MAX_OPEN_DIRECTORIES
  · rcases @getDirfdFrom_cases block s path partition 0 0 VFS_COMPAT_MAX_OPEN_DIRECTORIES hcursor with
      ⟨fd, hfd, -, hopen⟩ | ⟨c, -, hfull⟩
    · rw [hopen] at h
      cases h
      exact ⟨fd, rfl, hfd, hpath, hpartition, rfl⟩
    · rw [hfull] at h
      cases h
      exact absurd hr (by decide)
  · rw [show VFS_COMPAT_MAX_OPEN_DIRECTORIES = 4095 + 1 from rfl, getDirfdFrom] at h
    simp only [if_pos (Nat.not_lt.mp hcursor)] at h
    cases h

theorem openAt_dir : (s.openAt fd path partition 0 0 block).dirs fd =
    ⟨Descriptors.openEntry (s.dirs fd).fd path partition 0 0, block.addr, 0, 0⟩ :=
  Function.update_self ..

/-- A descriptor that is opened has an empty list. -/
theorem filled_openAt (hfd : fd < VFS_COMPAT_MAX_OPEN_DIRECTORIES)
    (hpath : path.length ≤ VFS_FDE_NAME_MAX_LEN) (hpartition : partition.length ≤ VFS_FDE_NAME_MAX_LEN) :
    Filled (s.openAt fd path partition 0 0 block) fd [] [] := by
  refine ⟨hfd, ?_, ?_, ?_, .nil, ?_⟩
  · have hopened : FdEntry.loaded.get (Descriptors.openEntry (s.dirs fd).fd path partition 0 0) 0 = 1 :=
      Descriptors.openEntry_loaded hpath hpartition
    rw [DirTable.loaded, openAt_dir, hopened]
    exact Nat.one_ne_zero
  · rw [openAt_dir]
    exact pointer_addr block
  · rw [openAt_dir]
    exact ⟨rfl, Nodes.write_next_same.trans (next_fill _)⟩
  · rw [openAt_dir]
    rfl

/-- A path of fewer than 256 bytes is the name of its descriptor. -/
theorem openName_openAt {path partition : Str} (hpath : path.chars.length < VFS_FDE_NAME_MAX_LEN)
    (hpartition : partition.chars.length ≤ VFS_FDE_NAME_MAX_LEN) :
    (s.openAt fd path.chars partition.chars 0 0 block).openName fd = path.chars := by
  rw [openName, openAt_dir, stringAt_eq_take path.nulFree
    ((Descriptors.openEntry_name_iff partition.nulFree (Nat.le_of_lt hpath) hpartition).mpr
      fun hfull => absurd hfull (Nat.ne_of_lt hpath)), List.take_of_length_le]
  exact Nat.le_trans (Nat.le_of_lt hpath) (by decide)

/-- What the nodes hold after one is added. -/
theorem addAt_bytes {m : Nodes} {p q : Nat} {name : List Byte} (hp : p ≠ block.addr) :
    (s.addAt fd p m name inode type nameLen block).nodes.bytes q =
      if q = block.addr then fillDentry block.bytes name inode type nameLen
      else if q = p then Dentry.next.set (m.bytes p) 0 block.addr
      else m.bytes q := by
  unfold addAt Nodes.write Nodes.kmalloc
  simp only [Function.update_self, Function.update_of_ne hp, Function.update_of_ne hp.symm,
    Function.update_apply]
  split
  · rfl
  · split
    · rfl
    · rfl

namespace Filled

theorem length_eq (h : Filled s fd as es) : as.length = es.length := h.holds.length_eq

/-- The checks of a call on the descriptor pass. -/
theorem not_outside (h : Filled s fd as es) : ¬ (VFS_COMPAT_MAX_OPEN_DIRECTORIES : Int) ≤ fd :=
  Int.not_le.mpr (Int.ofNat_lt.mpr h.inside)

/-- A name of more than 256 bytes is refused. -/
theorem refuse (h : Filled s fd as es) (inode type nameLen : Nat) (block : Block)
    (hname : VFS_FDE_NAME_MAX_LEN < name.chars.length) :
    s.addFileToDirfd fd name.chars inode type nameLen block = some (0, s) := by
  unfold addFileToDirfd
  rw [if_neg h.not_outside, if_pos (Descriptors.strlen_gt_iff.mpr hname)]

/-- An entry is added behind the last one. -/
theorem add (h : Filled s fd as es) (inode : Nat) (hname : name.chars.length ≤ VFS_FDE_NAME_MAX_LEN)
    (hlen : nameLen < 256) (htype : type < 256) (hfresh : block.addr ∉ (s.dirs fd).dentries :: as)
    (hcount : es.length + 1 < 2 ^ 32) :
    ∃ t, s.addFileToDirfd fd name.chars inode type nameLen block = some (1, t) ∧
      Filled t fd (as ++ [block.addr])
        (es ++ [⟨name, if name.chars.length = VFS_FDE_NAME_MAX_LEN then 0 else nameLen, type⟩]) ∧
      (t.dirs fd).index = (s.dirs fd).index ∧ (t.dirs fd).dentries = (s.dirs fd).dentries := by
  obtain ⟨front, p, hlast⟩ := List.eq_nil_or_concat' ((s.dirs fd).dentries :: as) |>.resolve_left
    (List.cons_ne_nil _ _)
  have hlist := h.list
  rw [hlast] at hlist
  have hturns : front.length < turns := by
    have hlength := congrArg List.length hlast
    rw [List.length_cons, h.length_eq, List.length_append, List.length_singleton] at hlength
    unfold turns
    omega
  have hcall : s.addFileToDirfd fd name.chars inode type nameLen block =
      some (1, s.addAt fd p (s.nodes.readAll (front ++ [p]).reverse) name.chars inode type nameLen
        block) := by
    unfold addFileToDirfd
    rw [if_neg h.not_outside, if_neg (mt Descriptors.strlen_gt_iff.mp (Nat.not_lt.mpr hname)),
      if_neg (Int.not_lt.mpr (Int.natCast_nonneg fd)), Int.toNat_natCast, if_neg h.loaded, h.head]
    simp only [Nodes.lastDentry_eq hlist hturns]
  refine ⟨_, hcall, ?_⟩
  generalize ht : s.addAt fd p (s.nodes.readAll (front ++ [p]).reverse) name.chars inode type nameLen
    block = t
  have hdir : t.dirs fd = { s.dirs fd with number := ((s.dirs fd).number + 1) % 2 ^ 32 } := by
    rw [← ht]
    exact Function.update_self ..
  have hp : p ∈ (s.dirs fd).dentries :: as := hlast ▸ List.mem_append_right front List.mem_cons_self
  have hold (q : Nat) (hq : q ∈ (s.dirs fd).dentries :: as) : q ≠ block.addr := fun heq => hfresh (heq ▸ hq)
  refine ⟨⟨h.inside, ?_, ?_, ?_, ?_, ?_⟩, ?_, ?_⟩
  · rw [DirTable.loaded, hdir]
    exact h.loaded
  · rw [hdir]
    exact h.head
  · rw [hdir, ← List.cons_append, hlast, ← ht]
    refine hlist.snoc (fun q hq => addAt_next_of_ne (hlist.front_ne hq) (hold q ?_))
      (addAt_next_last (hold p hp)) (addAt_next_new hname)
    rw [hlast]
    exact List.mem_append_left _ hq
  · refine List.rel_append ?_ (.cons ?_ .nil)
    · have hsplit := (List.forall₂_and_left as es).mpr
        ⟨fun q hq => hold q (List.mem_cons_of_mem _ hq), h.holds⟩
      refine hsplit.imp fun q e hq => ?_
      rw [← ht, addAt_bytes (hold p hp), if_neg hq.1]
      split
      · rename_i heq
        rw [heq] at hq
        exact hq.2.setNext _
      · exact hq.2
    · rw [← ht, addAt_bytes (hold p hp), if_pos rfl]
      exact fillDentry_holds hname hlen htype
  · rw [hdir, h.number, List.length_append]
    exact Nat.mod_eq_of_lt hcount
  · rw [hdir]
  · rw [hdir]

/-- A call of `read_dirfd` with entries left returns the next one. -/
theorem readDirfd (h : Filled s fd as es) {e : Held} (he : es[(s.dirs fd).index]? = some e) :
    ∃ t, Filled t fd as es ∧ (t.dirs fd).index = ((s.dirs fd).index + 1) % 2 ^ 32 ∧
      ∀ buffer, s.readDirfd fd buffer = some (1, some (e.found buffer), t) := by
  obtain ⟨hindex, -⟩ := List.getElem?_eq_some_iff.mp he
  obtain ⟨a, ha, hholds⟩ : ∃ a, as[(s.dirs fd).index]? = some a ∧ Holds (s.nodes.bytes a) e := by
    have hlt : (s.dirs fd).index < as.length := h.length_eq ▸ hindex
    refine ⟨as[(s.dirs fd).index], List.getElem?_eq_getElem hlt, ?_⟩
    have hget := h.holds.get hlt hindex
    rw [List.getElem?_eq_getElem hindex] at he
    rwa [List.get_eq_getElem, List.get_eq_getElem, Option.some.inj he] at hget
  obtain ⟨-, hrest⟩ := h.list
  have hfirst := hrest.head_eq
  cases hnext : s.nodes.next (s.dirs fd).dentries with
  | none =>
    rw [hnext, eq_comm, List.head?_eq_none_iff] at hfirst
    rw [hfirst] at ha
    cases ha
  | some first =>
    rw [hnext] at hrest
    have hskip := Nodes.skipDentries_eq (m := s.nodes.read (s.dirs fd).dentries) hrest ha
    have hstring : stringAt (s.nodes.bytes a) Dentry.name STR_MAX_SIZE = e.name.chars := by
      rw [stringAt_eq_take e.name.nulFree hholds.name, List.take_of_length_le]
      exact Nat.le_trans hholds.length (by decide)
    have hmore : ¬ (s.dirs fd).number ≤ (s.dirs fd).index := Nat.not_le.mpr (h.number.symm ▸ hindex)
    refine ⟨{ s with
      dirs := Function.update s.dirs fd
        { s.dirs fd with index := ((s.dirs fd).index + 1) % 2 ^ 32 }
      nodes := ((s.nodes.read (s.dirs fd).dentries).readAll
        (as.take (s.dirs fd).index).reverse).read a }, ⟨h.inside, ?_, ?_, ?_, h.holds, ?_⟩, ?_,
      fun buffer => ?_⟩
    · simp only [DirTable.loaded, Function.update_self]
      exact h.loaded
    · simp only [Function.update_self]
      exact h.head
    · simp only [Function.update_self]
      exact h.list
    · simp only [Function.update_self]
      exact h.number
    · simp only [Function.update_self]
    · unfold DirTable.readDirfd
      rw [if_neg h.not_outside, if_neg (Int.not_lt.mpr (Int.natCast_nonneg fd)), Int.toNat_natCast,
        if_neg h.loaded]
      simp only [if_neg hmore, h.head, hnext, hskip]
      rw [Held.found, ← hstring, ← hholds.nameLen, ← hholds.type]
      rfl

/-- With no entries left a call returns 0. -/
theorem readDirfd_end (h : Filled s fd as es) (hend : es.length ≤ (s.dirs fd).index) (buffer : Bytes) :
    s.readDirfd fd buffer = some (0, none, s) := by
  unfold DirTable.readDirfd
  rw [if_neg h.not_outside, if_neg (Int.not_lt.mpr (Int.natCast_nonneg fd)), Int.toNat_natCast,
    if_neg h.loaded]
  exact if_pos (h.number.symm ▸ hend)

/-- The calls return the records where each entry that is left gives its record. -/
theorem drains_iff (h : Filled s fd as es) (hcount : es.length < 2 ^ 32) (rs : List Record) :
    Drains fd s rs ↔ List.Forall₂ (fun e r => ∀ buffer, Returned r (e.found buffer))
      (es.drop (s.dirs fd).index) rs := by
  induction rs generalizing s with
  | nil =>
    rw [List.forall₂_nil_right_iff, List.drop_eq_nil_iff, Drains]
    constructor
    · intro hend
      by_contra hleft
      have hlt : (s.dirs fd).index < es.length := Nat.not_le.mp hleft
      obtain ⟨t, -, -, hread⟩ := h.readDirfd (List.getElem?_eq_getElem hlt)
      have hboth := (hread fun _ => 0).symm.trans (hend fun _ => 0)
      cases hboth
    · intro hend buffer
      exact h.readDirfd_end hend buffer
  | cons r rs ih =>
    rw [Drains]
    by_cases hleft : es.length ≤ (s.dirs fd).index
    · rw [List.drop_of_length_le hleft, List.forall₂_nil_left_iff]
      refine iff_of_false (fun hreads => ?_) (List.cons_ne_nil r rs)
      obtain ⟨found, t, hread, -⟩ := hreads fun _ => 0
      have hboth := (h.readDirfd_end hleft fun _ => 0).symm.trans hread
      cases hboth
    · have hlt : (s.dirs fd).index < es.length := Nat.not_le.mp hleft
      obtain ⟨t, ht, hindex, hread⟩ := h.readDirfd (List.getElem?_eq_getElem hlt)
      rw [Nat.mod_eq_of_lt (by omega)] at hindex
      have hrest := ih ht
      rw [hindex] at hrest
      rw [List.drop_eq_getElem_cons hlt, List.forall₂_cons, ← hrest]
      constructor
      · intro hreads
        refine ⟨fun buffer => ?_, ?_⟩
        · obtain ⟨found, u, hread', hreturned, -⟩ := hreads buffer
          rw [hread buffer] at hread'
          cases hread'
          exact hreturned
        · obtain ⟨found, u, hread', -, hdrains⟩ := hreads fun _ => 0
          rw [hread] at hread'
          cases hread'
          exact hdrains
      · intro ⟨hreturned, hdrains⟩ buffer
        exact ⟨_, t, hread buffer, hreturned buffer, hdrains⟩

end Filled

/-! ## Loading -/

/-- The string at the name of the `i`-th entry of a buffer. -/
def entryName (entries : Bytes) (i : Nat) : Str where
  chars := stringAt entries (sizeofDirectoryEntry * i + DirectoryEntry.name) STR_MAX_SIZE
  nulFree := stringAt_nulFree

/-- What is held of the `i`-th entry of a buffer: nothing when the string is longer than 256 bytes. -/
def heldOf (entries : Bytes) (i : Nat) : Option Held :=
  if VFS_FDE_NAME_MAX_LEN < (entryName entries i).chars.length then none
  else some
    { name := entryName entries i
      nameLen :=
        if (entryName entries i).chars.length = VFS_FDE_NAME_MAX_LEN then 0
        else DirectoryEntry.nameLen.get entries (sizeofDirectoryEntry * i)
      type := DirectoryEntry.fileType.get entries (sizeofDirectoryEntry * i) }

/-- The loop of `ext2_compat_dir_load` over `n` entries from `i` on. -/
theorem Filled.addEntries (h : Filled s fd as es) (entries : Bytes) (blocks : Nat → Block) (n i : Nat)
    (hfresh : ∀ j, i ≤ j → j < i + n → (blocks j).addr ∉ (s.dirs fd).dentries :: as)
    (hdistinct : ∀ j k, j < k → k < i + n → (blocks j).addr ≠ (blocks k).addr)
    (hcount : es.length + n < 2 ^ 32) :
    ∃ t as', DirTable.addEntries fd entries blocks n i s = some t ∧
      Filled t fd as' (es ++ (List.range' i n).filterMap (heldOf entries)) ∧
      (t.dirs fd).index = (s.dirs fd).index := by
  induction n generalizing s as es i with
  | zero =>
    rw [List.range'_zero, List.filterMap_nil, List.append_nil]
    exact ⟨s, as, rfl, h, rfl⟩
  | succ n ih =>
    rw [DirTable.addEntries, List.range'_succ, List.filterMap_cons]
    by_cases hlong : VFS_FDE_NAME_MAX_LEN < (entryName entries i).chars.length
    · have hrefused := h.refuse (DirectoryEntry.inode.get entries (sizeofDirectoryEntry * i))
        (DirectoryEntry.fileType.get entries (sizeofDirectoryEntry * i))
        (DirectoryEntry.nameLen.get entries (sizeofDirectoryEntry * i)) (blocks i) hlong
      have hheld : heldOf entries i = none := if_pos hlong
      obtain ⟨t, as', hload, ht⟩ := ih h (i + 1) (fun j hj hj' => hfresh j (by omega) (by omega))
        (fun j k hjk hk => hdistinct j k hjk (by omega)) (by omega)
      refine ⟨t, as', ?_, ?_⟩
      · simp only [entryName] at hrefused
        simp only [hrefused, hload]
      · rw [hheld]
        exact ht
    · obtain ⟨t, hadd, ht, hindex, hdentries⟩ := h.add
        (DirectoryEntry.inode.get entries (sizeofDirectoryEntry * i)) (Nat.not_lt.mp hlong)
        (DirectoryEntry.nameLen.get_lt (a := sizeofDirectoryEntry * i) entries)
        (DirectoryEntry.fileType.get_lt (a := sizeofDirectoryEntry * i) entries)
        (hfresh i (Nat.le_refl i) (by omega)) (by omega)
      have hheld : heldOf entries i = some _ := if_neg hlong
      have hfresh' (j : Nat) (hj : i + 1 ≤ j) (hj' : j < i + 1 + n) :
          (blocks j).addr ∉ (t.dirs fd).dentries :: (as ++ [(blocks i).addr]) := by
        rw [hdentries, ← List.cons_append, List.mem_append, List.mem_singleton, not_or]
        exact ⟨hfresh j (by omega) (by omega),
          fun heq => hdistinct i j (by omega) (by omega) heq.symm⟩
      obtain ⟨u, as', hload, hu, hindex'⟩ := ih ht (i + 1) hfresh'
        (fun j k hjk hk => hdistinct j k hjk (by omega)) (by
          rw [List.length_append, List.length_singleton]
          omega)
      refine ⟨u, as', ?_, ?_, hindex'.trans hindex⟩
      · simp only [entryName] at hadd
        simp only [hadd, hload]
      · rw [hheld]
        rw [List.append_assoc] at hu
        exact hu

/-! ## The entries that arrive -/

section arrival

variable {v : Volume} {dir : Nat → Option (List Record)} {n i y : Nat} {rs : List Record} {r : Record}
  {entries buffer : Bytes} {heap : ListingHeap} {ps : List Nat} {blocks : Nat → Block}

/-- What the `i`-th entry holds gives its record exactly when the string at its name has fewer than
256 bytes. -/
theorem heldOf_returned (hr : recordAt entries (sizeofDirectoryEntry * i) = r) (hwf : r.WellFormed)
    (hne : r.inode ≠ 0) :
    (∃ e, heldOf entries i = some e ∧ ∀ buffer, Returned r (e.found buffer)) ↔
      (entryName entries i).chars.length ≤ 255 := by
  have hlen : DirectoryEntry.nameLen.get entries (sizeofDirectoryEntry * i) = r.name.length := by
    rw [← hr, recordAt_name_length]
  have htype : DirectoryEntry.fileType.get entries (sizeofDirectoryEntry * i) = r.type :=
    congrArg Record.type hr
  have hpos := hwf.nonempty hne
  have hshort := hwf.length
  constructor
  · intro ⟨e, he, hreturned⟩
    unfold heldOf at he
    split at he
    · cases he
    · rename_i hlong
      cases he
      have hsame := (hreturned fun _ => 0).nameLen
      simp only [Held.found] at hsame
      split at hsame
      · omega
      · unfold VFS_FDE_NAME_MAX_LEN at *
        omega
  · intro hle
    have hheld : heldOf entries i = some ⟨entryName entries i, r.name.length, r.type⟩ := by
      unfold heldOf VFS_FDE_NAME_MAX_LEN
      rw [if_neg (by omega), if_neg (by omega), hlen, htype]
    have hchars (j : Nat) (hj : j < r.name.length) :
        entries (sizeofDirectoryEntry * i + DirectoryEntry.name + j) = r.name.getD j 0 := by
      have hname : (List.range r.name.length).map (fun j => entries (sizeofDirectoryEntry * i +
          DirectoryEntry.name + j)) = r.name := by
        rw [← hlen]
        exact congrArg Record.name hr
      have hget := congrArg (fun s => s[j]?) hname
      simp only [List.getElem?_map, List.getElem?_range hj] at hget
      rw [List.getD_eq_getElem?_getD, ← hget]
      rfl
    have hstring : (entryName entries i).chars = r.name ++ stringAt entries (sizeofDirectoryEntry * i +
        DirectoryEntry.name + r.name.length) (STR_MAX_SIZE - r.name.length) := by
      rw [← stringAt_append hwf.name hchars, Nat.add_sub_cancel' (Nat.le_trans hshort (by decide))]
      rfl
    refine ⟨_, hheld, fun buffer => ⟨?_, rfl, rfl⟩⟩
    rw [Held.found, hstring]
    exact strncpy_append_reads

/-- Byte `y` from the `i`-th name on in the copies. -/
theorem packed_name (hi : i < ps.length) (hy : y ≤ 255) :
    packed buffer heap.entries 0 ps (sizeofDirectoryEntry * i + DirectoryEntry.name + y) =
      nameByte buffer heap ps i y := by
  have hstruct : sizeofDirectoryEntry = 263 := rfl
  have hname : DirectoryEntry.name = 8 := rfl
  unfold nameByte
  by_cases hin : y < 255
  · rw [if_pos hin, Nat.add_assoc, packed_apply hi (by omega), Nat.add_assoc]
  · have hnext : sizeofDirectoryEntry * i + DirectoryEntry.name + y = sizeofDirectoryEntry * (i + 1) + 0 := by
      rw [Nat.mul_succ]
      omega
    rw [if_neg hin, hnext]
    split
    · rename_i hlast
      rw [packed_apply hlast (by omega), Nat.add_zero]
    · rename_i hlast
      have hlen : ps.length = i + 1 := by omega
      rw [packed_past (by rw [hlen]; exact Nat.le_add_right _ _), hlen, Nat.add_zero]

/-- The names end where the strings at them have fewer than 256 bytes. -/
theorem nameByte_iff (hi : i < ps.length) :
    (entryName (packed buffer heap.entries 0 ps) i).chars.length ≤ 255 ↔
      ∃ y, y ≤ 255 ∧ nameByte buffer heap ps i y = 0 := by
  refine (length_stringAt_le_iff (by decide)).trans (exists_congr fun y => and_congr_right fun hy => ?_)
  rw [packed_name hi hy]

/-- A list that is filtered as it is mapped gives as many elements as another one has when none is
left out. -/
theorem forall₂_filterMap {α β γ : Type} {f : α → Option β} {R : β → γ → Prop} {xs : List α}
    {ys : List γ} (hlen : xs.length = ys.length) :
    List.Forall₂ R (xs.filterMap f) ys ↔ List.Forall₂ (fun x y => ∃ e, f x = some e ∧ R e y) xs ys := by
  induction xs generalizing ys with
  | nil => rw [List.filterMap_nil, List.forall₂_nil_left_iff, List.forall₂_nil_left_iff]
  | cons x xs ih =>
    cases ys with
    | nil => cases hlen
    | cons y ys =>
      have hlen := Nat.succ.inj hlen
      rw [List.filterMap_cons, List.forall₂_cons]
      cases hx : f x with
      | none =>
        refine iff_of_false (fun hall => ?_) fun ⟨⟨e, he, _⟩, _⟩ => nomatch he
        have hle := List.length_filterMap_le f xs
        have heq := hall.length_eq
        simp only [List.length_cons] at heq
        omega
      | some e =>
        simp only [List.forall₂_cons, ih hlen, Option.some.injEq, exists_eq_left']

/-- The copied entries give their records when their names end. -/
theorem forall_held (hlaid : Laid buffer 0 rs) :
    List.Forall₂ (fun e r => ∀ buffer, Returned r (e.found buffer))
      ((List.range' 0 (inUse rs).length).filterMap
        (heldOf (packed buffer heap.entries 0 (positions 0 rs)))) (inUse rs) ↔
      ∀ i, i < (inUse rs).length → ∃ y, y ≤ 255 ∧ nameByte buffer heap (positions 0 rs) i y = 0 := by
  have hrange : (List.range' 0 (inUse rs).length).length = (inUse rs).length := List.length_range'
  have hps : (positions 0 rs).length = (inUse rs).length := length_positions
  have hone (i : Nat) (hi : i < (inUse rs).length) :
      (∃ e, heldOf (packed buffer heap.entries 0 (positions 0 rs)) i = some e ∧
        ∀ buffer, Returned (inUse rs)[i] (e.found buffer)) ↔
      ∃ y, y ≤ 255 ∧ nameByte buffer heap (positions 0 rs) i y = 0 := by
    have hi' : i < (positions 0 rs).length := hps.symm ▸ hi
    obtain ⟨hrecord, hwf, hne⟩ := hlaid.positions.get hi' hi
    have hget : (positions 0 rs).getD i 0 = (positions 0 rs).get ⟨i, hi'⟩ := by
      rw [List.getD_eq_getElem?_getD, List.getElem?_eq_getElem hi']
      rfl
    rw [← hget, ← recordAt_packed hi'] at hrecord
    exact (heldOf_returned hrecord hwf hne).trans (nameByte_iff hi')
  rw [forall₂_filterMap hrange, List.forall₂_iff_get, and_iff_right hrange]
  constructor
  · intro hall i hi
    have hheld := hall i (hrange.symm ▸ hi) hi
    rw [List.get_eq_getElem, List.getElem_range', Nat.zero_add, Nat.one_mul] at hheld
    exact (hone i hi).mp hheld
  · intro hall i hi hi'
    rw [List.get_eq_getElem, List.getElem_range', Nat.zero_add, Nat.one_mul]
    exact (hone i hi').mpr (hall i hi')

/-- A directory of up to twelve blocks. -/
theorem lists_small (h : Directories v dir) (ht : Filled t fd [] []) (hindex : (t.dirs fd).index = 0)
    (hwalk : walk v dir (t.openName fd) = .leads n) (hdir : dir n = some rs)
    (hsmall : v.fileSize n ≤ 12 * v.part.blockSize)
    (hhead : ∀ i, i < (inUse rs).length → (blocks i).addr ≠ (t.dirs fd).dentries)
    (hdistinct : ∀ i j, i < j → j < (inUse rs).length → (blocks i).addr ≠ (blocks j).addr) :
    ListsExactly t fd v heap blocks rs ↔ ∀ i, i < (inUse rs).length →
      ∃ y, y ≤ 255 ∧ nameByte (dirBuffer v n heap) heap (positions 0 rs) i y = 0 := by
  have hpath := h.pathToInode (t.openName fd)
  rw [hwalk] at hpath
  obtain ⟨-, -, -, hn, -⟩ := hpath
  have hlaid := h.laid_dirBuffer hn hdir heap
  have hcount : (inUse rs).length < 2 ^ 32 := by
    have hle : (inUse rs).length ≤ rs.length := List.length_filter_le _ rs
    have hspan := (h.laid n rs hn hdir).2
    have hsize : v.fileSize n < 4294967296 := Readable.fileSize_lt
    have := hlaid.length_le
    omega
  obtain ⟨w, hall⟩ := h.getAllDirs_small hwalk hdir hsmall heap
  generalize hentries : packed (dirBuffer v n heap) heap.entries 0 (positions 0 rs) = entries at hall
  obtain ⟨u, as, hload, hu, hindex'⟩ := ht.addEntries entries blocks (inUse rs).length 0
    (fun j _ hj hmem => hhead j (by omega) (List.mem_singleton.mp hmem))
    (fun j k hjk hk => hdistinct j k hjk (by omega)) (by simpa using hcount)
  have hheld : ((List.range' 0 (inUse rs).length).filterMap (heldOf entries)).length < 2 ^ 32 := by
    have hle := List.length_filterMap_le (heldOf entries) (List.range' 0 (inUse rs).length)
    rw [List.length_range'] at hle
    exact Nat.lt_of_le_of_lt hle hcount
  have hdrains := hu.drains_iff hheld (inUse rs)
  rw [hindex', hindex, List.drop_zero, List.nil_append, ← hentries, forall_held hlaid] at hdrains
  unfold ListsExactly compatDirLoad
  rw [if_neg ht.not_outside, if_neg (Int.not_lt.mpr (Int.natCast_nonneg fd)), Int.toNat_natCast,
    if_neg ht.loaded]
  simp only [hall, hload, Option.map_some]
  rw [← hdrains]
  constructor
  · rintro ⟨t', w', hloaded, hreads⟩
    cases hloaded
    exact hreads
  · intro hreads
    exact ⟨u, w, rfl, hreads⟩

/-- A larger directory is loaded as an empty one. -/
theorem lists_large (h : Directories v dir) (ht : Filled t fd [] [])
    (hwalk : walk v dir (t.openName fd) = .leads n) (hdir : dir n = some rs)
    (hlarge : 12 * v.part.blockSize < v.fileSize n) :
    ListsExactly t fd v heap blocks rs ↔ inUse rs = [] := by
  obtain ⟨w, hall⟩ := h.getAllDirs_large hwalk hdir hlarge heap
  have hdrains := ht.drains_iff (by decide) (inUse rs)
  rw [List.drop_nil, List.forall₂_nil_left_iff] at hdrains
  unfold ListsExactly compatDirLoad
  rw [if_neg ht.not_outside, if_neg (Int.not_lt.mpr (Int.natCast_nonneg fd)), Int.toNat_natCast,
    if_neg ht.loaded]
  simp only [hall, DirTable.addEntries, Option.map_some]
  constructor
  · rintro ⟨t', w', hloaded, hreads⟩
    cases hloaded
    exact hdrains.mp hreads
  · intro hnone
    exact ⟨t, w, rfl, hdrains.mpr hnone⟩

/-- The directory that a descriptor is open on is listed exactly when its names end. -/
theorem listsExactly_iff (h : Directories v dir) {path partition : Str}
    (hopen : s.compatDirOpen path.chars partition.chars block = some ((fd : Int), t))
    (hwalk : walk v dir (t.openName fd) = .leads n) (hdir : dir n = some rs) (heap : ListingHeap)
    (hblocks : Given t blocks (inUse rs).length) :
    ListsExactly t fd v heap blocks rs ↔ NamesEnd v n heap rs := by
  obtain ⟨fd', hfd', hfd, hpath, hpartition, ht⟩ := open_cases hopen (Int.natCast_nonneg fd)
  obtain rfl : fd = fd' := Int.ofNat_inj.mp hfd'
  have hfilled : Filled t fd [] [] := ht ▸ filled_openAt hfd hpath hpartition
  by_cases hsmall : v.fileSize n ≤ 12 * v.part.blockSize
  · have hindex : (t.dirs fd).index = 0 := by rw [ht, openAt_dir]
    have hlive : (t.dirs fd).dentries ∈ live t.nodes.trace := by
      rw [ht, openAt_dir]
      exact Finset.mem_insert_self _ _
    rw [lists_small h hfilled hindex hwalk hdir hsmall
      (fun i hi heq => hblocks.unused i hi (heq ▸ hlive)) hblocks.distinct, NamesEnd, and_iff_right hsmall]
    refine ⟨.inr, fun hend => hend.elim (fun hnone i hi => ?_) id⟩
    rw [hnone] at hi
    exact absurd hi (Nat.not_lt_zero i)
  · rw [lists_large h hfilled hwalk hdir (Nat.not_le.mp hsmall)]
    exact ⟨.inl, fun hend => hend.resolve_right fun hall => hsmall hall.1⟩

end arrival

/-! ## The root with its two entries -/

/-- `/.`. -/
def rootPath : Str := ⟨[0x2F, 0x2E], by decide⟩

def headBlock : Block := firstBlock

def nodeBlocks (i : Nat) : Block :=
  if i = 0 then secondBlock else ⟨12288, fun _ => 0, by decide, by decide⟩

/-- The table with the root open. -/
def rootOpen : DirTable := initial.openAt 0 rootPath.chars diskName.chars 0 0 headBlock

theorem compatDirOpen_root :
    initial.compatDirOpen rootPath.chars diskName.chars headBlock = some (((0 : Nat) : Int), rootOpen) := by
  rfl

theorem openName_rootOpen : rootOpen.openName 0 = [0x2F, 0x2E] :=
  show (initial.openAt 0 rootPath.chars diskName.chars 0 0 headBlock).openName 0 = rootPath.chars from
    openName_openAt (by decide) (by decide)

theorem given_nodeBlocks : Given rootOpen nodeBlocks 2 where
  unused := by
    intro i _
    have hlive : live rootOpen.nodes.trace = {4096} := rfl
    rw [hlive, Finset.mem_singleton, nodeBlocks]
    split
    · decide
    · decide
  distinct := by
    intro i j hij hj
    obtain ⟨rfl, rfl⟩ : i = 0 ∧ j = 1 := by omega
    decide

theorem listsExactly_iff_root : ListsExactly rootOpen (0 : Nat) rootVolume
    ⟨fun _ => 0, fun _ => 0⟩ nodeBlocks
    [⟨2, 12, [0x2E], 2⟩, ⟨2, 1012, [0x2E, 0x2E], 2⟩] := by
  have hwalk : walk rootVolume dots (rootOpen.openName 0) = .leads 2 := by
    rw [openName_rootOpen]
    decide +kernel
  refine (listsExactly_iff directories_rootVolume compatDirOpen_root hwalk rfl _ given_nodeBlocks).mpr
    (.inr ⟨by decide +kernel, fun i hi => ?_⟩)
  obtain rfl | rfl : i = 0 ∨ i = 1 := by
    have hi : i < 2 := hi
    omega
  · exact ⟨1, by decide, by decide +kernel⟩
  · exact ⟨2, by decide, by decide +kernel⟩

/-- The root with what an earlier owner left in its block behind the two entries. -/
def staleVolume : Volume :=
  let v := directoryVolume 1024 (dotEntries (fun _ => 1) 2 2)
  { v with disk := { v.disk with image := Field.set ⟨40, 4⟩ v.disk.image 5248 100 } }

theorem directories_staleVolume : Directories staleVolume dots := by
  refine directories_dots rfl (fun _ => rfl) (by decide +kernel) (by decide +kernel) (by decide +kernel) ?_
  refine ⟨⟨by decide +kernel, by decide +kernel, by decide +kernel, by decide +kernel, ?_⟩, ?_,
    ⟨by decide +kernel, by decide +kernel, by decide +kernel, by decide +kernel, ?_⟩, ?_, trivial⟩
  · decide +kernel
  · exact ⟨by decide, by decide, fun _ => by decide, by decide⟩
  · decide +kernel
  · exact ⟨by decide, by decide, fun _ => by decide, by decide⟩

/-- The name `..` has no end in the block, and its entry is lost. -/
theorem not_listsExactly : ¬ ∀ v dir, Directories v dir → ∀ (s t : DirTable) (path partition : Str) block
    (fd : Nat), s.compatDirOpen path.chars partition.chars block = some ((fd : Int), t) →
    ∀ n rs, walk v dir (t.openName fd) = .leads n → dir n = some rs → ∀ heap blocks,
    Given t blocks (inUse rs).length → ListsExactly t fd v heap blocks rs := by
  intro hall
  have hwalk : walk staleVolume dots (rootOpen.openName 0) = .leads 2 := by
    rw [openName_rootOpen]
    decide +kernel
  have hlists := hall staleVolume dots directories_staleVolume initial rootOpen rootPath diskName headBlock
    0 compatDirOpen_root 2 _ hwalk rfl ⟨fun _ => 1, fun _ => 1⟩ nodeBlocks given_nodeBlocks
  have hnames := (lists_small directories_staleVolume (filled_openAt (by decide) (by decide) (by decide)) rfl
    hwalk rfl (by decide +kernel) (by decide) given_nodeBlocks.distinct).mp hlists 1 (by decide)
  obtain ⟨y, hy, hzero⟩ := hnames
  have hbytes : ∀ y, y < 256 → nameByte (dirBuffer staleVolume 2 ⟨fun _ => 1, fun _ => 1⟩)
      ⟨fun _ => 1, fun _ => 1⟩ [0, 12] 1 y ≠ 0 := by decide +kernel
  exact hbytes y (Nat.lt_succ_of_le hy) hzero

end DirTable
end Vfs
