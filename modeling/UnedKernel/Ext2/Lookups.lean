import UnedKernel.Ext2.DirectoryRecords
import UnedKernel.Ext2.PathSplit
import UnedKernel.Ext2.WholeReads

/-! # Two lookups of a path

`ext2_get_dentry` and `ext2_path_to_inode` over a volume whose directories are
lists of records. Both compare a name with as many characters as the entry
has, and neither reads a directory of more than twelve blocks. -/

namespace UnedKernel.Ext2
open ByteMem CString Word Components

/-- The most entries that `ext2_dentry_get_dentry` looks at. -/
def LIST_MAX : Nat := 16

/-- The loop of `ext2_dentry_get_dentry`: whether an entry in use is found equal to the name. -/
def findDentry (block : Bytes) (name : List Byte) (size : Nat) : (turns parsed : Nat) → Bool
  | 0, _ => false
  | turns + 1, parsed =>
    if parsed < size then
      let nameLen := DirectoryEntry.nameLen.get block parsed
      if DirectoryEntry.inode.get block parsed ≠ 0 ∧
          strncmp (stringAt block (parsed + DirectoryEntry.name) nameLen) name nameLen = 0 then
        true
      else
        findDentry block name size turns (u32 (parsed + DirectoryEntry.recLen.get block parsed))
    else false

/-- `ext2_dentry_get_dentry`: 0 when it finds an entry. The variable of its loop hides the
parameter `entry`, so it copies the entry it finds onto itself. -/
def dentryGetDentry (v : Volume) (parentPath name : List Byte) (entry : Bytes) :
    Option (Nat × Bytes × Volume) :=
  match pathToInode v parentPath with
  | none => none
  | some (inodeNumber, v) =>
    if inodeNumber = EXT2_INO_PTI_ERROR then some (1, entry, v)
    else match readInode v inodeNumber with
      | (none, v) => some (1, entry, v)
      | (some inode, v) =>
        if InodeDescriptor.mode.get inode 0 &&& INODE_TYPE_DIR ≠ 0 then
          let size := InodeDescriptor.size.get inode 0
          let (block, v) := kmalloc v
          let (read, block, v) := readInodeBytes v inodeNumber block size 0
          if read = EXT2_READ_FAILED then some (1, entry, v)
          else some (if findDentry block name size LIST_MAX 0 then 0 else 1, entry, v)
        else some (1, entry, v)

/-- `ext2_get_dentry`. -/
def getDentry (v : Volume) (path : List Byte) (dentry : Bytes) : Option (Nat × Bytes × Volume) :=
  match splitIntoPathAndName path with
  | none => some (EXT2_RESULT_ERROR, dentry, v)
  | some (parentPath, name) =>
    (dentryGetDentry v parentPath name dentry).map fun (failed, dentry, v) =>
      (if failed ≠ 0 then EXT2_RESULT_ERROR else EXT2_RESULT_OK, dentry, v)

/-- The inodes that the loop of `ext2_path_to_inode` searches. -/
def searchedFrom (v : Volume) : (turns inodeIndex : Nat) → (rest : List Byte) → List Nat
  | 0, _, _ => []
  | turns + 1, inodeIndex, rest =>
    match strtok slash rest with
    | none => []
    | some ([], _) => []
    | some (token, rest) =>
      inodeIndex :: match inodeFromPathAndParent v inodeIndex token with
        | none => []
        | some (index, v) =>
          if index = EXT2_INO_PAP_ERROR ∨ index = EXT2_INO_PAP_NOTFOUND then []
          else searchedFrom v turns (index % 4294967296).toNat rest

/-- The inodes that `ext2_path_to_inode` searches for a path. -/
def searched (v : Volume) (path : List Byte) : List Nat :=
  let copy := path.take (strlen STR_MAX_SIZE path)
  searchedFrom v (copy.length + 1) EXT2_ROOT_INO_INDEX copy

/-! ## Volumes with directories -/

/-- The inodes that the directories lead to from the root. -/
inductive Linked (dir : Nat → Option (List Record)) : Nat → Prop
  | root : Linked dir EXT2_ROOT_INO_INDEX
  | entry {n : Nat} {rs : List Record} {r : Record} : Linked dir n → dir n = some rs → r ∈ rs →
      r.inode ≠ 0 → Linked dir r.inode

/-- The directories of a volume: the bytes of one are whole blocks of records, one after the
other, and what the directories lead to can be read to its end. -/
structure Directories (v : Volume) (dir : Nat → Option (List Record)) : Prop where
  readable : ∀ n, Linked dir n → Readable v n
  typed : ∀ n, Linked dir n →
    (InodeDescriptor.mode.get (v.inodeBytes n) 0 &&& INODE_TYPE_DIR ≠ 0 ↔ (dir n).isSome)
  blocks : ∀ n rs, Linked dir n → dir n = some rs → v.fileSize n % v.part.blockSize = 0
  laid : ∀ n rs, Linked dir n → dir n = some rs → Laid (v.fileBytes n) 0 rs ∧ span rs = v.fileSize n

/-- What `ext2_inode_from_path_and_parent` finds: the inode of the first record, in use or not,
whose name begins the component. -/
def found (v : Volume) (dir : Nat → Option (List Record)) (n : Nat) (c : List Byte) : Int :=
  match dir n with
  | none => EXT2_INO_PAP_NOTFOUND
  | some rs =>
    if v.fileSize n ≤ 12 * v.part.blockSize then
      match rs.find? fun r => r.name <+: c with
      | none => EXT2_INO_PAP_NOTFOUND
      | some r => int32 r.inode
    else EXT2_INO_PAP_ERROR

/-- Where a path leads: to an inode, nowhere, or to a deleted entry or behind the path. -/
inductive Outcome where
  | leads (inode : Nat)
  | lost
  | faulty
  deriving DecidableEq

/-- The way of `ext2_path_to_inode` from directory `n` on. -/
def walkFrom (v : Volume) (dir : Nat → Option (List Record)) :
    (turns n : Nat) → (rest : List Byte) → Outcome
  | 0, _, _ => .faulty
  | turns + 1, n, rest =>
    match strtok slash rest with
    | none => .faulty
    | some ([], _) => .leads n
    | some (c, rest) =>
      let index := found v dir n c
      if index = EXT2_INO_PAP_ERROR ∨ index = EXT2_INO_PAP_NOTFOUND then .lost
      else if index = 0 then .faulty
      else walkFrom v dir turns (index % 4294967296).toNat rest

/-- What a search returned, and the inodes it searched, are as the outcome says. -/
def Outcome.Meets (dir : Nat → Option (List Record)) (good : Volume → Prop)
    (result : Option (Nat × Volume)) (searched : List Nat) : Outcome → Prop
  | .leads n => ∃ w, result = some (n, w) ∧ good w ∧ Linked dir n ∧ n ≠ 0 ∧ 0 ∉ searched
  | .lost => ∃ w, result = some (EXT2_INO_PTI_ERROR, w) ∧ 0 ∉ searched
  | .faulty => result = none ∨ 0 ∈ searched

/-- Where a path leads from the root. -/
def walk (v : Volume) (dir : Nat → Option (List Record)) (path : List Byte) : Outcome :=
  let copy := path.take (strlen STR_MAX_SIZE path)
  walkFrom v dir (copy.length + 1) EXT2_ROOT_INO_INDEX copy

/-- Among the first 16 records of directory `n` one in use has a name that begins the name. -/
def Listed (v : Volume) (dir : Nat → Option (List Record)) (n : Nat) (name : List Byte) : Prop :=
  ∃ rs, dir n = some rs ∧ v.fileSize n ≤ 12 * v.part.blockSize ∧
    ∃ r ∈ rs.take LIST_MAX, r.inode ≠ 0 ∧ r.name <+: name

/-- Neither lookup finds the path. -/
def Missed (v : Volume) (dir : Nat → Option (List Record)) (path : List Byte) : Prop :=
  walk v dir path = .lost ∧ ∃ parentPath name, splitIntoPathAndName path = some (parentPath, name) ∧
    (walk v dir parentPath = .lost ∨
      ∃ n, walk v dir parentPath = .leads n ∧ ¬ Listed v dir n name)

/-- The type is that of the entry with exactly the name of the path. -/
def TypeOf (v : Volume) (dir : Nat → Option (List Record)) (path : List Byte) (type : Nat) : Prop :=
  ∃ parentPath name n w rs r, splitIntoPathAndName path = some (parentPath, name) ∧
    pathToInode v parentPath = some (n, w) ∧ dir n = some rs ∧ r ∈ rs ∧ r.inode ≠ 0 ∧
    r.name = name ∧ r.type = type

/-- Both lookups return, without a search of inode 0, and agree. -/
structure LookupsAgree (v : Volume) (dir : Nat → Option (List Record)) (path : List Byte)
    (dentry : Bytes) : Prop where
  searched : 0 ∉ searched v path
  searchedParent : ∀ parentPath name, splitIntoPathAndName path = some (parentPath, name) →
    0 ∉ Ext2.searched v parentPath
  agree : ∃ r d w n w', getDentry v path dentry = some (r, d, w) ∧ pathToInode v path = some (n, w') ∧
    (r = EXT2_RESULT_OK ↔ n ≠ 0) ∧
    (r = EXT2_RESULT_OK → DirectoryEntry.inode.get d 0 = n ∧
      TypeOf v dir path (DirectoryEntry.fileType.get d 0))

/-! ## One directory -/

section search

variable {block : Bytes} {c : List Byte} {rs : List Record} {r : Record} {p size turns : Nat}

/-- A name in a record is read whole. -/
theorem stringAt_chars {m : Bytes} {a : Nat} {s : List Byte} (hs : NulFree s)
    (h : ∀ i, i < s.length → m (a + i) = s.getD i 0) : stringAt m a s.length = s := by
  have hchars := stringAt_append (k := 0) hs h
  rwa [Nat.add_zero, stringAt, List.append_nil] at hchars

theorem Laid.inode_lt (h : Laid block p rs) (hr : r ∈ rs) : r.inode < 4294967296 := by
  induction rs generalizing p with
  | nil => cases hr
  | cons s rs ih =>
    rcases List.mem_cons.mp hr with rfl | hr
    · rw [← h.1.1]
      exact DirectoryEntry.inode.get_lt _
    · exact ih h.2.2 hr

/-- The comparison that both loops make at a record. -/
theorem strncmp_record (h : Laid block p (r :: rs)) :
    strncmp (stringAt block (p + DirectoryEntry.name) (DirectoryEntry.nameLen.get block p)) c
      (DirectoryEntry.nameLen.get block p) = 0 ↔ r.name <+: c := by
  obtain ⟨⟨-, -, hlen, -, hname⟩, hwf, -⟩ := h
  rw [hlen, stringAt_chars hwf.name hname]
  exact strncmp_length_eq_zero hwf.name

/-- A record where it stands. -/
theorem Laid.recordAt (h : Laid block p (r :: rs)) : recordAt block p = r := by
  obtain ⟨⟨hinode, hrec, hlen, htype, hname⟩, -⟩ := h
  have hchars : (List.range r.name.length).map (fun i => block (p + DirectoryEntry.name + i)) =
      r.name := by
    refine List.ext_getElem (by simp) fun i hi hi' => ?_
    rw [List.getElem_map, List.getElem_range, hname i hi', List.getD_eq_getElem?_getD,
      List.getElem?_eq_getElem hi']
    rfl
  rw [Ext2.recordAt, hinode, hrec, hlen, htype, hchars]

/-- The loop of `ext2_inode_from_path_and_parent` stops at the first record whose name begins
the component. -/
theorem findEntry_records (h : Laid block p rs) (hspan : p + span rs = size)
    (hsize : size < 4294967296) (hturns : size ≤ p + turns) :
    (findEntry block c size turns p).map (Option.map (recordAt block)) =
      some (rs.find? fun r => r.name <+: c) := by
  induction rs generalizing p turns with
  | nil =>
    have hp : p = size := hspan
    cases turns with
    | zero => rw [findEntry, if_neg (by omega)]; rfl
    | succ turns => rw [findEntry, if_neg (by omega)]; rfl
  | cons r rs ih =>
    have hmatch := strncmp_record (c := c) h
    have hrecord := h.recordAt
    obtain ⟨⟨-, hrec, -⟩, hwf, hrest⟩ := h
    have hfits := hwf.fits
    rw [span_cons] at hspan
    cases turns with
    | zero => omega
    | succ turns =>
      rw [findEntry, if_pos (by omega)]
      simp only [hmatch]
      by_cases hr : r.name <+: c
      · rw [if_pos hr, List.find?_cons_of_pos (by simpa using hr)]
        simp [hrecord]
      · rw [if_neg hr, hrec, u32_of_lt (by omega), ih hrest (by omega) (by omega),
          List.find?_cons_of_neg (by simpa using hr)]

/-- The inode that the loop returns. -/
theorem findEntry_laid (h : Laid block p rs) (hspan : p + span rs = size)
    (hsize : size < 4294967296) (hturns : size ≤ p + turns) :
    (findEntry block c size turns p).map (Option.map fun q => DirectoryEntry.inode.get block q) =
      some ((rs.find? fun r => r.name <+: c).map Record.inode) := by
  have hrecords := congrArg (Option.map (Option.map Record.inode))
    (findEntry_records (c := c) h hspan hsize hturns)
  rw [Option.map_map] at hrecords
  rw [← Option.map_some, ← hrecords]
  congr 1
  funext q
  cases q with
  | none => rfl
  | some q => rfl

/-- The loop of `ext2_dentry_get_dentry` over the records of a directory. -/
theorem findDentry_laid (h : Laid block p rs) (hspan : p + span rs = size)
    (hsize : size < 4294967296) : findDentry block c size turns p = true ↔
      ∃ r ∈ rs.take turns, r.inode ≠ 0 ∧ r.name <+: c := by
  induction rs generalizing p turns with
  | nil =>
    have hp : p = size := hspan
    cases turns with
    | zero => simp [findDentry]
    | succ turns =>
      rw [findDentry, if_neg (by omega)]
      simp
  | cons r rs ih =>
    have hmatch := strncmp_record (c := c) h
    obtain ⟨⟨hinode, hrec, -⟩, hwf, hrest⟩ := h
    have hfits := hwf.fits
    rw [span_cons] at hspan
    cases turns with
    | zero => simp [findDentry]
    | succ turns =>
      rw [findDentry, if_pos (by omega)]
      simp only [hmatch, hinode, List.take_succ_cons, List.exists_mem_cons_iff]
      by_cases hr : r.inode ≠ 0 ∧ r.name <+: c
      · rw [if_pos hr]
        exact iff_of_true rfl (.inl hr)
      · rw [if_neg hr, hrec, u32_of_lt (by omega), ih hrest (by omega)]
        exact ⟨.inr, fun h => h.resolve_left hr⟩

end search

/-! ## One component -/

theorem int32_mod {m : Nat} (h : m < 4294967296) : (int32 m % 4294967296).toNat = m := by
  unfold int32
  split <;> omega

theorem int32_eq_zero {m : Nat} (h : m < 4294967296) : int32 m = 0 ↔ m = 0 := by
  unfold int32
  split <;> omega

/-- A search that began in another inode before. -/
theorem Outcome.Meets.cons {o : Outcome} {dir : Nat → Option (List Record)} {good : Volume → Prop}
    {result : Option (Nat × Volume)} {searched : List Nat} {n : Nat}
    (h : o.Meets dir good result searched) (hn : n ≠ 0) : o.Meets dir good result (n :: searched) := by
  have hmem : 0 ∈ n :: searched ↔ 0 ∈ searched := by
    rw [List.mem_cons, or_iff_right fun h0 => hn h0.symm]
  cases o with
  | leads m =>
    obtain ⟨w, hresult, hw, hlinked, hne, hsearched⟩ := h
    exact ⟨w, hresult, hw, hlinked, hne, mt hmem.mp hsearched⟩
  | lost =>
    obtain ⟨w, hresult, hsearched⟩ := h
    exact ⟨w, hresult, mt hmem.mp hsearched⟩
  | faulty => exact h.imp id hmem.mpr

/-- From inode 0 on the loop does not return, or searches it. -/
theorem searchesZero (w : Volume) (turns : Nat) (rest : List Byte) :
    pathToInodeFrom w turns 0 rest = none ∨ 0 ∈ searchedFrom w turns 0 rest := by
  cases turns with
  | zero => exact .inl rfl
  | succ turns =>
    rw [pathToInodeFrom, searchedFrom]
    cases htoken : strtok slash rest with
    | none => exact .inl rfl
    | some t =>
      obtain ⟨c, rest⟩ := t
      cases c with
      | nil => exact .inl rfl
      | cons b c => exact .inr List.mem_cons_self

namespace Directories

variable {v w : Volume} {dir : Nat → Option (List Record)} {n : Nat} {c : List Byte}
  {rs : List Record} {inode : Bytes}

/-- The mode and the size that are read of an inode. -/
theorem readInode (h : Directories v dir) (hw : Unchanged v w) (hn : Linked dir n) :
    ∃ inode w', Ext2.readInode w n = (some inode, w') ∧ Unchanged v w' ∧
      (InodeDescriptor.mode.get inode 0 &&& INODE_TYPE_DIR ≠ 0 ↔ (dir n).isSome) ∧
      InodeDescriptor.size.get inode 0 = v.fileSize n := by
  obtain ⟨inode, w', hread, hw', hfield, -⟩ := ((h.readable n hn).transfer hw).readInode
  refine ⟨inode, w', hread, hw.trans hw', ?_, ?_⟩
  · rw [hfield _ (by decide), hw.inodeBytes]
    exact h.typed n hn
  · rw [hfield _ (by decide), hw.inodeBytes]
    rfl

/-- The records of a directory of up to twelve blocks are read whole. -/
theorem readInodeBytes_small (h : Directories v dir) (hw : Unchanged v w) (hn : Linked dir n)
    (hdir : dir n = some rs) (hsmall : v.fileSize n ≤ 12 * v.part.blockSize) {dest block : Bytes}
    {read : Int} {w' : Volume} (hread : readInodeBytes w n dest (v.fileSize n) 0 = (read, block, w')) :
    Unchanged v w' ∧ read ≠ EXT2_READ_FAILED ∧ Laid block 0 rs ∧
      ∀ x, block x = if x < v.fileSize n then v.fileBytes n x else dest x := by
  have hreadable := (h.readable n hn).transfer hw
  have hsize : w.fileSize n = v.fileSize n := by
    rw [Volume.fileSize, Volume.fileSize, hw.inodeBytes]
  have hpart := hw.part
  obtain ⟨hlaid, hspan⟩ := h.laid n rs hn hdir
  rw [← hsize, ← hpart] at hsmall
  obtain ⟨hcount, hw', hbytes⟩ := hreadable.readInodeBytes_small hsmall dest
  rw [hsize, hread] at hcount hw' hbytes
  simp only at hcount hw' hbytes
  rw [hw.fileBytes] at hbytes
  refine ⟨hw.trans hw', ?_, hlaid.congr fun x _ hx => ?_, hbytes⟩
  · -- the error code is no multiple of the block size
    obtain ⟨k, hk⟩ := Nat.dvd_of_mod_eq_zero (h.blocks n rs hn hdir)
    have hprod : v.part.blockSize * k = 512 * (v.part.blockSectors * k) := by
      rw [← Nat.mul_assoc, ← (h.readable n hn).mounted.blockSize_eq]
    rw [hcount]
    unfold EXT2_READ_FAILED
    omega
  · rw [hbytes, if_pos (by omega)]

theorem readInodeBytes_large (h : Directories v dir) (hw : Unchanged v w) (hn : Linked dir n)
    (hlarge : 12 * v.part.blockSize < v.fileSize n) (dest : Bytes) :
    (readInodeBytes w n dest (v.fileSize n) 0).1 = EXT2_READ_FAILED := by
  have hsize : w.fileSize n = v.fileSize n := by
    rw [Volume.fileSize, Volume.fileSize, hw.inodeBytes]
  rw [← hsize, ← hw.part] at hlarge
  rw [← hsize]
  exact ((h.readable n hn).transfer hw).readInodeBytes_large hlarge dest

/-- `ext2_inode_from_path_and_parent` finds what the records say. -/
theorem inodeFromPathAndParent (h : Directories v dir) (hw : Unchanged v w) (hn : Linked dir n) :
    ∃ w', Ext2.inodeFromPathAndParent w n c = some (found v dir n c, w') ∧
      (found v dir n c ≠ EXT2_INO_PAP_ERROR → Unchanged v w') := by
  obtain ⟨inode, w₁, hread, hw₁, htyped, hsize⟩ := h.readInode hw hn
  -- the loop and the read stay closed terms that nothing evaluates
  obtain ⟨turns, hturns⟩ : ∃ turns, turns = POSITIONS := ⟨_, rfl⟩
  obtain ⟨readB, hreadB⟩ : ∃ readB, readB = readInodeBytes := ⟨_, rfl⟩
  rw [Ext2.inodeFromPathAndParent, hread, ← hreadB, ← hturns]
  simp only [hsize]
  cases hdir : dir n with
  | none =>
    rw [hdir] at htyped
    rw [if_neg fun hmode => Bool.false_ne_true (htyped.mp hmode)]
    exact ⟨w₁, by rw [found, hdir], fun _ => hw₁⟩
  | some rs =>
    rw [hdir] at htyped
    rw [if_pos (htyped.mpr rfl)]
    simp only [found, hdir]
    by_cases hsmall : v.fileSize n ≤ 12 * v.part.blockSize
    · obtain ⟨⟨read, block, w₂⟩, hbytes⟩ :
          ∃ x, readB w₁ n (fun _ => 0) (v.fileSize n) 0 = x := ⟨_, rfl⟩
      obtain ⟨hw₂, hne, hlaid, -⟩ := h.readInodeBytes_small hw₁ hn hdir hsmall (hreadB ▸ hbytes)
      have hspan := (h.laid n rs hn hdir).2
      have hlt : v.fileSize n < 4294967296 := InodeDescriptor.size.get_lt _
      have hentry := @findEntry_laid _ c _ _ _ turns hlaid
        (by rw [Nat.zero_add]; exact hspan) hlt (by rw [hturns]; unfold POSITIONS; omega)
      simp only [hbytes, if_neg hne, if_pos hsmall]
      cases hfind : rs.find? fun r => r.name <+: c with
      | none =>
        rw [hfind] at hentry
        cases hloop : findEntry block c (v.fileSize n) turns 0 with
        | none =>
          rw [hloop] at hentry
          cases hentry
        | some q =>
          rw [hloop] at hentry
          cases q with
          | none => exact ⟨w₂, rfl, fun _ => hw₂⟩
          | some q => cases hentry
      | some r =>
        rw [hfind] at hentry
        cases hloop : findEntry block c (v.fileSize n) turns 0 with
        | none =>
          rw [hloop] at hentry
          cases hentry
        | some q =>
          rw [hloop] at hentry
          cases q with
          | none => cases hentry
          | some q =>
            have hinode : DirectoryEntry.inode.get block q = r.inode :=
              Option.some.inj (Option.some.inj hentry)
            exact ⟨w₂, by simp only [hinode], fun _ => hw₂⟩
    · have hfailed := h.readInodeBytes_large hw₁ hn (by omega) fun _ => 0
      rw [← hreadB] at hfailed
      simp only [if_neg hsmall]
      rw [if_pos hfailed]
      exact ⟨_, rfl, fun hne => absurd rfl hne⟩

/-- What a component leads to is linked. -/
theorem linked_found (h : Directories v dir) (hn : Linked dir n)
    (herror : ¬ (found v dir n c = EXT2_INO_PAP_ERROR ∨ found v dir n c = EXT2_INO_PAP_NOTFOUND))
    (hzero : found v dir n c ≠ 0) :
    Linked dir (found v dir n c % 4294967296).toNat ∧ (found v dir n c % 4294967296).toNat ≠ 0 := by
  rw [found] at herror hzero ⊢
  cases hdir : dir n with
  | none =>
    rw [hdir] at herror
    exact absurd (.inr rfl) herror
  | some rs =>
    simp only [hdir] at herror hzero ⊢
    by_cases hsmall : v.fileSize n ≤ 12 * v.part.blockSize
    · rw [if_pos hsmall] at herror hzero ⊢
      cases hfind : rs.find? fun r => r.name <+: c with
      | none =>
        rw [hfind] at herror
        exact absurd (.inr rfl) herror
      | some r =>
        simp only [hfind] at hzero ⊢
        have hr : r ∈ rs := List.mem_of_find?_eq_some hfind
        have hlt := (h.laid n rs hn hdir).1.inode_lt hr
        rw [int32_mod hlt]
        have hne : r.inode ≠ 0 := fun h0 => hzero ((int32_eq_zero hlt).mpr h0)
        exact ⟨.entry hn hdir hr hne, hne⟩
    · rw [if_neg hsmall] at herror
      exact absurd (.inl rfl) herror

/-- `ext2_path_to_inode` goes the way that the records give, whatever the reads before it did. -/
theorem pathToInodeFrom (h : Directories v dir) (hw : Unchanged v w) (hn : Linked dir n) (hne : n ≠ 0)
    (turns : Nat) (rest : List Byte) :
    (walkFrom v dir turns n rest).Meets dir (Unchanged v) (Ext2.pathToInodeFrom w turns n rest)
      (searchedFrom w turns n rest) := by
  induction turns generalizing w n rest with
  | zero => exact .inl rfl
  | succ turns ih =>
    rw [walkFrom, Ext2.pathToInodeFrom, searchedFrom]
    cases htoken : strtok slash rest with
    | none => exact .inl rfl
    | some t =>
      obtain ⟨c, rest⟩ := t
      cases c with
      | nil =>
        simp only [if_neg hne]
        exact ⟨w, rfl, hw, hn, hne, List.not_mem_nil⟩
      | cons b c =>
        obtain ⟨w', hfind, hw'⟩ := @inodeFromPathAndParent _ _ _ _ (b :: c) h hw hn
        simp only [hfind]
        by_cases herror : found v dir n (b :: c) = EXT2_INO_PAP_ERROR ∨
            found v dir n (b :: c) = EXT2_INO_PAP_NOTFOUND
        · simp only [if_pos herror]
          refine ⟨w', rfl, fun hmem => hne ?_⟩
          exact (List.mem_singleton.mp hmem).symm
        · have hw' := hw' fun he => herror (.inl he)
          simp only [if_neg herror]
          by_cases hzero : found v dir n (b :: c) = 0
          · -- inode 0 is searched next, unless the path ends or is left before
            rw [if_pos hzero, hzero]
            exact (searchesZero w' turns rest).imp id (List.mem_cons_of_mem n)
          · obtain ⟨hlinked, hne'⟩ := h.linked_found hn herror hzero
            rw [if_neg hzero]
            exact (ih hw' hlinked hne' rest).cons hne

theorem pathToInode (h : Directories v dir) (path : List Byte) :
    (walk v dir path).Meets dir (Unchanged v) (Ext2.pathToInode v path) (searched v path) :=
  h.pathToInodeFrom ⟨rfl, rfl, id⟩ .root (by decide) _ _

/-- The search of `ext2_dentry_get_dentry` in the directory that the parent path leads to. -/
theorem dentryGetDentry (h : Directories v dir) {parentPath : List Byte}
    (hwalk : walk v dir parentPath = .leads n) (name : List Byte) (entry : Bytes) :
    ∃ failed w, Ext2.dentryGetDentry v parentPath name entry = some (failed, entry, w) ∧
      (failed = 0 ↔ Listed v dir n name) := by
  have hpath := h.pathToInode parentPath
  rw [hwalk] at hpath
  obtain ⟨w, hfind, hw, hn, hne, -⟩ := hpath
  obtain ⟨inode, w₁, hread, hw₁, htyped, hsize⟩ := h.readInode hw hn
  obtain ⟨readB, hreadB⟩ : ∃ readB, readB = readInodeBytes := ⟨_, rfl⟩
  rw [Ext2.dentryGetDentry, hfind, ← hreadB]
  simp only [EXT2_INO_PTI_ERROR, if_neg hne, hread, hsize]
  cases hdir : dir n with
  | none =>
    rw [hdir] at htyped
    rw [if_neg fun hmode => Bool.false_ne_true (htyped.mp hmode)]
    refine ⟨1, w₁, rfl, iff_of_false Nat.one_ne_zero fun hlisted => ?_⟩
    obtain ⟨rs, hrs, -⟩ := hlisted
    rw [hdir] at hrs
    cases hrs
  | some rs =>
    rw [hdir] at htyped
    rw [if_pos (htyped.mpr rfl)]
    have hw₂ : Unchanged v (kmalloc w₁).2 := hw₁.trans ⟨rfl, rfl, id⟩
    have hlisted : Listed v dir n name ↔ v.fileSize n ≤ 12 * v.part.blockSize ∧
        ∃ r ∈ rs.take LIST_MAX, r.inode ≠ 0 ∧ r.name <+: name := by
      constructor
      · intro ⟨rs', hrs', hfound⟩
        rw [hdir] at hrs'
        obtain rfl := Option.some.inj hrs'
        exact hfound
      · intro hfound
        exact ⟨rs, hdir, hfound⟩
    rw [hlisted]
    by_cases hsmall : v.fileSize n ≤ 12 * v.part.blockSize
    · obtain ⟨⟨read, block, w₃⟩, hbytes⟩ :
          ∃ x, readB (kmalloc w₁).2 n (kmalloc w₁).1 (v.fileSize n) 0 = x := ⟨_, rfl⟩
      obtain ⟨-, hne, hlaid, -⟩ := h.readInodeBytes_small hw₂ hn hdir hsmall (hreadB ▸ hbytes)
      have hspan := (h.laid n rs hn hdir).2
      have hlt : v.fileSize n < 4294967296 := InodeDescriptor.size.get_lt _
      have hloop := @findDentry_laid _ name _ _ _ LIST_MAX hlaid
        (by rw [Nat.zero_add]; exact hspan) hlt
      simp only [hbytes, if_neg hne]
      refine ⟨_, w₃, rfl, ?_⟩
      rw [← hloop]
      cases findDentry block name (v.fileSize n) LIST_MAX 0 <;> simp [hsmall]
    · have hfailed := h.readInodeBytes_large hw₂ hn (by omega) (kmalloc w₁).1
      rw [← hreadB] at hfailed
      rw [if_pos hfailed]
      exact ⟨1, _, rfl, iff_of_false Nat.one_ne_zero fun hfound => hsmall hfound.1⟩

end Directories

/-- The caller's entry is never filled. -/
theorem dentryGetDentry_entry {v w : Volume} {parentPath name : List Byte} {entry d : Bytes}
    {failed : Nat} (h : dentryGetDentry v parentPath name entry = some (failed, d, w)) : d = entry := by
  obtain ⟨readB, hreadB⟩ : ∃ readB, readB = readInodeBytes := ⟨_, rfl⟩
  obtain ⟨find, hfind⟩ : ∃ find, find = findDentry := ⟨_, rfl⟩
  rw [dentryGetDentry, ← hreadB, ← hfind] at h
  cases hpath : pathToInode v parentPath with
  | none =>
    rw [hpath] at h
    cases h
  | some found =>
    obtain ⟨n, w₁⟩ := found
    rw [hpath] at h
    simp only at h
    by_cases hn : n = EXT2_INO_PTI_ERROR
    · rw [if_pos hn] at h
      cases h
      rfl
    rw [if_neg hn] at h
    obtain ⟨⟨inode, w₂⟩, hread⟩ : ∃ x, readInode w₁ n = x := ⟨_, rfl⟩
    rw [hread] at h
    cases inode with
    | none =>
      cases h
      rfl
    | some inode =>
      simp only at h
      by_cases hmode : InodeDescriptor.mode.get inode 0 &&& INODE_TYPE_DIR ≠ 0
      · rw [if_pos hmode] at h
        split at h
        · cases h
          rfl
        · cases h
          rfl
      · rw [if_neg hmode] at h
        cases h
        rfl

theorem getDentry_entry {v w : Volume} {path : List Byte} {dentry d : Bytes} {r : Nat}
    (h : getDentry v path dentry = some (r, d, w)) : d = dentry := by
  unfold getDentry at h
  split at h
  · cases h
    rfl
  · obtain ⟨⟨failed, d', w'⟩, hget, heq⟩ := Option.map_eq_some_iff.mp h
    cases heq
    exact dentryGetDentry_entry hget

/-- The two lookups agree on a path exactly when neither finds it. -/
theorem lookupsAgree_iff {v : Volume} {dir : Nat → Option (List Record)} (h : Directories v dir)
    (path : List Byte) : (∀ dentry, LookupsAgree v dir path dentry) ↔ Missed v dir path := by
  have hpath := h.pathToInode path
  constructor
  · intro hall
    obtain ⟨hsearched, hsearchedParent, r, d, w, n, w', hget, hfind, hiff, hsame⟩ := hall fun _ => 0
    -- an entry of zeros has inode 0 after the call, too
    have hr : r ≠ EXT2_RESULT_OK := by
      intro hok
      have hinode := (hsame hok).1
      rw [getDentry_entry hget] at hinode
      exact hiff.mp hok hinode.symm
    have hn : n = 0 := by
      by_contra hne
      exact hr (hiff.mpr hne)
    have hlost : walk v dir path = .lost := by
      cases hwalk : walk v dir path with
      | lost => rfl
      | leads m =>
        rw [hwalk] at hpath
        obtain ⟨x, hleads, -, -, hne, -⟩ := hpath
        rw [hfind] at hleads
        cases hleads
        exact absurd hn hne
      | faulty =>
        rw [hwalk] at hpath
        rcases hpath with hnone | hmem
        · rw [hfind] at hnone
          cases hnone
        · exact absurd hmem hsearched
    refine ⟨hlost, ?_⟩
    unfold getDentry at hget
    cases hsplit : splitIntoPathAndName path with
    | none =>
      have hempty : path.take (strlen STR_MAX_SIZE path) = [] := by
        unfold splitIntoPathAndName at hsplit
        split at hsplit
        · rename_i hzero
          rw [hzero, List.take_zero]
        · split at hsplit <;> cases hsplit
      rw [walk, hempty] at hlost
      cases hlost
    | some parts =>
      obtain ⟨parentPath, name⟩ := parts
      refine ⟨parentPath, name, rfl, ?_⟩
      rw [hsplit] at hget
      obtain ⟨⟨failed, d', x⟩, hsearch, heq⟩ := Option.map_eq_some_iff.mp hget
      have hparent := h.pathToInode parentPath
      cases hwalk : walk v dir parentPath with
      | lost => exact .inl rfl
      | leads m =>
        obtain ⟨failed', x', hsearch', hlisted⟩ := h.dentryGetDentry hwalk name fun _ => 0
        rw [hsearch] at hsearch'
        cases hsearch'
        refine .inr ⟨m, rfl, fun hl => hr ?_⟩
        cases heq
        rw [if_neg (not_not.mpr (hlisted.mpr hl))]
      | faulty =>
        rw [hwalk] at hparent
        rcases hparent with hnone | hmem
        · rw [dentryGetDentry, hnone] at hsearch
          cases hsearch
        · exact absurd hmem (hsearchedParent _ _ hsplit)
  · intro ⟨hlost, parentPath, name, hsplit, hmissed⟩ dentry
    rw [hlost] at hpath
    obtain ⟨w', hfind, hsearched⟩ := hpath
    have hparent := h.pathToInode parentPath
    -- the search in the parent fails, and on the way there inode 0 is not searched
    obtain ⟨failed, w, hsearch, hfailed, hsearchedParent⟩ : ∃ failed w,
        dentryGetDentry v parentPath name dentry = some (failed, dentry, w) ∧ failed ≠ 0 ∧
          0 ∉ searched v parentPath := by
      rcases hmissed with hwalk | ⟨n, hwalk, hlisted⟩
      · rw [hwalk] at hparent
        obtain ⟨w, hnone, hsearchedParent⟩ := hparent
        refine ⟨1, w, ?_, Nat.one_ne_zero, hsearchedParent⟩
        rw [dentryGetDentry, hnone]
        rfl
      · obtain ⟨failed, w, hsearch, hiff⟩ := h.dentryGetDentry hwalk name dentry
        rw [hwalk] at hparent
        obtain ⟨-, -, -, -, -, hsearchedParent⟩ := hparent
        exact ⟨failed, w, hsearch, mt hiff.mp hlisted, hsearchedParent⟩
    have hget : getDentry v path dentry = some (EXT2_RESULT_ERROR, dentry, w) := by
      rw [getDentry, hsplit]
      simp only [hsearch, Option.map_some, if_pos hfailed]
    refine ⟨hsearched, fun parentPath' name' hsplit' => ?_, EXT2_RESULT_ERROR, dentry, w, 0, w', hget,
      hfind, ?_, fun hok => nomatch hok⟩
    · rw [hsplit] at hsplit'
      cases hsplit'
      exact hsearchedParent
    · exact iff_of_false (by decide) fun hne => hne rfl

/-- A volume whose root, inode 2, has its entries in block 100. -/
def rootVolume : Volume :=
  let v := directoryVolume 1024 (dotEntries (fun _ => 0) 2 2)
  { v with disk := { v.disk with image := Field.set ⟨40, 4⟩ v.disk.image 5248 100 } }

/-- The root has the entries `.` and `..`. -/
def dots (n : Nat) : Option (List Record) :=
  if n = 2 then some [⟨2, 12, [0x2E], 2⟩, ⟨2, 1012, [0x2E, 0x2E], 2⟩] else none

theorem linked_dots {n : Nat} (hn : Linked dots n) : n = 2 := by
  induction hn with
  | root => rfl
  | @entry n rs r _ hdir hr _ ih =>
    subst ih
    obtain rfl := Option.some.inj hdir
    rcases List.mem_cons.mp hr with rfl | hr
    · rfl
    · rw [List.mem_singleton.mp hr]

/-- A root of one block with these two entries. -/
theorem directories_dots {v : Volume} (hpart : v.part = tablePartition) (hreliable : v.disk.Reliable)
    (hpointer : iBlock (v.inodeBytes 2) 0 = 100)
    (hmode : InodeDescriptor.mode.get (v.inodeBytes 2) 0 &&& INODE_TYPE_DIR ≠ 0)
    (hsize : v.fileSize 2 = 1024)
    (hlaid : Laid (v.fileBytes 2) 0 [⟨2, 12, [0x2E], 2⟩, ⟨2, 1012, [0x2E, 0x2E], 2⟩]) :
    Directories v dots := by
  have hblock : v.part.blockSize = 1024 := by
    rw [hpart]
    decide +kernel
  refine ⟨fun n hn => ?_, fun n hn => ?_, fun n rs hn hdir => ?_, fun n rs hn hdir => ?_⟩
  · rw [linked_dots hn]
    refine ⟨hpart ▸ mounted_tablePartition, hreliable, hpart ▸ ⟨by decide +kernel, by decide +kernel⟩,
      fun k hk => ?_⟩
    rw [hsize, hblock] at hk
    obtain rfl : k = 0 := by omega
    rw [Volume.logicalAlong_direct (by decide), hpointer, hpart]
    exact ⟨by decide, by decide +kernel, by decide⟩
  · rw [linked_dots hn]
    exact iff_of_true hmode rfl
  · rw [linked_dots hn, hsize, hblock]
  · obtain rfl := linked_dots hn
    obtain rfl := Option.some.inj hdir
    rw [hsize]
    exact ⟨hlaid, rfl⟩

theorem directories_rootVolume : Directories rootVolume dots := by
  refine directories_dots rfl (fun _ => rfl) (by decide +kernel) (by decide +kernel) (by decide +kernel) ?_
  refine ⟨⟨by decide +kernel, by decide +kernel, by decide +kernel, by decide +kernel, ?_⟩, ?_,
    ⟨by decide +kernel, by decide +kernel, by decide +kernel, by decide +kernel, ?_⟩, ?_, trivial⟩
  · decide +kernel
  · exact ⟨by decide, by decide, fun _ => by decide, by decide⟩
  · decide +kernel
  · exact ⟨by decide, by decide, fun _ => by decide, by decide⟩

/-- `/x/y` leads nowhere, and neither does `/x`. -/
theorem lookupsAgree_iff_missing :
    LookupsAgree rootVolume dots [0x2F, 0x78, 0x2F, 0x79] fun _ => 0 :=
  (lookupsAgree_iff directories_rootVolume _).mpr ⟨by decide +kernel, [0x2F, 0x78], [0x79],
    by decide +kernel, .inl (by decide +kernel)⟩ _

/-- The entry of `/./.` is found and not filled. -/
theorem not_lookupsAgree : ¬ ∀ v dir, Directories v dir → ∀ path : List Byte, path.head? = some slash →
    path.getLast? ≠ some slash → ∀ dentry, LookupsAgree v dir path dentry := by
  intro hall
  obtain ⟨-, -, r, d, w, n, w', hget, hfind, hiff, hsame⟩ := hall rootVolume dots
    directories_rootVolume [0x2F, 0x2E, 0x2F, 0x2E] rfl (by decide) fun _ => 0
  have hwalk : walk rootVolume dots [0x2F, 0x2E, 0x2F, 0x2E] = .leads 2 := by decide +kernel
  have hpath := directories_rootVolume.pathToInode [0x2F, 0x2E, 0x2F, 0x2E]
  rw [hwalk] at hpath
  obtain ⟨x, hleads, -, -, hne, -⟩ := hpath
  rw [hfind] at hleads
  obtain rfl : n = 2 := (Prod.mk.inj (Option.some.inj hleads)).1
  have hinode := (hsame (hiff.mpr hne)).1
  rw [getDentry_entry hget] at hinode
  exact absurd hinode (by decide)

end UnedKernel.Ext2
