import UnedKernel.Ext2.Path

/-! # The entries of a directory

`ext2_get_all_dirs`: the entries in use of a directory, copied one after the
other as structs of fixed size. -/

namespace UnedKernel.Ext2
open ByteMem Word Sectors Indirect

/-- `sizeof(struct ext2_directory_entry)`. -/
def sizeofDirectoryEntry : Nat := 263

/-- The first loop of `ext2_get_all_dirs`: the number of entries in use. `none` is a loop
that does not end. -/
def countDirsFrom (block : Bytes) (size : Nat) : Nat → (parsed count : Nat) → Option Nat
  | 0, parsed, count => if parsed < size then none else some count
  | turns + 1, parsed, count =>
    if parsed < size then
      countDirsFrom block size turns (u32 (parsed + DirectoryEntry.recLen.get block parsed))
        (if DirectoryEntry.inode.get block parsed ≠ 0 then count + 1 else count)
    else some count

/-- The second loop: the entries in use, copied whole. -/
def copyDirsFrom (block : Bytes) (size : Nat) :
    Nat → (parsed count : Nat) → Bytes → Option (Nat × Bytes)
  | 0, parsed, count, entries => if parsed < size then none else some (count, entries)
  | turns + 1, parsed, count, entries =>
    if parsed < size then
      let next := u32 (parsed + DirectoryEntry.recLen.get block parsed)
      if DirectoryEntry.inode.get block parsed ≠ 0 then
        copyDirsFrom block size turns next (count + 1)
          (copy entries (sizeofDirectoryEntry * count) block parsed sizeofDirectoryEntry)
      else copyDirsFrom block size turns next count entries
    else some (count, entries)

/-- What the buffers of a listing hold when `kmalloc` hands them out. -/
structure ListingHeap where
  block : Bytes
  entries : Bytes

/-- `ext2_get_all_dirs`: the number of entries and the entries. -/
def getAllDirs (heap : ListingHeap) (v : Volume) (path : List Byte) :
    Option (Nat × Bytes × Volume) :=
  match pathToInode v path with
  | none => none
  | some (inodeNumber, v) =>
    if inodeNumber = EXT2_INO_PTI_ERROR then some (0, heap.entries, v)
    else match readInode v inodeNumber with
      | (none, v) => some (0, heap.entries, v)
      | (some inode, v) =>
        if InodeDescriptor.mode.get inode 0 &&& INODE_TYPE_DIR ≠ 0 then
          let size := InodeDescriptor.size.get inode 0
          let (read, block, v) := readInodeBytes v inodeNumber heap.block size 0
          if read = EXT2_READ_FAILED then some (0, heap.entries, v)
          else match countDirsFrom block size POSITIONS 0 0 with
            | none => none
            | some _ =>
              (copyDirsFrom block size POSITIONS 0 0 heap.entries).map fun (count, entries) =>
                (count, entries, v)
        else some (0, heap.entries, v)

/-! ## Directories -/

/-- An entry of a directory. -/
structure Record where
  inode : Nat
  recLen : Nat
  name : List Byte
  type : Nat

/-- The name is a string of 1 to 255 bytes, if the entry is in use, and fits the entry. -/
structure Record.WellFormed (r : Record) : Prop where
  name : CString.NulFree r.name
  length : r.name.length ≤ 255
  nonempty : r.inode ≠ 0 → 1 ≤ r.name.length
  fits : 8 + r.name.length ≤ r.recLen

/-- The records stand one after the other from `p` on. -/
def Laid (m : Bytes) : Nat → List Record → Prop
  | _, [] => True
  | p, r :: rs =>
    (DirectoryEntry.inode.get m p = r.inode ∧ DirectoryEntry.recLen.get m p = r.recLen ∧
      DirectoryEntry.nameLen.get m p = r.name.length ∧ DirectoryEntry.fileType.get m p = r.type ∧
      ∀ i, i < r.name.length → m (p + DirectoryEntry.name + i) = r.name.getD i 0) ∧
    r.WellFormed ∧ Laid m (p + r.recLen) rs

/-- The length of the records. -/
def span (rs : List Record) : Nat := (rs.map Record.recLen).sum

/-- The records in use. -/
def inUse (rs : List Record) : List Record := rs.filter fun r => r.inode ≠ 0

variable {m m' block entries : Bytes} {rs : List Record} {r : Record} {p size turns count : Nat}

theorem span_cons : span (r :: rs) = r.recLen + span rs := by
  rw [span, List.map_cons, List.sum_cons]
  rfl

theorem Laid.congr (h : Laid m p rs) (heq : ∀ x, p ≤ x → x < p + span rs → m' x = m x) :
    Laid m' p rs := by
  induction rs generalizing p with
  | nil => trivial
  | cons r rs ih =>
    obtain ⟨⟨hinode, hrec, hlen, htype, hname⟩, hwf, hrest⟩ := h
    have hfits := hwf.fits
    rw [span_cons] at heq
    have hfield (f : Field) (hf : f.Within 8) : f.get m' p = f.get m p := by
      unfold Field.Within at hf
      exact load_congr fun i hi => heq _ (by omega) (by omega)
    refine ⟨⟨by rw [hfield _ (by decide), hinode], by rw [hfield _ (by decide), hrec],
      by rw [hfield _ (by decide), hlen], by rw [hfield _ (by decide), htype], fun i hi => ?_⟩, hwf,
      ih hrest fun x hx hx' => heq x (by omega) (by omega)⟩
    unfold DirectoryEntry.name at hname ⊢
    rw [heq _ (by omega) (by omega), hname i hi]

/-- Over records that fill the buffer the count is that of the records in use. -/
theorem countDirsFrom_laid (h : Laid block p rs) (hspan : p + span rs = size)
    (hsize : size < 4294967296) (hturns : size ≤ p + turns) :
    countDirsFrom block size turns p count = some (count + (inUse rs).length) := by
  induction rs generalizing p turns count with
  | nil =>
    have hp : p = size := hspan
    cases turns with
    | zero => rw [countDirsFrom, if_neg (by omega)]; rfl
    | succ turns => rw [countDirsFrom, if_neg (by omega)]; rfl
  | cons r rs ih =>
    obtain ⟨⟨hinode, hrec, -⟩, hwf, hrest⟩ := h
    have hfits := hwf.fits
    rw [span_cons] at hspan
    cases turns with
    | zero => omega
    | succ turns =>
      rw [countDirsFrom, if_pos (by omega), hrec, hinode, u32_of_lt (by omega),
        ih hrest (by omega) (by omega)]
      by_cases hr : r.inode = 0
      · simp [inUse, hr]
      · simp [inUse, hr, Nat.add_assoc, Nat.add_comm 1]

/-- Where the records in use stand. -/
def positions : Nat → List Record → List Nat
  | _, [] => []
  | p, r :: rs =>
    if r.inode ≠ 0 then p :: positions (p + r.recLen) rs else positions (p + r.recLen) rs

theorem length_positions : (positions p rs).length = (inUse rs).length := by
  induction rs generalizing p with
  | nil => rfl
  | cons r rs ih =>
    unfold positions
    by_cases hr : r.inode = 0
    · rw [if_neg (by simpa using hr), ih]
      simp [inUse, hr]
    · rw [if_pos hr, List.length_cons, ih]
      simp [inUse, hr]

/-- The entries from `count` on after the structs at the positions are copied there. -/
def packed (block entries : Bytes) (count : Nat) (ps : List Nat) : Bytes := fun x =>
  if sizeofDirectoryEntry * count ≤ x ∧ x / sizeofDirectoryEntry - count < ps.length then
    block (ps.getD (x / sizeofDirectoryEntry - count) 0 + x % sizeofDirectoryEntry)
  else entries x

theorem packed_cons (ps : List Nat) :
    packed block (copy entries (sizeofDirectoryEntry * count) block p sizeofDirectoryEntry)
      (count + 1) ps = packed block entries count (p :: ps) := by
  have hstruct : sizeofDirectoryEntry = 263 := rfl
  funext x
  unfold packed
  rw [hstruct, List.length_cons]
  by_cases hlow : x < 263 * count
  · rw [if_neg (by omega), if_neg (by omega), copy_apply_out _ _ (by omega)]
  by_cases hfirst : x < 263 * count + 263
  · have hdiv : x / 263 - count = 0 := by omega
    rw [if_neg (by omega), if_pos (by omega), copy_apply_in _ _ (by omega) (by omega), hdiv,
      List.getD_cons_zero]
    congr 1
    omega
  have hdiv : x / 263 - count = x / 263 - (count + 1) + 1 := by omega
  by_cases hin : x / 263 - (count + 1) < ps.length
  · rw [if_pos (by omega), if_pos (by omega), hdiv, List.getD_cons_succ]
  · rw [if_neg (by omega), if_neg (by omega), copy_apply_out _ _ (by omega)]

/-- Over records that fill the buffer the records in use are copied. -/
theorem copyDirsFrom_laid (h : Laid block p rs) (hspan : p + span rs = size)
    (hsize : size < 4294967296) (hturns : size ≤ p + turns) :
    copyDirsFrom block size turns p count entries =
      some (count + (inUse rs).length, packed block entries count (positions p rs)) := by
  have hnil : packed block entries count [] = entries := by
    funext x
    simp [packed]
  induction rs generalizing p turns count entries with
  | nil =>
    have hp : p = size := hspan
    cases turns with
    | zero => rw [copyDirsFrom, if_neg (by omega), positions, hnil]; rfl
    | succ turns => rw [copyDirsFrom, if_neg (by omega), positions, hnil]; rfl
  | cons r rs ih =>
    obtain ⟨⟨hinode, hrec, -⟩, hwf, hrest⟩ := h
    have hfits := hwf.fits
    rw [span_cons] at hspan
    cases turns with
    | zero => omega
    | succ turns =>
      rw [copyDirsFrom, if_pos (by omega), hrec, hinode, u32_of_lt (by omega)]
      simp only
      by_cases hr : r.inode = 0
      · rw [if_neg (by simpa using hr), ih hrest (by omega) (by omega) hnil, positions,
          if_neg (by simpa using hr)]
        simp [inUse, hr]
      · have hnil' : packed block (copy entries (sizeofDirectoryEntry * count) block p
            sizeofDirectoryEntry) (count + 1) [] = copy entries (sizeofDirectoryEntry * count) block
            p sizeofDirectoryEntry := by
          funext x
          simp [packed]
        rw [if_pos hr, ih hrest (by omega) (by omega) hnil', positions, if_pos hr, packed_cons]
        simp [inUse, hr, Nat.add_assoc, Nat.add_comm 1]

/-- Byte `y` of the copy of the `i`-th record in use. -/
theorem packed_apply {ps : List Nat} {i y : Nat} (hi : i < ps.length)
    (hy : y < sizeofDirectoryEntry) :
    packed block entries 0 ps (sizeofDirectoryEntry * i + y) = block (ps.getD i 0 + y) := by
  have hstruct : sizeofDirectoryEntry = 263 := rfl
  unfold packed
  rw [hstruct] at hy ⊢
  rw [show (263 * i + y) / 263 - 0 = i by omega, if_pos (by omega),
    show (263 * i + y) % 263 = y by omega]

/-- Behind the copies the buffer is as it was. -/
theorem packed_past {ps : List Nat} {x : Nat} (hx : sizeofDirectoryEntry * ps.length ≤ x) :
    packed block entries 0 ps x = entries x := by
  have hstruct : sizeofDirectoryEntry = 263 := rfl
  unfold packed
  rw [hstruct] at hx ⊢
  rw [if_neg (by omega)]

end UnedKernel.Ext2
