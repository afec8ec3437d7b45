import UnedKernel.Ext2.DirectoryEdit
import UnedKernel.Ext2.InodeArray

/-! # The records of a directory

A directory is tiled by its records. Its bytes are reached through an
`ext2_read_inode_bytes` and an `ext2_write_inode_bytes` that are exact. -/

namespace UnedKernel.Ext2
open ByteMem Word

/-- The record at `p`. -/
def recordAt (m : Bytes) (p : Nat) : Record where
  inode := DirectoryEntry.inode.get m p
  recLen := DirectoryEntry.recLen.get m p
  name := (List.range (DirectoryEntry.nameLen.get m p)).map fun i => m (p + DirectoryEntry.name + i)
  type := DirectoryEntry.fileType.get m p

/-- The records tile the bytes from one position to another: a length is a multiple of 4, has room
for the name, and does not cross the end of a block. -/
def Tiles (size : Nat) (m : Bytes) : Nat → List Record → Nat → Prop
  | p, [], e => p = e
  | p, r :: rs, e => recordAt m p = r ∧ r.recLen % 4 = 0 ∧ 8 + r.name.length ≤ r.recLen ∧
      p % size + r.recLen ≤ size ∧ Tiles size m (p + r.recLen) rs e

/-- The first `length` bytes are whole blocks, each tiled by records. -/
structure TiledBlocks (size : Nat) (m : Bytes) (length : Nat) (rs : List Record) : Prop where
  blocks : length % size = 0
  tiles : Tiles size m 0 rs length

/-- What a record says of a file: its name, its inode and its type. -/
def Record.entry (r : Record) : List Byte × Nat × Nat := (r.name, r.inode, r.type)

variable {m m' : Bytes} {rs rs' : List Record} {r : Record} {p q e size turns : Nat}

theorem recordAt_name_length : (recordAt m p).name.length = DirectoryEntry.nameLen.get m p := by
  rw [recordAt, List.length_map, List.length_range]

theorem recordAt_name_lt : (recordAt m p).name.length < 256 := by
  rw [recordAt_name_length]
  exact DirectoryEntry.nameLen.get_lt m

theorem recordAt_congr (h : ∀ x, p ≤ x → x < p + 8 + (recordAt m p).name.length → m' x = m x) :
    recordAt m' p = recordAt m p := by
  have hfield (f : Field) (hf : f.Within 8) : f.get m' p = f.get m p :=
    f.get_congr hf fun x hx hx' => h x hx (by omega)
  rw [recordAt_name_length] at h
  rw [recordAt, recordAt, hfield _ (by decide), hfield _ (by decide), hfield _ (by decide),
    hfield _ (by decide)]
  congr 1
  refine List.map_congr_left fun i hi => ?_
  rw [List.mem_range] at hi
  unfold DirectoryEntry.name
  exact h _ (by omega) (by omega)

namespace Tiles

theorem le (h : Tiles size m p rs e) : p ≤ e := by
  induction rs generalizing p with
  | nil => exact Nat.le_of_eq h
  | cons r rs ih => exact Nat.le_trans (Nat.le_add_right _ _) (ih h.2.2.2.2)

theorem congr (h : Tiles size m p rs e) (heq : ∀ x, p ≤ x → x < e → m' x = m x) :
    Tiles size m' p rs e := by
  induction rs generalizing p with
  | nil => exact h
  | cons r rs ih =>
    obtain ⟨hr, hmul, hfits, hin, hrest⟩ := h
    have hle := hrest.le
    refine ⟨?_, hmul, hfits, hin, ih hrest fun x hx => heq x (by omega)⟩
    rw [recordAt_congr fun x hx hx' => heq x hx (by rw [hr] at hx'; omega), hr]

theorem append : Tiles size m p (rs ++ rs') e ↔ ∃ q, Tiles size m p rs q ∧ Tiles size m q rs' e := by
  induction rs generalizing p with
  | nil =>
    rw [List.nil_append]
    exact ⟨fun h => ⟨p, rfl, h⟩, fun ⟨_, hp, h⟩ => hp ▸ h⟩
  | cons r rs ih =>
    constructor
    · intro ⟨hr, hmul, hfits, hin, hrest⟩
      obtain ⟨q, hfirst, hlast⟩ := ih.mp hrest
      exact ⟨q, ⟨hr, hmul, hfits, hin, hfirst⟩, hlast⟩
    · intro ⟨q, ⟨hr, hmul, hfits, hin, hfirst⟩, hlast⟩
      exact ⟨hr, hmul, hfits, hin, ih.mpr ⟨q, hfirst, hlast⟩⟩

end Tiles

/-- Over a tiling the loop of `ext2_create_directory_entry` ends at its last record. -/
theorem lastEntryFrom_tiles (turns : Nat) (entry : Option Nat) (h : Tiles size m p (rs ++ [r]) e)
    (he : e < 4294967296) (hturns : e ≤ p + turns) :
    ∃ q, lastEntryFrom m e turns p entry = some (some q, e) ∧ Tiles size m p rs q ∧
      Tiles size m q [r] e := by
  induction rs generalizing p turns entry with
  | nil =>
    obtain ⟨hr, hmul, hfits, hin, hp⟩ := h
    have hlen : DirectoryEntry.recLen.get m p = r.recLen := congrArg Record.recLen hr
    have hend : p + r.recLen = e := hp
    cases turns with
    | zero => omega
    | succ turns =>
      refine ⟨p, ?_, rfl, hr, hmul, hfits, hin, hp⟩
      rw [lastEntryFrom, if_pos (by omega), hlen, u32_of_lt (by omega), hend]
      cases turns with
      | zero => rw [lastEntryFrom, if_neg (Nat.lt_irrefl e)]
      | succ turns => rw [lastEntryFrom, if_neg (Nat.lt_irrefl e)]
  | cons s rs ih =>
    obtain ⟨hs, hmul, hfits, hin, hrest⟩ := h
    have hlen : DirectoryEntry.recLen.get m p = s.recLen := congrArg Record.recLen hs
    have hle := hrest.le
    cases turns with
    | zero =>
      have := hrest.le
      omega
    | succ turns =>
      have hlt : p < e := by omega
      obtain ⟨q, hloop, hfirst, hlast⟩ := ih turns (some p) hrest (by omega)
      refine ⟨q, ?_, ⟨hs, hmul, hfits, hin, hfirst⟩, hlast⟩
      rw [lastEntryFrom, if_pos hlt, hlen, u32_of_lt (by omega), hloop]

/-! ## Records written -/

section writing

variable {block : Bytes} {name : List Byte} {nameLen inodeNumber parentInode : Nat}

theorem copy_self (m : Bytes) (a n : Nat) : copy m a m a n = m := by
  funext x
  unfold copy
  split
  · congr 1
    omega
  · rfl

theorem entrySize_eq (nameLen : Nat) : entrySize nameLen = 8 + nameLen := by
  unfold entrySize sizeofDirectoryEntry EXT2_NAME_LEN
  omega

/-- What a name of this length needs, rounded up to a multiple of 4. -/
theorem align4_entrySize (h : nameLen < 256) : align4 (entrySize nameLen) = (nameLen + 11) / 4 * 4 := by
  rw [entrySize_eq, align4, u32_of_lt (by omega), show 8 + nameLen + 3 = nameLen + 11 by omega]

theorem get_entryHeader (inode recLen nameLen fileType : Nat) :
    DirectoryEntry.inode.get (entryHeader inode recLen nameLen fileType) 0 = inode % 4294967296 ∧
      DirectoryEntry.recLen.get (entryHeader inode recLen nameLen fileType) 0 = recLen % 65536 ∧
      DirectoryEntry.nameLen.get (entryHeader inode recLen nameLen fileType) 0 = nameLen % 256 ∧
      DirectoryEntry.fileType.get (entryHeader inode recLen nameLen fileType) 0 = fileType % 256 := by
  simp only [entryHeader, List.foldl_cons, List.foldl_nil]
  refine ⟨?_, ?_, ?_, ?_⟩
  · rw [Field.get_set_disjoint _ _ (by decide), Field.get_set_disjoint _ _ (by decide),
      Field.get_set_disjoint _ _ (by decide), Field.get_set_same]
    rfl
  · rw [Field.get_set_disjoint _ _ (by decide), Field.get_set_disjoint _ _ (by decide),
      Field.get_set_same]
    rfl
  · rw [Field.get_set_disjoint _ _ (by decide), Field.get_set_same]
    rfl
  · rw [Field.get_set_same]
    rfl

/-- A header and a name behind it are a record. -/
theorem recordAt_written {inode recLen fileType : Nat} (h : name.length < 256)
    (hheader : ∀ i, i < 8 → m (p + i) = entryHeader inode recLen name.length fileType i)
    (hname : ∀ i, i < name.length → m (p + 8 + i) = name.getD i 0) :
    recordAt m p = ⟨inode % 4294967296, recLen % 65536, name, fileType % 256⟩ := by
  obtain ⟨hinode, hrec, hlen, htype⟩ := get_entryHeader inode recLen name.length fileType
  have hfield (f : Field) (hf : f.Within 8) :
      f.get m p = f.get (entryHeader inode recLen name.length fileType) 0 := by
    unfold Field.Within at hf
    refine load_shift fun i hi => ?_
    rw [Nat.add_assoc, hheader _ (by omega), Nat.zero_add]
  rw [recordAt, hfield _ (by decide), hfield _ (by decide), hfield _ (by decide), hfield _ (by decide),
    hinode, hrec, hlen, htype, Nat.mod_eq_of_lt h]
  congr 1
  refine List.ext_getElem (by simp) fun i hi hi' => ?_
  rw [List.getElem_map, List.getElem_range]
  unfold DirectoryEntry.name
  rw [hname i hi', List.getD_eq_getElem?_getD, List.getElem?_eq_getElem hi']
  rfl

/-- A record whose length is overwritten. -/
theorem recordAt_setRecLen (x : Nat) : recordAt (DirectoryEntry.recLen.set m p x) p =
    { recordAt m p with recLen := x % 65536 } := by
  have hlen : DirectoryEntry.nameLen.get (DirectoryEntry.recLen.set m p x) p =
      DirectoryEntry.nameLen.get m p := Field.get_set_disjoint _ _ (by decide)
  rw [recordAt, recordAt, hlen, Field.get_set_disjoint _ _ (by decide), Field.get_set_same,
    Field.get_set_disjoint _ _ (by decide)]
  congr 1
  exact List.map_congr_left fun i _ => store_apply_out m (.inr (show p + 4 + 2 ≤ p + 8 + i by omega))

theorem dotEntries_first {x : Nat} (hx : x < 9) : dotEntries block inodeNumber parentInode x =
    if x < 8 then entryHeader inodeNumber 12 1 2 x else 0x2E := by
  have halign : align4 (entrySize 1) = 12 := by decide
  have hsize : entrySize 1 = 9 := by decide
  rw [dotEntries, halign, hsize, copy_apply_out _ _ (by omega), copy_apply_in _ _ (by omega) (by omega)]
  unfold DirectoryEntry.name
  split
  · rw [copy_apply_out _ _ (by omega), Nat.sub_zero, Nat.zero_add]
    rfl
  · rw [copy_apply_in _ _ (by omega) (by omega), show 0 + (0 + (x - 0) - 8) = 0 by omega]
    rfl

theorem dotEntries_second {x : Nat} (hx : x < 10) :
    dotEntries block inodeNumber parentInode (12 + x) =
      if x < 8 then entryHeader parentInode 1012 2 2 x else 0x2E := by
  have halign : align4 (entrySize 1) = 12 := by decide
  have hsize : entrySize 2 = 10 := by decide
  rw [dotEntries, halign, hsize, copy_apply_in _ _ (by omega) (by omega), show 0 + (12 + x - 12) = x by omega]
  unfold DirectoryEntry.name
  split
  · rw [copy_apply_out _ _ (by omega)]
    rfl
  · rw [copy_apply_in _ _ (by omega) (by omega)]
    obtain hx | hx : x = 8 ∨ x = 9 := by omega
    · rw [hx]
      rfl
    · rw [hx]
      rfl

/-- The entries `.` and `..` tile the first 1024 bytes. -/
theorem dotEntries_tiles (hn : inodeNumber < 4294967296) (hp : parentInode < 4294967296)
    (hsize : 1024 ≤ size) : Tiles size (dotEntries block inodeNumber parentInode) 0
      [⟨inodeNumber, 12, [0x2E], 2⟩, ⟨parentInode, 1012, [0x2E, 0x2E], 2⟩] 1024 := by
  have hfirst : recordAt (dotEntries block inodeNumber parentInode) 0 =
      ⟨inodeNumber % 4294967296, 12, [0x2E], 2⟩ := by
    refine @recordAt_written _ 0 [0x2E] inodeNumber 12 2 (by decide)
      (fun i hi => by rw [Nat.zero_add, dotEntries_first (by omega), if_pos hi]; rfl) fun i hi => ?_
    · obtain rfl : i = 0 := Nat.lt_one_iff.mp hi
      rw [dotEntries_first (by omega), if_neg (by omega)]
      rfl
  have hsecond : recordAt (dotEntries block inodeNumber parentInode) 12 =
      ⟨parentInode % 4294967296, 1012, [0x2E, 0x2E], 2⟩ := by
    refine @recordAt_written _ 12 [0x2E, 0x2E] parentInode 1012 2 (by decide)
      (fun i hi => by rw [dotEntries_second (by omega), if_pos hi]; rfl) fun i hi => ?_
    · have hi : i < 2 := hi
      rw [Nat.add_assoc, dotEntries_second (by omega), if_neg (by omega)]
      obtain rfl | rfl : i = 0 ∨ i = 1 := by omega
      · rfl
      · rfl
  rw [Nat.mod_eq_of_lt hn] at hfirst
  rw [Nat.mod_eq_of_lt hp] at hsecond
  refine ⟨hfirst, show 12 % 4 = 0 by decide, show 8 + 1 ≤ 12 by decide, ?_, hsecond,
    show 1012 % 4 = 0 by decide, show 8 + 2 ≤ 1012 by decide, ?_, rfl⟩
  · change 0 % size + 12 ≤ size
    rw [Nat.zero_mod]
    omega
  · change (0 + 12) % size + 1012 ≤ size
    rw [Nat.mod_eq_of_lt (by omega)]
    omega

end writing

/-! ## Exact input and output -/

/-- `n` has the same bytes in both volumes, as many of them, and both are good. -/
structure SameFile (good : Volume → Prop) (bytes : Volume → Bytes) (length : Volume → Nat)
    (v w : Volume) : Prop where
  good : good w
  bytes : bytes w = bytes v
  length : length w = length v

/-- What is asked of the input and output of inode `n`, in the states `good`: a read returns its
bytes, a write replaces them by those of the source, and a failure changes nothing. -/
structure ExactBytes (readB : InodeReader) (writeB : InodeWriter) (good : Volume → Prop) (n : Nat)
    (bytes : Volume → Bytes) (length : Volume → Nat) : Prop where
  heap : ∀ v, good v → SameFile good bytes length v (kmalloc v).2
  inode : ∀ v k, good v → SameFile good bytes length v (readInode v k).2
  size : ∀ v inode, good v → (readInode v n).1 = some inode →
    InodeDescriptor.size.get inode 0 = length v
  reads : ∀ v buffer count skip, good v → skip + count ≤ length v → ∃ result block w,
    readB v n buffer count skip = (result, block, w) ∧ SameFile good bytes length v w ∧
      (result ≠ EXT2_READ_FAILED → ∀ x, x < count → block x = bytes v (skip + x))
  writes : ∀ v source count skip, good v → skip + count ≤ length v → ∃ result w,
    writeB v n source count skip = (result, w) ∧ good w ∧ length w = length v ∧
      (result = EXT2_WRITE_FAILED → bytes w = bytes v) ∧
      (result ≠ EXT2_WRITE_FAILED → bytes w = copy (bytes v) skip source 0 count)

theorem SameFile.trans {good : Volume → Prop} {bytes : Volume → Bytes} {length : Volume → Nat}
    {v w x : Volume} (h : SameFile good bytes length v w) (h' : SameFile good bytes length w x) :
    SameFile good bytes length v x :=
  ⟨h'.good, h'.bytes.trans h.bytes, h'.length.trans h.length⟩

/-! ## A directory on a disk -/

/-- The bytes of a file in one piece, from block 100 of the disk on. -/
def imageReader : InodeReader := fun v _ buffer count skip =>
  (1, copy buffer 0 v.disk.image (102400 + skip) count, v)

def imageWriter : InodeWriter := fun v _ source count skip =>
  (1, { v with disk := { v.disk with image := copy v.disk.image (102400 + skip) source 0 count } })

def imageBytes (v : Volume) : Bytes := fun x => v.disk.image (102400 + x)

/-- The size field of inode 2 in the table at block 5. -/
def imageLength (v : Volume) : Nat := InodeDescriptor.size.get v.disk.image 5248

def ImageGood (v : Volume) : Prop := v.part = tablePartition ∧ v.disk.Reliable

/-- A directory in inode 2 with this content. -/
def directoryVolume (length : Nat) (content : Bytes) : Volume where
  disk :=
    { image := copy (InodeDescriptor.size.set (InodeDescriptor.mode.set (fun _ => 0) 5248 0x4000) 5248
        length) 102400 content 0 length
      fails := fun _ => false
      clock := 0 }
  part := tablePartition
  buffers := fun _ _ => 0
  allocated := 0

theorem imageLength_directoryVolume {length : Nat} (h : length < 4294967296) (content : Bytes) :
    imageLength (directoryVolume length content) = length := by
  obtain ⟨m, hm⟩ : ∃ m, InodeDescriptor.mode.set (fun _ => 0) 5248 0x4000 = m := ⟨_, rfl⟩
  simp only [imageLength, directoryVolume, hm, Field.get]
  rw [load_copy_apart _ _ (.inr (show 5248 + InodeDescriptor.size.off + InodeDescriptor.size.width ≤
    102400 by decide))]
  exact (Field.get_set_same m length).trans (Nat.mod_eq_of_lt h)

theorem imageBytes_directoryVolume {length x : Nat} (content : Bytes) (hx : x < length) :
    imageBytes (directoryVolume length content) x = content x := by
  rw [imageBytes, directoryVolume]
  simp only
  rw [copy_apply_in _ _ (by omega) (by omega), show 0 + (102400 + x - 102400) = x by omega]

theorem exactBytes_image : ExactBytes imageReader imageWriter ImageGood 2 imageBytes imageLength := by
  have hinodeSize : tablePartition.inodeSize = 128 := by decide +kernel
  refine ⟨fun v hv => ⟨hv, rfl, rfl⟩, fun v k hv => ?_, fun v inode hv hread => ?_,
    fun v buffer count skip hv _ => ⟨1, _, v, rfl, ⟨hv, rfl, rfl⟩, fun _ x hx => ?_⟩,
    fun v source count skip hv _ => ⟨1, _, rfl, hv, ?_, fun h => absurd h (by decide), fun _ => ?_⟩⟩
  · have hm : Mounted v.part := by rw [hv.1]; exact mounted_tablePartition
    obtain ⟨inode, w, hread, hw⟩ := readInode_reliable (n := k) hm hv.2 (by rw [hv.1, hinodeSize]; decide)
    rw [hread]
    exact ⟨⟨hw.part.trans hv.1, hw.reliable hv.2⟩, by unfold imageBytes; rw [hw.image],
      by unfold imageLength; rw [hw.image]⟩
  · have hm : Mounted v.part := by rw [hv.1]; exact mounted_tablePartition
    have hoffset : v.part.inodeOffset 2 = 128 := by rw [hv.1]; decide +kernel
    have hlba : sext32 (v.part.inodeLba 2) = 10 := by rw [hv.1]; decide +kernel
    have hblock : v.part.blockSize = 1024 := by rw [hv.1]; decide +kernel
    obtain ⟨a, ha, hbytes⟩ := readInode_steady (n := 2) hm (by rw [hv.1, hinodeSize]; decide)
      (by rw [hoffset, hv.1, hinodeSize, ← hv.1, hblock]; decide)
      (⟨rfl, rfl, fun _ _ => hv.2 _⟩ : v.Steady v)
    rw [hread] at ha
    cases ha
    refine load_shift fun i hi => ?_
    have hi : i < 4 := hi
    change inode (0 + 4 + i) = v.disk.image (5248 + 4 + i)
    rw [hbytes _ (by rw [hv.1, hinodeSize]; omega), hoffset, Volume.inodeWindow, hlba,
      Sectors.window_eq (by omega)]
    congr 1
    omega
  · rw [copy_apply_in _ _ (by omega) (by omega), imageBytes]
    congr 1
    omega
  · exact load_copy_apart _ _ (.inr (show 5248 + 4 + 4 ≤ 102400 + skip by omega))
  · funext x
    simp only [imageBytes]
    by_cases hx : skip ≤ x ∧ x < skip + count
    · rw [copy_apply_in _ _ (by omega) (by omega), copy_apply_in _ _ (by omega) (by omega)]
      congr 1
      omega
    · rw [copy_apply_out _ _ (by omega), copy_apply_out _ _ (by omega)]
      rfl

/-- The directory as it is made, in one block. -/
theorem tiledBlocks_dots : TiledBlocks 1024 (imageBytes (directoryVolume 1024 (dotEntries (fun _ => 0) 2 2)))
    (imageLength (directoryVolume 1024 (dotEntries (fun _ => 0) 2 2)))
    [⟨2, 12, [0x2E], 2⟩, ⟨2, 1012, [0x2E, 0x2E], 2⟩] := by
  rw [imageLength_directoryVolume (by decide)]
  exact ⟨rfl, (dotEntries_tiles (by decide) (by decide) (Nat.le_refl 1024)).congr fun x _ hx =>
    imageBytes_directoryVolume _ hx⟩

end UnedKernel.Ext2
