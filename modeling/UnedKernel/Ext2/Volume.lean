import UnedKernel.Ext2.Disk
import UnedKernel.Lib.Bitmap
import UnedKernel.Lib.Record

/-! # A mounted partition

`ext2_structs.h` and the block transfers of `ext2_block.c`. The superblock and
the table of group descriptors stay the byte buffers that the code loads them
into; fields are read and written at their packed offsets. -/

namespace UnedKernel.Ext2
open ByteMem Word Sectors Bitmap

/-! ## `struct ext2_superblock_extended` -/

namespace Superblock

def inodesCount : Field := ⟨0, 4⟩
def blocksCount : Field := ⟨4, 4⟩
def freeBlocksCount : Field := ⟨12, 4⟩
def freeInodesCount : Field := ⟨16, 4⟩
def firstSbBlock : Field := ⟨20, 4⟩
def logBlockSize : Field := ⟨24, 4⟩
def blocksPerGroup : Field := ⟨32, 4⟩
def inodesPerGroup : Field := ⟨40, 4⟩
def magic : Field := ⟨56, 2⟩
def revLevel : Field := ⟨76, 4⟩
def inodeSize : Field := ⟨88, 2⟩

end Superblock

/-! ## `struct ext2_block_group_descriptor` -/

namespace BlockGroup

def blockBitmap : Field := ⟨0, 4⟩
def inodeBitmap : Field := ⟨4, 4⟩
def inodeTable : Field := ⟨8, 4⟩
def freeBlocksCount : Field := ⟨12, 2⟩
def freeInodesCount : Field := ⟨14, 2⟩
def usedDirsCount : Field := ⟨16, 2⟩

end BlockGroup

/-- `sizeof(struct ext2_block_group_descriptor)`. -/
def sizeofGroup : Nat := 32

/-- `struct ext2_partition`, without its names and its link. -/
structure Partition where
  backupBgs : Nat → Int
  backupBgsCount : Nat
  lba : Nat
  groupNumber : Nat
  sectorSize : Nat
  bgdtBlock : Nat
  sbBlock : Nat
  flushRequired : Bool
  sb : Bytes
  gd : Bytes

/-- A partition on its disk, and the contents of the buffers that `kmalloc` hands out. -/
structure Volume where
  disk : Disk
  part : Partition
  buffers : Nat → Bytes
  allocated : Nat

/-- `DIVIDE_ROUNDED_UP` of 32-bit operands. -/
def divideRoundedUp (x y : Nat) : Nat := if x % y ≠ 0 then u32 (x + y - 1) / y else x / y

namespace Partition

/-- `1024 << s_log_block_size`. -/
def blockSize (p : Partition) : Nat := u32 (1024 <<< (Superblock.logBlockSize.get p.sb 0 % 32))

/-- Field `f` of the descriptor of group `i`. -/
def group (p : Partition) (f : Field) (i : Nat) : Nat := f.get p.gd (sizeofGroup * i)

def setGroup (p : Partition) (f : Field) (i v : Nat) : Partition :=
  { p with gd := f.set p.gd (sizeofGroup * i) v }

/-- Field `f` of the superblock. -/
def super (p : Partition) (f : Field) : Nat := f.get p.sb 0

def setSuper (p : Partition) (f : Field) (v : Nat) : Partition := { p with sb := f.set p.sb 0 v }

/-- The first sector of a block, as the code computes it. -/
def blockLba (p : Partition) (block : Nat) : Nat :=
  u32 (p.lba + u32 (block * p.blockSize) / p.sectorSize)

end Partition

/-- `kmalloc` of a positive size: a buffer with whatever the heap holds there. -/
def kmalloc (v : Volume) : Bytes × Volume :=
  (v.buffers v.allocated, { v with allocated := v.allocated + 1 })

def EXT2_READ_FAILED : Int := 0xFFFFFFFE

def EXT2_WRITE_FAILED : Int := 0xFFFFFFFD

/-- `ext2_read_block`. -/
def readBlock (v : Volume) (block : Nat) (buffer : Bytes) : Int × Bytes × Volume :=
  let blockSectors := divideRoundedUp v.part.blockSize v.part.sectorSize
  if block > 0 then
    let (read, buffer, disk) := readDisk v.disk buffer (v.part.blockLba block)
      (u32 (blockSectors * v.part.sectorSize))
    (if read = 0 then EXT2_READ_FAILED else 1, buffer, { v with disk := disk })
  else (0, buffer, v)

/-- `ext2_write_block`. -/
def writeBlock (v : Volume) (block : Nat) (buffer : Bytes) : Int × Volume :=
  let blockSectors := divideRoundedUp v.part.blockSize v.part.sectorSize
  if block ≠ 0 then
    let (written, disk) := writeDisk v.disk buffer (v.part.blockLba block) blockSectors
    (if written = 0 then EXT2_WRITE_FAILED else 1, { v with disk := disk })
  else (0, v)

/-- `ext2_flush_required`. -/
def flushRequired (v : Volume) : Volume := { v with part := { v.part with flushRequired := true } }

/-! ## Block sizes and sectors -/

/-- What `ext2_partition_register_partition` leaves: sectors of 512 bytes, a block
size that fits an `int`, and as many groups as hold the blocks. -/
structure Mounted (p : Partition) : Prop where
  sectorSize : p.sectorSize = 512
  logBlockSize : p.super Superblock.logBlockSize ≤ 20
  lba : p.lba < 4294967296
  blocksPerGroup : 0 < p.super Superblock.blocksPerGroup
  inodesPerGroup : 0 < p.super Superblock.inodesPerGroup
  blockGroups : p.groupNumber =
    divideRoundedUp (p.super Superblock.blocksCount) (p.super Superblock.blocksPerGroup)
  inodeGroups : p.groupNumber =
    divideRoundedUp (p.super Superblock.inodesCount) (p.super Superblock.inodesPerGroup)

namespace Partition

/-- The sectors of a block. -/
def blockSectors (p : Partition) : Nat := p.blockSize / 512

/-- The sectors that `ext2_write_block` writes: it passes their number as a length in bytes. -/
def writtenSectors (p : Partition) : Nat := (p.blockSectors + 511) / 512

/-- The sector that a transfer of the block starts at. -/
def ioSector (p : Partition) (block : Nat) : Nat := sext32 (p.blockLba block)

/-- The sector where the block is. -/
def blockSector (p : Partition) (block : Nat) : Nat := p.lba + block * p.blockSectors

/-- A transfer of the block goes to the block: no product or sum wraps on the way. -/
def Addressable (p : Partition) (block : Nat) : Prop := p.ioSector block = p.blockSector block

instance (p : Partition) (block : Nat) : Decidable (p.Addressable block) :=
  inferInstanceAs (Decidable (_ = _))

end Partition

namespace Mounted

variable {p : Partition} {b c : Nat}

theorem blockSize_pow (h : Mounted p) :
    p.blockSize = 2 ^ (p.super Superblock.logBlockSize + 10) := by
  have hlog := h.logBlockSize
  unfold Partition.super at hlog
  have hpow : 2 ^ (Superblock.logBlockSize.get p.sb 0 + 10) ≤ 2 ^ 30 :=
    Nat.pow_le_pow_right (by omega) (by omega)
  rw [Partition.blockSize, Nat.mod_eq_of_lt (by omega), Nat.shiftLeft_eq,
    show 1024 * 2 ^ Superblock.logBlockSize.get p.sb 0 =
      2 ^ (Superblock.logBlockSize.get p.sb 0 + 10) by rw [Nat.pow_add]; omega,
    u32_of_lt (by omega)]
  rfl

theorem blockSectors_pow (h : Mounted p) :
    p.blockSectors = 2 ^ (p.super Superblock.logBlockSize + 1) := by
  rw [Partition.blockSectors, h.blockSize_pow,
    show p.super Superblock.logBlockSize + 10 = p.super Superblock.logBlockSize + 1 + 9 by omega,
    Nat.pow_add _ _ 9]
  exact Nat.mul_div_cancel _ (by omega)

theorem blockSize_eq (h : Mounted p) : p.blockSize = 512 * p.blockSectors := by
  rw [h.blockSectors_pow, h.blockSize_pow,
    show p.super Superblock.logBlockSize + 10 = p.super Superblock.logBlockSize + 1 + 9 by omega,
    Nat.pow_add _ _ 9, Nat.mul_comm]

theorem blockSectors_ge (h : Mounted p) : 2 ≤ p.blockSectors := by
  rw [h.blockSectors_pow]
  exact Nat.le_self_pow (by omega) 2

theorem blockSectors_le (h : Mounted p) : p.blockSectors ≤ 2097152 := by
  rw [h.blockSectors_pow]
  have hlog := h.logBlockSize
  have hpow : 2 ^ (p.super Superblock.logBlockSize + 1) ≤ 2 ^ 21 :=
    Nat.pow_le_pow_right (by omega) (by omega)
  omega

theorem blockSize_bounds (h : Mounted p) : 1024 ≤ p.blockSize ∧ p.blockSize ≤ 1073741824 := by
  have := h.blockSectors_ge
  have := h.blockSectors_le
  have := h.blockSize_eq
  omega

theorem writtenSectors_pos (h : Mounted p) : 0 < p.writtenSectors := by
  have := h.blockSectors_ge
  unfold Partition.writtenSectors
  omega

theorem writtenSectors_le (h : Mounted p) : p.writtenSectors ≤ p.blockSectors := by
  have := h.blockSectors_ge
  unfold Partition.writtenSectors
  omega

theorem divideRoundedUp_blockSize (h : Mounted p) :
    divideRoundedUp p.blockSize p.sectorSize = p.blockSectors := by
  rw [divideRoundedUp, h.sectorSize, h.blockSize_eq, if_neg (by omega)]
  omega

theorem blockLba_lt (p : Partition) : p.blockLba b < 4294967296 := u32_lt _

theorem ioSector_lt (p : Partition) : p.ioSector b < 18446744073709551616 :=
  Disk.sext32_lt (u32_lt _)

/-- The code's sector and the block's sector agree up to the wrapping. -/
theorem ioSector_mod (h : Mounted p) :
    p.ioSector b % 8388608 = p.blockSector b % 8388608 := by
  unfold Partition.ioSector Partition.blockLba Partition.blockSector sext32
  rw [h.sectorSize, h.blockSize_eq, Nat.mul_left_comm]
  obtain ⟨x, hx⟩ : ∃ x, b * p.blockSectors = x := ⟨_, rfl⟩
  rw [hx]
  unfold u32
  split <;> omega

theorem blockSector_lt (h : Mounted p) (hb : b < 4294967296) :
    p.blockSector b + p.blockSectors ≤ 9223372036854775808 := by
  have hq := h.blockSectors_le
  have hl := h.lba
  have hmul : b * p.blockSectors ≤ 4294967296 * 2097152 := Nat.mul_le_mul (by omega) hq
  unfold Partition.blockSector
  omega

/-- A block below 4 GiB on the first 2^31 sectors is addressable. -/
theorem addressable (h : Mounted p) (hb : b * p.blockSize < 4294967296)
    (hs : p.blockSector b < 2147483648) : p.Addressable b := by
  unfold Partition.Addressable Partition.ioSector Partition.blockLba
  unfold Partition.blockSector at hs ⊢
  rw [h.sectorSize, u32_of_lt hb]
  rw [h.blockSize_eq, Nat.mul_left_comm] at hb ⊢
  rw [Nat.mul_div_cancel_left _ (by omega), u32_of_lt (by omega), sext32_of_lt hs]

/-- Sectors of two blocks are different sectors. -/
theorem sectors_apart (h : b ≠ c) {i j : Nat} (hi : i < p.blockSectors) (hj : j < p.blockSectors) :
    p.blockSector b + i ≠ p.blockSector c + j := by
  unfold Partition.blockSector
  have hmul {x y : Nat} (hxy : x < y) : x * p.blockSectors + p.blockSectors ≤ y * p.blockSectors := by
    rw [← Nat.succ_mul]
    exact Nat.mul_le_mul_right _ hxy
  rcases Nat.lt_or_gt_of_ne h with h | h
  · have := hmul h; omega
  · have := hmul h; omega

/-- A transfer that misses its block misses every sector of it. -/
theorem io_apart (h : Mounted p) (hb : b < 4294967296) (hne : ¬ p.Addressable b) {i j : Nat}
    (hi : i < p.blockSectors) (hj : j < p.blockSectors) :
    u64 (p.ioSector b + i) ≠ u64 (p.blockSector b + j) := by
  have hq := h.blockSectors_le
  have hlt := h.blockSector_lt hb
  have hio := ioSector_lt (b := b) p
  have hmod := h.ioSector_mod (b := b)
  unfold Partition.Addressable at hne
  unfold u64
  omega

end Mounted

/-! ## What the counters leave alone -/

/-- The fields of the superblock that say where things are. -/
def Superblock.layout : List Field := [inodesCount, blocksCount, firstSbBlock, logBlockSize,
  blocksPerGroup, inodesPerGroup, magic, revLevel, inodeSize]

/-- The fields of a group descriptor that say where things are. -/
def BlockGroup.layout : List Field := [blockBitmap, inodeBitmap, inodeTable]

/-- The counters of the superblock. -/
def Superblock.counters : List Field := [freeBlocksCount, freeInodesCount]

/-- The counters of a group descriptor. -/
def BlockGroup.counters : List Field := [freeBlocksCount, freeInodesCount, usedDirsCount]

/-- Two partitions with everything in the same place. -/
structure SameLayout (p p' : Partition) : Prop where
  sectorSize : p'.sectorSize = p.sectorSize
  lba : p'.lba = p.lba
  groupNumber : p'.groupNumber = p.groupNumber
  super : ∀ f ∈ Superblock.layout, p'.super f = p.super f
  group : ∀ f ∈ BlockGroup.layout, ∀ i, p'.group f i = p.group f i

namespace SameLayout

variable {p p' p'' : Partition}

theorem refl (p : Partition) : SameLayout p p :=
  ⟨rfl, rfl, rfl, fun _ _ => rfl, fun _ _ _ => rfl⟩

theorem trans (h : SameLayout p p') (h' : SameLayout p' p'') : SameLayout p p'' :=
  ⟨h'.sectorSize.trans h.sectorSize, h'.lba.trans h.lba, h'.groupNumber.trans h.groupNumber,
    fun f hf => (h'.super f hf).trans (h.super f hf),
    fun f hf i => (h'.group f hf i).trans (h.group f hf i)⟩

theorem blockSize (h : SameLayout p p') : p'.blockSize = p.blockSize := by
  have hlog := h.super Superblock.logBlockSize (by decide)
  unfold Partition.super at hlog
  rw [Partition.blockSize, Partition.blockSize, hlog]

theorem blockSectors (h : SameLayout p p') : p'.blockSectors = p.blockSectors := by
  rw [Partition.blockSectors, Partition.blockSectors, h.blockSize]

theorem writtenSectors (h : SameLayout p p') : p'.writtenSectors = p.writtenSectors := by
  rw [Partition.writtenSectors, Partition.writtenSectors, h.blockSectors]

theorem ioSector (h : SameLayout p p') (b : Nat) : p'.ioSector b = p.ioSector b := by
  rw [Partition.ioSector, Partition.ioSector, Partition.blockLba, Partition.blockLba, h.blockSize,
    h.lba, h.sectorSize]

theorem blockSector (h : SameLayout p p') (b : Nat) : p'.blockSector b = p.blockSector b := by
  rw [Partition.blockSector, Partition.blockSector, h.blockSectors, h.lba]

theorem addressable (h : SameLayout p p') (b : Nat) : p'.Addressable b ↔ p.Addressable b := by
  rw [Partition.Addressable, Partition.Addressable, h.ioSector, h.blockSector]

theorem mounted (h : SameLayout p p') (hm : Mounted p) : Mounted p' := by
  refine ⟨h.sectorSize.trans hm.sectorSize, ?_, by rw [h.lba]; exact hm.lba, ?_, ?_, ?_, ?_⟩
  · rw [h.super _ (by decide)]; exact hm.logBlockSize
  · rw [h.super _ (by decide)]; exact hm.blocksPerGroup
  · rw [h.super _ (by decide)]; exact hm.inodesPerGroup
  · rw [h.groupNumber, h.super _ (by decide), h.super _ (by decide)]; exact hm.blockGroups
  · rw [h.groupNumber, h.super _ (by decide), h.super _ (by decide)]; exact hm.inodeGroups

end SameLayout

namespace Partition

variable {p : Partition} {f g : Field} {i j x : Nat}

theorem group_setGroup_of_ne (hf : f.Within sizeofGroup) (hg : g.Within sizeofGroup) (h : i ≠ j) :
    (p.setGroup f i x).group g j = p.group g j :=
  Field.get_set_apart p.gd x hf hg (by unfold sizeofGroup; omega)

theorem group_setGroup_disjoint (hf : f.Within sizeofGroup) (hg : g.Within sizeofGroup)
    (h : f.Disjoint g) : (p.setGroup f i x).group g j = p.group g j := by
  by_cases hij : i = j
  · subst hij
    exact Field.get_set_disjoint p.gd x h
  · exact group_setGroup_of_ne hf hg hij

theorem group_setGroup_same : (p.setGroup f i x).group f i = x % 256 ^ f.width :=
  Field.get_set_same p.gd x

theorem super_setSuper_disjoint (h : f.Disjoint g) : (p.setSuper f x).super g = p.super g :=
  Field.get_set_disjoint p.sb x h

theorem super_setSuper_same : (p.setSuper f x).super f = x % 256 ^ f.width :=
  Field.get_set_same p.sb x

theorem group_lt : p.group f i < 256 ^ f.width := Field.get_lt p.gd

theorem super_lt : p.super f < 256 ^ f.width := Field.get_lt p.sb

@[simp] theorem group_setSuper : (p.setSuper f x).group g j = p.group g j := rfl

@[simp] theorem super_setGroup : (p.setGroup f i x).super g = p.super g := rfl

/-- A counter of a group is not part of the layout. -/
theorem sameLayout_setGroup (hf : f ∈ BlockGroup.counters) : SameLayout p (p.setGroup f i x) := by
  refine ⟨rfl, rfl, rfl, fun _ _ => rfl, fun g hg j => ?_⟩
  have hwithin : ∀ f ∈ BlockGroup.counters ++ BlockGroup.layout, f.Within sizeofGroup := by decide
  have hdisjoint : ∀ f ∈ BlockGroup.counters, ∀ g ∈ BlockGroup.layout, f.Disjoint g := by decide
  exact group_setGroup_disjoint (hwithin f (List.mem_append_left _ hf))
    (hwithin g (List.mem_append_right _ hg)) (hdisjoint f hf g hg)

/-- A counter of the superblock is not part of the layout. -/
theorem sameLayout_setSuper (hf : f ∈ Superblock.counters) : SameLayout p (p.setSuper f x) := by
  refine ⟨rfl, rfl, rfl, fun g hg => ?_, fun _ _ _ => rfl⟩
  have hdisjoint : ∀ f ∈ Superblock.counters, ∀ g ∈ Superblock.layout, f.Disjoint g := by decide
  exact super_setSuper_disjoint (hdisjoint f hf g hg)

@[simp] theorem group_flush (p : Partition) (b : Bool) :
    Partition.group { p with flushRequired := b } f i = p.group f i := rfl

@[simp] theorem super_flush (p : Partition) (b : Bool) :
    Partition.super { p with flushRequired := b } f = p.super f := rfl

theorem sameLayout_flush : SameLayout p { p with flushRequired := true } :=
  ⟨rfl, rfl, rfl, fun _ _ => rfl, fun _ _ _ => rfl⟩

end Partition

/-! ## Block transfers without failure -/

section transfers

variable {v : Volume} {block : Nat} (buffer : Bytes)

/-- The volume after some transfers: another content, later in time. -/
def Volume.after (v : Volume) (image : Bytes) (n : Nat) : Volume :=
  { v with disk := v.disk.after image n }

@[simp] theorem Volume.after_part (image : Bytes) (n : Nat) : (v.after image n).part = v.part := rfl

theorem readBlock_reliable (hm : Mounted v.part) (hr : v.disk.Reliable) (hb : 0 < block) :
    readBlock v block buffer =
      (1, copy buffer 0 (window v.disk.image (v.part.ioSector block)) 0 v.part.blockSize,
        v.after v.disk.image v.part.blockSectors) := by
  have hq := hm.blockSectors_le
  have hq2 := hm.blockSectors_ge
  have hsize := hm.blockSize_eq
  have hblocks : sizeToBlocks v.part.blockSize = v.part.blockSectors := by
    unfold sizeToBlocks u64
    omega
  have hcount : u32 (v.part.blockSectors * 512) = v.part.blockSize := by
    rw [u32_of_lt (by omega), hsize, Nat.mul_comm]
  rw [readBlock, hm.divideRoundedUp_blockSize, if_pos hb, hm.sectorSize, hcount,
    Disk.readDisk_reliable hr (by omega), hblocks, ← hsize]
  simp only
  rw [if_neg (by omega)]
  rfl

theorem writeBlock_reliable (hm : Mounted v.part) (hr : v.disk.Reliable) (hb : 0 < block) :
    writeBlock v block buffer =
      (1, v.after (put v.disk.image (v.part.ioSector block) buffer v.part.writtenSectors)
        v.part.writtenSectors) := by
  have hq := hm.blockSectors_le
  have hq2 := hm.blockSectors_ge
  have hblocks : sizeToBlocks v.part.blockSectors = v.part.writtenSectors := by
    unfold sizeToBlocks u64 Partition.writtenSectors
    omega
  rw [writeBlock, hm.divideRoundedUp_blockSize, if_pos (by omega),
    Disk.writeDisk_reliable hr (by omega) (Mounted.blockLba_lt _), hblocks]
  simp only
  rw [if_neg (by omega)]
  rfl

end transfers

/-! ## Bitmaps on the disk -/

/-- The block that descriptor field `f` of group `i` names, as it is on the disk. -/
def Volume.groupBlock (v : Volume) (f : Field) (i : Nat) : Bytes :=
  window v.disk.image (v.part.blockSector (v.part.group f i))

/-- The same block as a transfer reads it. -/
def Volume.ioGroupBlock (v : Volume) (f : Field) (i : Nat) : Bytes :=
  window v.disk.image (v.part.ioSector (v.part.group f i))

section bitmaps

variable {p : Partition} {image buffer : Bytes} {b c k : Nat}

/-- A write that reaches its block changes its first bits only. -/
theorem bit_put_same (hm : Mounted p) (ha : p.Addressable b) (hk : k < 8 * p.blockSize) :
    bit (window (put image (p.ioSector b) buffer p.writtenSectors) (p.blockSector b)) k =
      if k < 4096 * p.writtenSectors then bit buffer k
      else bit (window image (p.blockSector b)) k := by
  have hio := Mounted.ioSector_lt (b := b) p
  have hq := hm.blockSectors_le
  have hw := hm.writtenSectors_le
  have hsize := hm.blockSize_eq
  rw [ha] at hio ⊢
  split
  · exact bit_congr (window_put_in hio (by omega) (by omega))
  · exact bit_congr (window_put_past hio (by omega) (by omega))

/-- A write that reaches its block leaves the other blocks alone. -/
theorem bit_put_other (hm : Mounted p) (hb : b < 4294967296) (hc : c < 4294967296)
    (ha : p.Addressable b) (hne : b ≠ c) (hk : k < 8 * p.blockSize) :
    bit (window (put image (p.ioSector b) buffer p.writtenSectors) (p.blockSector c)) k =
      bit (window image (p.blockSector c)) k := by
  have hio := Mounted.ioSector_lt (b := b) p
  have hq := hm.blockSectors_le
  have hw := hm.writtenSectors_le
  have hsize := hm.blockSize_eq
  have hlb := hm.blockSector_lt hb
  have hlc := hm.blockSector_lt hc
  refine bit_congr (window_put_out hio (by omega) fun i hi => ?_)
  rw [ha, u64_of_lt (by omega), u64_of_lt (by omega)]
  exact Mounted.sectors_apart hne (by omega) (by omega)

/-- A write that misses its block leaves the block alone. -/
theorem bit_put_missed (hm : Mounted p) (hb : b < 4294967296) (ha : ¬ p.Addressable b)
    (hk : k < 8 * p.blockSize) :
    bit (window (put image (p.ioSector b) buffer p.writtenSectors) (p.blockSector b)) k =
      bit (window image (p.blockSector b)) k := by
  have hio := Mounted.ioSector_lt (b := b) p
  have hq := hm.blockSectors_le
  have hw := hm.writtenSectors_le
  have hsize := hm.blockSize_eq
  exact bit_congr (window_put_out hio (by omega) fun i hi =>
    hm.io_apart hb ha (by omega) (by omega))

/-- A write of a block whose buffer holds the bits `bits`. -/
structure BlockWritten (v w : Volume) (block : Nat) (bits : Nat → Bool) : Prop where
  reliable : w.disk.Reliable
  image : ∃ b, (∀ k, k < 8 * v.part.blockSize → bit b k = bits k) ∧
    w.disk.image = put v.disk.image (v.part.ioSector block) b v.part.writtenSectors

namespace BlockWritten

variable {v w : Volume} {bits : Nat → Bool}

theorem same (h : BlockWritten v w b bits) (hm : Mounted v.part) (ha : v.part.Addressable b)
    (hk : k < 8 * v.part.blockSize) :
    bit (window w.disk.image (v.part.blockSector b)) k =
      if k < 4096 * v.part.writtenSectors then bits k
      else bit (window v.disk.image (v.part.blockSector b)) k := by
  obtain ⟨buffer, hbits, himage⟩ := h.image
  rw [himage, bit_put_same hm ha hk, hbits k hk]

theorem other (h : BlockWritten v w b bits) (hm : Mounted v.part) (hb : b < 4294967296)
    (hc : c < 4294967296) (ha : v.part.Addressable b) (hne : b ≠ c)
    (hk : k < 8 * v.part.blockSize) :
    bit (window w.disk.image (v.part.blockSector c)) k =
      bit (window v.disk.image (v.part.blockSector c)) k := by
  obtain ⟨buffer, -, himage⟩ := h.image
  rw [himage, bit_put_other hm hb hc ha hne hk]

theorem missed (h : BlockWritten v w b bits) (hm : Mounted v.part) (hb : b < 4294967296)
    (ha : ¬ v.part.Addressable b) (hk : k < 8 * v.part.blockSize) :
    bit (window w.disk.image (v.part.blockSector b)) k =
      bit (window v.disk.image (v.part.blockSector b)) k := by
  obtain ⟨buffer, -, himage⟩ := h.image
  rw [himage, bit_put_missed hm hb ha hk]

end BlockWritten

/-- Only the time and the heap differ. -/
structure Unchanged (v w : Volume) : Prop where
  part : w.part = v.part
  image : w.disk.image = v.disk.image
  reliable : v.disk.Reliable → w.disk.Reliable

namespace Unchanged

variable {v w x : Volume} {bits : Nat → Bool}

theorem trans (h : Unchanged v w) (h' : Unchanged w x) : Unchanged v x :=
  ⟨h'.part.trans h.part, h'.image.trans h.image, fun hr => h'.reliable (h.reliable hr)⟩

theorem ioGroupBlock (h : Unchanged v w) (f : Field) (i : Nat) :
    w.ioGroupBlock f i = v.ioGroupBlock f i := by
  rw [Volume.ioGroupBlock, Volume.ioGroupBlock, h.part, h.image]

theorem groupBlock (h : Unchanged v w) (f : Field) (i : Nat) :
    w.groupBlock f i = v.groupBlock f i := by
  rw [Volume.groupBlock, Volume.groupBlock, h.part, h.image]

theorem written (h : Unchanged v w) (hx : BlockWritten w x b bits) : BlockWritten v x b bits := by
  obtain ⟨buffer, hbits, himage⟩ := hx.image
  rw [h.part] at hbits himage
  exact ⟨hx.reliable, buffer, hbits, by rw [himage, h.image]⟩

end Unchanged

/-- `kmalloc` of a buffer and a read of the block that a descriptor names into it. -/
theorem readGroupBlock_reliable {v : Volume} {f : Field} {i : Nat} (hm : Mounted v.part)
    (hr : v.disk.Reliable) (hi : 0 < v.part.group f i) :
    ∃ bitmap w, readBlock (kmalloc v).2 ((kmalloc v).2.part.group f i) (kmalloc v).1 =
        (1, bitmap, w) ∧ Unchanged v w ∧
      ∀ k, k < 8 * v.part.blockSize → bit bitmap k = bit (v.ioGroupBlock f i) k := by
  refine ⟨_, _, readBlock_reliable (v := (kmalloc v).2) (kmalloc v).1 hm hr hi, ⟨rfl, rfl, id⟩,
    fun k hk => bit_congr ?_⟩
  rw [copy_apply_in _ _ (by omega) (by simp only [kmalloc]; omega), Nat.sub_zero, Nat.zero_add]
  rfl

end bitmaps
end UnedKernel.Ext2
