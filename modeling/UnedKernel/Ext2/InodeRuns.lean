import UnedKernel.Ext2.InodeSafety
import UnedKernel.Lib.Run

/-! # Runs of inode allocation and deletion

`ext2_delete_inode` zeroes the byte of the bitmap whose number is the index of the
inode, where the bit of the inode is in the byte `index / 8`. -/

namespace UnedKernel.Ext2
open ByteMem Word Sectors Bitmap Run

variable {v w u : Volume} {used : List Nat} {g k n m epoch : Nat}

/-! ## Transfers of the inode table and of the bitmaps -/

namespace Mounted

variable {p : Partition} {d : Disk} {sector : Nat} (buffer : Bytes)

theorem transferLength (h : Mounted p) :
    u32 (divideRoundedUp p.blockSize p.sectorSize * p.sectorSize) = p.blockSize := by
  have hq := h.blockSectors_le
  have hsize := h.blockSize_eq
  rw [h.divideRoundedUp_blockSize, h.sectorSize, u32_of_lt (by omega)]
  omega

theorem sectorsPerBlock (h : Mounted p) : p.blockSize / p.sectorSize = p.blockSectors := by
  rw [h.sectorSize]
  rfl

theorem transferLength' (h : Mounted p) :
    u32 (p.blockSize / p.sectorSize * p.sectorSize) = p.blockSize := by
  rw [h.sectorsPerBlock, ← h.divideRoundedUp_blockSize, h.transferLength]

theorem readDisk_block (h : Mounted p) (sector : Nat) (hr : d.Reliable) :
    readDisk d buffer sector p.blockSize =
      (p.blockSize, copy buffer 0 (window d.image (sext32 sector)) 0 p.blockSize,
        d.after d.image p.blockSectors) := by
  have hq := h.blockSectors_le
  have hsize := h.blockSize_eq
  have hblocks : sizeToBlocks p.blockSize = p.blockSectors := by
    unfold sizeToBlocks u64
    omega
  rw [Disk.readDisk_reliable hr (by omega), hblocks, ← hsize]

theorem writeDisk_block (h : Mounted p) (hr : d.Reliable) (hs : sector < 4294967296) :
    writeDisk d buffer sector p.blockSize =
      (p.blockSize, d.after (put d.image (sext32 sector) buffer p.blockSectors)
        p.blockSectors) := by
  have hq := h.blockSectors_le
  have hsize := h.blockSize_eq
  have hblocks : sizeToBlocks p.blockSize = p.blockSectors := by
    unfold sizeToBlocks u64
    omega
  rw [Disk.writeDisk_reliable hr (by omega) hs, hblocks]

theorem writeDisk_short (h : Mounted p) (sector : Nat) (hr : d.Reliable) (hs : sector < 4294967296) :
    writeDisk d buffer sector p.blockSectors =
      (p.blockSectors, d.after (put d.image (sext32 sector) buffer p.writtenSectors)
        p.writtenSectors) := by
  have hq := h.blockSectors_le
  have hblocks : sizeToBlocks p.blockSectors = p.writtenSectors := by
    unfold sizeToBlocks u64 Partition.writtenSectors
    omega
  rw [Disk.writeDisk_reliable hr (by omega) hs, hblocks]

theorem blockSize_pos (h : Mounted p) : p.blockSize ≠ 0 := by
  have := h.blockSectors_ge
  have := h.blockSize_eq
  omega

end Mounted

/-- `ext2_read_inode` and `ext2_write_inode` go to the block of the inode. -/
def Partition.InodeReaches (p : Partition) (n : Nat) : Prop :=
  sext32 (p.inodeLba n) = p.blockSector (p.group BlockGroup.inodeTable (p.inodeGroup n) +
    p.inodeIndex n * p.inodeSize / p.blockSize)

theorem inodeLba_lt (p : Partition) : p.inodeLba n < 4294967296 := u32_lt _

theorem readInode_reliable (hm : Mounted v.part) (hr : v.disk.Reliable)
    (hsize : 0 < v.part.inodeSize) :
    ∃ inode w, readInode v n = (some inode, w) ∧ Unchanged v w := by
  have hread := hm.readDisk_block (kmalloc v).1 (v.part.inodeLba n) hr
  simp only [readInode, kmalloc, hm.transferLength] at hread ⊢
  simp only [hread]
  rw [if_neg hm.blockSize_pos, if_neg (by omega)]
  exact ⟨_, _, rfl, rfl, rfl, id⟩

/-- `ext2_write_inode` puts a whole block. -/
theorem writeInode_reliable (hm : Mounted v.part) (hr : v.disk.Reliable) (inode : Bytes) :
    ∃ buffer w, writeInode v n inode = (0, w) ∧ w.part = v.part ∧ w.disk.Reliable ∧
      w.disk.image = put v.disk.image (sext32 (v.part.inodeLba n)) buffer v.part.blockSectors := by
  have hread := hm.readDisk_block (kmalloc v).1 (v.part.inodeLba n) hr
  simp only [writeInode, kmalloc, hm.transferLength] at hread ⊢
  simp only [hread]
  rw [if_neg hm.blockSize_pos]
  have hr' : (v.disk.after v.disk.image v.part.blockSectors).Reliable := hr
  simp only [hm.writeDisk_block _ hr' (inodeLba_lt _), Disk.after_image]
  rw [if_neg hm.blockSize_pos]
  exact ⟨_, _, rfl, rfl, hr, rfl⟩

theorem readInodeBitmap_reliable (hm : Mounted v.part) (hr : v.disk.Reliable) :
    ∃ bitmap w, readInodeBitmap v n = (some bitmap, w) ∧ Unchanged v w ∧
      ∀ k, k < 8 * v.part.blockSize → bit bitmap k =
        bit (v.ioGroupBlock BlockGroup.inodeBitmap (v.part.inodeGroup n)) k := by
  have hread := hm.readDisk_block (kmalloc v).1 (v.part.blockLba
    (v.part.group BlockGroup.inodeBitmap (v.part.inodeGroup n))) hr
  simp only [readInodeBitmap, kmalloc, hm.transferLength'] at hread ⊢
  simp only [hread]
  rw [if_neg hm.blockSize_pos]
  refine ⟨_, _, rfl, ⟨rfl, rfl, id⟩, fun k hk => bit_congr ?_⟩
  rw [copy_apply_in _ _ (by omega) (by omega), Nat.sub_zero, Nat.zero_add]
  rfl

theorem writeInodeBitmap_reliable (hm : Mounted v.part) (hr : v.disk.Reliable) (bitmap : Bytes) :
    ∃ w, writeInodeBitmap v n bitmap = (0, w) ∧ w.part = v.part ∧
      BlockWritten v w (v.part.group BlockGroup.inodeBitmap (v.part.inodeGroup n)) (bit bitmap) := by
  have hq := hm.blockSectors_ge
  have hwrite := hm.writeDisk_short bitmap (v.part.blockLba
    (v.part.group BlockGroup.inodeBitmap (v.part.inodeGroup n))) hr (Mounted.blockLba_lt _)
  simp only [writeInodeBitmap, hm.sectorsPerBlock, hwrite]
  rw [if_neg (by omega)]
  exact ⟨_, rfl, rfl, hr, bitmap, fun _ _ => rfl, rfl⟩

/-! ## Consistency across changes -/

namespace InodesConsistent

theorem transfer (h : InodesConsistent v) (hl : SameLayout v.part w.part) (hr : w.disk.Reliable)
    (hp : ∀ g k, g < v.part.groupNumber → k < 8 * v.part.blockSize →
      bit (w.groupBlock BlockGroup.inodeBitmap g) k = false →
      k < v.part.super Superblock.inodesPerGroup)
    (hc : ∀ g, g < v.part.groupNumber → w.part.group BlockGroup.freeInodesCount g =
      clearCount (w.groupBlock BlockGroup.inodeBitmap g) (v.part.super Superblock.inodesPerGroup))
    (ht : w.part.super Superblock.freeInodesCount =
      ∑ g ∈ Finset.range v.part.groupNumber, w.part.group BlockGroup.freeInodesCount g) :
    InodesConsistent w := by
  have hbm := hl.group BlockGroup.inodeBitmap (by decide)
  have htable := hl.group BlockGroup.inodeTable (by decide)
  have hipg := hl.super Superblock.inodesPerGroup (by decide)
  refine ⟨hl.mounted h.mounted, hr, ?_, ?_, ?_, ?_, ?_, ?_, ?_, ?_, ?_⟩
  · rw [hipg, hl.blockSize]; exact h.fits
  · rw [hl.super _ (by decide), hipg, hl.groupNumber]; exact h.count
  · rw [hl.inodeSize]; exact h.inodeSize
  · intro g hg
    rw [hbm]
    exact h.nonzero g (hl.groupNumber ▸ hg)
  · intro g i hg hi
    rw [hbm, hbm]
    exact h.distinct g i (hl.groupNumber ▸ hg) (hl.groupNumber ▸ hi)
  · intro g i j hg hi hj
    rw [hbm, htable, hl.inodeSize, hl.blockSize]
    exact h.tables g i j (hl.groupNumber ▸ hg) (hl.groupNumber ▸ hi) (hipg ▸ hj)
  · rw [hl.groupNumber, hl.blockSize, hipg]; exact hp
  · rw [hl.groupNumber, hipg]; exact hc
  · rw [hl.groupNumber]; exact ht

/-- The same bits and counters. -/
theorem sameBits (h : InodesConsistent v) (hpart : w.part = v.part) (hr : w.disk.Reliable)
    (hbits : ∀ g k, g < v.part.groupNumber → k < 8 * v.part.blockSize →
      bit (w.groupBlock BlockGroup.inodeBitmap g) k =
        bit (v.groupBlock BlockGroup.inodeBitmap g) k) : InodesConsistent w := by
  have hfits := h.fits
  refine h.transfer (hpart ▸ SameLayout.refl _) hr (fun g k hg hk hbit => ?_) (fun g hg => ?_) ?_
  · exact h.padded g k hg hk (by rw [← hbits g k hg hk]; exact hbit)
  · rw [hpart, h.freeCount g hg]
    exact (clearCount_congr fun j hj => hbits g j hg (by omega)).symm
  · rw [hpart]
    exact h.freeTotal

theorem inodeSector_lt (h : InodesConsistent v) :
    v.part.blockSector (v.part.group BlockGroup.inodeTable (v.part.inodeGroup n) +
      v.part.inodeIndex n * v.part.inodeSize / v.part.blockSize) < 9223372036854775808 := by
  have hq := h.mounted.blockSectors_le
  have hlba := h.mounted.lba
  have hindex := h.inodeIndex_lt (n := n)
  have hipg : v.part.super Superblock.inodesPerGroup < 4294967296 := Partition.super_lt
  have htable : v.part.group BlockGroup.inodeTable (v.part.inodeGroup n) < 4294967296 :=
    Partition.group_lt
  have hinode : v.part.inodeSize ≤ 65536 := by
    have hlt : v.part.super Superblock.inodeSize < 65536 := Partition.super_lt
    unfold Partition.inodeSize
    split <;> omega
  have hsize := h.mounted.blockSize_eq
  have hsize2 := h.mounted.blockSectors_ge
  have hmul : v.part.inodeIndex n * v.part.inodeSize ≤ 4294967296 * 65536 :=
    Nat.mul_le_mul (by omega) hinode
  have hdiv : v.part.inodeIndex n * v.part.inodeSize / v.part.blockSize ≤ 4294967296 * 65536 / 1024 :=
    Nat.div_le_div hmul (by omega) (by omega)
  have hblock := Nat.mul_le_mul (show v.part.group BlockGroup.inodeTable (v.part.inodeGroup n) +
    v.part.inodeIndex n * v.part.inodeSize / v.part.blockSize ≤ 549755813888 by omega) hq
  unfold Partition.blockSector
  omega

/-- A block of an inode table is none of the inode bitmaps. -/
theorem bits_of_table (h : InodesConsistent v) (hpart : w.part = v.part) {buffer : Bytes}
    (hg : v.part.inodeGroup n < v.part.groupNumber) (hreach : v.part.InodeReaches n)
    (himage : w.disk.image =
      put v.disk.image (sext32 (v.part.inodeLba n)) buffer v.part.blockSectors) {i j : Nat}
    (hi : i < v.part.groupNumber) (hj : j < 8 * v.part.blockSize) :
    bit (w.groupBlock BlockGroup.inodeBitmap i) j =
      bit (v.groupBlock BlockGroup.inodeBitmap i) j := by
  have hq := h.mounted.blockSectors_le
  have hsize := h.mounted.blockSize_eq
  have hlt : sext32 (v.part.inodeLba n) < 18446744073709551616 := Disk.sext32_lt (inodeLba_lt _)
  have hne := h.tables _ i _ hg hi (h.inodeIndex_lt (n := n))
  have hsector := h.mounted.blockSector_lt
    (b := v.part.group BlockGroup.inodeBitmap i) Partition.group_lt
  rw [Volume.groupBlock, himage, hpart]
  refine bit_congr (window_put_out hlt (by omega) fun x hx => ?_)
  have hapart := Mounted.sectors_apart (p := v.part) hne hx (j := j / 8 / 512) (by omega)
  rw [← hreach] at hapart
  -- the sector of the inode is an `int`, and the sectors of a block are below it
  have hsmall : sext32 (v.part.inodeLba n) < 2147483648 := by
    have hbound := h.inodeSector_lt (n := n)
    rw [← hreach] at hbound
    by_cases hlba : v.part.inodeLba n < 2147483648
    · rw [sext32_of_lt hlba]
      exact hlba
    · rw [sext32, if_neg hlba] at hbound
      omega
  rw [u64_of_lt (by omega), u64_of_lt (by omega)]
  exact hapart

end InodesConsistent

/-! ## The call -/

/-- What a deletion leaves behind: the inode bitmaps of `u` are those before the call, and
the byte `k` of the bitmap of group `g` is zeroed. -/
structure InodeDeleted (v u w : Volume) (g k : Nat) : Prop where
  part : u.part = v.part
  consistent : InodesConsistent u
  before : ∀ i j, i < v.part.groupNumber → j < 8 * v.part.blockSize →
    bit (u.groupBlock BlockGroup.inodeBitmap i) j = bit (v.groupBlock BlockGroup.inodeBitmap i) j
  layout : SameLayout v.part w.part
  group : ∀ i, w.part.group BlockGroup.freeInodesCount i =
    if i = g then u16 (v.part.group BlockGroup.freeInodesCount g + 1)
    else v.part.group BlockGroup.freeInodesCount i
  total : w.part.super Superblock.freeInodesCount =
    u32 (v.part.super Superblock.freeInodesCount + 1)
  written : BlockWritten u w (v.part.group BlockGroup.inodeBitmap g) fun j =>
    !decide (j / 8 = k) && bit (u.ioGroupBlock BlockGroup.inodeBitmap g) j

theorem bit_zeroByte (b : Bytes) (k j : Nat) :
    bit (store b k 1 0) j = (!decide (j / 8 = k) && bit b j) := by
  rw [bit_store]
  by_cases hj : j / 8 = k
  · rw [if_pos (by omega)]
    simp [hj]
  · rw [if_neg (by omega)]
    simp [hj]

theorem deleteInode_reliable (epoch : Nat) (h : InodesConsistent v)
    (hg : v.part.inodeGroup n < v.part.groupNumber) (hreach : v.part.InodeReaches n) :
    (deleteInode v n epoch).1 = 0 ∧ ∃ u, InodeDeleted v u (deleteInode v n epoch).2
      (v.part.inodeGroup n) (v.part.inodeIndex n) := by
  obtain ⟨inode, w₁, hread, hw₁⟩ := readInode_reliable (n := n) h.mounted h.reliable h.inodeSize
  have hpart₁ := hw₁.part
  obtain ⟨buffer, w₂, hwrite, hpart₂, hr₂, himage₂⟩ := writeInode_reliable (n := n) (v := w₁)
    (hpart₁ ▸ h.mounted) (hw₁.reliable h.reliable) (deletedInode inode epoch)
  rw [hw₁.image, hpart₁] at himage₂
  rw [hpart₁] at hpart₂
  have hbits {i j : Nat} (hi : i < v.part.groupNumber) (hj : j < 8 * v.part.blockSize) :=
    h.bits_of_table hpart₂ hg hreach himage₂ hi hj
  have hc₂ : InodesConsistent w₂ := h.sameBits hpart₂ hr₂ fun g k hg hk => hbits hg hk
  obtain ⟨bitmap, w₃, hbitmap, hw₃, hio⟩ := readInodeBitmap_reliable (n := n) hc₂.mounted hr₂
  have hpart₃ := hw₃.part
  obtain ⟨w₄, hput, hpart₄, hwritten⟩ := writeInodeBitmap_reliable (n := n) (v := w₃)
    (hpart₃ ▸ hc₂.mounted) (hw₃.reliable hr₂) (store bitmap (v.part.inodeIndex n) 1 0)
  simp only [deleteInode, hread, hpart₁, hwrite, hbitmap, hput]
  rw [if_neg (by simp), if_neg (by simp)]
  refine ⟨rfl, w₂, hpart₂, hc₂, fun i j => hbits, ?_, fun i => ?_, ?_, hwritten.reliable, ?_⟩
  · rw [hpart₄, hpart₃, hpart₂]
    refine SameLayout.trans ?_ Partition.sameLayout_flush
    split
    · exact Partition.sameLayout_countInodeFreed.trans Partition.sameLayout_countDirGone
    · exact Partition.sameLayout_countInodeFreed
  · rw [hpart₄, hpart₃, hpart₂]
    rw [flushRequired, Partition.group_flush]
    split
    · rw [Partition.countDirGone_group, Partition.countInodeFreed_group]
    · rw [Partition.countInodeFreed_group]
  · rw [hpart₄, hpart₃, hpart₂]
    rw [flushRequired, Partition.super_flush]
    split
    · rw [Partition.countDirGone, Partition.super_setGroup, Partition.countInodeFreed_super]
    · rw [Partition.countInodeFreed_super]
  · obtain ⟨b, hb, himage⟩ := hwritten.image
    rw [hpart₃, hpart₂] at hb himage
    rw [hpart₂] at hio ⊢
    refine ⟨b, fun j hj => ?_, by rw [← hw₃.image]; exact himage⟩
    rw [hb j hj, bit_zeroByte, hio j hj]

/-! ## When a deletion is exact -/

/-- `n` is an inode of the volume and its bit is set. -/
def Volume.InUse (v : Volume) (n : Nat) : Prop :=
  0 < n ∧ n ≤ v.part.super Superblock.inodesCount ∧ v.inodeBit n = true

/-- A successful deletion clears the bit of the inode and no other, and the free counts
of the groups stay the numbers of clear bits. -/
def DeletesInode (v : Volume) (n epoch : Nat) : Prop :=
  (deleteInode v n epoch).1 = 0 →
    (∀ g k, g < v.part.groupNumber → k < 8 * v.part.blockSize →
      bit ((deleteInode v n epoch).2.groupBlock BlockGroup.inodeBitmap g) k =
        (!decide (g = v.part.inodeGroup n ∧ k = v.part.inodeIndex n) &&
          bit (v.groupBlock BlockGroup.inodeBitmap g) k)) ∧
    ∀ g, g < v.part.groupNumber →
      (deleteInode v n epoch).2.part.group BlockGroup.freeInodesCount g =
        clearCount ((deleteInode v n epoch).2.groupBlock BlockGroup.inodeBitmap g)
          (v.part.super Superblock.inodesPerGroup)

/-- The transfers of the deletion go to the block of the inode and to its bitmap. -/
def DeleteReaches (v : Volume) (n : Nat) : Prop :=
  v.part.InodeReaches n ∧
    v.part.Addressable (v.part.group BlockGroup.inodeBitmap (v.part.inodeGroup n))

/-- The inode is the first of its group, the next seven are free, and one more free inode
fits the counter. -/
def FirstOfFreeByte (v : Volume) (n : Nat) : Prop :=
  v.part.inodeIndex n = 0 ∧
    (∀ k, 0 < k → k < 8 → bit (v.groupBlock BlockGroup.inodeBitmap (v.part.inodeGroup n)) k = false) ∧
    v.part.group BlockGroup.freeInodesCount (v.part.inodeGroup n) < 65535

/-- The condition on a deletion. -/
def DeleteInodeMeets (v : Volume) (n : Nat) : Prop := DeleteReaches v n ∧ FirstOfFreeByte v n

namespace InodeDeleted

/-- The bits after the call, by those before it. -/
theorem bit_eq (hd : InodeDeleted v u w g k)
    (ha : v.part.Addressable (v.part.group BlockGroup.inodeBitmap g)) (hg : g < v.part.groupNumber)
    {i j : Nat} (hi : i < v.part.groupNumber) (hj : j < 8 * v.part.blockSize) :
    bit (w.groupBlock BlockGroup.inodeBitmap i) j =
      if i = g ∧ j < 4096 * v.part.writtenSectors then
        !decide (j / 8 = k) && bit (v.groupBlock BlockGroup.inodeBitmap i) j
      else bit (v.groupBlock BlockGroup.inodeBitmap i) j := by
  have hpart := hd.part
  have hlayout : SameLayout u.part w.part := hpart ▸ hd.layout
  have hwritten := hd.written
  rw [← hpart] at hwritten ha hg hi hj
  have hbit := hd.consistent.written hlayout hwritten ha hg hi hj
  have hio : u.ioGroupBlock BlockGroup.inodeBitmap g = u.groupBlock BlockGroup.inodeBitmap g := by
    rw [Volume.ioGroupBlock, Volume.groupBlock, ha]
  rw [hbit, hpart, hio]
  rw [hpart] at hg hi hj
  split
  · rename_i hin
    rw [hin.1, hd.before g j hg hj]
  · exact hd.before i j hi hj

end InodeDeleted

/-- The first inode of a group whose next seven are free: zeroing the byte clears its bit. -/
theorem InodeDeleted.clears (hd : InodeDeleted v u w g 0) (h : InodesConsistent v)
    (ha : v.part.Addressable (v.part.group BlockGroup.inodeBitmap g)) (hg : g < v.part.groupNumber)
    (hfree : ∀ k, 0 < k → k < 8 → bit (v.groupBlock BlockGroup.inodeBitmap g) k = false)
    {i j : Nat} (hi : i < v.part.groupNumber) (hj : j < 8 * v.part.blockSize) :
    bit (w.groupBlock BlockGroup.inodeBitmap i) j =
      (!decide (i = g ∧ j = 0) && bit (v.groupBlock BlockGroup.inodeBitmap i) j) := by
  have hw := h.mounted.writtenSectors_pos
  rw [hd.bit_eq ha hg hi hj]
  split
  · rename_i hin
    obtain ⟨rfl, -⟩ := hin
    rcases Nat.eq_zero_or_pos j with rfl | hpos
    · simp
    · by_cases hbyte : j < 8
      · rw [hfree j hpos hbyte, Bool.and_false, Bool.and_false]
      · have hdiv : j / 8 ≠ 0 := by omega
        have hne : j ≠ 0 := by omega
        simp [hdiv, hne]
  · rename_i hout
    have hne : ¬ (i = g ∧ j = 0) := by
      intro he
      omega
    simp [hne]

theorem deleteInode_exact_iff (epoch : Nat) (h : InodesConsistent v) (hn : v.InUse n) (hreach : DeleteReaches v n) :
    DeletesInode v n epoch ↔ FirstOfFreeByte v n := by
  obtain ⟨hpos, hle, hset⟩ := hn
  obtain ⟨htable, ha⟩ := hreach
  have hg := h.inodeGroup_lt hpos hle
  have hindex := h.inodeIndex_lt (n := n)
  have hfits := h.fits
  have hw := h.mounted.writtenSectors_pos
  obtain ⟨hres, u, hd⟩ := deleteInode_reliable epoch h hg htable
  obtain ⟨w, hw'⟩ : ∃ w, (deleteInode v n epoch).2 = w := ⟨_, rfl⟩
  rw [DeletesInode, hw']
  rw [hw'] at hd
  have hcount := hd.group (v.part.inodeGroup n)
  rw [if_pos rfl] at hcount
  rw [Volume.inodeBit] at hset
  obtain ⟨g, hgroup⟩ : ∃ g, v.part.inodeGroup n = g := ⟨_, rfl⟩
  obtain ⟨k, hk⟩ : ∃ k, v.part.inodeIndex n = k := ⟨_, rfl⟩
  rw [FirstOfFreeByte]
  rw [hgroup, hk] at hset hd ⊢
  rw [hgroup] at ha hg hcount
  rw [hk] at hindex
  constructor
  · intro hexact
    obtain ⟨hbits, hcounts⟩ := hexact hres
    have hclear : bit (w.groupBlock BlockGroup.inodeBitmap g) k = false := by
      rw [hbits g k hg (by omega)]
      simp
    -- the bit of the inode is in the byte that was zeroed
    have hbyte : k / 8 = k := by
      rw [hd.bit_eq ha hg hg (by omega)] at hclear
      split at hclear
      · rw [hset, Bool.and_true, Bool.not_eq_false', decide_eq_true_eq] at hclear
        exact hclear
      · rw [hset] at hclear
        cases hclear
    have hzero : k = 0 := by omega
    subst hzero
    refine ⟨rfl, fun j hj hj8 => ?_, ?_⟩
    · have hsize := h.mounted.blockSize_eq
      have hsectors := h.mounted.blockSectors_ge
      have hbefore := hbits g j hg (by omega)
      rw [hd.bit_eq ha hg hg (by omega), if_pos ⟨rfl, by omega⟩] at hbefore
      have hdiv : j / 8 = 0 := by omega
      have hne : j ≠ 0 := by omega
      simpa [hdiv, hne] using hbefore
    · have hafter := hcounts g hg
      have hgiven := clearCount_given hindex hset fun j hj => by
        rw [hbits g j hg (by omega)]
        simp
      rw [hcount, hgiven, ← h.freeCount g hg] at hafter
      have hlt : v.part.group BlockGroup.freeInodesCount g < 65536 := Partition.group_lt
      unfold u16 at hafter
      omega
  · rintro ⟨rfl, hfree, hroom⟩ -
    have hbits {i j : Nat} (hi : i < v.part.groupNumber) (hj : j < 8 * v.part.blockSize) :=
      hd.clears h ha hg hfree hi hj
    refine ⟨fun i j => hbits, fun i hi => ?_⟩
    rw [hd.group i]
    split
    · rename_i hig
      subst hig
      have hgiven := clearCount_given hindex hset fun j hj => by
        rw [hbits hg (by omega)]
        simp
      rw [hgiven, ← h.freeCount i hg]
      unfold u16
      omega
    · rename_i hig
      rw [h.freeCount i hi]
      refine (clearCount_congr fun j hj => ?_).symm
      rw [hbits hi (by omega)]
      simp [hig]

/-! ## Runs -/

/-- The volume, and inodes in use that nobody deleted. -/
abbrev InodeConfig := Volume × List Nat

/-- Calls of the two functions that meet `okAllocate` and `okDelete`. -/
inductive InodeStep (okAllocate : Volume → Prop) (okDelete : Volume → Nat → Prop) :
    InodeConfig → InodeConfig → Prop
  | allocate {v : Volume} {used : List Nat} (hok : okAllocate v) :
      InodeStep okAllocate okDelete (v, used) ((allocateInode v).2,
        if (allocateInode v).1 = 0 then used else (allocateInode v).1 :: used)
  | delete {v : Volume} {used : List Nat} {n epoch : Nat} (hn : v.InUse n) (hok : okDelete v n) :
      InodeStep okAllocate okDelete (v, used) ((deleteInode v n epoch).2, used.filter (· ≠ n))

/-- The invariant of the runs: no inode in use looks free. -/
structure InodesHold (t : InodeConfig) : Prop where
  consistent : InodesConsistent t.1
  used : ∀ n ∈ t.2, t.1.InUse n

/-- Sums that differ by one at `g` differ by one. -/
theorem sum_succ_at {G : Nat} (hg : g < G) {f c : Nat → Nat} (h : c g + 1 = f g)
    (hne : ∀ i, i ≠ g → c i = f i) :
    ∑ i ∈ Finset.range G, c i + 1 = ∑ i ∈ Finset.range G, f i := by
  have hmem := Finset.mem_range.mpr hg
  have hrest : ∑ i ∈ (Finset.range G).erase g, c i = ∑ i ∈ (Finset.range G).erase g, f i :=
    Finset.sum_congr rfl fun i hi => hne i (Finset.ne_of_mem_erase hi)
  have hf : f g + ∑ i ∈ (Finset.range G).erase g, f i = ∑ i ∈ Finset.range G, f i :=
    Finset.add_sum_erase _ f hmem
  have hc : c g + ∑ i ∈ (Finset.range G).erase g, c i = ∑ i ∈ Finset.range G, c i :=
    Finset.add_sum_erase _ c hmem
  omega

/-- Two inodes with one group and one index are one inode. -/
theorem inode_ext {p : Partition} (hn : 0 < n) (hn' : n < 4294967296) (hm : 0 < m)
    (hm' : m < 4294967296) (hg : p.inodeGroup n = p.inodeGroup m)
    (hi : p.inodeIndex n = p.inodeIndex m) : n = m := by
  rw [Partition.inodeGroup_eq hn hn', Partition.inodeGroup_eq hm hm'] at hg
  rw [Partition.inodeIndex_eq hn hn', Partition.inodeIndex_eq hm hm'] at hi
  have hdn := Nat.div_add_mod (n - 1) (p.super Superblock.inodesPerGroup)
  have hdm := Nat.div_add_mod (m - 1) (p.super Superblock.inodesPerGroup)
  rw [hg, hi] at hdn
  omega

theorem SameLayout.inUse (hl : SameLayout v.part w.part)
    (hbit : bit (w.groupBlock BlockGroup.inodeBitmap (v.part.inodeGroup n)) (v.part.inodeIndex n) =
      bit (v.groupBlock BlockGroup.inodeBitmap (v.part.inodeGroup n)) (v.part.inodeIndex n))
    (hn : v.InUse n) : w.InUse n := by
  rw [Volume.InUse, hl.super _ (by decide), Volume.inodeBit, hl.inodeGroup, hl.inodeIndex, hbit]
  exact hn

theorem InodesHold.unchanged (h : InodesHold (v, used)) (hw : Unchanged v w) :
    InodesHold (w, used) :=
  ⟨h.consistent.sameBits hw.part (hw.reliable h.consistent.reliable) fun g k _ _ => by
      rw [hw.groupBlock],
    fun n hn => SameLayout.inUse (hw.part ▸ SameLayout.refl _) (by rw [hw.groupBlock]) (h.used n hn)⟩

theorem InodesHold.allocate (h : InodesHold (v, used)) (hok : AllocateInodeMeets v) :
    InodesHold ((allocateInode v).2,
      if (allocateInode v).1 = 0 then used else (allocateInode v).1 :: used) := by
  have hc : InodesConsistent v := h.consistent
  rcases allocateInode_reliable hc.mounted hc.reliable hc.nonzero with
    ⟨hzero, hsame, -⟩ | ⟨g, k, hg, hclear, hnum, hne, ht⟩
  · rw [if_pos hzero]
    exact h.unchanged hsame
  · obtain ⟨rfl, ha, hk⟩ := hok g k hg hclear hne
    rw [show v.ioGroupBlock BlockGroup.inodeBitmap 0 =
      v.groupBlock BlockGroup.inodeBitmap 0 by rw [Volume.ioGroupBlock, Volume.groupBlock, ha]]
      at hclear
    have hindex := hc.padded 0 k hg.1 hclear.1 hclear.2.1
    have hle : v.part.super Superblock.inodesPerGroup < 4294967296 := Partition.super_lt
    have hfits := hc.fits
    rw [u32_of_lt (by omega)] at hnum ht
    rw [Nat.add_sub_cancel] at ht
    rw [hnum, if_neg (by omega)]
    obtain ⟨w, hw⟩ : ∃ w, (allocateInode v).2 = w := ⟨_, rfl⟩
    rw [hw] at ht ⊢
    obtain ⟨hrange, hgroup, hidx, hbits, hcount, htotal⟩ := ht.allocates hc hg hclear ha hk
    have hl := ht.sameLayout
    have hother {i : Nat} (hi : i ≠ 0) : w.part.group BlockGroup.freeInodesCount i =
        v.part.group BlockGroup.freeInodesCount i := by
      rw [ht.group, if_neg hi]
    refine ⟨show InodesConsistent w from hc.transfer hl ht.written.reliable
      (fun i j hi hj hbit => ?_) (fun i hi => ?_) ?_, fun m hm => ?_⟩
    · rw [hbits i j hi hj, Bool.or_eq_false_iff] at hbit
      exact hc.padded i j hi hj hbit.2
    · by_cases hi0 : i = 0
      · subst hi0
        have htaken := clearCount_taken hindex hclear.2.1 fun j hj => by
          rw [hbits 0 j hi (by omega)]
          simp
        rw [← hc.freeCount 0 hi] at htaken
        omega
      · rw [hother hi0, hc.freeCount i hi]
        refine (clearCount_congr fun j hj => ?_).symm
        rw [hbits i j hi (by omega)]
        simp [hi0]
    · have hsum := sum_succ_at hg.1 hcount fun i => hother
      rw [← hc.freeTotal] at hsum
      omega
    · have hcg {n : Nat} (hn : v.InUse n) := hc.inodeGroup_lt hn.1 hn.2.1
      rcases List.mem_cons.mp hm with rfl | hm
      · refine ⟨by omega, by rw [hl.super _ (by decide)]; exact hrange, ?_⟩
        rw [Volume.inodeBit, hl.inodeGroup, hl.inodeIndex, hgroup, hidx, hbits 0 k hg.1 hclear.1]
        simp
      · have hset := h.used m hm
        have hidx := hc.inodeIndex_lt (n := m)
        refine hl.inUse ?_ hset
        rw [hbits _ _ (hcg hset) (by omega), show bit (v.groupBlock BlockGroup.inodeBitmap
          (v.part.inodeGroup m)) (v.part.inodeIndex m) = true from hset.2.2, Bool.or_true]

theorem InodesHold.delete (h : InodesHold (v, used)) (hn : v.InUse n) (hok : DeleteInodeMeets v n) :
    InodesHold ((deleteInode v n epoch).2, used.filter (· ≠ n)) := by
  have hc : InodesConsistent v := h.consistent
  have hexact := (deleteInode_exact_iff epoch hc hn hok.1).mpr hok.2
  have hg := hc.inodeGroup_lt hn.1 hn.2.1
  have hfits := hc.fits
  obtain ⟨hres, u, hd⟩ := deleteInode_reliable epoch hc hg hok.1.1
  obtain ⟨w, hw⟩ : ∃ w, (deleteInode v n epoch).2 = w := ⟨_, rfl⟩
  rw [DeletesInode, hw] at hexact
  rw [hw] at hd ⊢
  obtain ⟨hbits, hcounts⟩ := hexact hres
  have hl := hd.layout
  have hroom := hok.2.2.2
  have hlt : v.part.super Superblock.inodesCount < 4294967296 := Partition.super_lt
  have hidx {m : Nat} := hc.inodeIndex_lt (n := m)
  refine ⟨show InodesConsistent w from hc.transfer hl hd.written.reliable
    (fun i j hi hj hbit => ?_) hcounts ?_, fun m hm => ?_⟩
  · rw [hbits i j hi hj, Bool.and_eq_false_iff] at hbit
    rcases hbit with hbit | hbit
    · have hij : i = v.part.inodeGroup n ∧ j = v.part.inodeIndex n := by simpa using hbit
      rw [hij.2]
      exact hidx
    · exact hc.padded i j hi hj hbit
  · -- the total stays below the number of inodes
    have hsum := sum_succ_at hg (f := fun i => w.part.group BlockGroup.freeInodesCount i)
      (c := fun i => v.part.group BlockGroup.freeInodesCount i)
      (by rw [hd.group, if_pos rfl]; unfold u16; omega) (fun i hi => by rw [hd.group, if_neg hi])
    have hle : ∑ i ∈ Finset.range v.part.groupNumber, w.part.group BlockGroup.freeInodesCount i ≤
        v.part.super Superblock.inodesCount := by
      have hconst : ∑ _i ∈ Finset.range v.part.groupNumber, v.part.super Superblock.inodesPerGroup =
          v.part.super Superblock.inodesCount := by
        rw [Finset.sum_const_nat fun _ _ => rfl, Finset.card_range, hc.count]
      rw [← hconst]
      refine Finset.sum_le_sum fun i hi => ?_
      rw [hcounts i (Finset.mem_range.mp hi)]
      exact clearCount_le _ _
    rw [← hc.freeTotal] at hsum
    rw [hd.total, u32_of_lt (by omega)]
    exact hsum
  · rw [List.mem_filter] at hm
    have hset : v.InUse m := h.used m hm.1
    have hne : ¬ (v.part.inodeGroup m = v.part.inodeGroup n ∧
        v.part.inodeIndex m = v.part.inodeIndex n) := by
      intro he
      have hmn := inode_ext hset.1 (by have := hset.2.1; omega) hn.1 (by have := hn.2.1; omega)
        he.1 he.2
      simp [hmn] at hm
    have hmidx := hidx (m := m)
    refine hl.inUse ?_ hset
    rw [hbits _ _ (hc.inodeGroup_lt hset.1 hset.2.1) (by omega)]
    simp [hne]

/-- In every run of calls that meet the conditions, from a consistent volume, no inode in
use looks free, and the next deletion of an inode in use whose transfers go where they
should is exact if and only if it meets its condition. -/
theorem deleteInode_exact {t : InodeConfig} (hv : InodesConsistent v)
    (hused : ∀ n ∈ used, v.InUse n)
    (hrun : Reaches (InodeStep AllocateInodeMeets DeleteInodeMeets) (v, used) t) :
    (∀ n ∈ t.2, t.1.InUse n) ∧ ∀ n epoch, t.1.InUse n → DeleteReaches t.1 n →
      (DeletesInode t.1 n epoch ↔ FirstOfFreeByte t.1 n) := by
  have hinv : InodesHold t := by
    refine Run.invariant InodesHold (fun s t hs hstep => ?_) ⟨hv, hused⟩ hrun
    cases hstep with
    | allocate hmeets => exact hs.allocate hmeets
    | delete hn hmeets => exact hs.delete hn hmeets
  exact ⟨hinv.used, fun n epoch hn hreach => deleteInode_exact_iff epoch hinv.consistent hn hreach⟩

/-- Inode 1 in use and the other seven of its group free: its deletion is exact. -/
theorem deleteInode_exact_twoGroups : DeletesInode (twoGroups (1, 255)) 1 0 := by
  have huse : (twoGroups (1, 255)).InUse 1 := ⟨by decide, by decide +kernel, by decide +kernel⟩
  have hreach : DeleteReaches (twoGroups (1, 255)) 1 := by
    refine ⟨?_, by decide +kernel⟩
    rw [Partition.InodeReaches]
    decide +kernel
  refine ((@deleteInode_exact _ [1] _ (inodesConsistent_twoGroups (by decide))
    (fun n hn => ?_) .refl).2 1 0 huse hreach).mpr ⟨by decide +kernel, ?_, by decide +kernel⟩
  · rw [List.mem_singleton.mp hn]
    exact huse
  · intro k hk hk8
    have hall : ∀ k, k < 8 → 0 < k →
        bit ((twoGroups (1, 255)).groupBlock BlockGroup.inodeBitmap
          ((twoGroups (1, 255)).part.inodeGroup 1)) k = false := by decide +kernel
    exact hall k hk8 hk

/-- With all inodes in use, the deletion of inode 2 leaves its bit set. -/
theorem deleteInode_not_exact :
    ¬ ∀ v, InodesConsistent v → ∀ n epoch, v.InUse n → DeletesInode v n epoch := by
  intro h
  have hexact := h (twoGroups (255, 255)) (inodesConsistent_twoGroups (by decide)) 2 0
    ⟨by decide, by decide +kernel, by decide +kernel⟩
  have hres : (deleteInode (twoGroups (255, 255)) 2 0).1 = 0 := by decide +kernel
  have hbit := (hexact hres).1 0 1 (by decide +kernel) (by decide +kernel)
  have hset : bit ((deleteInode (twoGroups (255, 255)) 2 0).2.groupBlock
      BlockGroup.inodeBitmap 0) 1 = true := by decide +kernel
  have hplace : (twoGroups (255, 255)).part.inodeGroup 2 = 0 ∧
      (twoGroups (255, 255)).part.inodeIndex 2 = 1 := by decide +kernel
  rw [hset, hplace.1, hplace.2] at hbit
  simp at hbit

end UnedKernel.Ext2
