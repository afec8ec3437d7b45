import UnedKernel.Ext2.BlockArray
import UnedKernel.Ext2.InodeRuns

/-! # The inode table as an array

`ext2_read_inode` after `ext2_write_inode`. The write replaces the inode in the
block of the table that it reads before, and takes a transfer that moved some of
the sectors for one that moved them all. -/

namespace UnedKernel.Ext2
open ByteMem Word Sectors

namespace Partition

/-- The blocks of the inode table of a group. -/
def inodeTableBlocks (p : Partition) : Nat :=
  (p.super Superblock.inodesPerGroup * p.inodeSize + (p.blockSize - 1)) / p.blockSize

/-- The block of the inode table where the inode is. -/
def inodeBlock (p : Partition) (n : Nat) : Nat :=
  p.group BlockGroup.inodeTable (p.inodeGroup n) + p.inodeIndex n * p.inodeSize / p.blockSize

/-- `n` is an inode of the volume. -/
def IsInode (p : Partition) (n : Nat) : Prop := 0 < n ∧ n ≤ p.super Superblock.inodesCount

/-- The sector belongs to the inode table of group `g`. -/
def InInodeTable (p : Partition) (g sector : Nat) : Prop :=
  p.blockSector (p.group BlockGroup.inodeTable g) ≤ sector ∧
    sector < p.blockSector (p.group BlockGroup.inodeTable g + p.inodeTableBlocks)

end Partition

/-- The inode tables of the groups that hold inodes are disjoint and end below 4 GiB, and the size
of an inode is a power of two between 128 and the block size. -/
structure InodeTables (p : Partition) : Prop where
  pow : ∃ e, p.inodeSize = 2 ^ e
  lower : 128 ≤ p.inodeSize
  upper : p.inodeSize ≤ p.blockSize
  below : ∀ g, g * p.super Superblock.inodesPerGroup < p.super Superblock.inodesCount →
    (p.group BlockGroup.inodeTable g + p.inodeTableBlocks) * p.blockSize ≤ 4294967296
  disjoint : ∀ g h, g * p.super Superblock.inodesPerGroup < p.super Superblock.inodesCount →
    h * p.super Superblock.inodesPerGroup < p.super Superblock.inodesCount → g ≠ h →
    Apart (p.group BlockGroup.inodeTable g) p.inodeTableBlocks
      (p.group BlockGroup.inodeTable h) p.inodeTableBlocks

/-- `x` is the volume `v` at a time when the sectors of a block can be transferred. -/
structure Volume.Steady (v x : Volume) : Prop where
  part : x.part = v.part
  image : x.disk.image = v.disk.image
  works : ∀ t, t < v.part.blockSectors → x.disk.fails (x.disk.clock + t) = false

/-- The inodes behave as an array: after a write of inode `n` a read of it returns the descriptor,
a read of inode `m` what it returned before, and only the table of the group of `n` changed. -/
structure InodesFaithful (v : Volume) (n m : Nat) (inode : Bytes) : Prop where
  written : ∀ x, (writeInode v n inode).2.Steady x → ∃ a, (readInode x n).1 = some a ∧
    ∀ i, i < v.part.inodeSize → a i = inode i
  others : ∀ x y, v.Steady x → (writeInode v n inode).2.Steady y →
    ∃ a b, (readInode x m).1 = some a ∧ (readInode y m).1 = some b ∧
      ∀ i, i < v.part.inodeSize → b i = a i
  frame : ∀ a, (writeInode v n inode).2.disk.image a ≠ v.disk.image a →
    v.part.InInodeTable (v.part.inodeGroup n) (a / 512)

/-! ## The transfers of a write -/

namespace Volume

/-- The block of inode `n` on the disk, from the sector that the code computes. -/
def inodeWindow (v : Volume) (n : Nat) : Bytes := window v.disk.image (sext32 (v.part.inodeLba n))

/-- The sectors that the read of the block moves. -/
def inodeRead (v : Volume) : Nat := v.disk.moved v.part.blockSectors

/-- The sectors that the write of the block moves, after the read. -/
def inodeWritten (v : Volume) : Nat :=
  (v.disk.after v.disk.image (v.disk.issued v.part.blockSectors)).moved v.part.blockSectors

/-- The block that `ext2_write_inode` writes: the inode in what the read left in the buffer. -/
def inodeBuffer (v : Volume) (n : Nat) (inode : Bytes) : Bytes :=
  copy (copy (kmalloc v).1 0 (v.inodeWindow n) 0 (512 * v.inodeRead)) (v.part.inodeOffset n) inode 0
    v.part.inodeSize

end Volume

/-- The inode is in the sectors that are written, the other inode is not in those that are
written and not read, and the sector is that of the inode; where not, what is written or missing
is what the disk holds. -/
structure InodeWriteMeets (v : Volume) (n m : Nat) (inode : Bytes) : Prop where
  reached : ∀ i, i < v.part.inodeSize → v.part.inodeOffset n + i < 512 * v.inodeWritten ∨
    inode i = v.inodeWindow n (v.part.inodeOffset n + i)
  kept : v.part.inodeBlock m = v.part.inodeBlock n → ∀ i, i < v.part.inodeSize →
    512 * v.inodeRead ≤ v.part.inodeOffset m + i → v.part.inodeOffset m + i < 512 * v.inodeWritten →
    (kmalloc v).1 (v.part.inodeOffset m + i) = v.inodeWindow m (v.part.inodeOffset m + i)
  placed : v.part.InodeReaches n ∨ ∀ i, i < 512 * v.inodeWritten →
    v.inodeBuffer n inode i = v.inodeWindow n i

section

variable {p : Partition} {d : Disk} {v x : Volume} {n m g i : Nat} {inode buffer : Bytes}

namespace Mounted

theorem sizeToBlocks_blockSize (h : Mounted p) : sizeToBlocks p.blockSize = p.blockSectors := by
  have hsize := h.blockSize_eq
  have hq := h.blockSectors_le
  unfold sizeToBlocks u64
  omega

/-- The count of a transfer of a block is zero when and only when nothing was moved. -/
theorem moved_count (h : Mounted p) {k : Nat} (hk : k ≤ p.blockSectors) :
    u32 (if k < p.blockSectors then blockToSize k else p.blockSize) = 0 ↔ k = 0 := by
  have hsize := h.blockSize_eq
  have hq := h.blockSectors_le
  have hq2 := h.blockSectors_ge
  unfold blockToSize u64 u32
  split <;> omega

theorem readDisk_moved (h : Mounted p) (d : Disk) (buffer : Bytes) (sector : Nat) :
    ∃ count, readDisk d buffer sector p.blockSize = (count,
        copy buffer 0 (window d.image (sext32 sector)) 0 (512 * d.moved p.blockSectors),
        d.after d.image (d.issued p.blockSectors)) ∧ (count = 0 ↔ d.moved p.blockSectors = 0) := by
  have hsize := h.blockSize_bounds
  refine ⟨_, ?_, h.moved_count Disk.moved_le⟩
  rw [Disk.readDisk_eq, sext32_of_lt (by omega), h.sizeToBlocks_blockSize]

theorem writeDisk_moved (h : Mounted p) (d : Disk) (buffer : Bytes) {sector : Nat}
    (hs : sector < 4294967296) :
    ∃ count, writeDisk d buffer sector p.blockSize = (count,
        d.after (put d.image (sext32 sector) buffer (d.moved p.blockSectors))
          (d.issued p.blockSectors)) ∧ (count = 0 ↔ d.moved p.blockSectors = 0) := by
  have hsize := h.blockSize_bounds
  refine ⟨_, ?_, h.moved_count Disk.moved_le⟩
  rw [Disk.writeDisk_eq hs, sext32_of_lt (by omega), h.sizeToBlocks_blockSize]

end Mounted

/-- A write that returns 0 has moved some sectors each way. -/
theorem writeInode_moved (hm : Mounted v.part) (h : (writeInode v n inode).1 = 0) :
    0 < v.inodeRead ∧ 0 < v.inodeWritten ∧ (writeInode v n inode).2.part = v.part ∧
      (writeInode v n inode).2.disk.image =
        put v.disk.image (sext32 (v.part.inodeLba n)) (v.inodeBuffer n inode) v.inodeWritten := by
  obtain ⟨r, hread, hr⟩ := hm.readDisk_moved v.disk (kmalloc v).1 (v.part.inodeLba n)
  obtain ⟨s, hwrite, hs⟩ := hm.writeDisk_moved
    (v.disk.after v.disk.image (v.disk.issued v.part.blockSectors)) (v.inodeBuffer n inode)
    (inodeLba_lt (n := n) v.part)
  have hlen := hm.transferLength
  rw [Volume.inodeBuffer, Volume.inodeWindow, Volume.inodeRead] at hwrite
  simp only [writeInode, kmalloc, hlen] at hread hwrite h ⊢
  simp only [hread] at h ⊢
  by_cases hr0 : r = 0
  · rw [if_pos hr0] at h
    exact absurd h Nat.one_ne_zero
  · rw [if_neg hr0] at h ⊢
    simp only [hwrite] at h ⊢
    by_cases hs0 : s = 0
    · rw [if_pos hs0] at h
      exact absurd h Nat.one_ne_zero
    · rw [if_neg hs0]
      exact ⟨Nat.pos_of_ne_zero (mt hr.mpr hr0), Nat.pos_of_ne_zero (mt hs.mpr hs0), rfl, rfl⟩

/-- A read without failure returns the bytes of the inode's place in its block. -/
theorem readInode_steady (hm : Mounted v.part) (hpos : 0 < v.part.inodeSize)
    (hfits : v.part.inodeOffset n + v.part.inodeSize ≤ v.part.blockSize) (hx : v.Steady x) :
    ∃ a, (readInode x n).1 = some a ∧
      ∀ i, i < v.part.inodeSize → a i = v.inodeWindow n (v.part.inodeOffset n + i) := by
  have hmx : Mounted x.part := by rw [hx.part]; exact hm
  have hsize := hm.blockSize_eq
  have hq := hm.blockSectors_ge
  have hmoved : x.disk.moved x.part.blockSectors = x.part.blockSectors :=
    Disk.moved_eq (by rw [hx.part]; exact hx.works)
  obtain ⟨count, hread, hcount⟩ := hmx.readDisk_moved x.disk (kmalloc x).1 (x.part.inodeLba n)
  have hlen := hmx.transferLength
  have hpart := hx.part
  rw [hmoved, hpart] at hcount
  simp only [readInode, kmalloc, hlen] at hread ⊢
  simp only [hread]
  rw [if_neg (by omega), if_neg (by rw [hpart]; omega)]
  refine ⟨_, rfl, fun i hi => ?_⟩
  rw [hpart, copy_apply_in _ _ (Nat.zero_le i) (by omega), ← hpart, hmoved, hpart,
    copy_apply_in _ _ (by omega) (by omega), hx.image, Volume.inodeWindow]
  exact congrArg _ (by omega)

/-! ## Places of inodes -/

namespace InodeTables

theorem size_dvd (ht : InodeTables p) (hm : Mounted p) : p.inodeSize ∣ p.blockSize := by
  obtain ⟨e, he⟩ := ht.pow
  have hle := ht.upper
  have hsize := hm.blockSize_pow
  rw [he, hsize] at hle
  rw [he, hsize]
  exact Nat.pow_dvd_pow 2 ((Nat.pow_le_pow_iff_right (by omega)).mp hle)

theorem group_holds (hn : p.IsInode n) :
    p.inodeGroup n * p.super Superblock.inodesPerGroup < p.super Superblock.inodesCount := by
  have hlt : p.super Superblock.inodesCount < 4294967296 := Partition.super_lt
  obtain ⟨hpos, hle⟩ := hn
  rw [Partition.inodeGroup_eq hpos (by omega)]
  have := Nat.div_mul_le_self (n - 1) (p.super Superblock.inodesPerGroup)
  omega

/-- The bytes of the table end below 4 GiB, and those of an inode are among them. -/
theorem place_lt (ht : InodeTables p) (hm : Mounted p) (hn : p.IsInode n) :
    p.inodeIndex n * p.inodeSize + p.inodeSize ≤ p.inodeTableBlocks * p.blockSize ∧
      p.inodeTableBlocks * p.blockSize ≤ 4294967296 := by
  have hindex : p.inodeIndex n < p.super Superblock.inodesPerGroup := Nat.mod_lt _ hm.inodesPerGroup
  have hmul : (p.inodeIndex n + 1) * p.inodeSize ≤ p.super Superblock.inodesPerGroup * p.inodeSize :=
    Nat.mul_le_mul_right _ hindex
  have hsize := hm.blockSize_bounds
  have hbelow := ht.below _ (group_holds hn)
  rw [Nat.add_mul] at hbelow
  have hdiv := Nat.div_add_mod (p.super Superblock.inodesPerGroup * p.inodeSize + (p.blockSize - 1))
    p.blockSize
  have hmod := Nat.mod_lt (p.super Superblock.inodesPerGroup * p.inodeSize + (p.blockSize - 1))
    (show 0 < p.blockSize by omega)
  rw [Nat.succ_mul] at hmul
  have hcover : p.super Superblock.inodesPerGroup * p.inodeSize ≤ p.inodeTableBlocks * p.blockSize := by
    rw [Partition.inodeTableBlocks, Nat.mul_comm _ p.blockSize]
    omega
  omega

theorem product_eq (ht : InodeTables p) (hm : Mounted p) (hn : p.IsInode n) :
    u32 (p.inodeIndex n * p.inodeSize) = p.inodeIndex n * p.inodeSize := by
  have := ht.place_lt hm hn
  have := ht.lower
  exact u32_of_lt (by omega)

theorem inodeOffset_eq (ht : InodeTables p) (hm : Mounted p) (hn : p.IsInode n) :
    p.inodeOffset n = p.inodeIndex n * p.inodeSize % p.blockSize := by
  rw [Partition.inodeOffset, ht.product_eq hm hn]

/-- An inode does not cross the end of its block. -/
theorem offset_fits (ht : InodeTables p) (hm : Mounted p) (hn : p.IsInode n) :
    p.inodeOffset n + p.inodeSize ≤ p.blockSize := by
  obtain ⟨k, hk⟩ := ht.size_dvd hm
  have hpos : 0 < k := Nat.pos_of_ne_zero fun h => by
    have := hm.blockSize_bounds
    rw [h] at hk
    omega
  rw [ht.inodeOffset_eq hm hn, hk, Nat.mul_comm (p.inodeIndex n), Nat.mul_mod_mul_left,
    ← Nat.mul_succ]
  exact Nat.mul_le_mul_left _ (Nat.mod_lt _ hpos)

theorem tableBlock_lt (ht : InodeTables p) (hm : Mounted p) (hn : p.IsInode n) :
    p.inodeIndex n * p.inodeSize / p.blockSize < p.inodeTableBlocks := by
  have := ht.place_lt hm hn
  have := ht.lower
  rw [Nat.div_lt_iff_lt_mul (by have := hm.blockSize_bounds; omega)]
  omega

theorem inodeBlock_bytes_lt (ht : InodeTables p) (hm : Mounted p) (hn : p.IsInode n) :
    p.inodeBlock n * p.blockSize < 4294967296 := by
  have hbelow := ht.below _ (group_holds hn)
  have hlt := ht.tableBlock_lt hm hn
  have hpos : 0 < p.blockSize := by have := hm.blockSize_bounds; omega
  refine Nat.lt_of_lt_of_le (Nat.mul_lt_mul_of_pos_right ?_ hpos) hbelow
  unfold Partition.inodeBlock
  omega

theorem inodeLba_eq (ht : InodeTables p) (hm : Mounted p) (hn : p.IsInode n) :
    p.inodeLba n = p.blockLba (p.inodeBlock n) := by
  have hbytes := ht.inodeBlock_bytes_lt hm hn
  have hsize := hm.blockSize_eq
  have htable : p.group BlockGroup.inodeTable (p.inodeGroup n) * p.blockSize < 4294967296 :=
    Nat.lt_of_le_of_lt (Nat.mul_le_mul_right _ (Nat.le_add_right _ _)) hbytes
  have hindex : p.inodeIndex n * p.inodeSize / p.blockSize * p.blockSize < 4294967296 :=
    Nat.lt_of_le_of_lt (Nat.mul_le_mul_right _ (Nat.le_add_left _ _)) hbytes
  have hsectors (b : Nat) : b * p.blockSize / 512 = b * p.blockSectors := by
    rw [hsize, Nat.mul_left_comm]
    exact Nat.mul_div_cancel_left _ (by omega)
  have hindex' := hsectors (p.inodeIndex n * p.inodeSize / p.blockSize)
  have hinner : u32 (p.inodeIndex n * p.inodeSize / p.blockSize * p.blockSectors) =
      p.inodeIndex n * p.inodeSize / p.blockSize * p.blockSectors := u32_of_lt (by omega)
  rw [Partition.inodeLba, Partition.blockLba, hm.divideRoundedUp_blockSize, hm.sectorSize,
    ht.product_eq hm hn, u32_of_lt htable, u32_of_lt hbytes, hsectors, hsectors, hinner,
    Partition.inodeBlock, Nat.add_mul, Nat.add_assoc]

/-- Two inodes have different blocks or different places in one. -/
theorem places_apart (ht : InodeTables p) (hm : Mounted p) (hn : p.IsInode n) (hm' : p.IsInode m)
    (hne : n ≠ m) (hblock : p.inodeBlock m = p.inodeBlock n) :
    Apart (p.inodeOffset n) p.inodeSize (p.inodeOffset m) p.inodeSize := by
  have hlt : p.super Superblock.inodesCount < 4294967296 := Partition.super_lt
  have hgroup : p.inodeGroup n = p.inodeGroup m := by
    by_contra hg
    have hdisjoint := ht.disjoint _ _ (group_holds hn) (group_holds hm') hg
    have hlastn := ht.tableBlock_lt hm hn
    have hlastm := ht.tableBlock_lt hm hm'
    have := Nat.zero_le (p.inodeIndex n * p.inodeSize / p.blockSize)
    have := Nat.zero_le (p.inodeIndex m * p.inodeSize / p.blockSize)
    unfold Partition.inodeBlock at hblock
    unfold Apart at hdisjoint
    omega
  have hindex : p.inodeIndex n ≠ p.inodeIndex m := fun he =>
    hne (inode_ext hn.1 (by have := hn.2; omega) hm'.1 (by have := hm'.2; omega) hgroup he)
  have hdivn := Nat.div_add_mod (p.inodeIndex n * p.inodeSize) p.blockSize
  have hdivm := Nat.div_add_mod (p.inodeIndex m * p.inodeSize) p.blockSize
  have hquot : p.inodeIndex m * p.inodeSize / p.blockSize = p.inodeIndex n * p.inodeSize / p.blockSize := by
    unfold Partition.inodeBlock at hblock
    rw [hgroup] at hblock
    omega
  rw [hquot] at hdivm
  rw [ht.inodeOffset_eq hm hn, ht.inodeOffset_eq hm hm']
  unfold Apart
  rcases Nat.lt_or_gt_of_ne hindex with h | h
  · have hmul := Nat.mul_le_mul_right p.inodeSize h
    rw [Nat.succ_mul] at hmul
    omega
  · have hmul := Nat.mul_le_mul_right p.inodeSize h
    rw [Nat.succ_mul] at hmul
    omega

end InodeTables

/-! ## Exactness -/

namespace InodeTables

private theorem inRange_iff {l b f e q k : Nat} (hl : l < 4294967296) (hf : f ≤ b) (he : b + q ≤ e)
    (hlt : e ≤ 8388608) (hk : k < q) :
    l + f ≤ u64 (sext32 (u32 (l + b)) + k) ∧ u64 (sext32 (u32 (l + b)) + k) < l + e ↔
      sext32 (u32 (l + b)) = l + b := by
  unfold u64 sext32 u32
  split <;> omega

/-- A transfer that starts at the inode's block stays in the table, one that starts elsewhere
never meets it. -/
theorem inTable_iff (ht : InodeTables p) (hm : Mounted p) (hn : p.IsInode n) {k : Nat}
    (hk : k < p.blockSectors) :
    p.InInodeTable (p.inodeGroup n) (u64 (sext32 (p.inodeLba n) + k)) ↔ p.InodeReaches n := by
  have hbytes := ht.inodeBlock_bytes_lt hm hn
  have hbelow := ht.below _ (group_holds hn)
  have hlast := ht.tableBlock_lt hm hn
  have hsize := hm.blockSize_eq
  have hq := hm.blockSectors_le
  have hlba := hm.lba
  have hstart : p.inodeBlock n + 1 ≤ p.group BlockGroup.inodeTable (p.inodeGroup n) + p.inodeTableBlocks := by
    unfold Partition.inodeBlock
    omega
  have hend := Nat.mul_le_mul_right p.blockSectors hstart
  have hfrom : p.group BlockGroup.inodeTable (p.inodeGroup n) * p.blockSectors ≤
      p.inodeBlock n * p.blockSectors := Nat.mul_le_mul_right _ (Nat.le_add_right _ _)
  have hreach : p.InodeReaches n ↔ sext32 (p.inodeLba n) = p.lba + p.inodeBlock n * p.blockSectors :=
    Iff.rfl
  have hsector : p.inodeBlock n * p.blockSize / 512 = p.inodeBlock n * p.blockSectors := by
    rw [hsize, Nat.mul_left_comm]
    exact Nat.mul_div_cancel_left _ (by omega)
  rw [hreach, ht.inodeLba_eq hm hn, Partition.InInodeTable, Partition.blockSector, Partition.blockSector,
    Partition.blockLba, hm.sectorSize, u32_of_lt hbytes, hsector]
  rw [hsize, Nat.mul_left_comm] at hbelow
  rw [Nat.succ_mul] at hend
  exact inRange_iff hlba hfrom hend (by omega) hk

end InodeTables

/-- The volume at a time when everything works. -/
def Volume.steady (v : Volume) : Volume := { v with disk := { v.disk with fails := fun _ => false } }

theorem Volume.steady_spec (v : Volume) : v.Steady v.steady := ⟨rfl, rfl, fun _ _ => rfl⟩

theorem inodeWritten_le (v : Volume) : v.inodeWritten ≤ v.part.blockSectors := Disk.moved_le

/-- What a read finds in the block of `n` after the write. -/
theorem inodeWindow_same (hm : Mounted v.part) (h : (writeInode v n inode).1 = 0)
    (hi : i < v.part.blockSize) : (writeInode v n inode).2.inodeWindow n i =
      if i < 512 * v.inodeWritten then v.inodeBuffer n inode i else v.inodeWindow n i := by
  obtain ⟨-, -, hpart, himage⟩ := writeInode_moved hm h
  have hsize := hm.blockSize_bounds
  have hle := inodeWritten_le v
  have hq := hm.blockSectors_le
  have hlt : sext32 (v.part.inodeLba n) < 18446744073709551616 := Disk.sext32_lt (inodeLba_lt _)
  rw [Volume.inodeWindow, hpart, himage]
  split
  · exact window_put_in hlt ‹_› (by omega)
  · exact window_put_past hlt (by omega) (by omega)

/-- What a read finds in another block. -/
theorem inodeWindow_other (hm : Mounted v.part) (ht : InodeTables v.part) (hn : v.part.IsInode n)
    (hm' : v.part.IsInode m) (hne : v.part.inodeBlock m ≠ v.part.inodeBlock n)
    (h : (writeInode v n inode).1 = 0) (hi : i < v.part.blockSize) :
    (writeInode v n inode).2.inodeWindow m i = v.inodeWindow m i := by
  obtain ⟨-, -, hpart, himage⟩ := writeInode_moved hm h
  have hsize := hm.blockSize_eq
  have hle := inodeWritten_le v
  have hq := hm.blockSectors_le
  have hlt : sext32 (v.part.inodeLba n) < 18446744073709551616 := Disk.sext32_lt (inodeLba_lt _)
  have hdiffer : v.part.OffsetsDiffer (v.part.inodeBlock n) (v.part.inodeBlock m) := by
    intro he
    rw [u32_of_lt (ht.inodeBlock_bytes_lt hm hn), u32_of_lt (ht.inodeBlock_bytes_lt hm hm')] at he
    exact hne (Nat.eq_of_mul_eq_mul_right (by omega) he).symm
  rw [Volume.inodeWindow, hpart, himage]
  refine window_put_out hlt (by omega) fun k hk => ?_
  rw [ht.inodeLba_eq hm hn, ht.inodeLba_eq hm hm']
  exact hm.io_disjoint (by omega) (by omega) hdiffer

/-- The inode's bytes in the block that is written. -/
theorem inodeBuffer_inside (hi : i < v.part.inodeSize) :
    v.inodeBuffer n inode (v.part.inodeOffset n + i) = inode i := by
  rw [Volume.inodeBuffer, copy_apply_in _ _ (by omega) (by omega)]
  exact congrArg inode (by omega)

/-- The bytes around the inode, where the read reached them. -/
theorem inodeBuffer_outside {k : Nat} (hk : Apart (v.part.inodeOffset n) v.part.inodeSize k 1) :
    v.inodeBuffer n inode k =
      if k < 512 * v.inodeRead then v.inodeWindow n k else (kmalloc v).1 k := by
  unfold Apart at hk
  rw [Volume.inodeBuffer, copy_apply_out _ _ (by omega)]
  split
  · rw [copy_apply_in _ _ (Nat.zero_le k) (by omega)]
    exact congrArg _ (by omega)
  · exact copy_apply_out _ _ (by omega)

section exact

variable (hm : Mounted v.part) (ht : InodeTables v.part) (hn : v.part.IsInode n)
  (h : (writeInode v n inode).1 = 0)
include hm ht hn h

omit hn in
/-- A read of an inode after the write. -/
theorem readInode_after (hm' : v.part.IsInode m) (hx : (writeInode v n inode).2.Steady x) :
    ∃ a, (readInode x m).1 = some a ∧ ∀ i, i < v.part.inodeSize →
      a i = (writeInode v n inode).2.inodeWindow m (v.part.inodeOffset m + i) := by
  obtain ⟨-, -, hpart, -⟩ := writeInode_moved hm h
  have hfits := ht.offset_fits hm hm'
  have hlower := ht.lower
  have hread := readInode_steady (v := (writeInode v n inode).2) (n := m) (by rw [hpart]; exact hm)
    (by rw [hpart]; omega) (by rw [hpart]; exact hfits) hx
  rwa [hpart] at hread

theorem inodeWritten_iff : (∀ x, (writeInode v n inode).2.Steady x → ∃ a, (readInode x n).1 = some a ∧
      ∀ i, i < v.part.inodeSize → a i = inode i) ↔
    ∀ i, i < v.part.inodeSize → v.part.inodeOffset n + i < 512 * v.inodeWritten ∨
      inode i = v.inodeWindow n (v.part.inodeOffset n + i) := by
  have hfits := ht.offset_fits hm hn
  constructor
  · intro hall i hi
    obtain ⟨a, ha, hbytes⟩ := hall _ (Volume.steady_spec _)
    obtain ⟨b, hb, hwindow⟩ := readInode_after hm ht h hn (Volume.steady_spec _)
    rw [ha] at hb
    cases hb
    by_cases hin : v.part.inodeOffset n + i < 512 * v.inodeWritten
    · exact .inl hin
    · rw [← hbytes i hi, hwindow i hi, inodeWindow_same hm h (by omega), if_neg hin]
      exact .inr rfl
  · intro hreached x hx
    obtain ⟨a, ha, hwindow⟩ := readInode_after hm ht h hn hx
    refine ⟨a, ha, fun i hi => ?_⟩
    rw [hwindow i hi, inodeWindow_same hm h (by omega)]
    split
    · exact inodeBuffer_inside hi
    · exact ((hreached i hi).resolve_left ‹_›).symm

theorem inodeOthers_iff (hm' : v.part.IsInode m) (hne : n ≠ m) :
    (∀ x y, v.Steady x → (writeInode v n inode).2.Steady y →
      ∃ a b, (readInode x m).1 = some a ∧ (readInode y m).1 = some b ∧
        ∀ i, i < v.part.inodeSize → b i = a i) ↔
    (v.part.inodeBlock m = v.part.inodeBlock n → ∀ i, i < v.part.inodeSize →
      512 * v.inodeRead ≤ v.part.inodeOffset m + i → v.part.inodeOffset m + i < 512 * v.inodeWritten →
      (kmalloc v).1 (v.part.inodeOffset m + i) = v.inodeWindow m (v.part.inodeOffset m + i)) := by
  have hfits := ht.offset_fits hm hm'
  have hlower := ht.lower
  have hsame (hblock : v.part.inodeBlock m = v.part.inodeBlock n) (w : Volume) (hw : w.part = v.part) :
      w.inodeWindow m = w.inodeWindow n := by
    rw [Volume.inodeWindow, Volume.inodeWindow, hw, ht.inodeLba_eq hm hm', ht.inodeLba_eq hm hn, hblock]
  obtain ⟨-, -, hpart, -⟩ := writeInode_moved hm h
  have hafter (hblock : v.part.inodeBlock m = v.part.inodeBlock n) {i : Nat} (hi : i < v.part.inodeSize) :
      (writeInode v n inode).2.inodeWindow m (v.part.inodeOffset m + i) =
        if v.part.inodeOffset m + i < 512 * v.inodeWritten ∧ 512 * v.inodeRead ≤ v.part.inodeOffset m + i
        then (kmalloc v).1 (v.part.inodeOffset m + i) else v.inodeWindow m (v.part.inodeOffset m + i) := by
    have hplaces := ht.places_apart hm hn hm' hne hblock
    have hbyte : Apart (v.part.inodeOffset n) v.part.inodeSize (v.part.inodeOffset m + i) 1 := by
      unfold Apart at hplaces ⊢
      omega
    rw [hsame hblock _ hpart, inodeWindow_same hm h (by omega), inodeBuffer_outside hbyte, hsame hblock v rfl]
    split
    · split
      · rw [if_neg (by omega)]
      · rw [if_pos (by omega)]
    · rw [if_neg (by omega)]
  constructor
  · intro hall hblock i hi hread hwritten
    obtain ⟨a, b, ha, hb, heq⟩ := hall _ _ (Volume.steady_spec _) (Volume.steady_spec _)
    obtain ⟨c, hc, hbefore⟩ := readInode_steady hm (by omega) hfits (Volume.steady_spec v)
    obtain ⟨e, he, hwindow⟩ := readInode_after hm ht h hm' (Volume.steady_spec _)
    rw [ha] at hc
    rw [hb] at he
    cases hc
    cases he
    rw [← hbefore i hi, ← heq i hi, hwindow i hi, hafter hblock hi, if_pos ⟨hwritten, hread⟩]
  · intro hkept x y hx hy
    obtain ⟨a, ha, hbefore⟩ := readInode_steady hm (by omega) hfits hx
    obtain ⟨b, hb, hwindow⟩ := readInode_after hm ht h hm' hy
    refine ⟨a, b, ha, hb, fun i hi => ?_⟩
    rw [hbefore i hi, hwindow i hi]
    by_cases hblock : v.part.inodeBlock m = v.part.inodeBlock n
    · rw [hafter hblock hi]
      split
      · rename_i hin
        exact hkept hblock i hi hin.2 hin.1
      · rfl
    · exact inodeWindow_other hm ht hn hm' hblock h (by omega)

theorem inodeFrame_iff : (∀ a, (writeInode v n inode).2.disk.image a ≠ v.disk.image a →
      v.part.InInodeTable (v.part.inodeGroup n) (a / 512)) ↔
    (v.part.InodeReaches n ∨ ∀ i, i < 512 * v.inodeWritten →
      v.inodeBuffer n inode i = v.inodeWindow n i) := by
  obtain ⟨-, -, hpart, himage⟩ := writeInode_moved hm h
  have hle := inodeWritten_le v
  have hq := hm.blockSectors_le
  have hsize := hm.blockSize_eq
  have hlt : sext32 (v.part.inodeLba n) < 18446744073709551616 := Disk.sext32_lt (inodeLba_lt _)
  constructor
  · intro hframe
    by_cases hreach : v.part.InodeReaches n
    · exact .inl hreach
    · refine .inr fun i hi => ?_
      have hafter : (writeInode v n inode).2.inodeWindow n i = v.inodeBuffer n inode i := by
        rw [inodeWindow_same hm h (by omega), if_pos hi]
      by_contra hne
      rw [← hafter, Volume.inodeWindow, hpart] at hne
      have hin := hframe _ hne
      rw [show (512 * u64 (sext32 (v.part.inodeLba n) + i / 512) + i % 512) / 512 =
        u64 (sext32 (v.part.inodeLba n) + i / 512) by omega] at hin
      exact hreach ((ht.inTable_iff hm hn (by omega)).mp hin)
  · intro hplaced a ha
    rw [himage, put] at ha
    split at ha
    · rename_i hin
      -- the byte that changed is byte `i` of the block
      have hsector : u64 (sext32 (v.part.inodeLba n) + sub64 (a / 512) (sext32 (v.part.inodeLba n))) =
          a / 512 := by
        unfold u64 sub64 u64
        omega
      rcases hplaced with hreach | hsame
      · have hmem := (ht.inTable_iff hm hn (k := sub64 (a / 512) (sext32 (v.part.inodeLba n)))
          (by omega)).mpr hreach
        rwa [hsector] at hmem
      · refine absurd ?_ ha
        rw [hsame _ (by omega), Volume.inodeWindow, window,
          show (512 * sub64 (a / 512) (sext32 (v.part.inodeLba n)) + a % 512) / 512 =
            sub64 (a / 512) (sext32 (v.part.inodeLba n)) by omega, hsector]
        exact congrArg _ (by omega)
    · exact absurd rfl ha

/-- A write of an inode that returns 0 is faithful when and only when the transfers move the
sectors that matter to the inode's sectors. -/
theorem inodes_faithful_iff (hm' : v.part.IsInode m) (hne : n ≠ m) :
    InodesFaithful v n m inode ↔ InodeWriteMeets v n m inode :=
  ⟨fun hf => ⟨(inodeWritten_iff hm ht hn h).mp hf.written, (inodeOthers_iff hm ht hn h hm' hne).mp hf.others,
      (inodeFrame_iff hm ht hn h).mp hf.frame⟩,
    fun hc => ⟨(inodeWritten_iff hm ht hn h).mpr hc.reached, (inodeOthers_iff hm ht hn h hm' hne).mpr hc.kept,
      (inodeFrame_iff hm ht hn h).mpr hc.placed⟩⟩

end exact

/-- The small partition with its inode table in blocks 5 and 6. -/
def tablePartition : Partition := smallPartition.setGroup BlockGroup.inodeTable 0 5

/-- The table on a disk of zeros, under a heap full of ones. -/
def tableVolume (fails : Nat → Bool) : Volume where
  disk := { image := fun _ => 0, fails := fails, clock := 0 }
  part := tablePartition
  buffers := fun _ _ => 1
  allocated := 0

theorem mounted_tablePartition : Mounted tablePartition := by
  have h := mounted_smallPartition
  exact ⟨h.sectorSize, h.logBlockSize, h.lba, h.blocksPerGroup, h.inodesPerGroup, h.blockGroups,
    h.inodeGroups⟩

theorem inodeTables_tablePartition : InodeTables tablePartition := by
  have hsize : tablePartition.inodeSize = 128 := by decide +kernel
  have hblock : tablePartition.blockSize = 1024 := by decide +kernel
  have hipg : tablePartition.super Superblock.inodesPerGroup = 16 := by decide +kernel
  have hcount : tablePartition.super Superblock.inodesCount = 16 := by decide +kernel
  have hzero {g : Nat} (hg : g * tablePartition.super Superblock.inodesPerGroup <
      tablePartition.super Superblock.inodesCount) : g = 0 := by
    rw [hipg, hcount] at hg
    omega
  refine ⟨⟨7, hsize⟩, by rw [hsize], by rw [hsize, hblock]; decide, fun g hg => ?_,
    fun g h hg hh hne => absurd ((hzero hg).trans (hzero hh).symm) hne⟩
  rw [hzero hg]
  decide +kernel

theorem isInode_tablePartition (hn : 0 < n) (hle : n ≤ 16) : tablePartition.IsInode n := by
  have hcount : tablePartition.super Superblock.inodesCount = 16 := by decide +kernel
  exact ⟨hn, hcount ▸ hle⟩

/-- On a disk that works. -/
theorem inodes_faithful_iff_table :
    InodesFaithful (tableVolume fun _ => false) 1 2 fun _ => 7 := by
  have hread : (tableVolume fun _ => false).inodeRead = 2 := by decide +kernel
  have hwritten : (tableVolume fun _ => false).inodeWritten = 2 := by decide +kernel
  have hsize : (tableVolume fun _ => false).part.inodeSize = 128 := by decide +kernel
  have hoffset : (tableVolume fun _ => false).part.inodeOffset 1 = 0 := by decide +kernel
  have hoffset' : (tableVolume fun _ => false).part.inodeOffset 2 = 128 := by decide +kernel
  refine (inodes_faithful_iff mounted_tablePartition inodeTables_tablePartition
    (isInode_tablePartition (by decide) (by decide)) (by decide +kernel)
    (isInode_tablePartition (by decide) (by decide)) (by decide)).mpr
    ⟨fun i hi => ?_, fun _ i hi hlow hhigh => ?_, .inl ?_⟩
  · rw [hsize] at hi
    rw [hoffset, hwritten]
    omega
  · rw [hread, hoffset'] at hlow
    rw [hsize] at hi
    omega
  · unfold Partition.InodeReaches
    decide +kernel

/-- The second sector of the block cannot be read: what the heap holds there is written. -/
theorem inodes_not_faithful : ¬ ∀ v n m inode, Mounted v.part → InodeTables v.part →
    v.part.IsInode n → v.part.IsInode m → n ≠ m → (writeInode v n inode).1 = 0 →
    InodesFaithful v n m inode := by
  intro h
  have hn : tablePartition.IsInode 1 := isInode_tablePartition (by decide) (by decide)
  have hm : tablePartition.IsInode 5 := isInode_tablePartition (by decide) (by decide)
  have hres : (writeInode (tableVolume (· == 1)) 1 fun _ => 7).1 = 0 := by decide +kernel
  have hfaithful := h (tableVolume (· == 1)) 1 5 (fun _ => 7) mounted_tablePartition
    inodeTables_tablePartition hn hm (by decide) hres
  have hkept := (inodeOthers_iff mounted_tablePartition inodeTables_tablePartition hn hres hm
    (by decide)).mp hfaithful.others (by decide +kernel) 0 (by decide +kernel) (by decide +kernel)
    (by decide +kernel)
  exact absurd hkept (by decide +kernel)

end
end UnedKernel.Ext2
