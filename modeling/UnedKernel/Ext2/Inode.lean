import UnedKernel.Ext2.Volume

/-! # Inodes and their bitmaps

`ext2_inode.c`, with the loop over the groups of `ext2_bg.c`. -/

namespace UnedKernel.Ext2
open ByteMem Word Sectors Bitmap

/-! ## `struct ext2_inode_descriptor_generic` -/

namespace InodeDescriptor

def mode : Field := ⟨0, 2⟩
def size : Field := ⟨4, 4⟩
def dtime : Field := ⟨20, 4⟩
def linksCount : Field := ⟨26, 2⟩
def sectors : Field := ⟨28, 4⟩

end InodeDescriptor

/-- `INODE_TYPE_DIR`. -/
def INODE_TYPE_DIR : Nat := 0x4000

/-- The loop of `ext2_operate_on_bg` from group `i` on, `n` groups left: the first group
whose callback returns nonzero, `none` for -1. -/
def operateOnBgFrom (callback : Volume → Nat → Bool × Volume) (v : Volume) (i : Nat) :
    Nat → Option Nat × Volume
  | 0 => (none, v)
  | n + 1 =>
    let (stop, v) := callback v i
    if stop then (some i, v) else operateOnBgFrom callback v (i + 1) n

/-- `ext2_operate_on_bg`. -/
def operateOnBg (v : Volume) (callback : Volume → Nat → Bool × Volume) : Option Nat × Volume :=
  operateOnBgFrom callback v 0 v.part.groupNumber

/-- `ext2_bg_has_free_inodes`. -/
def bgHasFreeInodes (v : Volume) (i : Nat) : Bool × Volume :=
  (decide (v.part.group BlockGroup.freeInodesCount i > 0), v)

namespace Partition

/-- `bg_free_inodes_count--; s_free_inodes_count--`. -/
def countInodeTaken (p : Partition) (i : Nat) : Partition :=
  (p.setGroup BlockGroup.freeInodesCount i (sub16 (p.group BlockGroup.freeInodesCount i) 1)).setSuper
    Superblock.freeInodesCount (sub32 (p.super Superblock.freeInodesCount) 1)

/-- `bg_free_inodes_count++; s_free_inodes_count++`. -/
def countInodeFreed (p : Partition) (i : Nat) : Partition :=
  (p.setGroup BlockGroup.freeInodesCount i (u16 (p.group BlockGroup.freeInodesCount i + 1))).setSuper
    Superblock.freeInodesCount (u32 (p.super Superblock.freeInodesCount + 1))

/-- `bg_used_dirs_count--`. -/
def countDirGone (p : Partition) (i : Nat) : Partition :=
  p.setGroup BlockGroup.usedDirsCount i (sub16 (p.group BlockGroup.usedDirsCount i) 1)

/-- The size of an inode on the disk. -/
def inodeSize (p : Partition) : Nat :=
  if p.super Superblock.revLevel < 1 then 128 else p.super Superblock.inodeSize

/-- The group of an inode and its index there, as all functions compute them. -/
def inodeGroup (p : Partition) (n : Nat) : Nat := sub32 n 1 / p.super Superblock.inodesPerGroup

def inodeIndex (p : Partition) (n : Nat) : Nat := sub32 n 1 % p.super Superblock.inodesPerGroup

/-- The first sector of the block of the inode table that `ext2_read_inode` and
`ext2_write_inode` transfer. -/
def inodeLba (p : Partition) (n : Nat) : Nat :=
  let inodeBlock := u32 (p.inodeIndex n * p.inodeSize) / p.blockSize
  let inodeTableLba := u32 (p.group BlockGroup.inodeTable (p.inodeGroup n) * p.blockSize) / p.sectorSize
  u32 (p.lba + inodeTableLba + u32 (inodeBlock * divideRoundedUp p.blockSize p.sectorSize))

/-- The place of the inode in that block. -/
def inodeOffset (p : Partition) (n : Nat) : Nat := u32 (p.inodeIndex n * p.inodeSize) % p.blockSize

end Partition

/-- The first bit of the bitmap that is clear, as an inode number; 0 when there is none.
The scan leaves its loop at the first byte other than 0xFF, which has a clear bit. -/
def findFreeInode (bitmap : Bytes) (blockSize : Nat) : Nat :=
  match scanWords 1 bitmap 0 blockSize with
  | some (i, j) => u32 (i * 8 + j + 1)
  | none => 0

/-- `ext2_allocate_inode`. -/
def allocateInode (v : Volume) : Nat × Volume :=
  match operateOnBg v bgHasFreeInodes with
  | (none, v) => (0, v)
  | (some bg, v) =>
    let (buffer, v) := kmalloc v
    let (read, bitmap, v) := readBlock v (v.part.group BlockGroup.inodeBitmap bg) buffer
    if read ≠ 1 then (0, v)
    else
      let inodeNumber := findFreeInode bitmap v.part.blockSize
      if inodeNumber = 0 then (0, v)
      else
        let bitmap := setWordBit 1 bitmap ((inodeNumber - 1) / 8) ((inodeNumber - 1) % 8)
        let (written, v) := writeBlock v (v.part.group BlockGroup.inodeBitmap bg) bitmap
        if written ≤ 0 then (0, v)
        else (inodeNumber, flushRequired { v with part := v.part.countInodeTaken bg })

/-- `ext2_read_inode`: a fresh buffer with the inode at its start. -/
def readInode (v : Volume) (n : Nat) : Option Bytes × Volume :=
  let spb := divideRoundedUp v.part.blockSize v.part.sectorSize
  let (buffer, v) := kmalloc v
  let (read, buffer, disk) :=
    readDisk v.disk buffer (v.part.inodeLba n) (u32 (spb * v.part.sectorSize))
  let v := { v with disk := disk }
  if read = 0 then (none, v)
  else if v.part.inodeSize = 0 then (none, v)
  else
    let (inode, v) := kmalloc v
    (some (copy inode 0 buffer (v.part.inodeOffset n) v.part.inodeSize), v)

/-- `ext2_write_inode`: 0 on success. -/
def writeInode (v : Volume) (n : Nat) (inode : Bytes) : Nat × Volume :=
  let spb := divideRoundedUp v.part.blockSize v.part.sectorSize
  let (buffer, v) := kmalloc v
  let (read, buffer, disk) :=
    readDisk v.disk buffer (v.part.inodeLba n) (u32 (spb * v.part.sectorSize))
  let v := { v with disk := disk }
  if read = 0 then (1, v)
  else
    let buffer := copy buffer (v.part.inodeOffset n) inode 0 v.part.inodeSize
    let (written, disk) :=
      writeDisk v.disk buffer (v.part.inodeLba n) (u32 (spb * v.part.sectorSize))
    let v := { v with disk := disk }
    if written = 0 then (1, v) else (0, v)

/-- `ext2_read_inode_bitmap`. -/
def readInodeBitmap (v : Volume) (n : Nat) : Option Bytes × Volume :=
  let spb := v.part.blockSize / v.part.sectorSize
  let bitmapBlock := v.part.group BlockGroup.inodeBitmap (v.part.inodeGroup n)
  let (buffer, v) := kmalloc v
  let (read, buffer, disk) :=
    readDisk v.disk buffer (v.part.blockLba bitmapBlock) (u32 (spb * v.part.sectorSize))
  let v := { v with disk := disk }
  if read = 0 then (none, v) else (some buffer, v)

/-- `ext2_write_inode_bitmap`: 0 on success. -/
def writeInodeBitmap (v : Volume) (n : Nat) (bitmap : Bytes) : Nat × Volume :=
  let spb := v.part.blockSize / v.part.sectorSize
  let bitmapBlock := v.part.group BlockGroup.inodeBitmap (v.part.inodeGroup n)
  let (written, disk) := writeDisk v.disk bitmap (v.part.blockLba bitmapBlock) spb
  (if written = 0 then 1 else 0, { v with disk := disk })

/-- The inode that `ext2_delete_inode` writes back. -/
def deletedInode (inode : Bytes) (epoch : Nat) : Bytes :=
  [(InodeDescriptor.dtime, epoch), (InodeDescriptor.linksCount, 0), (InodeDescriptor.size, 0),
    (InodeDescriptor.mode, 0), (InodeDescriptor.sectors, 0)].foldl (fun m f => f.1.set m 0 f.2) inode

/-- `ext2_delete_inode` at the time `epoch`: 0 on success. -/
def deleteInode (v : Volume) (n epoch : Nat) : Nat × Volume :=
  match readInode v n with
  | (none, v) => (1, v)
  | (some inode, v) =>
    let originalMode := InodeDescriptor.mode.get inode 0
    let inodeGroup := v.part.inodeGroup n
    let inodeIndex := v.part.inodeIndex n
    let (failed, v) := writeInode v n (deletedInode inode epoch)
    if failed ≠ 0 then (1, v)
    else match readInodeBitmap v n with
      | (none, v) => (1, v)
      | (some bitmap, v) =>
        let (failed, v) := writeInodeBitmap v n (store bitmap inodeIndex 1 0)
        if failed ≠ 0 then (1, v)
        else
          let p := v.part.countInodeFreed inodeGroup
          let p := if originalMode &&& INODE_TYPE_DIR ≠ 0 then p.countDirGone inodeGroup else p
          (0, flushRequired { v with part := p })

end UnedKernel.Ext2
