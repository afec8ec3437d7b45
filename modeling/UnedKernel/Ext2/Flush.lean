import UnedKernel.Ext2.InodeArray

/-! # Flushes, and what operations alter

`ext2_flush_partition`, with the callbacks of `ext2_bg.c` and `ext2_sb.c`, and
for each operation on a volume the sectors outside which the disk stays as it is. -/

namespace UnedKernel.Ext2
open ByteMem Word Sectors Bitmap

/-! ## `ext2_flush_partition` -/

namespace Partition

/-- `sectors_per_group`, as the callbacks compute it. -/
def sectorsPerGroup (p : Partition) : Nat :=
  u32 (p.super Superblock.blocksPerGroup * (p.blockSize / p.sectorSize))

/-- The sectors of the table of group descriptors, which a flush passes as a length in bytes. -/
def descriptorsSize (p : Partition) : Nat :=
  let size := p.groupNumber * sizeofGroup
  u32 (if size % p.sectorSize ≠ 0 then (size + p.sectorSize - 1) / p.sectorSize else size / p.sectorSize)

/-- The first sector that `ext2_flush_bg` writes for group `i`. -/
def bgSector (p : Partition) (i : Nat) : Nat := u32 (p.lba + u32 (p.sectorsPerGroup * i) + p.bgdtBlock)

/-- The first sector that `ext2_flush_sb` writes for group `i`. -/
def sbSector (p : Partition) (i : Nat) : Nat := u32 (p.lba + u32 (p.sectorsPerGroup * i) + p.sbBlock)

end Partition

/-- `ext2_flush_bg`: the descriptors from that of group `i` on. -/
def flushBg (v : Volume) (i : Nat) : Bool × Volume :=
  let (written, disk) := writeDisk v.disk (fun x => v.part.gd (sizeofGroup * i + x)) (v.part.bgSector i)
    v.part.descriptorsSize
  (decide (written = 0), { v with disk := disk })

/-- `ext2_flush_sb`. -/
def flushSb (v : Volume) (i : Nat) : Bool × Volume :=
  if i ≥ v.part.backupBgsCount ∨ v.part.backupBgs i = -1 then (true, v)
  else
    let (written, disk) := writeDisk v.disk v.part.sb (v.part.sbSector i) 2
    (decide (written = 0), { v with disk := disk })

/-- `ext2_flush_partition`. -/
def flushPartition (v : Volume) : Volume :=
  let (_, v) := operateOnBg v flushBg
  let (_, v) := operateOnBg v flushSb
  { v with part := { v.part with flushRequired := false } }

/-! ## What an operation alters -/

/-- Of `v`, only counters and the bytes of the sectors `S` differ in `w`. -/
structure Alters (S : Nat → Prop) (v w : Volume) : Prop where
  layout : SameLayout v.part w.part
  bgdtBlock : w.part.bgdtBlock = v.part.bgdtBlock
  sbBlock : w.part.sbBlock = v.part.sbBlock
  reliable : v.disk.Reliable → w.disk.Reliable
  image : ∀ a, ¬ S (a / 512) → w.disk.image a = v.disk.image a

namespace Partition

/-- The sectors of a transfer of `n` sectors from `first` on. -/
def Spans (first n s : Nat) : Prop := sub64 s (sext32 first) < n

/-- The sectors of a block, where a transfer of the block goes. -/
def BlockSpan (p : Partition) (b s : Nat) : Prop := Spans (p.blockLba b) p.blockSectors s

/-- The sectors of the block bitmaps. -/
def BitmapSpan (p : Partition) (s : Nat) : Prop :=
  ∃ g, g < p.groupNumber ∧ p.BlockSpan (p.group BlockGroup.blockBitmap g) s

/-- The sectors of the block of the inode table that a transfer of inode `n` goes to. -/
def InodeSpan (p : Partition) (n s : Nat) : Prop := Spans (p.inodeLba n) p.blockSectors s

/-- The sectors that a flush writes. -/
def FlushSpan (p : Partition) (s : Nat) : Prop :=
  ∃ i, i < p.groupNumber ∧
    (Spans (p.bgSector i) (sizeToBlocks (sext32 p.descriptorsSize)) s ∨ Spans (p.sbSector i) 1 s)

variable {p p' : Partition} {b n s : Nat}

theorem blockSpan_congr (h : SameLayout p p') : p'.BlockSpan b s ↔ p.BlockSpan b s := by
  rw [BlockSpan, BlockSpan, Spans, Spans, h.blockSectors]
  have hio := h.ioSector b
  unfold ioSector at hio
  rw [hio]

theorem bitmapSpan_congr (h : SameLayout p p') : p'.BitmapSpan s ↔ p.BitmapSpan s := by
  unfold BitmapSpan
  simp only [blockSpan_congr h, h.group BlockGroup.blockBitmap (by decide), h.groupNumber]

/-- Two transfers that do not meet. -/
theorem spans_apart {a b m n s : Nat} (hab : a + m ≤ b) (hb : b + n ≤ 2147483648) (hs : Spans a m s) :
    ¬ Spans b n s := by
  intro hs'
  by_cases hn : n = 0
  · subst hn
    exact absurd hs' (Nat.not_lt_zero _)
  · unfold Spans sub64 u64 at hs hs'
    rw [sext32_of_lt (by omega)] at hs hs'
    omega

theorem sameLayout_flushed : SameLayout p { p with flushRequired := false } :=
  ⟨rfl, rfl, rfl, fun _ _ => rfl, fun _ _ _ => rfl⟩

theorem inodeSpan_congr (h : SameLayout p p') : p'.InodeSpan n s ↔ p.InodeSpan n s := by
  rw [InodeSpan, InodeSpan, h.inodeLba, h.blockSectors]

end Partition

namespace Alters

variable {S S' : Nat → Prop} {v w x : Volume} {n : Nat}

theorem refl (v : Volume) : Alters S v v := ⟨.refl _, rfl, rfl, id, fun _ _ => rfl⟩

theorem trans (h : Alters S v w) (h' : Alters S w x) : Alters S v x :=
  ⟨h.layout.trans h'.layout, h'.bgdtBlock.trans h.bgdtBlock, h'.sbBlock.trans h.sbBlock,
    fun hr => h'.reliable (h.reliable hr), fun a ha => (h'.image a ha).trans (h.image a ha)⟩

theorem sectorsPerGroup (h : Alters S v w) : w.part.sectorsPerGroup = v.part.sectorsPerGroup := by
  rw [Partition.sectorsPerGroup, Partition.sectorsPerGroup, h.layout.super _ (by decide),
    h.layout.blockSize, h.layout.sectorSize]

theorem bgSector (h : Alters S v w) : w.part.bgSector n = v.part.bgSector n := by
  rw [Partition.bgSector, Partition.bgSector, h.sectorsPerGroup, h.layout.lba, h.bgdtBlock]

theorem sbSector (h : Alters S v w) : w.part.sbSector n = v.part.sbSector n := by
  rw [Partition.sbSector, Partition.sbSector, h.sectorsPerGroup, h.layout.lba, h.sbBlock]

theorem descriptorsSize (h : Alters S v w) : w.part.descriptorsSize = v.part.descriptorsSize := by
  rw [Partition.descriptorsSize, Partition.descriptorsSize, h.layout.groupNumber, h.layout.sectorSize]

theorem mono (hS : ∀ s, S s → S' s) (h : Alters S v w) : Alters S' v w :=
  ⟨h.layout, h.bgdtBlock, h.sbBlock, h.reliable, fun a ha => h.image a fun hs => ha (hS _ hs)⟩

theorem of_unchanged (h : Unchanged v w) : Alters S v w :=
  ⟨h.sameLayout, by rw [h.part], by rw [h.part], h.reliable, fun a _ => by rw [h.image]⟩

/-- A change of the counters. -/
theorem counters {p : Partition} (h : Alters S v w) (hl : SameLayout w.part p)
    (hbgdt : p.bgdtBlock = w.part.bgdtBlock) (hsb : p.sbBlock = w.part.sbBlock) :
    Alters S v { w with part := p } :=
  h.trans ⟨hl, hbgdt, hsb, id, fun _ _ => rfl⟩

theorem countBlockTaken (h : Alters S v w) (i : Nat) :
    Alters S v { w with part := w.part.countBlockTaken i } :=
  h.counters Partition.sameLayout_countBlockTaken rfl rfl

theorem countBlockFreed (h : Alters S v w) (i : Nat) :
    Alters S v { w with part := w.part.countBlockFreed i } :=
  h.counters Partition.sameLayout_countBlockFreed rfl rfl

/-- The end of `ext2_deallocate_block` after the write of the bitmap. -/
theorem freed {r : Int × Volume} (h : Alters S v r.2) (i : Nat) : Alters S v
    (if r.1 ≤ 0 then (0, { r.2 with part := r.2.part.countBlockTaken i })
      else (1, Ext2.flushRequired r.2) : Nat × Volume).2 := by
  split
  · exact h.countBlockTaken i
  · exact h.counters Partition.sameLayout_flush rfl rfl

theorem flushRequired (h : Alters S v w) : Alters S v (flushRequired w) :=
  h.counters Partition.sameLayout_flush rfl rfl

theorem kmalloc (h : Alters S v w) : Alters S v (kmalloc w).2 :=
  h.trans ⟨.refl _, rfl, rfl, id, fun _ _ => rfl⟩

/-- What a transfer of sectors outside those altered reads. -/
theorem window_eq {first m k : Nat} (h : Alters S v w) (hS : ∀ s, Partition.Spans first m s → ¬ S s)
    (hf : first < 4294967296) (hm : m ≤ 18446744073709551616) (hx : k < 512 * m) :
    window w.disk.image (sext32 first) k = window v.disk.image (sext32 first) k := by
  have hu := u64_lt (sext32 first + k / 512)
  have hfirst := Disk.sext32_lt hf
  refine h.image _ (hS _ ?_)
  rw [show (512 * u64 (sext32 first + k / 512) + k % 512) / 512 = u64 (sext32 first + k / 512) by omega]
  unfold Partition.Spans sub64 u64
  omega

theorem readDisk (h : Alters S v w) (buffer : Bytes) (sector count : Nat) :
    Alters S v { w with disk := (readDisk w.disk buffer sector count).2.2 } := by
  refine h.trans ⟨.refl _, rfl, rfl, fun hr => ?_, fun a _ => ?_⟩
  · rw [Disk.readDisk_eq]
    exact hr
  · rw [Disk.readDisk_eq]
    rfl

theorem writeDisk (h : Alters S v w) (buffer : Bytes) {sector count : Nat} (hs : sector < 4294967296)
    (hS : ∀ s, Partition.Spans sector (sizeToBlocks (sext32 count)) s → S s) :
    Alters S v { w with disk := (writeDisk w.disk buffer sector count).2 } := by
  refine h.trans ⟨.refl _, rfl, rfl, fun hr => ?_, fun a ha => ?_⟩
  · rw [Disk.writeDisk_eq hs]
    exact hr
  · have hle := w.disk.moved_le (n := sizeToBlocks (sext32 count))
    rw [Disk.writeDisk_eq hs]
    change put _ _ _ _ a = _
    rw [put, if_neg]
    rintro ⟨-, hin⟩
    exact ha (hS _ (Nat.lt_of_lt_of_le hin hle))

theorem readBlock (h : Alters S v w) (block : Nat) (buffer : Bytes) :
    Alters S v (readBlock w block buffer).2.2 := by
  unfold Ext2.readBlock
  split
  · exact h.readDisk buffer _ _
  · exact h

theorem writeBlock (h : Alters S v w) (hm : Mounted v.part) (block : Nat) (buffer : Bytes)
    (hS : ∀ s, v.part.BlockSpan block s → S s) : Alters S v (writeBlock w block buffer).2 := by
  unfold Ext2.writeBlock
  split
  · refine h.writeDisk buffer (Mounted.blockLba_lt _) fun s hs => hS s ?_
    have hm' := h.layout.mounted hm
    have hq := hm'.blockSectors_le
    have hq' := hm'.blockSectors_ge
    rw [← Partition.blockSpan_congr h.layout]
    rw [hm'.divideRoundedUp_blockSize, sext32_of_lt (by omega)] at hs
    unfold Partition.Spans sizeToBlocks u64 at hs
    unfold Partition.BlockSpan Partition.Spans
    omega
  · exact h

theorem operateOnBg {callback : Volume → Nat → Bool × Volume} {k m : Nat}
    (hstep : ∀ w i, m ≤ i → i < v.part.groupNumber → Alters S v w → Alters S v (callback w i).2)
    (h : Alters S v w) (hm : m ≤ n) (hk : n + k ≤ v.part.groupNumber) :
    Alters S v (operateOnBgFrom callback w n k).2 := by
  induction k generalizing n w with
  | zero => exact h
  | succ k ih =>
    have hcall := hstep w n hm (by omega) h
    rw [operateOnBgFrom]
    simp only
    split
    · exact hcall
    · exact ih hcall (by omega) (by omega)

section blocks

variable (h : Alters S v w) (hm : Mounted v.part) (hS : ∀ s, v.part.BitmapSpan s → S s)
include h hm hS

theorem writeBitmap {i : Nat} (hi : i < v.part.groupNumber) (buffer : Bytes) :
    Alters S v (Ext2.writeBlock w (w.part.group BlockGroup.blockBitmap i) buffer).2 := by
  refine h.writeBlock hm _ buffer fun s hs => hS s ⟨i, hi, ?_⟩
  rwa [h.layout.group BlockGroup.blockBitmap (by decide)] at hs

theorem takeBlock {i : Nat} (hi : i < v.part.groupNumber) (bitmap : Bytes) (j k : Nat) :
    Alters S v (takeBlock w i bitmap j k).2 := by
  have hwritten := (h.countBlockTaken i).writeBitmap hm hS hi (setWordBit 4 bitmap j k)
  unfold Ext2.takeBlock
  simp only
  generalize Ext2.writeBlock _ _ _ = r at hwritten ⊢
  split
  · exact hwritten.countBlockFreed i
  · exact hwritten.flushRequired

theorem allocateBlockFrom (i : Nat) (hi : i + n ≤ v.part.groupNumber) :
    Alters S v (allocateBlockFrom w i n).2 := by
  induction n generalizing w i with
  | zero => exact h
  | succ n ih =>
    have hread := h.kmalloc.readBlock ((Ext2.kmalloc w).2.part.group BlockGroup.blockBitmap i)
      (Ext2.kmalloc w).1
    rw [Ext2.allocateBlockFrom]
    simp only
    split
    · exact ih h _ (by omega)
    · split
      · exact hread
      · split
        · exact hread.takeBlock hm hS (by omega) _ _ _
        · exact ih hread _ (by omega)

theorem allocateBlock : Alters S v (allocateBlock w).2 :=
  h.allocateBlockFrom hm hS 0 (by rw [h.layout.groupNumber]; omega)

/-- The bitmap of group `i` is read, and written back when the bit is set. -/
theorem deallocateBlock {block i : Nat}
    (hi : sub32 block 1 / w.part.super Superblock.blocksPerGroup = i) (hlt : i < v.part.groupNumber) :
    Alters S v (deallocateBlock w block).2 := by
  have hread := h.kmalloc.readBlock (w.part.group BlockGroup.blockBitmap i) (Ext2.kmalloc w).1
  obtain ⟨x, hx⟩ : ∃ x, sub32 block 1 = x := ⟨_, rfl⟩
  rw [hx] at hi
  rw [Ext2.deallocateBlock, hx]
  obtain ⟨y, hy⟩ : ∃ y, x % w.part.super Superblock.blocksPerGroup = y := ⟨_, rfl⟩
  simp only [hi, hy]
  rw [show (Ext2.kmalloc w).2.part = w.part from rfl]
  generalize Ext2.readBlock (Ext2.kmalloc w).2 (w.part.group BlockGroup.blockBitmap i)
    (Ext2.kmalloc w).1 = r at hread ⊢
  obtain ⟨read, bitmap, x⟩ := r
  simp only at hread ⊢
  split
  · exact hread
  · split
    · exact freed ((hread.countBlockFreed i).writeBitmap hm hS hlt _) i
    · exact hread

end blocks

/-! ## Inodes -/

theorem readInode (h : Alters S v w) (n : Nat) : Alters S v (readInode w n).2 := by
  unfold Ext2.readInode
  simp only
  have hread := h.kmalloc.readDisk (Ext2.kmalloc w).1 ((Ext2.kmalloc w).2.part.inodeLba n)
    (u32 (divideRoundedUp w.part.blockSize w.part.sectorSize * w.part.sectorSize))
  split
  · exact hread
  · split
    · exact hread
    · exact hread.kmalloc

theorem writeInode (h : Alters S v w) (hm : Mounted v.part) (n : Nat) (inode : Bytes)
    (hS : ∀ s, v.part.InodeSpan n s → S s) : Alters S v (writeInode w n inode).2 := by
  have hm' := h.layout.mounted hm
  have hsize := hm'.blockSize_bounds
  have hread := h.kmalloc.readDisk (Ext2.kmalloc w).1 (w.part.inodeLba n) w.part.blockSize
  rw [Ext2.writeInode]
  simp only [Ext2.kmalloc, hm'.transferLength] at hread ⊢
  generalize Ext2.readDisk w.disk _ _ _ = r at hread ⊢
  obtain ⟨read, buffer, d⟩ := r
  simp only at hread ⊢
  split
  · exact hread
  · have hspan (s : Nat) (hs : Partition.Spans (w.part.inodeLba n)
        (sizeToBlocks (sext32 w.part.blockSize)) s) : S s := hS s (by
      rw [← Partition.inodeSpan_congr h.layout]
      rwa [sext32_of_lt (by omega), hm'.sizeToBlocks_blockSize] at hs)
    have hwritten := hread.writeDisk (copy buffer (w.part.inodeOffset n) inode 0 w.part.inodeSize)
      (inodeLba_lt w.part) hspan
    simp only at hwritten
    split
    · exact hwritten
    · exact hwritten

theorem flushBg (h : Alters S v w) (i : Nat) (hS : ∀ s, Partition.Spans (v.part.bgSector i)
    (sizeToBlocks (sext32 v.part.descriptorsSize)) s → S s) : Alters S v (flushBg w i).2 := by
  refine h.writeDisk _ (u32_lt _) fun s hs => hS s ?_
  rwa [h.bgSector, h.descriptorsSize] at hs

theorem flushSb (h : Alters S v w) (i : Nat) (hS : ∀ s, Partition.Spans (v.part.sbSector i) 1 s → S s) :
    Alters S v (flushSb w i).2 := by
  unfold Ext2.flushSb
  split
  · exact h
  · refine h.writeDisk _ (u32_lt _) fun s hs => hS s ?_
    rwa [h.sbSector] at hs

theorem flushPartition (h : Alters S v w) (hS : ∀ s, v.part.FlushSpan s → S s) :
    Alters S v (flushPartition w) := by
  have hgroups := h.layout.groupNumber
  have hbg := operateOnBg (fun w i _ hi h => h.flushBg i fun s hs => hS s ⟨i, hi, .inl hs⟩) h (n := 0) (k := w.part.groupNumber)
    (Nat.zero_le 0) (by omega)
  have hgroups' := hbg.layout.groupNumber
  have hsb := operateOnBg (fun w i _ hi h => h.flushSb i fun s hs => hS s ⟨i, hi, .inr hs⟩) hbg (n := 0)
    (k := (operateOnBgFrom Ext2.flushBg w 0 w.part.groupNumber).2.part.groupNumber) (Nat.zero_le 0)
    (by omega)
  exact hsb.counters Partition.sameLayout_flushed rfl rfl

end Alters
end UnedKernel.Ext2
