import UnedKernel.Ext2.BlockRelease
import UnedKernel.Ext2.Path

/-! # Resizing a file

`ext2_resize_file`, with the allocation of many blocks of `ext2_block.c`. A
shrink releases the first blocks of the file and keeps the pointers to them. -/

namespace UnedKernel.Ext2
open ByteMem Word Sectors Bitmap Indirect

/-! ## Allocation of many blocks -/

/-- An allocation of some blocks below a pointer: the pointer, the blocks allocated, the volume. -/
abbrev BlockAllocator := Volume → Nat → Nat × Nat × Volume

/-- The loop of `ext2_allocate_indirect_block` from pointer `j` on, `n` pointers left. -/
def allocateEntriesFrom (wanted : Nat) (v : Volume) (table : Bytes) (done j : Nat) :
    Nat → Option Nat × Bytes × Volume
  | 0 => (some done, table, v)
  | n + 1 =>
    if done = wanted then (some done, table, v)
    else
      let (block, v) := allocateBlock v
      let table := store table (4 * j) 4 block
      if block = 0 then (none, table, v)
      else allocateEntriesFrom wanted v table (done + 1) (j + 1) n

/-- `ext2_allocate_indirect_block`. -/
def allocateIndirectBlock : BlockAllocator := fun v wanted =>
  let (target, v) := allocateBlock v
  if target = 0 then (0, 0, v)
  else
    let (table, v) := kmalloc v
    match allocateEntriesFrom wanted v table 0 0 (v.part.blockSize / 4) with
    | (none, _, v) => (target, 0, v)
    | (some done, table, v) =>
      let (written, v) := writeBlock v target table
      if written ≤ 0 then (target, 0, v) else (target, done, v)

/-- The loop over a block of pointers to blocks of pointers. -/
def allocateTablesFrom (below : BlockAllocator) (wanted : Nat) (v : Volume) (table : Bytes)
    (done j : Nat) : Nat → Nat × Bytes × Volume
  | 0 => (done, table, v)
  | n + 1 =>
    if done = wanted then (done, table, v)
    else
      let (target, more, v) := below v (sub32 wanted done)
      allocateTablesFrom below wanted v (store table (4 * j) 4 target) (u32 (done + more)) (j + 1) n

/-- A block of pointers to blocks of pointers: a failure below it goes unnoticed here. -/
def allocateTable (below : BlockAllocator) : BlockAllocator := fun v wanted =>
  let (target, v) := allocateBlock v
  if target = 0 then (0, 0, v)
  else
    let (table, v) := kmalloc v
    let (done, table, v) := allocateTablesFrom below wanted v table 0 0 (v.part.blockSize / 4)
    let (written, v) := writeBlock v target table
    if written ≤ 0 then (target, 0, v) else (target, done, v)

def allocateDoubleIndirectBlock : BlockAllocator := allocateTable allocateIndirectBlock

def allocateTripleIndirectBlock : BlockAllocator := allocateTable allocateDoubleIndirectBlock

/-- `inode->i_block[i] = block`. -/
def setIBlock (inode : Bytes) (i block : Nat) : Bytes := store inode (40 + 4 * i) 4 block

/-- The loop of `ext2_allocate_blocks` over the direct blocks from block `i` on, `n` blocks left. -/
def allocateDirectFrom (wanted : Nat) (v : Volume) (inode : Bytes) (done i : Nat) :
    Nat → Option Nat × Bytes × Volume
  | 0 => (some done, inode, v)
  | n + 1 =>
    if done = wanted then (some done, inode, v)
    else if iBlock inode i ≠ 0 then allocateDirectFrom wanted v inode done (i + 1) n
    else
      let (block, v) := allocateBlock v
      let inode := setIBlock inode i block
      if block = 0 then (none, inode, v)
      else allocateDirectFrom wanted v inode (done + 1) (i + 1) n

/-- The stages of `ext2_allocate_blocks` after the direct blocks: each overwrites its pointer. -/
def allocateStages (wanted : Nat) :
    List (Nat × BlockAllocator) → Bytes → Nat → Volume → Nat × Bytes × Volume
  | [], inode, done, v => (if done = wanted then 0 else 1, inode, v)
  | (i, below) :: stages, inode, done, v =>
    if done = wanted then (0, inode, v)
    else
      let (target, more, v) := below v (sub32 wanted done)
      allocateStages wanted stages (setIBlock inode i target) (u32 (done + more)) v

/-- `ext2_allocate_blocks`: 0 on success, with the inode it changes. -/
def allocateBlocks (v : Volume) (inode : Bytes) (blocksToAllocate : Nat) : Nat × Bytes × Volume :=
  match allocateDirectFrom blocksToAllocate v inode 0 0 12 with
  | (none, inode, v) => (1, inode, v)
  | (some done, inode, v) => allocateStages blocksToAllocate [(12, allocateIndirectBlock),
      (13, allocateDoubleIndirectBlock), (14, allocateTripleIndirectBlock)] inode done v

/-! ## `ext2_resize_file` -/

/-- `i_size` and `i_sectors` for a new size. -/
def resizedInode (inode : Bytes) (newSize sectorSize : Nat) : Bytes :=
  InodeDescriptor.sectors.set (InodeDescriptor.size.set inode 0 newSize) 0
    (divideRoundedUp newSize sectorSize)

/-- The end of `ext2_resize_file`. -/
def finishResize (v : Volume) (inodeNumber : Nat) (inode : Bytes) (newSize : Nat) : Nat × Volume :=
  let (failed, v) := writeInode v inodeNumber (resizedInode inode newSize v.part.sectorSize)
  if failed ≠ 0 then (EXT2_RESULT_ERROR, v) else (EXT2_RESULT_OK, flushPartition v)

/-- `ext2_resize_file`. -/
def resizeFile (v : Volume) (inodeNumber newSize : Nat) : Nat × Volume :=
  match readInode v inodeNumber with
  | (none, v) => (EXT2_RESULT_ERROR, v)
  | (some inode, v) =>
    let size := InodeDescriptor.size.get inode 0
    if size = newSize then (EXT2_RESULT_OK, v)
    else if size > newSize then
      let blocksToDeallocate := (size - newSize) / v.part.blockSize
      match loadBlockList v inodeNumber with
      | (none, v) => (EXT2_RESULT_ERROR, v)
      | (some blocks, v) =>
        let (freed, v) := deallocateBlocks v blocks blocksToDeallocate
        if freed ≠ blocksToDeallocate then (EXT2_RESULT_ERROR, v)
        else finishResize v inodeNumber inode newSize
    else
      let blocksToAllocate := (newSize - size) / v.part.blockSize
      let blocksToAllocate :=
        if (newSize - size) % v.part.blockSize ≠ 0 then blocksToAllocate + 1 else blocksToAllocate
      let (failed, inode, v) := allocateBlocks v inode blocksToAllocate
      if failed ≠ 0 then (EXT2_RESULT_ERROR, v)
      else finishResize v inodeNumber inode newSize

/-! ## What stays outside the altered sectors -/

section

variable {v w x : Volume} {inode : Bytes} {S : Nat → Prop} {blocks : List Nat}
  {b c done first k m n newSize : Nat}

theorem SameLayout.inodeOffset {p p' : Partition} (h : SameLayout p p') : p'.inodeOffset n = p.inodeOffset n := by
  rw [Partition.inodeOffset, Partition.inodeOffset, h.inodeIndex, h.inodeSize, h.blockSize]

theorem SameLayout.inodeFits {p p' : Partition} (h : SameLayout p p') (hf : InodeFits p n) : InodeFits p' n :=
  ⟨by rw [h.inodeSize]; exact hf.size, by rw [h.inodeOffset, h.blockSize]; exact hf.offset⟩

namespace Alters

/-- The bytes of a block that no altered sector belongs to. -/
theorem block_eq (h : Alters S v w) (hm : Mounted v.part) (ha : v.part.Addressable b)
    (hS : ∀ s, v.part.BlockSpan b s → ¬ S s) (hk : k < v.part.blockSize) :
    window w.disk.image (v.part.blockSector b) k = window v.disk.image (v.part.blockSector b) k := by
  have hsize := hm.blockSize_eq
  have hq := hm.blockSectors_le
  rw [← ha]
  exact h.window_eq hS (Mounted.blockLba_lt _) (by omega) (by omega)

theorem blockBit (h : Alters S v w) (hc : BlocksConsistent v) (hr : BitmapsReached v.part)
    (hb : v.part.IsBlock b) (hS : ∀ s, v.part.BitmapSpan s → ¬ S s) : w.blockBit b = v.blockBit b := by
  have hg := hr.covered b hb
  have hindex := hc.blockIndex_lt (b := b)
  rw [Volume.blockBit, Volume.blockBit, Volume.groupBlock, Volume.groupBlock, h.layout.blockGroup,
    h.layout.blockIndex, h.layout.blockSector, h.layout.group _ (by decide)]
  exact bit_congr (h.block_eq hc.mounted (hr.addressable _ hg) (fun s hs => hS s ⟨_, hg, hs⟩) (by omega))

theorem pointers (h : Alters S v w) : w.pointers = v.pointers := by
  rw [Volume.pointers, Volume.pointers, h.layout.blockSize]

theorem pointer (h : Alters S v w) (hm : Mounted v.part) (hb : v.part.Reached b)
    (hS : ∀ s, v.part.BlockSpan b s → ¬ S s) (hk : k < v.pointers) : w.pointer b k = v.pointer b k := by
  have hlt := hm.blockSector_lt hb.lt
  have hsize := hm.blockSize_eq
  unfold Volume.pointers at hk
  rw [Volume.pointer, Volume.pointer, Partition.blockAddress, Partition.blockAddress, h.layout.blockSector]
  refine load_congr fun j hj => ?_
  have hsame := h.block_eq hm hb.addressable hS (k := 4 * k + j) (by omega)
  rwa [Sectors.window_eq (by omega), Sectors.window_eq (by omega), ← Nat.add_assoc] at hsame

theorem inodeBytes (h : Alters S v w) (hm : Mounted v.part) (hfits : InodeFits v.part n)
    (hS : ∀ s, v.part.InodeSpan n s → ¬ S s) (hk : k < 100) : w.inodeBytes n k = v.inodeBytes n k := by
  have hsize := hm.blockSize_eq
  have hq := hm.blockSectors_le
  have hoffset := hfits.offset
  rw [Volume.inodeBytes, Volume.inodeBytes, h.layout.inodeLba, h.layout.inodeOffset]
  exact h.window_eq hS (inodeLba_lt _) (by omega) (by omega)

/-- The blocks given back lie in groups of the volume. -/
theorem deallocateBlocksFrom (h : Alters S v w) (done : Nat) (hm : Mounted v.part)
    (hS : ∀ s, v.part.BitmapSpan s → S s) (hn : n ≤ blocks.length)
    (hblocks : ∀ b ∈ blocks, sub32 b 1 / v.part.super Superblock.blocksPerGroup < v.part.groupNumber) :
    Alters S v (deallocateBlocksFrom blocks done w n).2 := by
  induction n generalizing w done with
  | zero => exact h
  | succ n ih =>
    have hget : blocks.getD n 0 = blocks[n] := by
      rw [List.getD_eq_getElem?_getD, List.getElem?_eq_getElem (by omega), Option.getD_some]
    have hgroup : sub32 blocks[n] 1 / w.part.super Superblock.blocksPerGroup < v.part.groupNumber := by
      rw [h.layout.super _ (by decide)]
      exact hblocks _ (List.getElem_mem _)
    have hfreed := h.deallocateBlock hm hS rfl hgroup
    simp only [Ext2.deallocateBlocksFrom, hget]
    split
    · exact hfreed
    · exact ih hfreed (done + 1) (by omega)

theorem deallocateBlocks (h : Alters S v w) (hm : Mounted v.part)
    (hS : ∀ s, v.part.BitmapSpan s → S s) (hn : n ≤ blocks.length)
    (hblocks : ∀ b ∈ blocks, sub32 b 1 / v.part.super Superblock.blocksPerGroup < v.part.groupNumber) :
    Alters S v (deallocateBlocks w blocks n).2 := by
  have hrun := h.kmalloc.deallocateBlocksFrom 0 hm hS
    (show (if n ≤ 2147483648 then n else 0) ≤ blocks.length by split <;> omega) hblocks
  unfold Ext2.deallocateBlocks
  simp only
  generalize Ext2.deallocateBlocksFrom _ _ _ _ = r at hrun ⊢
  obtain ⟨_ | done, x⟩ := r
  · exact hrun
  · exact hrun.flushRequired

end Alters

/-! ## The inode that a resize writes -/

/-- Without failure the inode is written, and its first bytes are read back. -/
theorem writeInode_inodeBytes (inode : Bytes) (hm : Mounted v.part) (hr : v.disk.Reliable) (hfits : InodeFits v.part n)
    (hk : k < 100) : (writeInode v n inode).2.inodeBytes n k = inode k := by
  obtain ⟨buffer, w, hwrite, hpart, -⟩ := writeInode_reliable (n := n) hm hr inode
  have hsize := hm.blockSize_eq
  have hoffset := hfits.offset
  have hlower := hfits.size
  have hwritten : v.inodeWritten = v.part.blockSectors :=
    (hr.after v.disk.image (v.disk.issued v.part.blockSectors)).moved
  have hwindow := inodeWindow_same (i := v.part.inodeOffset n + k) hm (congrArg Prod.fst hwrite) (by omega)
  rw [if_pos (by omega), inodeBuffer_inside (by omega), hwrite, Volume.inodeWindow, hpart] at hwindow
  rw [hwrite, Volume.inodeBytes, hpart]
  exact hwindow

theorem size_resizedInode {sectorSize : Nat} (hnew : newSize < 4294967296) :
    InodeDescriptor.size.get (resizedInode inode newSize sectorSize) 0 = newSize := by
  rw [resizedInode, Field.get_set_disjoint _ _ (by decide), Field.get_set_same]
  exact Nat.mod_eq_of_lt hnew

theorem iBlock_resizedInode {sectorSize : Nat} (i : Nat) :
    iBlock (resizedInode inode newSize sectorSize) i = iBlock inode i := by
  have hapart {a : Nat} (ha : a + 4 ≤ 40) : Apart a 4 (40 + 4 * i) 4 := by
    unfold Apart
    omega
  exact (load_store_apart _ (hapart (Nat.le_of_ble_eq_true rfl))).trans
    (load_store_apart _ (hapart (Nat.le_of_ble_eq_true rfl)))

/-! ## Shrinking -/

/-- The bitmaps, the block of inode `n` and what a flush writes share no sector with each other nor
with the blocks of pointers of the inode. -/
structure Separate (v : Volume) (n : Nat) : Prop where
  bitmaps : ∀ s, v.part.BitmapSpan s → ¬ (v.part.InodeSpan n s ∨ v.part.FlushSpan s)
  inode : ∀ s, v.part.InodeSpan n s → ¬ v.part.FlushSpan s
  tables : ∀ k, k * v.part.blockSize < v.fileSize n → v.LogicalAlong (v.inodeBytes n)
    (fun b => ∀ s, v.part.BlockSpan b s →
      ¬ (v.part.BitmapSpan s ∨ v.part.InodeSpan n s ∨ v.part.FlushSpan s)) (fun _ => True) k

/-- The file has the new size and its logical blocks where they were. The bits of the first blocks
of the file are cleared, as many as there are whole blocks between the two sizes. -/
structure Shrunk (v w : Volume) (n newSize : Nat) : Prop where
  size : w.fileSize n = newSize
  mapped : ∀ k, k * v.part.blockSize < v.fileSize n →
    w.logicalBlock (w.inodeBytes n) k = v.logicalBlock (v.inodeBytes n) k
  bits : ∀ c, v.part.IsBlock c → (w.blockBit c = true ↔ v.blockBit c = true ∧
    (c ∈ ((v.fileBlocks n).take ((v.fileSize n - newSize) / v.part.blockSize)).map v.part.clearedBlock →
      4096 * v.part.writtenSectors ≤ v.part.blockIndex c))

theorem Alters.flushSpan (h : Alters S v w) (s : Nat) : w.part.FlushSpan s ↔ v.part.FlushSpan s := by
  unfold Partition.FlushSpan
  simp only [h.bgSector, h.sbSector, h.descriptorsSize, h.layout.groupNumber]

/-- The end of a resize writes the inode and then what a flush writes. -/
theorem finishResize_spec (inode : Bytes) (newSize : Nat) (hm : Mounted v.part) (hr : v.disk.Reliable) (hfits : InodeFits v.part n)
    (hapart : ∀ s, v.part.InodeSpan n s → ¬ v.part.FlushSpan s) :
    (finishResize v n inode newSize).1 = EXT2_RESULT_OK ∧
    Alters (fun s => v.part.InodeSpan n s ∨ v.part.FlushSpan s) v (finishResize v n inode newSize).2 ∧
    ∀ k, k < 100 → (finishResize v n inode newSize).2.inodeBytes n k =
      resizedInode inode newSize v.part.sectorSize k := by
  obtain ⟨inode', hinode⟩ : ∃ a, resizedInode inode newSize v.part.sectorSize = a := ⟨_, rfl⟩
  obtain ⟨-, w, hwrite, hpart, -⟩ := writeInode_reliable (n := n) hm hr inode'
  have hbytes {k : Nat} (hk : k < 100) := writeInode_inodeBytes inode' hm hr hfits hk
  have hwritten := (Alters.refl (S := v.part.InodeSpan n) v).writeInode hm n inode' fun _ hs => hs
  rw [hwrite] at hbytes hwritten
  have hspan (s : Nat) (hs : w.part.FlushSpan s) : v.part.FlushSpan s := (hwritten.flushSpan s).mp hs
  have hflushed := (Alters.refl (S := v.part.FlushSpan) w).flushPartition hspan
  simp only [finishResize, hinode, hwrite]
  rw [if_neg (fun h => h rfl)]
  refine ⟨rfl, (hwritten.mono fun _ => .inl).trans (hflushed.mono fun _ => .inr), fun k hk => ?_⟩
  exact (hflushed.inodeBytes (hpart ▸ hm) (hpart ▸ hfits) (fun s hs => hapart s (hpart ▸ hs)) hk).trans
    (hbytes hk)

end

section

variable {b s : Nat}

theorem blockSpan_fileVolume (hb : b < 4096) (h : fileVolume.part.BlockSpan b s) : sub64 s (2 * b) < 2 := by
  have hq : filePartition.blockSectors = 2 := by decide +kernel
  have hsize : filePartition.blockSize = 1024 := by decide +kernel
  change sub64 s (sext32 (u32 (0 + u32 (b * filePartition.blockSize) / 512))) < filePartition.blockSectors at h
  rw [hsize, hq, u32_of_lt (x := b * 1024) (by omega), u32_of_lt (by omega), sext32_of_lt (by omega),
    show 0 + b * 1024 / 512 = 2 * b by omega] at h
  exact h

/-- The inode is in block 0, the bitmap in block 3, and a flush writes sector 2. -/
theorem resizeSpan_fileVolume : (fileVolume.part.InodeSpan 1 s → sub64 s 0 < 2) ∧
    (fileVolume.part.BitmapSpan s → sub64 s (2 * 3) < 2) ∧ (fileVolume.part.FlushSpan s → sub64 s 2 < 1) := by
  refine ⟨fun h => ?_, fun h => ?_, fun h => ?_⟩
  · have hlba : sext32 (filePartition.inodeLba 1) = 0 := by decide +kernel
    have hq : filePartition.blockSectors = 2 := by decide +kernel
    change sub64 s (sext32 (filePartition.inodeLba 1)) < filePartition.blockSectors at h
    rwa [hlba, hq] at h
  · obtain ⟨g, hg, hspan⟩ := h
    obtain rfl : g = 0 := Nat.lt_one_iff.mp hg
    have hbitmap : fileVolume.part.group BlockGroup.blockBitmap 0 = 3 := by decide +kernel
    rw [hbitmap] at hspan
    exact blockSpan_fileVolume (by omega) hspan
  · obtain ⟨i, hi, hspan⟩ := h
    obtain rfl : i = 0 := Nat.lt_one_iff.mp hi
    have hbg : sext32 (fileVolume.part.bgSector 0) = 2 := by decide +kernel
    have hsb : sext32 (fileVolume.part.sbSector 0) = 2 := by decide +kernel
    have hlen : sizeToBlocks (sext32 fileVolume.part.descriptorsSize) = 1 := by decide +kernel
    unfold Partition.Spans at hspan
    rw [hbg, hsb, hlen] at hspan
    exact hspan.elim id id

theorem sub64_apart {a b m n s : Nat} (ha : sub64 s a < m) (hb : sub64 s b < n) (hab : a + m ≤ b)
    (hlt : b + n ≤ 18446744073709551616) : False := by
  unfold sub64 u64 at ha hb
  omega

/-- The blocks from block 4 on share no sector with these. -/
theorem data_apart_fileVolume (hb : 4 ≤ b ∧ b < 4096) (h : fileVolume.part.BlockSpan b s) :
    ¬ (fileVolume.part.BitmapSpan s ∨ fileVolume.part.InodeSpan 1 s ∨ fileVolume.part.FlushSpan s) := by
  obtain ⟨hinode, hbitmap, hflush⟩ := resizeSpan_fileVolume (s := s)
  have hs := blockSpan_fileVolume hb.2 h
  rintro (hin | hin | hin)
  · exact sub64_apart (hbitmap hin) hs (by omega) (by omega)
  · exact sub64_apart (hinode hin) hs (by omega) (by omega)
  · exact sub64_apart (hflush hin) hs (by omega) (by omega)

theorem separate_fileVolume : Separate fileVolume 1 := by
  refine ⟨fun s hb => ?_, fun s hi hf => ?_, fun k hk => ?_⟩
  · obtain ⟨hinode, hbitmap, hflush⟩ := resizeSpan_fileVolume (s := s)
    rintro (hin | hin)
    · exact sub64_apart (hinode hin) (hbitmap hb) (by omega) (by omega)
    · exact sub64_apart (hflush hin) (hbitmap hb) (by omega) (by omega)
  · obtain ⟨hinode, hbitmap, hflush⟩ := resizeSpan_fileVolume (s := s)
    exact sub64_apart (hinode hi) (hflush hf) (by omega) (by omega)
  · by_cases hk12 : k < 12
    · exact (Volume.logicalAlong_direct hk12).mpr trivial
    · have hsize : fileVolume.part.blockSize = 1024 := by decide +kernel
      have hfile : fileVolume.fileSize 1 = 13312 := by decide +kernel
      have htable : iBlock (fileVolume.inodeBytes 1) 12 = 28 := by decide +kernel
      rw [hsize, hfile] at hk
      obtain rfl : k = 12 + 0 := by omega
      refine (Volume.logicalAlong_single (by decide +kernel)).mpr ?_
      simp only [Along, Nat.zero_div, Nat.add_zero, htable]
      exact ⟨fun s hs => data_apart_fileVolume (by omega) hs, trivial⟩

end

end UnedKernel.Ext2
