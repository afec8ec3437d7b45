import UnedKernel.Ext2.BlockLists
import UnedKernel.Ext2.Flush
import UnedKernel.Ext2.BlockCounts

/-! # Releasing the blocks of a file

`ext2_deallocate_blocks`, and `ext2_delete_file_blocks` and `ext2_delete_n_blocks`
of `ext2_inode.c`, which release blocks from a file's list. -/

namespace UnedKernel.Ext2
open ByteMem Word Sectors Bitmap Indirect

/-- The loop of `ext2_deallocate_blocks` from the last of `n` blocks down: how many are freed,
`none` where one is not. -/
def deallocateBlocksFrom (blocks : List Nat) (done : Nat) (v : Volume) : Nat → Option Nat × Volume
  | 0 => (some done, v)
  | n + 1 =>
    let (freed, v) := deallocateBlock v (blocks.getD n 0)
    if freed = 0 then (none, v) else deallocateBlocksFrom blocks (done + 1) v n

/-- `ext2_deallocate_blocks`: the index of the loop is an `int`. -/
def deallocateBlocks (v : Volume) (blocks : List Nat) (blockNumber : Nat) : Nat × Volume :=
  let (_, v) := kmalloc v
  match deallocateBlocksFrom blocks 0 v (if blockNumber ≤ 2147483648 then blockNumber else 0) with
  | (none, v) => (0, v)
  | (some done, v) => (done, flushRequired v)

/-- The inode and the list of its blocks, and the release of `count inode` blocks: 0 on success. -/
def releaseBlocks (v : Volume) (inodeNumber : Nat) (count : Volume → Bytes → Nat) : Nat × Volume :=
  match readInode v inodeNumber with
  | (none, v) => (1, v)
  | (some inode, v) => match loadBlockList v inodeNumber with
    | (none, v) => (1, v)
    | (some blocks, v) =>
      let blockNumber := count v inode
      let (freed, v) := deallocateBlocks v blocks blockNumber
      (if freed ≠ blockNumber then 1 else 0, v)

/-- `ext2_delete_file_blocks`. -/
def deleteFileBlocks (v : Volume) (inodeNumber : Nat) : Nat × Volume :=
  releaseBlocks v inodeNumber fun v inode =>
    divideRoundedUp (InodeDescriptor.size.get inode 0) v.part.blockSize

/-- `ext2_delete_n_blocks`. -/
def deleteNBlocks (v : Volume) (inodeNumber blocksToRemove : Nat) : Nat × Volume :=
  releaseBlocks v inodeNumber fun _ _ => blocksToRemove

/-! ## The bits that a release clears -/

/-- The block whose bit `ext2_deallocate_block` clears for block `b`: it counts the bits from
block 1 on, and the volume from its first block on. -/
def Partition.clearedBlock (p : Partition) (b : Nat) : Nat := b - 1 + p.super Superblock.firstSbBlock

/-- Every block of the volume has a group, whose bitmap a transfer reaches. -/
structure BitmapsReached (p : Partition) : Prop where
  first : p.super Superblock.firstSbBlock ≤ 1
  covered : ∀ b, p.IsBlock b → p.blockGroup b < p.groupNumber
  addressable : ∀ g, g < p.groupNumber → p.Addressable (p.group BlockGroup.blockBitmap g)

/-- The bits of `blocks` are cleared where a write of a bitmap reaches them, and every call is
counted. -/
structure Released (v w : Volume) (blocks : List Nat) : Prop where
  layout : SameLayout v.part w.part
  consistent : BlocksConsistent w
  bits : ∀ c, v.part.IsBlock c → (w.blockBit c = true ↔ v.blockBit c = true ∧
    (c ∈ blocks.map v.part.clearedBlock → 4096 * v.part.writtenSectors ≤ v.part.blockIndex c))
  groups : ∀ g, w.part.group BlockGroup.freeBlocksCount g =
    (v.part.group BlockGroup.freeBlocksCount g +
      blocks.countP fun b => v.part.blockGroup (v.part.clearedBlock b) = g) % 65536
  super : w.part.super Superblock.freeBlocksCount =
    (v.part.super Superblock.freeBlocksCount + blocks.length) % 4294967296

section

variable {p p' : Partition} {v w x : Volume} {blocks blocks' : List Nat} {b c g n done done' : Nat}

theorem SameLayout.clearedBlock (h : SameLayout p p') : p'.clearedBlock b = p.clearedBlock b := by
  rw [Partition.clearedBlock, Partition.clearedBlock, h.super _ (by decide)]

theorem SameLayout.bitmapsReached (h : SameLayout p p') (hr : BitmapsReached p) : BitmapsReached p' := by
  refine ⟨by rw [h.super _ (by decide)]; exact hr.first, fun b hb => ?_, fun g hg => ?_⟩
  · rw [h.blockGroup, h.groupNumber]
    exact hr.covered b (h.isBlock.mp hb)
  · rw [h.group _ (by decide), h.addressable]
    exact hr.addressable g (h.groupNumber ▸ hg)

namespace BitmapsReached

theorem isBlock_cleared (h : BitmapsReached p) (hb : p.IsBlock b) (hpos : 0 < b) :
    p.IsBlock (p.clearedBlock b) := by
  obtain ⟨hlower, hupper⟩ := hb
  have := h.first
  unfold Partition.clearedBlock
  exact ⟨by omega, by omega⟩

end BitmapsReached

theorem Partition.group_cleared (p : Partition) (b : Nat) :
    p.blockGroup (p.clearedBlock b) = (b - 1) / p.super Superblock.blocksPerGroup := by
  rw [blockGroup, clearedBlock, Nat.add_sub_cancel]

theorem Partition.index_cleared (p : Partition) (b : Nat) :
    p.blockIndex (p.clearedBlock b) = (b - 1) % p.super Superblock.blocksPerGroup := by
  rw [blockIndex, clearedBlock, Nat.add_sub_cancel]

theorem BlocksConsistent.unchanged (h : BlocksConsistent v) (hw : Unchanged v w) : BlocksConsistent w := by
  refine h.transfer hw.sameLayout (hw.reliable h.reliable) fun i j hi hj hbit => h.padded i j hi hj ?_
  rwa [hw.groupBlock] at hbit

namespace Released

theorem nil (h : BlocksConsistent v) : Released v v [] := by
  have hgroup (g : Nat) : v.part.group BlockGroup.freeBlocksCount g < 65536 := Partition.group_lt
  have hsuper : v.part.super Superblock.freeBlocksCount < 4294967296 := Partition.super_lt
  exact ⟨.refl _, h, fun c _ => by simp, fun g => (Nat.mod_eq_of_lt (hgroup g)).symm,
    (Nat.mod_eq_of_lt hsuper).symm⟩

theorem trans (h : Released v w blocks) (h' : Released w x blocks') : Released v x (blocks ++ blocks') := by
  have hl := h.layout
  have hcleared : w.part.clearedBlock = v.part.clearedBlock := funext fun b => hl.clearedBlock
  refine ⟨hl.trans h'.layout, h'.consistent, fun c hc => ?_, fun g => ?_, ?_⟩
  · rw [h'.bits c (hl.isBlock.mpr hc), h.bits c hc, hl.blockIndex, hl.writtenSectors, hcleared,
      List.map_append, List.mem_append, or_imp, and_assoc]
  · have hsame : (fun b => decide (w.part.blockGroup (w.part.clearedBlock b) = g)) =
        fun b => decide (v.part.blockGroup (v.part.clearedBlock b) = g) := by
      funext b
      rw [hcleared, hl.blockGroup]
    rw [h'.groups, h.groups, List.countP_append, hsame]
    omega
  · rw [h'.super, h.super, List.length_append]
    omega

theorem perm (h : Released v w blocks) (hp : blocks.Perm blocks') : Released v w blocks' :=
  ⟨h.layout, h.consistent, fun c hc => by rw [h.bits c hc, (hp.map _).mem_iff],
    fun g => by rw [h.groups, hp.countP_eq], by rw [h.super, hp.length_eq]⟩

theorem of_unchanged (hw : Unchanged v w) (h : Released w x blocks) : Released v x blocks := by
  refine ⟨hw.sameLayout.trans h.layout, h.consistent, fun c hc => ?_, fun g => ?_, ?_⟩
  · rw [h.bits c (hw.sameLayout.isBlock.mpr hc), hw.blockBit, hw.part]
  · rw [h.groups, hw.part]
  · rw [h.super, hw.part]

theorem flushRequired (h : Released v w blocks) : Released v (flushRequired w) blocks :=
  ⟨h.layout.trans Partition.sameLayout_flush, h.consistent.transfer Partition.sameLayout_flush
    h.consistent.reliable h.consistent.padded, h.bits, h.groups, h.super⟩

end Released

/-- A call of `ext2_deallocate_block` on a block of the volume. -/
theorem deallocateBlock_released (h : BlocksConsistent v) (hr : BitmapsReached v.part)
    (hb : v.part.IsBlock b) (hpos : 0 < b) :
    ((deallocateBlock v b).1 = 0 ∧ Unchanged v (deallocateBlock v b).2 ∧
      v.blockBit (v.part.clearedBlock b) = false) ∨
    ((deallocateBlock v b).1 = 1 ∧ Released v (deallocateBlock v b).2 [b]) := by
  have hlt : v.part.super Superblock.blocksCount < 4294967296 := Partition.super_lt
  have hupper := hb.2
  have hcleared := hr.isBlock_cleared hb hpos
  have hg := hr.covered _ hcleared
  have ha := hr.addressable _ hg
  rcases deallocateBlock_reliable (b := b) h.mounted h.reliable hpos (by omega)
    (v.part.group_cleared b).symm (v.part.index_cleared b).symm h.blockIndex_lt (h.nonzero _ hg) with
    ⟨hzero, hsame, hclear⟩ | ⟨hone, hfreed⟩
  · rw [ioGroupBlock_of_addressable ha] at hclear
    exact .inl ⟨hzero, hsame, hclear⟩
  · obtain ⟨w, hw⟩ : ∃ w, (deallocateBlock v b).2 = w := ⟨_, rfl⟩
    rw [hw] at hfreed ⊢
    have hl := hfreed.sameLayout
    have hbits {i j : Nat} (hi : i < v.part.groupNumber) (hj : j < 8 * v.part.blockSize) :=
      h.written hl hfreed.written ha hg hi hj
    have hne {i j : Nat} (hi : i < v.part.groupNumber) (hj : j < 8 * v.part.blockSize) :=
      hfreed.bit_of_ne h ha hg hi hj
    refine .inr ⟨hone, hl, h.transfer hl hfreed.written.reliable fun i j hi hj hbit => ?_,
      fun c hc => ?_, fun g => ?_, ?_⟩
    · by_cases hij : i = v.part.blockGroup (v.part.clearedBlock b) ∧
        j = v.part.blockIndex (v.part.clearedBlock b)
      · -- the bit given back stands for a block of the volume
        obtain ⟨rfl, rfl⟩ := hij
        obtain ⟨c, hc⟩ : ∃ c, v.part.clearedBlock b = c := ⟨_, rfl⟩
        rw [hc] at hcleared ⊢
        have hdiv := Nat.div_add_mod (c - v.part.super Superblock.firstSbBlock)
          (v.part.super Superblock.blocksPerGroup)
        rw [Nat.mul_comm] at hdiv
        have hlower := hcleared.1
        have hupper := hcleared.2
        refine ⟨Nat.mod_lt _ h.mounted.blocksPerGroup, ?_⟩
        unfold Partition.blockGroup Partition.blockIndex
        omega
      · rw [hne hi hj hij] at hbit
        exact h.padded i j hi hj hbit
    · rw [Volume.blockBit, hl.blockGroup, hl.blockIndex, List.map_singleton, List.mem_singleton]
      by_cases hcb : c = v.part.clearedBlock b
      · subst hcb
        rw [hbits hg h.blockIndex_lt, ioGroupBlock_of_addressable ha]
        by_cases hk : v.part.blockIndex (v.part.clearedBlock b) < 4096 * v.part.writtenSectors
        · rw [if_pos ⟨rfl, hk⟩]
          simp [hk]
        · rw [if_neg fun hin => hk hin.2]
          exact ⟨fun hbit => ⟨hbit, fun _ => by omega⟩, And.left⟩
      · rw [hne (hr.covered c hc) h.blockIndex_lt fun he =>
          hcb (Partition.block_ext hc hcleared he.1 he.2)]
        exact ⟨fun hbit => ⟨hbit, fun he => absurd he hcb⟩, And.left⟩
    · have hgroup : v.part.group BlockGroup.freeBlocksCount g < 65536 := Partition.group_lt
      rw [hfreed.part, Partition.group_flush, List.countP_singleton]
      by_cases hgb : v.part.blockGroup (v.part.clearedBlock b) = g
      · rw [hgb, Partition.group_countBlockFreed_same]
        simp only [decide_true, if_true]
        rfl
      · rw [Partition.group_countBlockFreed_of_ne (Ne.symm hgb)]
        simp only [hgb, decide_false]
        rw [if_neg Bool.false_ne_true, Nat.add_zero, Nat.mod_eq_of_lt hgroup]
    · rw [hfreed.part, Partition.super_flush, Partition.super_countBlockFreed]
      rfl

/-- What can be released: blocks of the volume other than block 0. -/
def Releasable (p : Partition) (blocks : List Nat) : Prop := ∀ b ∈ blocks, p.IsBlock b ∧ 0 < b

/-- The loop releases the first `n` blocks from the last down. -/
theorem deallocateBlocksFrom_released (h : BlocksConsistent v) (hr : BitmapsReached v.part)
    (hblocks : Releasable v.part blocks) (hn : n ≤ blocks.length)
    (hrun : deallocateBlocksFrom blocks done v n = (some done', w)) :
    done' = done + n ∧ Released v w (blocks.take n).reverse := by
  induction n generalizing v done with
  | zero =>
    cases hrun
    exact ⟨rfl, .nil h⟩
  | succ n ih =>
    have hget : blocks.getD n 0 = blocks[n] := by
      rw [List.getD_eq_getElem?_getD, List.getElem?_eq_getElem (by omega), Option.getD_some]
    obtain ⟨hb, hpos⟩ := hblocks _ (List.getElem_mem (show n < blocks.length by omega))
    simp only [deallocateBlocksFrom, hget] at hrun
    split at hrun
    · cases hrun
    · rename_i hne
      rcases deallocateBlock_released h hr hb hpos with ⟨hzero, -⟩ | ⟨-, hfreed⟩
      · exact absurd hzero hne
      · have hl := hfreed.layout
        obtain ⟨hdone, hrest⟩ := ih hfreed.consistent (hl.bitmapsReached hr)
          (fun b hb => ⟨hl.isBlock.mpr (hblocks b hb).1, (hblocks b hb).2⟩) (by omega) hrun
        rw [List.take_succ_eq_append_getElem (by omega), List.reverse_append]
        exact ⟨by omega, hfreed.trans hrest⟩

/-- The loop frees them all where their bits are set and different. -/
theorem deallocateBlocksFrom_total (done : Nat) (h : BlocksConsistent v) (hr : BitmapsReached v.part)
    (hblocks : Releasable v.part blocks) (hn : n ≤ blocks.length) (hnodup : blocks.Nodup)
    (hset : ∀ b ∈ blocks.take n, v.blockBit (v.part.clearedBlock b) = true) :
    (deallocateBlocksFrom blocks done v n).1 ≠ none := by
  induction n generalizing v done with
  | zero => exact Option.some_ne_none _
  | succ n ih =>
    have hlt : n < blocks.length := by omega
    have hget : blocks.getD n 0 = blocks[n] := by
      rw [List.getD_eq_getElem?_getD, List.getElem?_eq_getElem hlt, Option.getD_some]
    obtain ⟨hb, hpos⟩ := hblocks _ (List.getElem_mem hlt)
    rw [List.take_succ_eq_append_getElem hlt] at hset
    simp only [deallocateBlocksFrom, hget]
    rcases deallocateBlock_released h hr hb hpos with ⟨-, -, hclear⟩ | ⟨hone, hfreed⟩
    · rw [hset _ (List.mem_append_right _ (List.mem_singleton.mpr rfl))] at hclear
      cases hclear
    · rw [if_neg (by omega)]
      have hl := hfreed.layout
      refine ih (done + 1) hfreed.consistent (hl.bitmapsReached hr)
        (fun b hb => ⟨hl.isBlock.mpr (hblocks b hb).1, (hblocks b hb).2⟩) (by omega) fun b hmem => ?_
      have hb' := hblocks b (List.mem_of_mem_take hmem)
      rw [hl.clearedBlock, hfreed.bits _ (hr.isBlock_cleared hb'.1 hb'.2)]
      refine ⟨hset b (List.mem_append_left _ hmem), fun hin => ?_⟩
      -- a different block has a different bit
      rw [List.map_singleton, List.mem_singleton] at hin
      obtain ⟨i, hi, rfl⟩ := List.mem_iff_getElem.mp hmem
      rw [List.length_take] at hi
      rw [List.getElem_take] at hin hb'
      have heq : blocks[i] = blocks[n] := by
        unfold Partition.clearedBlock at hin
        have := hb'.2
        omega
      have := (List.Nodup.getElem_inj_iff hnodup).mp heq
      omega

/-- `ext2_deallocate_blocks` that frees as many blocks as it is asked to. -/
theorem deallocateBlocks_released (h : BlocksConsistent v) (hr : BitmapsReached v.part)
    (hblocks : Releasable v.part blocks) (hn : n ≤ blocks.length)
    (hok : (deallocateBlocks v blocks n).1 = n) :
    Released v (deallocateBlocks v blocks n).2 (blocks.take n) := by
  have hw : Unchanged v (kmalloc v).2 := ⟨rfl, rfl, id⟩
  unfold deallocateBlocks at hok ⊢
  simp only at hok ⊢
  cases hrun : deallocateBlocksFrom blocks 0 (kmalloc v).2 (if n ≤ 2147483648 then n else 0) with
  | mk done w =>
    rw [hrun] at hok
    cases done with
    | none =>
      obtain rfl : n = 0 := hok.symm
      cases hrun
    | some done =>
      obtain rfl : done = n := hok
      have hlimit : done ≤ 2147483648 := by
        by_contra hlt
        rw [if_neg hlt] at hrun
        cases hrun
        omega
      rw [if_pos hlimit] at hrun
      have hreleased := (deallocateBlocksFrom_released (h.unchanged hw) (hw.part ▸ hr)
        (hw.part ▸ hblocks) hn hrun).2
      exact ((hreleased.perm (List.reverse_perm _)).of_unchanged hw).flushRequired

theorem deallocateBlocks_total (h : BlocksConsistent v) (hr : BitmapsReached v.part)
    (hblocks : Releasable v.part blocks) (hn : n ≤ blocks.length) (hlimit : n ≤ 2147483648)
    (hnodup : blocks.Nodup) (hset : ∀ b ∈ blocks.take n, v.blockBit (v.part.clearedBlock b) = true) :
    (deallocateBlocks v blocks n).1 = n := by
  have hw : Unchanged v (kmalloc v).2 := ⟨rfl, rfl, id⟩
  have htotal := deallocateBlocksFrom_total 0 (h.unchanged hw) (hw.part ▸ hr)
    (hw.part ▸ hblocks) hn hnodup fun b hb => hw.blockBit.trans (hw.part ▸ hset b hb)
  unfold deallocateBlocks
  simp only [if_pos hlimit]
  cases hrun : deallocateBlocksFrom blocks 0 (kmalloc v).2 n with
  | mk done w =>
    rw [hrun] at htotal
    cases done with
    | none => exact absurd rfl htotal
    | some done =>
      have hdone := (deallocateBlocksFrom_released (h.unchanged hw) (hw.part ▸ hr)
        (hw.part ▸ hblocks) hn hrun).1
      simp only
      omega

end

/-! ## The blocks of a file -/

section

variable {v w x : Volume} {list : List Nat} {inode : Bytes} {count : Volume → Bytes → Nat} {k n : Nat}

/-- A file whose blocks can be read and released: they are blocks of the volume. -/
structure Owned (v : Volume) (n : Nat) : Prop where
  readable : Readable v n
  consistent : BlocksConsistent v
  bitmaps : BitmapsReached v.part
  isBlock : ∀ b ∈ v.fileBlocks n, v.part.IsBlock b

/-- A file has at most as many blocks as 32 bits of size give. -/
theorem Readable.blocksFor_le (h : Readable v n) : v.part.blocksFor (v.fileSize n) ≤ 4194304 := by
  have hsize := h.blockSize_ge
  have hlt : v.fileSize n < 4294967296 := fileSize_lt
  by_contra hle
  have := h.mounted.lt_blocksFor.mp (show 4194304 < v.part.blocksFor (v.fileSize n) by omega)
  omega

theorem Unchanged.fileSize (h : Unchanged v w) : w.fileSize n = v.fileSize n := by
  rw [Volume.fileSize, Volume.fileSize, h.inodeBytes]

theorem Unchanged.fileBlocks (h : Unchanged v w) : w.fileBlocks n = v.fileBlocks n := by
  have hlogical : w.logicalBlock (w.inodeBytes n) = v.logicalBlock (v.inodeBytes n) := by
    funext k
    unfold Volume.logicalBlock
    rw [h.inodeBytes, h.pointer, h.pointers]
  rw [Volume.fileBlocks, Volume.fileBlocks, hlogical, h.fileSize, h.part]

namespace Owned

theorem releasable (h : Owned v n) : Releasable v.part (v.fileBlocks n) := by
  intro b hb
  refine ⟨h.isBlock b hb, ?_⟩
  obtain ⟨k, hk, rfl⟩ := List.mem_map.mp hb
  exact (h.readable.followed (List.mem_range.mp hk)).leaf.1

theorem unchanged (h : Owned v n) (hw : Unchanged v w) : Owned w n :=
  ⟨h.readable.transfer hw, h.consistent.unchanged hw, hw.part ▸ h.bitmaps, fun b hb =>
    hw.sameLayout.isBlock.mpr (h.isBlock b (hw.fileBlocks ▸ hb))⟩

/-- A release of `k` blocks that returns 0 takes them from the start of the file. -/
theorem releaseBlocks (h : Owned v n) (hk : k ≤ v.part.blocksFor (v.fileSize n))
    (hcount : ∀ w inode, Unchanged v w → InodeDescriptor.size.get inode 0 = v.fileSize n →
      divideRoundedUp (v.fileSize n) v.part.blockSize = v.part.blocksFor (v.fileSize n) →
      count w inode = k) (hok : (releaseBlocks v n count).1 = 0) :
    Released v (releaseBlocks v n count).2 ((v.fileBlocks n).take k) := by
  obtain ⟨inode, w, hread, hw, hfield, -⟩ := h.readable.readInode
  have hsize : InodeDescriptor.size.get inode 0 = v.fileSize n := hfield _ (by decide)
  unfold Ext2.releaseBlocks at hok ⊢
  simp only [hread] at hok ⊢
  cases hload : loadBlockList w n with
  | mk list x =>
    rw [hload] at hok
    cases list with
    | none => cases hok
    | some list =>
      obtain ⟨hx, hlist, hnumber⟩ := (h.readable.transfer hw).loadBlockList hload
      have hvx := hw.trans hx
      rw [hw.fileSize, hw.part] at hnumber
      rw [hw.fileBlocks] at hlist
      simp only [hcount x inode hvx hsize hnumber] at hok ⊢
      have hfreed : (deallocateBlocks x list k).1 = k := by
        by_contra hne
        rw [if_pos hne] at hok
        cases hok
      have hown := h.unchanged hvx
      have hlen : k ≤ list.length := by rw [hlist, Volume.length_fileBlocks]; exact hk
      have hreleased := deallocateBlocks_released hown.consistent hown.bitmaps
        (hlist ▸ hvx.fileBlocks ▸ hown.releasable) hlen hfreed
      rw [hlist] at hreleased ⊢
      exact hreleased.of_unchanged hvx

/-- It does return 0 where the list is loaded, the blocks differ and the bits of the first `k` are
set. -/
theorem releaseBlocks_total (h : Owned v n) (hk : k ≤ v.part.blocksFor (v.fileSize n))
    (hcount : ∀ w inode, Unchanged v w → InodeDescriptor.size.get inode 0 = v.fileSize n →
      divideRoundedUp (v.fileSize n) v.part.blockSize = v.part.blocksFor (v.fileSize n) →
      count w inode = k) (hload : ∀ w, Unchanged v w → (loadBlockList w n).1 ≠ none)
    (hnodup : (v.fileBlocks n).Nodup)
    (hset : ∀ b ∈ (v.fileBlocks n).take k, v.blockBit (v.part.clearedBlock b) = true) :
    (Ext2.releaseBlocks v n count).1 = 0 := by
  obtain ⟨inode, w, hread, hw, hfield, -⟩ := h.readable.readInode
  have hsize : InodeDescriptor.size.get inode 0 = v.fileSize n := hfield _ (by decide)
  have hlist := hload w hw
  unfold Ext2.releaseBlocks
  simp only [hread]
  cases hload : loadBlockList w n with
  | mk list x =>
    rw [hload] at hlist
    cases list with
    | none => exact absurd rfl hlist
    | some list =>
      obtain ⟨hx, hlist, hnumber⟩ := (h.readable.transfer hw).loadBlockList hload
      have hvx := hw.trans hx
      rw [hw.fileSize, hw.part] at hnumber
      rw [hw.fileBlocks] at hlist
      have hown := h.unchanged hvx
      have hlen : k ≤ list.length := by rw [hlist, Volume.length_fileBlocks]; exact hk
      have htotal := deallocateBlocks_total hown.consistent hown.bitmaps
        (hlist ▸ hvx.fileBlocks ▸ hown.releasable) hlen
        (by have := h.readable.blocksFor_le; omega) (hlist ▸ hnodup) (fun b hb => by
          rw [hvx.blockBit, hvx.part]
          exact hset b (hlist ▸ hb))
      simp only [hcount x inode hvx hsize hnumber, htotal]
      rw [if_neg (by omega)]

end Owned

end

theorem blocksConsistent_fileVolume : BlocksConsistent fileVolume := by
  have hone : filePartition.super Superblock.firstSbBlock = 1 := by decide +kernel
  have hcount : filePartition.super Superblock.blocksCount = 4096 := by decide +kernel
  have hbpg : filePartition.super Superblock.blocksPerGroup = 4096 := by decide +kernel
  have hsize : filePartition.blockSize = 1024 := by decide +kernel
  have hsector : filePartition.blockSector (filePartition.group BlockGroup.blockBitmap 0) = 6 := by
    decide +kernel
  have hgroup {g : Nat} (hg : g < filePartition.groupNumber) : g = 0 := Nat.lt_one_iff.mp hg
  refine ⟨mounted_filePartition, fun _ => rfl, ?_, fun g hg => ?_, fun g h hg hh hne => ?_,
    fun g k hg hk hbit => ?_⟩
  · change filePartition.super _ ≤ 8 * filePartition.blockSize
    rw [hbpg, hsize]
    omega
  · obtain rfl := hgroup hg
    decide +kernel
  · exact absurd ((hgroup hg).trans (hgroup hh).symm) hne
  · obtain rfl := hgroup hg
    change k < 8 * filePartition.blockSize at hk
    change k < filePartition.super _ ∧ filePartition.super _ + 0 * filePartition.super _ + k <
      filePartition.super _
    rw [hsize] at hk
    rw [hbpg, hone, hcount]
    by_contra hpast
    -- the padding is set
    have hbyte : (512 * u64 (6 + k / 8 / 512) + k / 8 % 512) = 3072 + k / 8 := by
      unfold u64
      omega
    change bit (window fileVolume.disk.image (filePartition.blockSector
      (filePartition.group BlockGroup.blockBitmap 0))) k = false at hbit
    rw [hsector, bit, window, hbyte] at hbit
    by_cases hlast : k = 4095
    · subst hlast
      exact absurd hbit (by decide)
    · have himage : fileVolume.disk.image (3072 + k / 8) = 255 := by
        change (if _ then _ else _) = _
        rw [if_neg (by omega), if_neg (by omega), if_neg (by omega), if_neg (by omega), if_neg (by omega),
          if_neg (by omega), if_pos (by omega)]
      have hset : ∀ j, j < 8 → (255 : Byte).getLsbD j = true := by decide
      rw [himage, hset _ (by omega)] at hbit
      cases hbit

theorem owned_fileVolume : Owned fileVolume 1 := by
  have hone : filePartition.super Superblock.firstSbBlock = 1 := by decide +kernel
  have hcount : filePartition.super Superblock.blocksCount = 4096 := by decide +kernel
  have hbpg : filePartition.super Superblock.blocksPerGroup = 4096 := by decide +kernel
  refine ⟨readable_fileVolume, blocksConsistent_fileVolume, ⟨Nat.le_of_eq hone, fun b hb => ?_,
    fun g hg => ?_⟩, fun b hb => ?_⟩
  · obtain ⟨hlower, hupper⟩ := hb
    change b < filePartition.super Superblock.blocksCount at hupper
    change (b - filePartition.super _) / filePartition.super _ < 1
    rw [hone, hbpg]
    rw [hcount] at hupper
    omega
  · obtain rfl : g = 0 := Nat.lt_one_iff.mp hg
    decide +kernel
  · have hrange : ∀ b ∈ fileVolume.fileBlocks 1, 1 ≤ b ∧ b < 4096 := by decide +kernel
    obtain ⟨hlower, hupper⟩ := hrange b hb
    change filePartition.super _ ≤ b ∧ b < filePartition.super _
    rw [hone, hcount]
    exact ⟨hlower, hupper⟩

section

variable {v : Volume} {k n : Nat}

/-- `ext2_delete_n_blocks` takes the blocks from the start of the file. -/
theorem deleteNBlocks_releases (h : Owned v n) (hk : k ≤ v.part.blocksFor (v.fileSize n))
    (hok : (deleteNBlocks v n k).1 = 0) :
    Released v (deleteNBlocks v n k).2 ((v.fileBlocks n).take k) :=
  h.releaseBlocks hk (fun _ _ _ _ _ => rfl) hok

end

end UnedKernel.Ext2
