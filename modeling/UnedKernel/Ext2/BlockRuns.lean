import UnedKernel.Ext2.Block
import UnedKernel.Lib.Run

/-! # Runs of the block allocator

Bit `k` of the block bitmap of group `g` stands for the block
`s_first_sb_block + g * s_blocks_per_group + k`. -/

namespace UnedKernel.Ext2
open ByteMem Word Sectors Bitmap Run

namespace Partition

/-- The group of a block, and its bit in the bitmap of the group. -/
def blockGroup (p : Partition) (b : Nat) : Nat :=
  (b - p.super Superblock.firstSbBlock) / p.super Superblock.blocksPerGroup

def blockIndex (p : Partition) (b : Nat) : Nat :=
  (b - p.super Superblock.firstSbBlock) % p.super Superblock.blocksPerGroup

/-- `b` is a block of the volume. -/
def IsBlock (p : Partition) (b : Nat) : Prop :=
  p.super Superblock.firstSbBlock ≤ b ∧ b < p.super Superblock.blocksCount

end Partition

/-- The bit on the disk that stands for block `b`. -/
def Volume.blockBit (v : Volume) (b : Nat) : Bool :=
  bit (v.groupBlock BlockGroup.blockBitmap (v.part.blockGroup b)) (v.part.blockIndex b)

/-- The volume, and the blocks handed out and not given back. -/
abbrev BlockConfig := Volume × List Nat

/-- Calls of the two functions that meet `okAllocate` and `okDeallocate`. -/
inductive BlockStep (okAllocate : Volume → Prop) (okDeallocate : Volume → Nat → Prop) :
    BlockConfig → BlockConfig → Prop
  | allocate {v : Volume} {live : List Nat} (hok : okAllocate v) :
      BlockStep okAllocate okDeallocate (v, live) ((allocateBlock v).2,
        if (allocateBlock v).1 = 0 then live else (allocateBlock v).1 :: live)
  | deallocate {v : Volume} {live : List Nat} {b : Nat} (hb : v.part.IsBlock b)
      (hok : okDeallocate v b) :
      BlockStep okAllocate okDeallocate (v, live) ((deallocateBlock v b).2,
        if (deallocateBlock v b).1 = 0 then live else live.filter (· ≠ b))

/-- The block bitmaps are blocks of their own, a bitmap fits its block, and the
bits that stand for no block of the volume are set. -/
structure BlocksConsistent (v : Volume) : Prop where
  mounted : Mounted v.part
  reliable : v.disk.Reliable
  fits : v.part.super Superblock.blocksPerGroup ≤ 8 * v.part.blockSize
  nonzero : ∀ g, g < v.part.groupNumber → 0 < v.part.group BlockGroup.blockBitmap g
  distinct : ∀ g h, g < v.part.groupNumber → h < v.part.groupNumber → g ≠ h →
    v.part.group BlockGroup.blockBitmap g ≠ v.part.group BlockGroup.blockBitmap h
  padded : ∀ g k, g < v.part.groupNumber → k < 8 * v.part.blockSize →
    bit (v.groupBlock BlockGroup.blockBitmap g) k = false →
    k < v.part.super Superblock.blocksPerGroup ∧
      v.part.super Superblock.firstSbBlock + g * v.part.super Superblock.blocksPerGroup + k <
        v.part.super Superblock.blocksCount

/-- A nonzero block that `ext2_allocate_block` returns next is a free block of the
volume, and its bit is set by the call. -/
def AllocatesFresh (t : BlockConfig) : Prop :=
  (allocateBlock t.1).1 ≠ 0 →
    (allocateBlock t.1).1 < t.1.part.super Superblock.blocksCount ∧
    t.1.blockBit (allocateBlock t.1).1 = false ∧
    (allocateBlock t.1).2.blockBit (allocateBlock t.1).1 = true ∧
    (allocateBlock t.1).1 ∉ t.2

/-- Every bitmap that the call looks at is addressable, and the bit it takes is in
the sectors that `ext2_write_block` writes, on a volume whose first block is 1. -/
def AllocateMeets (v : Volume) : Prop :=
  ∀ g, g < v.part.groupNumber → (∀ h, h < g → v.Passed h) →
    v.part.group BlockGroup.freeBlocksCount g ≠ 0 →
    v.part.Addressable (v.part.group BlockGroup.blockBitmap g) ∧
      ∀ k, FirstClear (v.groupBlock BlockGroup.blockBitmap g) (8 * v.part.blockSize) k →
        v.part.super Superblock.firstSbBlock = 1 ∧ k < 4096 * v.part.writtenSectors

/-- The bitmap of the block is addressable, on a volume whose first block is 1 and
whose groups were all counted. -/
def DeallocateMeets (v : Volume) (b : Nat) : Prop :=
  v.part.super Superblock.firstSbBlock = 1 ∧ v.part.blockGroup b < v.part.groupNumber ∧
    v.part.Addressable (v.part.group BlockGroup.blockBitmap (v.part.blockGroup b))

/-- The invariant of the runs: every block handed out is in use on the disk. -/
structure BlocksHold (t : BlockConfig) : Prop where
  consistent : BlocksConsistent t.1
  live : ∀ b ∈ t.2, t.1.part.IsBlock b ∧ t.1.part.blockGroup b < t.1.part.groupNumber ∧
    t.1.blockBit b = true

variable {v w : Volume} {live : List Nat} {b g k : Nat}

/-! ## Blocks and bits -/

namespace SameLayout

variable {p p' : Partition}

theorem isBlock (h : SameLayout p p') : p'.IsBlock b ↔ p.IsBlock b := by
  rw [Partition.IsBlock, Partition.IsBlock, h.super _ (by decide), h.super _ (by decide)]

theorem blockGroup (h : SameLayout p p') : p'.blockGroup b = p.blockGroup b := by
  rw [Partition.blockGroup, Partition.blockGroup, h.super _ (by decide), h.super _ (by decide)]

theorem blockIndex (h : SameLayout p p') : p'.blockIndex b = p.blockIndex b := by
  rw [Partition.blockIndex, Partition.blockIndex, h.super _ (by decide), h.super _ (by decide)]

end SameLayout

namespace Partition

variable {p : Partition}

/-- Two blocks with one group and one bit are one block. -/
theorem block_ext {c : Nat} (hb : p.IsBlock b) (hc : p.IsBlock c)
    (hg : p.blockGroup b = p.blockGroup c) (hk : p.blockIndex b = p.blockIndex c) : b = c := by
  have hdb := Nat.div_add_mod (b - p.super Superblock.firstSbBlock)
    (p.super Superblock.blocksPerGroup)
  have hdc := Nat.div_add_mod (c - p.super Superblock.firstSbBlock)
    (p.super Superblock.blocksPerGroup)
  unfold blockGroup at hg
  unfold blockIndex at hk
  rw [hg, hk] at hdb
  have := hb.1
  have := hc.1
  omega

theorem blockGroup_add (hk : k < p.super Superblock.blocksPerGroup) :
    p.blockGroup (p.super Superblock.firstSbBlock + g * p.super Superblock.blocksPerGroup + k) = g := by
  rw [blockGroup, Nat.add_assoc, Nat.add_sub_cancel_left, Nat.add_comm, Nat.add_mul_div_right _ _ (by omega),
    Nat.div_eq_of_lt hk, Nat.zero_add]

theorem blockIndex_add (hk : k < p.super Superblock.blocksPerGroup) :
    p.blockIndex (p.super Superblock.firstSbBlock + g * p.super Superblock.blocksPerGroup + k) = k := by
  rw [blockIndex, Nat.add_assoc, Nat.add_sub_cancel_left, Nat.add_comm, Nat.add_mul_mod_self_right,
    Nat.mod_eq_of_lt hk]

end Partition

theorem blockBit_add (hk : k < v.part.super Superblock.blocksPerGroup)
    (hb : b = v.part.super Superblock.firstSbBlock +
      g * v.part.super Superblock.blocksPerGroup + k) :
    v.blockBit b = bit (v.groupBlock BlockGroup.blockBitmap g) k := by
  rw [hb, Volume.blockBit, Partition.blockGroup_add hk, Partition.blockIndex_add hk]

/-! ## One bitmap written -/

theorem ioGroupBlock_of_addressable {f : Field} (h : v.part.Addressable (v.part.group f g)) :
    v.ioGroupBlock f g = v.groupBlock f g := by
  rw [Volume.ioGroupBlock, Volume.groupBlock, h]

namespace BlocksConsistent

theorem blockIndex_lt (h : BlocksConsistent v) : v.part.blockIndex b < 8 * v.part.blockSize :=
  Nat.lt_of_lt_of_le (Nat.mod_lt _ h.mounted.blocksPerGroup) h.fits

/-- The bits of all bitmaps after one is written. -/
theorem written (h : BlocksConsistent v) (hl : SameLayout v.part w.part) {bits : Nat → Bool}
    (hw : BlockWritten v w (v.part.group BlockGroup.blockBitmap g) bits)
    (ha : v.part.Addressable (v.part.group BlockGroup.blockBitmap g)) (hg : g < v.part.groupNumber)
    {i j : Nat} (hi : i < v.part.groupNumber) (hj : j < 8 * v.part.blockSize) :
    bit (w.groupBlock BlockGroup.blockBitmap i) j =
      if i = g ∧ j < 4096 * v.part.writtenSectors then bits j
      else bit (v.groupBlock BlockGroup.blockBitmap i) j := by
  rw [Volume.groupBlock, hl.group _ (by decide), hl.blockSector]
  by_cases hig : i = g
  · subst hig
    rw [hw.same h.mounted ha hj]
    simp only [true_and]
    rfl
  · rw [if_neg (by simp [hig]), hw.other h.mounted Partition.group_lt Partition.group_lt ha
      (h.distinct g i hg hi fun he => hig he.symm) hj]
    rfl

/-- The bits may change where the padding stays. -/
theorem transfer (h : BlocksConsistent v) (hl : SameLayout v.part w.part)
    (hr : w.disk.Reliable)
    (hp : ∀ i j, i < v.part.groupNumber → j < 8 * v.part.blockSize →
      bit (w.groupBlock BlockGroup.blockBitmap i) j = false →
      j < v.part.super Superblock.blocksPerGroup ∧
        v.part.super Superblock.firstSbBlock + i * v.part.super Superblock.blocksPerGroup + j <
          v.part.super Superblock.blocksCount) : BlocksConsistent w := by
  refine ⟨hl.mounted h.mounted, hr, ?_, ?_, ?_, ?_⟩
  · rw [hl.super _ (by decide), hl.blockSize]; exact h.fits
  · rw [hl.groupNumber]
    intro i hi
    rw [hl.group _ (by decide)]
    exact h.nonzero i hi
  · rw [hl.groupNumber]
    intro i j hi hj
    rw [hl.group _ (by decide), hl.group _ (by decide)]
    exact h.distinct i j hi hj
  · rw [hl.groupNumber, hl.blockSize, hl.super _ (by decide), hl.super _ (by decide),
      hl.super _ (by decide)]
    exact hp

end BlocksConsistent

/-! ## Steps -/

theorem Unchanged.sameLayout (h : Unchanged v w) : SameLayout v.part w.part := by
  rw [h.part]
  exact SameLayout.refl _

theorem Unchanged.blockBit (h : Unchanged v w) : w.blockBit b = v.blockBit b := by
  rw [Volume.blockBit, Volume.blockBit, h.groupBlock, h.part]

theorem BlocksHold.unchanged (h : BlocksHold (v, live)) (hw : Unchanged v w) :
    BlocksHold (w, live) := by
  refine ⟨h.consistent.transfer hw.sameLayout (hw.reliable h.consistent.reliable)
    fun i j hi hj hbit => h.consistent.padded i j hi hj ?_, fun b hb => ?_⟩
  · rw [← hw.groupBlock]
    exact hbit
  · rw [hw.sameLayout.isBlock, hw.blockBit, hw.part]
    exact h.live b hb

/-- Bit `k` of group `g` stands for block `b`. -/
structure StandsFor (p : Partition) (g k b : Nat) : Prop where
  group : g < p.groupNumber
  index : k < p.super Superblock.blocksPerGroup
  block : b = p.super Superblock.firstSbBlock + g * p.super Superblock.blocksPerGroup + k
  isBlock : p.IsBlock b

/-- A call that meets the condition and takes a bit takes that of the block it returns. -/
theorem allocateBlock_standsFor (h : BlocksConsistent v) (hok : AllocateMeets v)
    (hstop : v.Stops 0 v.part.groupNumber g k) :
    StandsFor v.part g k (u32 (k + 1 + g * v.part.super Superblock.blocksPerGroup)) ∧
      v.part.Addressable (v.part.group BlockGroup.blockBitmap g) ∧
      k < 4096 * v.part.writtenSectors ∧ k < 8 * v.part.blockSize ∧
      bit (v.groupBlock BlockGroup.blockBitmap g) k = false := by
  have hg : g < v.part.groupNumber := by have := hstop.upper; omega
  obtain ⟨ha, hfirst⟩ := hok g hg (fun i hi => hstop.passed i (by omega) hi) hstop.free
  have hclear := hstop.clear
  rw [ioGroupBlock_of_addressable ha] at hclear
  obtain ⟨hone, hk⟩ := hfirst k hclear
  obtain ⟨hindex, hcount⟩ := h.padded g k hg hclear.1 hclear.2.1
  have hlt : v.part.super Superblock.blocksCount < 4294967296 := Partition.super_lt
  have hnum : u32 (k + 1 + g * v.part.super Superblock.blocksPerGroup) =
      v.part.super Superblock.firstSbBlock + g * v.part.super Superblock.blocksPerGroup + k := by
    rw [hone] at hcount ⊢
    rw [u32_of_lt (by omega)]
    omega
  exact ⟨⟨hg, hindex, hnum, by omega, by omega⟩, ha, hk, hclear.1, hclear.2.1⟩

theorem BlockTaken.sameLayout (h : BlockTaken v w g k) : SameLayout v.part w.part := by
  rw [h.part]
  exact Partition.sameLayout_countBlockTaken.trans Partition.sameLayout_flush

theorem BlockFreed.sameLayout (h : BlockFreed v w g k) : SameLayout v.part w.part := by
  rw [h.part]
  exact Partition.sameLayout_countBlockFreed.trans Partition.sameLayout_flush

/-- Taking a bit that reaches the disk sets that bit and no other. -/
theorem BlockTaken.bit_eq (ht : BlockTaken v w g k) (h : BlocksConsistent v)
    (ha : v.part.Addressable (v.part.group BlockGroup.blockBitmap g)) (hg : g < v.part.groupNumber)
    (hk : k < 4096 * v.part.writtenSectors) {i j : Nat} (hi : i < v.part.groupNumber)
    (hj : j < 8 * v.part.blockSize) :
    bit (w.groupBlock BlockGroup.blockBitmap i) j =
      (decide (i = g ∧ j = k) || bit (v.groupBlock BlockGroup.blockBitmap i) j) := by
  rw [h.written ht.sameLayout ht.written ha hg hi hj, ioGroupBlock_of_addressable ha]
  split
  · rename_i hin
    rw [hin.1]
    simp
  · have hne : ¬ (i = g ∧ j = k) := by
      intro he
      omega
    simp [hne]

/-- Giving a bit back clears no other. -/
theorem BlockFreed.bit_of_ne (ht : BlockFreed v w g k) (h : BlocksConsistent v)
    (ha : v.part.Addressable (v.part.group BlockGroup.blockBitmap g)) (hg : g < v.part.groupNumber)
    {i j : Nat} (hi : i < v.part.groupNumber) (hj : j < 8 * v.part.blockSize)
    (hne : ¬ (i = g ∧ j = k)) :
    bit (w.groupBlock BlockGroup.blockBitmap i) j =
      bit (v.groupBlock BlockGroup.blockBitmap i) j := by
  rw [h.written ht.sameLayout ht.written ha hg hi hj, ioGroupBlock_of_addressable ha]
  split
  · rename_i hin
    have hjk : j ≠ k := fun he => hne ⟨hin.1, he⟩
    rw [hin.1]
    simp [hjk]
  · rfl

theorem BlocksHold.allocate (h : BlocksHold (v, live)) (hok : AllocateMeets v) :
    AllocatesFresh (v, live) ∧ BlocksHold ((allocateBlock v).2,
      if (allocateBlock v).1 = 0 then live else (allocateBlock v).1 :: live) := by
  have hc : BlocksConsistent v := h.consistent
  rcases allocateBlockFrom_reliable (i := 0) (n := v.part.groupNumber) hc.mounted hc.reliable
    (fun g hg => hc.nonzero g (by omega)) with ⟨hzero, hsame, -⟩ | ⟨g, k, hstop, htaken, hnum⟩
  · rw [AllocatesFresh, allocateBlock, hzero, if_pos rfl]
    exact ⟨fun hne => absurd rfl hne, h.unchanged hsame⟩
  · obtain ⟨hstands, ha, hk, hfit, hclear⟩ := allocateBlock_standsFor hc hok hstop
    rw [AllocatesFresh, allocateBlock, hnum]
    obtain ⟨b, hb⟩ : ∃ b, u32 (k + 1 + g * v.part.super Superblock.blocksPerGroup) = b := ⟨_, rfl⟩
    obtain ⟨w, hw⟩ : ∃ w, (allocateBlockFrom v 0 v.part.groupNumber).2 = w := ⟨_, rfl⟩
    rw [hb] at hstands ⊢
    rw [hw] at htaken ⊢
    have hl := htaken.sameLayout
    have hbits {i j : Nat} (hi : i < v.part.groupNumber) (hj : j < 8 * v.part.blockSize) :=
      htaken.bit_eq hc ha hstands.group hk hi hj
    have hbefore : v.blockBit b = false := by
      rw [blockBit_add hstands.index hstands.block]
      exact hclear
    have hafter (c : Nat) (hcg : v.part.blockGroup c < v.part.groupNumber)
        (hset : c = b ∨ v.blockBit c = true) : w.blockBit c = true := by
      rw [Volume.blockBit, hl.blockGroup, hl.blockIndex, hbits hcg hc.blockIndex_lt]
      rcases hset with rfl | hset
      · rw [hstands.block, Partition.blockGroup_add hstands.index,
          Partition.blockIndex_add hstands.index]
        simp
      · rw [show bit (v.groupBlock BlockGroup.blockBitmap (v.part.blockGroup c))
          (v.part.blockIndex c) = true from hset, Bool.or_true]
    have hgroup : v.part.blockGroup b < v.part.groupNumber := by
      rw [hstands.block, Partition.blockGroup_add hstands.index]
      exact hstands.group
    have hne : b ∉ live := fun hmem => by
      have := (h.live b hmem).2.2
      rw [hbefore] at this
      cases this
    refine ⟨fun _ => ⟨hstands.isBlock.2, hbefore, hafter b hgroup (.inl rfl), hne⟩, ?_, ?_⟩
    · refine hc.transfer hl htaken.written.reliable fun i j hi hj hbit => ?_
      rw [hbits hi hj, Bool.or_eq_false_iff] at hbit
      exact hc.padded i j hi hj hbit.2
    · intro c hmem
      have hcase : c = b ∨ c ∈ live := by
        split at hmem
        · exact .inr hmem
        · exact List.mem_cons.mp hmem
      rw [hl.isBlock, hl.blockGroup, hl.groupNumber]
      rcases hcase with rfl | hmem
      · exact ⟨hstands.isBlock, hgroup, hafter c hgroup (.inl rfl)⟩
      · obtain ⟨hblock, hcg, hset⟩ := h.live c hmem
        exact ⟨hblock, hcg, hafter c hcg (.inr hset)⟩

theorem BlocksHold.deallocate (h : BlocksHold (v, live)) (hb : v.part.IsBlock b)
    (hok : DeallocateMeets v b) : BlocksHold ((deallocateBlock v b).2,
      if (deallocateBlock v b).1 = 0 then live else live.filter (· ≠ b)) := by
  have hc : BlocksConsistent v := h.consistent
  obtain ⟨hone, hg, ha⟩ := hok
  have hlt : v.part.super Superblock.blocksCount < 4294967296 := Partition.super_lt
  have hlower := hb.1
  have hupper := hb.2
  rcases deallocateBlock_reliable (b := b) (g := v.part.blockGroup b) (k := v.part.blockIndex b)
    hc.mounted hc.reliable (by omega) (by omega) (by rw [Partition.blockGroup, hone])
    (by rw [Partition.blockIndex, hone]) hc.blockIndex_lt (hc.nonzero _ hg) with
    ⟨hzero, hsame, -⟩ | ⟨hres, hfreed⟩
  · rw [hzero, if_pos rfl]
    exact h.unchanged hsame
  · rw [hres, if_neg Nat.one_ne_zero]
    obtain ⟨w, hw⟩ : ∃ w, (deallocateBlock v b).2 = w := ⟨_, rfl⟩
    rw [hw] at hfreed ⊢
    have hl := hfreed.sameLayout
    have hbits {i j : Nat} (hi : i < v.part.groupNumber) (hj : j < 8 * v.part.blockSize) :=
      hfreed.bit_of_ne hc ha hg hi hj
    have hindex : v.part.blockIndex b < v.part.super Superblock.blocksPerGroup :=
      Nat.mod_lt _ hc.mounted.blocksPerGroup
    refine ⟨hc.transfer hl hfreed.written.reliable fun i j hi hj hbit => ?_, fun c hmem => ?_⟩
    · by_cases hij : i = v.part.blockGroup b ∧ j = v.part.blockIndex b
      · -- the bit given back stands for the block `b` of the volume
        obtain ⟨rfl, rfl⟩ := hij
        have hdiv := Nat.div_add_mod (b - v.part.super Superblock.firstSbBlock)
          (v.part.super Superblock.blocksPerGroup)
        rw [Nat.mul_comm] at hdiv
        refine ⟨hindex, ?_⟩
        unfold Partition.blockGroup Partition.blockIndex
        omega
      · rw [hbits hi hj hij] at hbit
        exact hc.padded i j hi hj hbit
    · rw [List.mem_filter] at hmem
      obtain ⟨hblock, hcg, hset⟩ := h.live c hmem.1
      have hne : ¬ (v.part.blockGroup c = v.part.blockGroup b ∧
          v.part.blockIndex c = v.part.blockIndex b) := by
        intro he
        have := Partition.block_ext hblock hb he.1 he.2
        simp [this] at hmem
      rw [hl.isBlock, hl.blockGroup, hl.groupNumber]
      refine ⟨hblock, hcg, ?_⟩
      rw [Volume.blockBit, hl.blockGroup, hl.blockIndex, hbits hcg hc.blockIndex_lt hne]
      exact hset

/-- In every run of calls that meet the conditions, from a volume with consistent
block bitmaps, the next call of `ext2_allocate_block` that meets its condition hands
out a fresh block. -/
theorem allocateBlock_fresh {t : BlockConfig} (hv : BlocksConsistent v)
    (hrun : Reaches (BlockStep AllocateMeets DeallocateMeets) (v, []) t)
    (hok : AllocateMeets t.1) : AllocatesFresh t := by
  have hinv : BlocksHold t := by
    refine Run.invariant BlocksHold (fun s u hs hstep => ?_) ⟨hv, fun b hb => by cases hb⟩ hrun
    cases hstep with
    | allocate hmeets => exact (hs.allocate hmeets).2
    | deallocate hb hmeets => exact hs.deallocate hb hmeets
  exact (hinv.allocate hok).1

/-- One group of 8191 blocks of 1024 bytes, its block bitmap in block 3. -/
def smallPartition : Partition where
  backupBgs := fun _ => 0
  backupBgsCount := 1
  lba := 0
  groupNumber := 1
  sectorSize := 512
  bgdtBlock := 2
  sbBlock := 2
  flushRequired := false
  sb := [(Superblock.inodesCount, 16), (Superblock.blocksCount, 8192),
    (Superblock.freeBlocksCount, 4095), (Superblock.firstSbBlock, 1),
    (Superblock.blocksPerGroup, 8192), (Superblock.inodesPerGroup, 16)].foldl
      (fun m f => f.1.set m 0 f.2) fun _ => 0
  gd := [(BlockGroup.blockBitmap, 3), (BlockGroup.freeBlocksCount, 4095)].foldl
    (fun m f => f.1.set m 0 f.2) fun _ => 0

/-- The partition on a disk whose block bitmap has its first `n` bytes full and the
padding set. -/
def smallVolume (n : Nat) : Volume where
  disk :=
    { image := fun a => if a = 4095 then 128 else if 3072 ≤ a ∧ a < 3072 + n then 255 else 0
      fails := fun _ => false
      clock := 0 }
  part := smallPartition
  buffers := fun _ _ => 0
  allocated := 0

theorem mounted_smallPartition : Mounted smallPartition :=
  ⟨rfl, by decide +kernel, by decide, by decide +kernel, by decide +kernel, by decide +kernel,
    by decide +kernel⟩

theorem blocksConsistent_smallVolume (n : Nat) : BlocksConsistent (smallVolume n) := by
  have hsize : smallPartition.blockSize = 1024 := by decide +kernel
  have hbpg : smallPartition.super Superblock.blocksPerGroup = 8192 := by decide +kernel
  have hcount : smallPartition.super Superblock.blocksCount = 8192 := by decide +kernel
  have hone : smallPartition.super Superblock.firstSbBlock = 1 := by decide +kernel
  have hsector : smallPartition.blockSector (smallPartition.group BlockGroup.blockBitmap 0) = 6 := by
    decide +kernel
  have hpart : (smallVolume n).part = smallPartition := rfl
  have hgroup {g : Nat} (hg : g < smallPartition.groupNumber) : g = 0 := Nat.lt_one_iff.mp hg
  refine ⟨mounted_smallPartition, fun _ => rfl, ?_, ?_, ?_, ?_⟩
  · rw [hpart, hbpg, hsize]
  · intro g hg
    rw [hpart, hgroup hg]
    decide +kernel
  · intro g h hg hh hne
    exact absurd ((hgroup hg).trans (hgroup hh).symm) hne
  · intro g k hg hk hbit
    rw [hpart] at hg hk ⊢
    rw [hgroup hg] at hbit ⊢
    rw [hsize] at hk
    rw [hbpg, hcount, hone]
    by_cases hlast : k = 8191
    · -- the padding
      have haddr : 512 * u64 (6 + 8191 / 8 / 512) + 8191 / 8 % 512 = 4095 := by decide
      have hbyte : (smallVolume n).disk.image 4095 = 128 := rfl
      rw [Volume.groupBlock, hpart, hsector, bit, hlast, window, haddr, hbyte] at hbit
      exact absurd hbit (by decide)
    · omega

/-- From an empty bitmap, after one call. -/
theorem allocateBlock_fresh_small :
    (allocateBlock (allocateBlock (smallVolume 0)).2).1 = 2 ∧
      AllocatesFresh ((allocateBlock (smallVolume 0)).2, [1]) := by
  have hmeets {v : Volume} {k : Nat} (hg : v.part.groupNumber = 1)
      (ha : v.part.Addressable (v.part.group BlockGroup.blockBitmap 0))
      (hk : FirstClear (v.groupBlock BlockGroup.blockBitmap 0) (8 * v.part.blockSize) k)
      (hone : v.part.super Superblock.firstSbBlock = 1) (hw : k < 4096 * v.part.writtenSectors) :
      AllocateMeets v := by
    intro g hlt _ _
    obtain rfl : g = 0 := by omega
    exact ⟨ha, fun j hj => ⟨hone, hj.unique hk ▸ hw⟩⟩
  have hnum : (allocateBlock (smallVolume 0)).1 = 1 := by decide +kernel
  have hfirst : AllocateMeets (smallVolume 0) := by
    refine hmeets (k := 0) (by decide +kernel) (by decide +kernel) ⟨?_, ?_, ?_⟩ ?_ ?_
    · decide +kernel
    · decide +kernel
    · intro i hi; omega
    · decide +kernel
    · decide +kernel
  have hstep := @BlockStep.allocate AllocateMeets DeallocateMeets _ [] hfirst
  rw [hnum] at hstep
  refine ⟨by decide +kernel, allocateBlock_fresh (blocksConsistent_smallVolume 0)
    (.single hstep) ?_⟩
  refine hmeets (k := 1) ?_ ?_ ⟨?_, ?_, ?_⟩ ?_ ?_
  · decide +kernel
  · decide +kernel
  · decide +kernel
  · decide +kernel
  · intro i hi
    obtain rfl : i = 0 := by omega
    decide +kernel
  · decide +kernel
  · decide +kernel

/-- From a bitmap with its first sector full, the bit taken does not reach the disk. -/
theorem allocateBlock_not_fresh : ¬ ∀ v, BlocksConsistent v → ∀ t,
    Reaches (BlockStep (fun _ => True) fun _ _ => True) (v, []) t → AllocatesFresh t := by
  intro h
  have hfresh := h (smallVolume 512) (blocksConsistent_smallVolume 512) _ .refl
  have hnum : (allocateBlock (smallVolume 512)).1 = 4097 := by decide +kernel
  have hbit : (allocateBlock (smallVolume 512)).2.blockBit 4097 = false := by decide +kernel
  rw [AllocatesFresh] at hfresh
  have hset := (hfresh (by rw [hnum]; omega)).2.2.1
  rw [hnum, hbit] at hset
  cases hset

end UnedKernel.Ext2
