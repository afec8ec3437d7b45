import UnedKernel.Ext2.InodeBitmap

/-! # When inode allocation is exact

Inode `n` is bit `(n - 1) mod s_inodes_per_group` of the inode bitmap of group
`(n - 1) / s_inodes_per_group`, which is how `ext2_read_inode` finds it. -/

namespace UnedKernel.Ext2
open ByteMem Word Sectors Bitmap

variable {v w : Volume} {g k n : Nat}

/-- The bit on the disk of inode `n`. -/
def Volume.inodeBit (v : Volume) (n : Nat) : Bool :=
  bit (v.groupBlock BlockGroup.inodeBitmap (v.part.inodeGroup n)) (v.part.inodeIndex n)

/-- The inode bitmaps are blocks of their own, apart from the inode tables; a bitmap
fits its block and its trailing bits are set; the counters count the clear bits. -/
structure InodesConsistent (v : Volume) : Prop where
  mounted : Mounted v.part
  reliable : v.disk.Reliable
  fits : v.part.super Superblock.inodesPerGroup ≤ 8 * v.part.blockSize
  count : v.part.super Superblock.inodesCount =
    v.part.groupNumber * v.part.super Superblock.inodesPerGroup
  inodeSize : 0 < v.part.inodeSize
  nonzero : ∀ g, g < v.part.groupNumber → 0 < v.part.group BlockGroup.inodeBitmap g
  distinct : ∀ g h, g < v.part.groupNumber → h < v.part.groupNumber → g ≠ h →
    v.part.group BlockGroup.inodeBitmap g ≠ v.part.group BlockGroup.inodeBitmap h
  tables : ∀ g h j, g < v.part.groupNumber → h < v.part.groupNumber →
    j < v.part.super Superblock.inodesPerGroup →
    v.part.group BlockGroup.inodeTable g + j * v.part.inodeSize / v.part.blockSize ≠
      v.part.group BlockGroup.inodeBitmap h
  padded : ∀ g k, g < v.part.groupNumber → k < 8 * v.part.blockSize →
    bit (v.groupBlock BlockGroup.inodeBitmap g) k = false →
    k < v.part.super Superblock.inodesPerGroup
  freeCount : ∀ g, g < v.part.groupNumber → v.part.group BlockGroup.freeInodesCount g =
    clearCount (v.groupBlock BlockGroup.inodeBitmap g) (v.part.super Superblock.inodesPerGroup)
  freeTotal : v.part.super Superblock.freeInodesCount =
    ∑ g ∈ Finset.range v.part.groupNumber, v.part.group BlockGroup.freeInodesCount g

/-- The call returns a free inode and takes its bit and nothing else, or it returns 0
and takes nothing. -/
structure AllocatesInode (v : Volume) : Prop where
  range : (allocateInode v).1 ≠ 0 →
    1 ≤ (allocateInode v).1 ∧ (allocateInode v).1 ≤ v.part.super Superblock.inodesCount
  free : (allocateInode v).1 ≠ 0 → v.inodeBit (allocateInode v).1 = false
  taken : (allocateInode v).1 ≠ 0 → ∀ g k, g < v.part.groupNumber → k < 8 * v.part.blockSize →
    bit ((allocateInode v).2.groupBlock BlockGroup.inodeBitmap g) k =
      (decide (g = v.part.inodeGroup (allocateInode v).1 ∧
        k = v.part.inodeIndex (allocateInode v).1) ||
        bit (v.groupBlock BlockGroup.inodeBitmap g) k)
  counted : (allocateInode v).1 ≠ 0 →
    (allocateInode v).2.part.group BlockGroup.freeInodesCount
      (v.part.inodeGroup (allocateInode v).1) + 1 =
        v.part.group BlockGroup.freeInodesCount (v.part.inodeGroup (allocateInode v).1) ∧
    (allocateInode v).2.part.super Superblock.freeInodesCount + 1 =
      v.part.super Superblock.freeInodesCount
  unchanged : (allocateInode v).1 = 0 →
    (∀ g k, g < v.part.groupNumber → k < 8 * v.part.blockSize →
      bit ((allocateInode v).2.groupBlock BlockGroup.inodeBitmap g) k =
        bit (v.groupBlock BlockGroup.inodeBitmap g) k) ∧
    (∀ g, g < v.part.groupNumber → (allocateInode v).2.part.group BlockGroup.freeInodesCount g =
      v.part.group BlockGroup.freeInodesCount g) ∧
    (allocateInode v).2.part.super Superblock.freeInodesCount =
      v.part.super Superblock.freeInodesCount

/-- If the bitmap of the first group with free inodes, as the call reads it, has a clear
bit, then this group is group 0, its bitmap is addressable and the first clear bit is in
the sectors that `ext2_write_block` writes. -/
def AllocateInodeMeets (v : Volume) : Prop :=
  ∀ g k, v.FirstWithInodes g →
    FirstClear (v.ioGroupBlock BlockGroup.inodeBitmap g) (8 * v.part.blockSize) k →
    u32 (k + 1) ≠ 0 →
    g = 0 ∧ v.part.Addressable (v.part.group BlockGroup.inodeBitmap g) ∧
      k < 4096 * v.part.writtenSectors

namespace Partition

variable {p : Partition}

theorem inodeGroup_eq (hn : 0 < n) (hlt : n < 4294967296) :
    p.inodeGroup n = (n - 1) / p.super Superblock.inodesPerGroup := by
  rw [inodeGroup, sub32_of_le hn hlt]

theorem inodeIndex_eq (hn : 0 < n) (hlt : n < 4294967296) :
    p.inodeIndex n = (n - 1) % p.super Superblock.inodesPerGroup := by
  rw [inodeIndex, sub32_of_le hn hlt]

end Partition

namespace InodesConsistent

/-- An inode of the volume lies in a group of it. -/
theorem inodeGroup_lt (h : InodesConsistent v) (hn : 0 < n)
    (hle : n ≤ v.part.super Superblock.inodesCount) : v.part.inodeGroup n < v.part.groupNumber := by
  have hlt : v.part.super Superblock.inodesCount < 4294967296 := Partition.super_lt
  have hcount := h.count
  rw [Partition.inodeGroup_eq hn (by omega), Nat.div_lt_iff_lt_mul h.mounted.inodesPerGroup]
  omega

theorem inodeIndex_lt (h : InodesConsistent v) :
    v.part.inodeIndex n < v.part.super Superblock.inodesPerGroup :=
  Nat.mod_lt _ h.mounted.inodesPerGroup

/-- The bits of all inode bitmaps after one is written. -/
theorem written (h : InodesConsistent v) (hl : SameLayout v.part w.part) {bits : Nat → Bool}
    (hw : BlockWritten v w (v.part.group BlockGroup.inodeBitmap g) bits)
    (ha : v.part.Addressable (v.part.group BlockGroup.inodeBitmap g)) (hg : g < v.part.groupNumber)
    {i j : Nat} (hi : i < v.part.groupNumber) (hj : j < 8 * v.part.blockSize) :
    bit (w.groupBlock BlockGroup.inodeBitmap i) j =
      if i = g ∧ j < 4096 * v.part.writtenSectors then bits j
      else bit (v.groupBlock BlockGroup.inodeBitmap i) j := by
  rw [Volume.groupBlock, hl.group _ (by decide), hl.blockSector]
  by_cases hig : i = g
  · subst hig
    rw [hw.same h.mounted ha hj]
    simp only [true_and]
    rfl
  · rw [if_neg (by simp [hig]), hw.other h.mounted Partition.group_lt Partition.group_lt ha
      (h.distinct g i hg hi fun he => hig he.symm) hj]
    rfl

/-- A write that misses the bitmap leaves it alone. -/
theorem missed (h : InodesConsistent v) (hl : SameLayout v.part w.part) {bits : Nat → Bool}
    (hw : BlockWritten v w (v.part.group BlockGroup.inodeBitmap g) bits)
    (ha : ¬ v.part.Addressable (v.part.group BlockGroup.inodeBitmap g)) {j : Nat}
    (hj : j < 8 * v.part.blockSize) :
    bit (w.groupBlock BlockGroup.inodeBitmap g) j =
      bit (v.groupBlock BlockGroup.inodeBitmap g) j := by
  rw [Volume.groupBlock, hl.group _ (by decide), hl.blockSector,
    hw.missed h.mounted Partition.group_lt ha hj]
  rfl

/-- A group with free inodes has a share in the total. -/
theorem freeTotal_pos (h : InodesConsistent v) (hg : g < v.part.groupNumber)
    (hfree : v.part.group BlockGroup.freeInodesCount g ≠ 0) :
    0 < v.part.super Superblock.freeInodesCount := by
  have hle := Finset.single_le_sum
    (f := fun i => v.part.group BlockGroup.freeInodesCount i) (fun i _ => Nat.zero_le _)
    (Finset.mem_range.mpr hg)
  rw [h.freeTotal]
  exact Nat.lt_of_lt_of_le (Nat.pos_of_ne_zero hfree) hle

end InodesConsistent

theorem InodeTaken.group (ht : InodeTaken v w g k) {i : Nat} :
    w.part.group BlockGroup.freeInodesCount i =
      if i = g then sub16 (v.part.group BlockGroup.freeInodesCount g) 1
      else v.part.group BlockGroup.freeInodesCount i := by
  rw [ht.part]
  exact Partition.countInodeTaken_group

theorem InodeTaken.total (ht : InodeTaken v w g k) :
    w.part.super Superblock.freeInodesCount = sub32 (v.part.super Superblock.freeInodesCount) 1 := by
  rw [ht.part]
  exact Partition.countInodeTaken_super

/-- A bit of group 0 that reaches the disk: the inode is the one after it. -/
theorem InodeTaken.allocates (ht : InodeTaken v w 0 k) (h : InodesConsistent v)
    (hg : v.FirstWithInodes 0)
    (hclear : FirstClear (v.groupBlock BlockGroup.inodeBitmap 0) (8 * v.part.blockSize) k)
    (ha : v.part.Addressable (v.part.group BlockGroup.inodeBitmap 0))
    (hk : k < 4096 * v.part.writtenSectors) :
    k + 1 ≤ v.part.super Superblock.inodesCount ∧
    v.part.inodeGroup (k + 1) = 0 ∧ v.part.inodeIndex (k + 1) = k ∧
    (∀ i j, i < v.part.groupNumber → j < 8 * v.part.blockSize →
      bit (w.groupBlock BlockGroup.inodeBitmap i) j =
        (decide (i = 0 ∧ j = k) || bit (v.groupBlock BlockGroup.inodeBitmap i) j)) ∧
    w.part.group BlockGroup.freeInodesCount 0 + 1 = v.part.group BlockGroup.freeInodesCount 0 ∧
    w.part.super Superblock.freeInodesCount + 1 = v.part.super Superblock.freeInodesCount := by
  have hlt : v.part.super Superblock.inodesCount < 4294967296 := Partition.super_lt
  have hindex := h.padded 0 k hg.1 hclear.1 hclear.2.1
  have hcount : v.part.super Superblock.inodesPerGroup ≤ v.part.super Superblock.inodesCount := by
    rw [h.count]
    exact Nat.le_mul_of_pos_left _ hg.1
  have hfree : v.part.group BlockGroup.freeInodesCount 0 < 65536 := Partition.group_lt
  have hfree0 := hg.2.1
  have htotal : v.part.super Superblock.freeInodesCount < 4294967296 := Partition.super_lt
  have htotal0 := h.freeTotal_pos hg.1 hg.2.1
  refine ⟨by omega, ?_, ?_, fun i j hi hj => ?_, ?_, ?_⟩
  · rw [Partition.inodeGroup_eq (by omega) (by omega), Nat.add_sub_cancel, Nat.div_eq_of_lt hindex]
  · rw [Partition.inodeIndex_eq (by omega) (by omega), Nat.add_sub_cancel, Nat.mod_eq_of_lt hindex]
  · rw [h.written ht.sameLayout ht.written ha hg.1 hi hj]
    split
    · rename_i hin
      rw [hin.1, show v.ioGroupBlock BlockGroup.inodeBitmap 0 =
        v.groupBlock BlockGroup.inodeBitmap 0 by rw [Volume.ioGroupBlock, Volume.groupBlock, ha]]
      simp
    · have hne : ¬ (i = 0 ∧ j = k) := by
        intro he
        omega
      simp [hne]
  · rw [ht.group, if_pos rfl, sub16_of_le (by omega) hfree]
    omega
  · rw [ht.total, sub32_of_le (by omega) htotal]
    omega

/-- `ext2_allocate_inode` is exact if and only if it meets the condition. -/
theorem allocateInode_exact_iff (h : InodesConsistent v) :
    AllocatesInode v ↔ AllocateInodeMeets v := by
  rcases allocateInode_reliable h.mounted h.reliable h.nonzero with
    ⟨hzero, hsame, hnone⟩ | ⟨g, k, hg, hclear, hnum, hne, ht⟩
  · refine ⟨fun _ g k hg hclear hne => absurd (hnone g k hg hclear) hne, fun _ => ?_⟩
    refine ⟨fun hne => absurd hzero hne, fun hne => absurd hzero hne, fun hne => absurd hzero hne,
      fun hne => absurd hzero hne, fun _ => ⟨fun g k _ _ => ?_, fun g _ => ?_, ?_⟩⟩
    · rw [hsame.groupBlock]
    · rw [hsame.part]
    · rw [hsame.part]
  · obtain ⟨w, hw⟩ : ∃ w, (allocateInode v).2 = w := ⟨_, rfl⟩
    rw [hw] at ht
    constructor
    · intro hexact i j hi hj _
      obtain rfl := hi.unique hg
      obtain rfl := hj.unique hclear
      have hne' : (allocateInode v).1 ≠ 0 := by rw [hnum]; exact hne
      have hrange := hexact.range hne'
      have hfree := hexact.free hne'
      have htaken := hexact.taken hne'
      have hcounted := (hexact.counted hne').1
      rw [hw] at htaken hcounted
      rw [hnum] at hrange hfree htaken hcounted
      obtain ⟨n, hn⟩ : ∃ n, u32 (j + 1) = n := ⟨_, rfl⟩
      rw [hn] at hrange hfree htaken hcounted ht
      have hlt : v.part.super Superblock.inodesCount < 4294967296 := Partition.super_lt
      have hgroup := h.inodeGroup_lt (n := n) (by omega) hrange.2
      have hfits := h.fits
      have hindex := h.inodeIndex_lt (n := n)
      -- only the counter of group `i` falls
      have hi : v.part.inodeGroup n = i := by
        by_contra hne
        rw [ht.group, if_neg hne] at hcounted
        omega
      have hset := htaken i (v.part.inodeIndex n) hg.1 (by omega)
      rw [Volume.inodeBit, hi] at hfree
      simp only [hi, and_self, decide_true, Bool.true_or] at hset
      by_cases ha : v.part.Addressable (v.part.group BlockGroup.inodeBitmap i)
      · rw [h.written ht.sameLayout ht.written ha hg.1 hg.1 (by omega)] at hset
        have hio : v.ioGroupBlock BlockGroup.inodeBitmap i =
            v.groupBlock BlockGroup.inodeBitmap i := by
          rw [Volume.ioGroupBlock, Volume.groupBlock, ha]
        split at hset
        · rename_i hin
          -- the bit set is that of the inode: `n - 1` is its index
          rw [hio, hfree, Bool.or_false, decide_eq_true_eq] at hset
          rw [hio] at hclear
          rw [Partition.inodeIndex_eq (by omega) (by omega)] at hset hfree hin hindex
          rw [Partition.inodeGroup_eq (by omega) (by omega)] at hi
          have hdiv := Nat.div_add_mod (n - 1) (v.part.super Superblock.inodesPerGroup)
          have hzero : i = 0 := by
            rw [← hi]
            exact Nat.div_eq_of_lt (by omega)
          have hj : j = n - 1 := by
            have hle : n - 1 ≤ j := by rw [← hn]; unfold u32; omega
            rcases Nat.eq_or_lt_of_le hle with heq | hbelow
            · exact heq.symm
            · have := hclear.2.2 (n - 1) hbelow
              rw [hset, this] at hfree
              cases hfree
          exact ⟨hzero, ha, by omega⟩
        · rw [hfree] at hset
          cases hset
      · rw [h.missed ht.sameLayout ht.written ha (by omega), hfree] at hset
        cases hset
    · intro hmeets
      obtain ⟨rfl, ha, hk⟩ := hmeets g k hg hclear hne
      rw [show v.ioGroupBlock BlockGroup.inodeBitmap 0 =
        v.groupBlock BlockGroup.inodeBitmap 0 by rw [Volume.ioGroupBlock, Volume.groupBlock, ha]]
        at hclear
      have hlt : v.part.super Superblock.inodesCount < 4294967296 := Partition.super_lt
      have hindex := h.padded 0 k hg.1 hclear.1 hclear.2.1
      have hle : v.part.super Superblock.inodesPerGroup < 4294967296 := Partition.super_lt
      rw [u32_of_lt (by omega)] at hnum ht
      rw [Nat.add_sub_cancel] at ht
      obtain ⟨hrange, hgroup, hindex, hbits, hcount, htotal⟩ := ht.allocates h hg hclear ha hk
      refine ⟨fun _ => ?_, fun _ => ?_, fun _ => ?_, fun _ => ?_, fun hzero => ?_⟩
      · rw [hnum]
        exact ⟨by omega, hrange⟩
      · rw [hnum, Volume.inodeBit, hgroup, hindex]
        exact hclear.2.1
      · rw [hnum, hw, hgroup, hindex]
        exact hbits
      · rw [hnum, hw, hgroup]
        exact ⟨hcount, htotal⟩
      · omega

/-- Two groups of 8 inodes, their bitmaps in the blocks 4 and 5. The first bytes of the
bitmaps are those of `b`; the rest is padding. -/
def twoGroups (b : Byte × Byte) : Volume where
  disk :=
    { image := fun a =>
        if a = 4096 then b.1 else if a = 5120 then b.2
        else if 4096 ≤ a ∧ a < 6144 then 255 else 0
      fails := fun _ => false
      clock := 0 }
  part :=
    { backupBgs := fun _ => 0
      backupBgsCount := 1
      lba := 0
      groupNumber := 2
      sectorSize := 512
      bgdtBlock := 2
      sbBlock := 2
      flushRequired := false
      sb := [(Superblock.inodesCount, 16), (Superblock.blocksCount, 16384),
        (Superblock.freeInodesCount, clearCount (fun _ => b.1) 8 + clearCount (fun _ => b.2) 8),
        (Superblock.firstSbBlock, 1), (Superblock.blocksPerGroup, 8192),
        (Superblock.inodesPerGroup, 8)].foldl (fun m f => f.1.set m 0 f.2) fun _ => 0
      gd := [(0, BlockGroup.inodeBitmap, 4), (0, BlockGroup.inodeTable, 6),
        (0, BlockGroup.freeInodesCount, clearCount (fun _ => b.1) 8),
        (32, BlockGroup.inodeBitmap, 5), (32, BlockGroup.inodeTable, 7),
        (32, BlockGroup.freeInodesCount, clearCount (fun _ => b.2) 8)].foldl
          (fun m f => f.2.1.set m f.1 f.2.2) fun _ => 0 }
  buffers := fun _ _ => 0
  allocated := 0

/-- A free inode in group 0, one in group 1, seven of them in group 0, and none. -/
def sampleBitmaps : List (Byte × Byte) := [(254, 255), (255, 254), (1, 255), (255, 255)]

theorem forall_sampleBitmaps {p : Byte × Byte → Prop}
    (h : p (254, 255) ∧ p (255, 254) ∧ p (1, 255) ∧ p (255, 255)) : ∀ b ∈ sampleBitmaps, p b := by
  intro b hb
  obtain ⟨h₁, h₂, h₃, h₄⟩ := h
  simp only [sampleBitmaps, List.mem_cons, List.not_mem_nil, or_false] at hb
  rcases hb with rfl | rfl | rfl | rfl
  · exact h₁
  · exact h₂
  · exact h₃
  · exact h₄

theorem inodesConsistent_twoGroups {b : Byte × Byte} (hb : b ∈ sampleBitmaps) :
    InodesConsistent (twoGroups b) := by
  have hsize : ∀ b ∈ sampleBitmaps, (twoGroups b).part.blockSize = 1024 :=
    forall_sampleBitmaps (by decide +kernel)
  have hipg : ∀ b ∈ sampleBitmaps, (twoGroups b).part.super Superblock.inodesPerGroup = 8 :=
    forall_sampleBitmaps (by decide +kernel)
  have hsector : ∀ b ∈ sampleBitmaps, ∀ g, g < 2 → (twoGroups b).part.blockSector
      ((twoGroups b).part.group BlockGroup.inodeBitmap g) = 8 + 2 * g :=
    forall_sampleBitmaps (by decide +kernel)
  have hlog : ∀ b ∈ sampleBitmaps, (twoGroups b).part.super Superblock.logBlockSize ≤ 20 :=
    forall_sampleBitmaps (by decide +kernel)
  have hbpg : ∀ b ∈ sampleBitmaps, 0 < (twoGroups b).part.super Superblock.blocksPerGroup :=
    forall_sampleBitmaps (by decide +kernel)
  have hblocks : ∀ b ∈ sampleBitmaps, (twoGroups b).part.groupNumber =
      divideRoundedUp ((twoGroups b).part.super Superblock.blocksCount)
        ((twoGroups b).part.super Superblock.blocksPerGroup) :=
    forall_sampleBitmaps (by decide +kernel)
  have hinodes : ∀ b ∈ sampleBitmaps, (twoGroups b).part.groupNumber =
      divideRoundedUp ((twoGroups b).part.super Superblock.inodesCount)
        ((twoGroups b).part.super Superblock.inodesPerGroup) :=
    forall_sampleBitmaps (by decide +kernel)
  have hcount : ∀ b ∈ sampleBitmaps, (twoGroups b).part.super Superblock.inodesCount =
      2 * (twoGroups b).part.super Superblock.inodesPerGroup :=
    forall_sampleBitmaps (by decide +kernel)
  have hinode : ∀ b ∈ sampleBitmaps, 0 < (twoGroups b).part.inodeSize :=
    forall_sampleBitmaps (by decide +kernel)
  have hnonzero : ∀ b ∈ sampleBitmaps, ∀ g, g < 2 →
      0 < (twoGroups b).part.group BlockGroup.inodeBitmap g :=
    forall_sampleBitmaps (by decide +kernel)
  have hdistinct : ∀ b ∈ sampleBitmaps, ∀ g, g < 2 → ∀ h, h < 2 → g ≠ h →
      (twoGroups b).part.group BlockGroup.inodeBitmap g ≠
        (twoGroups b).part.group BlockGroup.inodeBitmap h :=
    forall_sampleBitmaps (by decide +kernel)
  have htables : ∀ b ∈ sampleBitmaps, ∀ g, g < 2 → ∀ h, h < 2 → ∀ j, j < 8 →
      (twoGroups b).part.group BlockGroup.inodeTable g +
        j * (twoGroups b).part.inodeSize / (twoGroups b).part.blockSize ≠
          (twoGroups b).part.group BlockGroup.inodeBitmap h :=
    forall_sampleBitmaps (by decide +kernel)
  have hfree : ∀ b ∈ sampleBitmaps, ∀ g, g < 2 →
      (twoGroups b).part.group BlockGroup.freeInodesCount g =
        clearCount ((twoGroups b).groupBlock BlockGroup.inodeBitmap g) 8 :=
    forall_sampleBitmaps (by decide +kernel)
  have htotal : ∀ b ∈ sampleBitmaps, (twoGroups b).part.super Superblock.freeInodesCount =
      ∑ g ∈ Finset.range 2, (twoGroups b).part.group BlockGroup.freeInodesCount g :=
    forall_sampleBitmaps (by decide +kernel)
  refine ⟨⟨rfl, hlog b hb, Nat.zero_lt_succ _, hbpg b hb, by rw [hipg b hb]; omega, hblocks b hb,
    hinodes b hb⟩, fun _ => rfl, ?_, hcount b hb, hinode b hb, hnonzero b hb, fun g h hg hh =>
    hdistinct b hb g hg h hh, fun g h j hg hh hj => ?_, fun g k hg hk hbit => ?_, ?_, htotal b hb⟩
  · rw [hsize b hb, hipg b hb]
    omega
  · rw [hipg b hb] at hj
    exact htables b hb g hg h hh j hj
  · have hg : g < 2 := hg
    rw [hsize b hb] at hk
    rw [hipg b hb]
    by_contra hlarge
    -- a byte past the first is full
    have haddr : 512 * u64 (8 + 2 * g + k / 8 / 512) + k / 8 % 512 = 4096 + 1024 * g + k / 8 := by
      rw [u64_of_lt (by omega)]
      omega
    have hfull : (twoGroups b).disk.image (4096 + 1024 * g + k / 8) = 255 := by
      have hne : 4096 + 1024 * g + k / 8 ≠ 4096 := by omega
      have hne' : 4096 + 1024 * g + k / 8 ≠ 5120 := by omega
      exact (if_neg hne).trans ((if_neg hne').trans (if_pos (by omega)))
    rw [Volume.groupBlock, hsector b hb g hg, bit, window, haddr, hfull] at hbit
    have hall : ∀ i, i < 8 → (255 : Byte).getLsbD i = true := by decide
    rw [hall _ (Nat.mod_lt _ (by omega))] at hbit
    cases hbit
  · rw [hipg b hb]
    exact hfree b hb

/-- With the free inode in group 0 the call meets the condition and returns inode 1. -/
theorem allocateInode_exact_twoGroups :
    (allocateInode (twoGroups (254, 255))).1 = 1 ∧ AllocatesInode (twoGroups (254, 255)) := by
  refine ⟨by decide +kernel,
    (allocateInode_exact_iff (inodesConsistent_twoGroups (by decide))).mpr fun g k hg hclear _ => ?_⟩
  have hzero : (twoGroups (254, 255)).FirstWithInodes 0 :=
    ⟨by decide +kernel, by decide +kernel, fun h hh => absurd hh (Nat.not_lt_zero h)⟩
  obtain rfl := hg.unique hzero
  have hfirst : FirstClear ((twoGroups (254, 255)).ioGroupBlock BlockGroup.inodeBitmap 0)
      (8 * (twoGroups (254, 255)).part.blockSize) 0 :=
    ⟨by decide +kernel, by decide +kernel, fun i hi => absurd hi (Nat.not_lt_zero i)⟩
  obtain rfl := hclear.unique hfirst
  exact ⟨rfl, by decide +kernel, by decide +kernel⟩

/-- With the free inode in group 1 the call returns inode 1 too, which is in use. -/
theorem allocateInode_not_exact : ¬ ∀ v, InodesConsistent v → AllocatesInode v := by
  intro h
  have hexact := h (twoGroups (255, 254)) (inodesConsistent_twoGroups (by decide))
  have hnum : (allocateInode (twoGroups (255, 254))).1 = 1 := by decide +kernel
  have hused : (twoGroups (255, 254)).inodeBit 1 = true := by decide +kernel
  have hfree := hexact.free (by rw [hnum]; omega)
  rw [hnum, hused] at hfree
  cases hfree

end UnedKernel.Ext2
