import UnedKernel.Ext2.Volume

/-! # Block allocation

`ext2_allocate_block` and `ext2_deallocate_block`. -/

namespace UnedKernel.Ext2
open ByteMem Word Sectors Bitmap

namespace Partition

/-- `bg_free_blocks_count--; s_free_blocks_count--`. -/
def countBlockTaken (p : Partition) (i : Nat) : Partition :=
  (p.setGroup BlockGroup.freeBlocksCount i (sub16 (p.group BlockGroup.freeBlocksCount i) 1)).setSuper
    Superblock.freeBlocksCount (sub32 (p.super Superblock.freeBlocksCount) 1)

/-- `bg_free_blocks_count++; s_free_blocks_count++`. -/
def countBlockFreed (p : Partition) (i : Nat) : Partition :=
  (p.setGroup BlockGroup.freeBlocksCount i (u16 (p.group BlockGroup.freeBlocksCount i + 1))).setSuper
    Superblock.freeBlocksCount (u32 (p.super Superblock.freeBlocksCount + 1))

end Partition

/-- Bit `k` of word `j` of the bitmap of group `i` is clear: take the block. -/
def takeBlock (v : Volume) (i : Nat) (bitmap : Bytes) (j k : Nat) : Nat × Volume :=
  let v := { v with part := v.part.countBlockTaken i }
  let (written, v) := writeBlock v (v.part.group BlockGroup.blockBitmap i) (setWordBit 4 bitmap j k)
  if written ≤ 0 then (0, { v with part := v.part.countBlockFreed i })
  else
    let block := u32 (j * 32 + k + 1)
    (u32 (block + u32 (i * v.part.super Superblock.blocksPerGroup)), flushRequired v)

/-- The loop of `ext2_allocate_block` from group `i` on, `n` groups left. -/
def allocateBlockFrom (v : Volume) (i : Nat) : Nat → Nat × Volume
  | 0 => (0, v)
  | n + 1 =>
    if v.part.group BlockGroup.freeBlocksCount i = 0 then allocateBlockFrom v (i + 1) n
    else
      let (buffer, v) := kmalloc v
      let (read, bitmap, v) := readBlock v (v.part.group BlockGroup.blockBitmap i) buffer
      if read = 0 then (0, v)
      else match scanWords 4 bitmap 0 (v.part.blockSize / 4) with
        | some (j, k) => takeBlock v i bitmap j k
        | none => allocateBlockFrom v (i + 1) n

/-- `ext2_allocate_block`. -/
def allocateBlock (v : Volume) : Nat × Volume := allocateBlockFrom v 0 v.part.groupNumber

/-- `ext2_deallocate_block`. -/
def deallocateBlock (v : Volume) (block : Nat) : Nat × Volume :=
  let blockGroup := sub32 block 1 / v.part.super Superblock.blocksPerGroup
  let blockIndex := sub32 block 1 % v.part.super Superblock.blocksPerGroup
  let index := blockIndex / 32
  let offset := blockIndex % 32
  let (buffer, v) := kmalloc v
  let (read, bitmap, v) := readBlock v (v.part.group BlockGroup.blockBitmap blockGroup) buffer
  if read = 0 then (0, v)
  else if (word 4 bitmap index).testBit offset then
    let v := { v with part := v.part.countBlockFreed blockGroup }
    let (written, v) := writeBlock v (v.part.group BlockGroup.blockBitmap blockGroup)
      (clearWordBit 4 bitmap index offset)
    if written ≤ 0 then (0, { v with part := v.part.countBlockTaken blockGroup })
    else (1, flushRequired v)
  else (0, v)

/-! ## Effects without failure -/

namespace Partition

variable {p : Partition} {i j : Nat}

theorem sameLayout_countBlockTaken : SameLayout p (p.countBlockTaken i) :=
  (sameLayout_setGroup (by decide)).trans (sameLayout_setSuper (by decide))

theorem sameLayout_countBlockFreed : SameLayout p (p.countBlockFreed i) :=
  (sameLayout_setGroup (by decide)).trans (sameLayout_setSuper (by decide))

end Partition

variable {v : Volume} {i n : Nat}

/-- The groups that the loop of `ext2_allocate_block` passes by. -/
def Volume.Passed (v : Volume) (i : Nat) : Prop :=
  v.part.group BlockGroup.freeBlocksCount i = 0 ∨
    Full (v.ioGroupBlock BlockGroup.blockBitmap i) (8 * v.part.blockSize)

/-- The loop stops at group `g` with bit `k` of its bitmap. -/
structure Volume.Stops (v : Volume) (i n g k : Nat) : Prop where
  lower : i ≤ g
  upper : g < i + n
  passed : ∀ h, i ≤ h → h < g → v.Passed h
  free : v.part.group BlockGroup.freeBlocksCount g ≠ 0
  clear : FirstClear (v.ioGroupBlock BlockGroup.blockBitmap g) (8 * v.part.blockSize) k

/-- What a successful allocation leaves behind: bit `k` of group `g` is taken. -/
structure BlockTaken (v w : Volume) (g k : Nat) : Prop where
  part : w.part = { v.part.countBlockTaken g with flushRequired := true }
  written : BlockWritten v w (v.part.group BlockGroup.blockBitmap g) fun j =>
    decide (j = k) || bit (v.ioGroupBlock BlockGroup.blockBitmap g) j

namespace Unchanged

variable {w x : Volume} {g k : Nat}

theorem passed (h : Unchanged v w) : w.Passed g ↔ v.Passed g := by
  rw [Volume.Passed, Volume.Passed, h.ioGroupBlock, h.part]

theorem blockTaken (h : Unchanged v w) (ht : BlockTaken w x g k) : BlockTaken v x g k := by
  refine ⟨by rw [ht.part, h.part], ?_⟩
  have := h.written ht.written
  rwa [h.ioGroupBlock, h.part] at this

end Unchanged

theorem takeBlock_reliable (hm : Mounted v.part) (hr : v.disk.Reliable)
    (hi : 0 < v.part.group BlockGroup.blockBitmap i) (bitmap : Bytes)
    (hbits : ∀ k, k < 8 * v.part.blockSize →
      bit bitmap k = bit (v.ioGroupBlock BlockGroup.blockBitmap i) k) {j k : Nat} (hk : k < 32) :
    (takeBlock v i bitmap j k).1 =
        u32 (32 * j + k + 1 + i * v.part.super Superblock.blocksPerGroup) ∧
      BlockTaken v (takeBlock v i bitmap j k).2 i (32 * j + k) := by
  have hl : SameLayout v.part (v.part.countBlockTaken i) := Partition.sameLayout_countBlockTaken
  have hbm := hl.group BlockGroup.blockBitmap (by decide) i
  have hbpg := hl.super Superblock.blocksPerGroup (by decide)
  have hwrite := writeBlock_reliable (v := { v with part := v.part.countBlockTaken i })
    (setWordBit 4 bitmap j k) (hl.mounted hm) hr (hbm ▸ hi)
  rw [hl.ioSector, hl.writtenSectors, setWordBit_eq bitmap (by omega),
    show 8 * (4 * j) + k = 32 * j + k by omega, hbm] at hwrite
  simp only [takeBlock, hbm, setWordBit_eq bitmap (show k < 8 * 4 by omega),
    show 8 * (4 * j) + k = 32 * j + k by omega, hwrite]
  rw [if_neg (by omega)]
  refine ⟨?_, rfl, hr, _, fun m hm => ?_, rfl⟩
  · simp only [Volume.after_part, hbpg]
    unfold u32
    omega
  · rw [bit_setBit, hbits m hm]

theorem allocateBlockFrom_reliable (hm : Mounted v.part) (hr : v.disk.Reliable)
    (hnz : ∀ g, g < i + n → 0 < v.part.group BlockGroup.blockBitmap g) :
    ((allocateBlockFrom v i n).1 = 0 ∧ Unchanged v (allocateBlockFrom v i n).2 ∧
      ∀ g, i ≤ g → g < i + n → v.Passed g) ∨
    ∃ g k, v.Stops i n g k ∧ BlockTaken v (allocateBlockFrom v i n).2 g k ∧
      (allocateBlockFrom v i n).1 = u32 (k + 1 + g * v.part.super Superblock.blocksPerGroup) := by
  induction n generalizing v i with
  | zero => exact .inl ⟨rfl, ⟨rfl, rfl, id⟩, fun g hg hgn => absurd hgn (by omega)⟩
  | succ n ih =>
    -- group `i` is passed by: the result is that of the rest of the loop
    have hpass {w : Volume} (hw : Unchanged v w) (hp : v.Passed i) :
        ((allocateBlockFrom w (i + 1) n).1 = 0 ∧ Unchanged v (allocateBlockFrom w (i + 1) n).2 ∧
          ∀ g, i ≤ g → g < i + (n + 1) → v.Passed g) ∨
        ∃ g k, v.Stops i (n + 1) g k ∧ BlockTaken v (allocateBlockFrom w (i + 1) n).2 g k ∧
          (allocateBlockFrom w (i + 1) n).1 =
            u32 (k + 1 + g * v.part.super Superblock.blocksPerGroup) := by
      have hcons {g : Nat} (h : i ≤ g) (hrest : i + 1 ≤ g → v.Passed g) : v.Passed g := by
        rcases Nat.eq_or_lt_of_le h with rfl | h
        · exact hp
        · exact hrest h
      rcases ih (v := w) (i := i + 1) (by rw [hw.part]; exact hm) (hw.reliable hr)
        (fun g hg => by rw [hw.part]; exact hnz g (by omega)) with
        ⟨hzero, hsame, hall⟩ | ⟨g, k, hstop, htaken, hnum⟩
      · exact .inl ⟨hzero, hw.trans hsame, fun g hg hgn =>
          hcons hg fun h => hw.passed.mp (hall g h (by omega))⟩
      · have hlower := hstop.lower
        have hupper := hstop.upper
        have hclear := hstop.clear
        rw [hw.ioGroupBlock, hw.part] at hclear
        exact .inr ⟨g, k, ⟨by omega, by omega,
          fun h hih hhg => hcons hih fun hih => hw.passed.mp (hstop.passed h hih hhg),
          by rw [← hw.part]; exact hstop.free, hclear⟩, hw.blockTaken htaken,
          by rw [hnum, hw.part]⟩
    rw [allocateBlockFrom]
    split
    · rename_i hfree
      exact hpass ⟨rfl, rfl, id⟩ (.inl hfree)
    · rename_i hfree
      obtain ⟨bitmap, w, hread, hw, hbits⟩ := readGroupBlock_reliable hm hr (hnz i (by omega))
      have hsize := hm.blockSize_eq
      simp only [hread]
      rw [if_neg (by omega), hw.part]
      cases hs : scanWords 4 bitmap 0 (v.part.blockSize / 4) with
      | none =>
        refine hpass hw (.inr fun k hk => ?_)
        rw [← hbits k hk]
        exact scanWords_full hs k (by omega)
      | some r =>
        obtain ⟨j, k⟩ := r
        obtain ⟨hk, hclear⟩ := scanWords_firstClear hs
        rw [show 8 * (4 * (v.part.blockSize / 4)) = 8 * v.part.blockSize by omega,
          show 8 * (4 * j) + k = 32 * j + k by omega] at hclear
        obtain ⟨hnum, htaken⟩ := takeBlock_reliable (i := i) (j := j) (hw.part ▸ hm)
          (hw.reliable hr) (by rw [hw.part]; exact hnz i (by omega)) bitmap
          (by rw [hw.ioGroupBlock, hw.part]; exact hbits) hk
        rw [hw.part] at hnum
        exact .inr ⟨i, 32 * j + k, ⟨Nat.le_refl _, by omega, fun h hih hhi => absurd hhi (by omega),
          hfree, hclear.congr fun m hm => (hbits m hm).symm⟩, hw.blockTaken htaken, hnum⟩

/-- What a successful deallocation leaves behind: bit `k` of group `g` is given back. -/
structure BlockFreed (v w : Volume) (g k : Nat) : Prop where
  part : w.part = { v.part.countBlockFreed g with flushRequired := true }
  written : BlockWritten v w (v.part.group BlockGroup.blockBitmap g) fun j =>
    !decide (j = k) && bit (v.ioGroupBlock BlockGroup.blockBitmap g) j

theorem deallocateBlock_reliable {b g k : Nat} (hm : Mounted v.part) (hr : v.disk.Reliable)
    (hb : 0 < b) (hb' : b < 4294967296)
    (hg : (b - 1) / v.part.super Superblock.blocksPerGroup = g)
    (hk : (b - 1) % v.part.super Superblock.blocksPerGroup = k) (hin : k < 8 * v.part.blockSize)
    (hnz : 0 < v.part.group BlockGroup.blockBitmap g) :
    ((deallocateBlock v b).1 = 0 ∧ Unchanged v (deallocateBlock v b).2 ∧
      bit (v.ioGroupBlock BlockGroup.blockBitmap g) k = false) ∨
    ((deallocateBlock v b).1 = 1 ∧ BlockFreed v (deallocateBlock v b).2 g k) := by
  obtain ⟨bitmap, w, hread, hw, hbits⟩ := readGroupBlock_reliable hm hr hnz
  have hword : (word 4 bitmap (k / 32)).testBit (k % 32) = bit bitmap k := by
    rw [testBit_word bitmap (by omega), show 8 * (4 * (k / 32)) + k % 32 = k by omega]
  have hclear : clearWordBit 4 bitmap (k / 32) (k % 32) = clearBit bitmap k := by
    rw [clearWordBit_eq bitmap (by omega), show 8 * (4 * (k / 32)) + k % 32 = k by omega]
  obtain ⟨x, hx⟩ : ∃ x, sub32 b 1 = x := ⟨_, rfl⟩
  have hxb : b - 1 = x := by rw [← hx, sub32_of_le hb hb']
  rw [hxb] at hg hk
  rw [deallocateBlock, hx]
  simp only [hg, hk, hread, hword, hclear]
  rw [if_neg (by omega)]
  cases hbit : bit bitmap k with
  | false =>
    rw [if_neg Bool.false_ne_true]
    exact .inl ⟨rfl, hw, by rw [← hbits k hin]; exact hbit⟩
  | true =>
    have hl : SameLayout v.part (v.part.countBlockFreed g) := Partition.sameLayout_countBlockFreed
    have hbm := hl.group BlockGroup.blockBitmap (by decide) g
    have hwrite := writeBlock_reliable (v := { w with part := v.part.countBlockFreed g })
      (clearBit bitmap k) (hl.mounted hm) (hw.reliable hr) (hbm ▸ hnz)
    rw [hl.ioSector, hl.writtenSectors, hbm] at hwrite
    rw [if_pos rfl]
    simp only [hw.part, hbm, hwrite]
    rw [if_neg (by omega)]
    refine .inr ⟨rfl, rfl, hw.reliable hr, _, fun m hm => ?_, by rw [← hw.image]; rfl⟩
    rw [bit_clearBit, hbits m hm]

end UnedKernel.Ext2
