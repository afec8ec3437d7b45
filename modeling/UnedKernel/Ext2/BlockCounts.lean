import Mathlib.Algebra.BigOperators.Group.Finset.Basic
import UnedKernel.Ext2.BlockRuns

/-! # The counters of free blocks

`ext2_allocate_block` and `ext2_deallocate_block` over transfers that move whole
blocks: the two counters move with the bitmaps. -/

namespace UnedKernel.Ext2
open ByteMem Word Bitmap Run Finset

/-- `ext2_read_block`: the result, the buffer and the volume. -/
abbrev BlockRead := Volume → Nat → Bytes → Int × Bytes × Volume

/-- `ext2_write_block`. -/
abbrev BlockWrite := Volume → Nat → Bytes → Int × Volume

/-! ## The allocator over other transfers -/

section allocator

variable (readB : BlockRead) (writeB : BlockWrite)

/-- `takeBlock` with another `ext2_write_block`. -/
def takeBlockBy (v : Volume) (i : Nat) (bitmap : Bytes) (j k : Nat) : Nat × Volume :=
  let v := { v with part := v.part.countBlockTaken i }
  let (written, v) := writeB v (v.part.group BlockGroup.blockBitmap i) (setWordBit 4 bitmap j k)
  if written ≤ 0 then (0, { v with part := v.part.countBlockFreed i })
  else
    let block := u32 (j * 32 + k + 1)
    (u32 (block + u32 (i * v.part.super Superblock.blocksPerGroup)), flushRequired v)

def allocateBlockFromBy (v : Volume) (i : Nat) : Nat → Nat × Volume
  | 0 => (0, v)
  | n + 1 =>
    if v.part.group BlockGroup.freeBlocksCount i = 0 then allocateBlockFromBy v (i + 1) n
    else
      let (buffer, v) := kmalloc v
      let (read, bitmap, v) := readB v (v.part.group BlockGroup.blockBitmap i) buffer
      if read = 0 then (0, v)
      else match scanWords 4 bitmap 0 (v.part.blockSize / 4) with
        | some (j, k) => takeBlockBy writeB v i bitmap j k
        | none => allocateBlockFromBy v (i + 1) n

def allocateBlockBy (v : Volume) : Nat × Volume :=
  allocateBlockFromBy readB writeB v 0 v.part.groupNumber

def deallocateBlockBy (v : Volume) (block : Nat) : Nat × Volume :=
  let blockGroup := sub32 block 1 / v.part.super Superblock.blocksPerGroup
  let blockIndex := sub32 block 1 % v.part.super Superblock.blocksPerGroup
  let index := blockIndex / 32
  let offset := blockIndex % 32
  let (buffer, v) := kmalloc v
  let (read, bitmap, v) := readB v (v.part.group BlockGroup.blockBitmap blockGroup) buffer
  if read = 0 then (0, v)
  else if (word 4 bitmap index).testBit offset then
    let v := { v with part := v.part.countBlockFreed blockGroup }
    let (written, v) := writeB v (v.part.group BlockGroup.blockBitmap blockGroup)
      (clearWordBit 4 bitmap index offset)
    if written ≤ 0 then (0, { v with part := v.part.countBlockTaken blockGroup })
    else (1, flushRequired v)
  else (0, v)

end allocator

theorem allocateBlockFromBy_eq (v : Volume) (i n : Nat) :
    allocateBlockFromBy readBlock writeBlock v i n = allocateBlockFrom v i n := by
  induction n generalizing v i with
  | zero => rfl
  | succ n ih =>
    unfold allocateBlockFromBy allocateBlockFrom
    simp only [ih]
    rfl

/-- Over the transfers of `ext2_block.c` they are its functions. -/
theorem allocateBlockBy_eq (v : Volume) : allocateBlockBy readBlock writeBlock v = allocateBlock v :=
  allocateBlockFromBy_eq v 0 _

theorem deallocateBlockBy_eq (v : Volume) (b : Nat) :
    deallocateBlockBy readBlock writeBlock v b = deallocateBlock v b := rfl

/-! ## Transfers of whole blocks -/

/-- What is asked of the transfers, in the states `good`: they succeed, a read returns all bytes
of the block, and a write replaces them and those of no other block. -/
structure WholeBlocks (readB : BlockRead) (writeB : BlockWrite) (size : Nat)
    (good : Volume → Prop) (content : Volume → Nat → Bytes) : Prop where
  heap : ∀ v, good v → good (kmalloc v).2 ∧ content (kmalloc v).2 = content v
  part : ∀ v p, good v → SameLayout v.part p →
    good { v with part := p } ∧ content { v with part := p } = content v
  reads : ∀ v b buffer, good v → 0 < b → ∃ bitmap w, readB v b buffer = (1, bitmap, w) ∧ good w ∧
    w.part = v.part ∧ content w = content v ∧ ∀ x, x < size → bitmap x = content v b x
  writes : ∀ v b buffer, good v → 0 < b → ∃ w, writeB v b buffer = (1, w) ∧ good w ∧
    w.part = v.part ∧ (∀ x, x < size → content w b x = buffer x) ∧
      ∀ c, c ≠ b → content w c = content v c

variable {readB : BlockRead} {writeB : BlockWrite} {good : Volume → Prop}
  {content : Volume → Nat → Bytes} {v w : Volume} {i n g k : Nat}

/-- The bitmap of group `g` is `bitmap` now, the partition is `p`, and the rest is as it was. -/
structure BitmapPut (good : Volume → Prop) (content : Volume → Nat → Bytes) (v w : Volume)
    (p : Partition) (g : Nat) (bitmap : Bytes) : Prop where
  good : good w
  part : w.part = { p with flushRequired := true }
  bitmap : ∀ x, x < 1024 → content w (v.part.group BlockGroup.blockBitmap g) x = bitmap x
  others : ∀ c, c ≠ v.part.group BlockGroup.blockBitmap g → content w c = content v c

/-- Nothing changed but the buffers. -/
structure SameContent (good : Volume → Prop) (content : Volume → Nat → Bytes) (v w : Volume) :
    Prop where
  good : good w
  part : w.part = v.part
  content : content w = content v

theorem SameContent.put {x : Volume} {bitmap : Bytes} {p : Partition}
    (h : SameContent good content v w) (hw : BitmapPut good content w x p g bitmap) :
    BitmapPut good content v x p g bitmap := by
  obtain ⟨hgood, hpart, hbitmap, hothers⟩ := hw
  rw [h.part] at hbitmap hothers
  rw [h.content] at hothers
  exact ⟨hgood, hpart, hbitmap, hothers⟩

/-- The bitmap of group `g`. -/
abbrev groupBitmap (content : Volume → Nat → Bytes) (v : Volume) (g : Nat) : Bytes :=
  content v (v.part.group BlockGroup.blockBitmap g)

theorem SameContent.groupBitmap (h : SameContent good content v w) :
    groupBitmap content w g = groupBitmap content v g := by
  rw [Ext2.groupBitmap, h.content, h.part]

theorem readBitmap_spec (ht : WholeBlocks readB writeB 1024 good content) (hv : good v)
    (hg : 0 < v.part.group BlockGroup.blockBitmap g) :
    ∃ bitmap w, readB (kmalloc v).2 ((kmalloc v).2.part.group BlockGroup.blockBitmap g)
        (kmalloc v).1 = (1, bitmap, w) ∧ SameContent good content v w ∧
      ∀ x, x < 1024 → bitmap x = groupBitmap content v g x := by
  obtain ⟨hheap, hsame⟩ := ht.heap v hv
  obtain ⟨bitmap, w, hread, hw, hpart, hcontent, hbytes⟩ := ht.reads _ _ (kmalloc v).1 hheap hg
  rw [hsame] at hcontent hbytes
  exact ⟨bitmap, w, hread, ⟨hw, hpart, hcontent⟩, hbytes⟩

theorem takeBlockBy_spec (ht : WholeBlocks readB writeB 1024 good content) (hv : good v)
    (hi : 0 < v.part.group BlockGroup.blockBitmap i) {bitmap : Bytes}
    (hbytes : ∀ x, x < 1024 → bitmap x = groupBitmap content v i x) {j k : Nat} (hk : k < 32) :
    (takeBlockBy writeB v i bitmap j k).1 =
        u32 (32 * j + k + 1 + i * v.part.super Superblock.blocksPerGroup) ∧
      BitmapPut good content v (takeBlockBy writeB v i bitmap j k).2 (v.part.countBlockTaken i) i
        (setBit (groupBitmap content v i) (32 * j + k)) := by
  have hl : SameLayout v.part (v.part.countBlockTaken i) := Partition.sameLayout_countBlockTaken
  have hbm := hl.group BlockGroup.blockBitmap (by decide) i
  have hbpg := hl.super Superblock.blocksPerGroup (by decide)
  obtain ⟨hgood, hsame⟩ := ht.part v _ hv hl
  obtain ⟨w, hwrite, hw, hpart, hwritten, hothers⟩ := ht.writes _ (v.part.group BlockGroup.blockBitmap i)
    (setWordBit 4 bitmap j k) hgood hi
  obtain ⟨hgood', hsame'⟩ := ht.part w { w.part with flushRequired := true } hw Partition.sameLayout_flush
  simp only [takeBlockBy, hbm, hwrite]
  rw [if_neg (by omega)]
  refine ⟨?_, hgood', by rw [flushRequired, hpart], fun x hx => ?_, fun c hc => ?_⟩
  · simp only [hpart, hbpg]
    unfold u32
    omega
  · change content { w with part := { w.part with flushRequired := true } } _ x = _
    rw [hsame', hwritten x hx, setWordBit_eq bitmap (by omega),
      show 8 * (4 * j) + k = 32 * j + k by omega, setBit, setBit, hbytes x hx]
  · change content { w with part := { w.part with flushRequired := true } } c = _
    rw [hsame', hothers c hc, hsame]

theorem allocateBlockFromBy_spec (ht : WholeBlocks readB writeB 1024 good content) (hv : good v)
    (hsize : v.part.blockSize = 1024)
    (hnz : ∀ g, g < i + n → 0 < v.part.group BlockGroup.blockBitmap g) :
    ((allocateBlockFromBy readB writeB v i n).1 = 0 ∧
      SameContent good content v (allocateBlockFromBy readB writeB v i n).2) ∨
    ∃ g k, g < i + n ∧ FirstClear (groupBitmap content v g) 8192 k ∧
      BitmapPut good content v (allocateBlockFromBy readB writeB v i n).2 (v.part.countBlockTaken g) g
        (setBit (groupBitmap content v g) k) ∧
      (allocateBlockFromBy readB writeB v i n).1 =
        u32 (k + 1 + g * v.part.super Superblock.blocksPerGroup) := by
  induction n generalizing v i with
  | zero => exact .inl ⟨rfl, hv, rfl, rfl⟩
  | succ n ih =>
    have hpass {w : Volume} (hw : SameContent good content v w) :
        ((allocateBlockFromBy readB writeB w (i + 1) n).1 = 0 ∧
          SameContent good content v (allocateBlockFromBy readB writeB w (i + 1) n).2) ∨
        ∃ g k, g < i + (n + 1) ∧ FirstClear (groupBitmap content v g) 8192 k ∧
          BitmapPut good content v (allocateBlockFromBy readB writeB w (i + 1) n).2
            (v.part.countBlockTaken g) g (setBit (groupBitmap content v g) k) ∧
          (allocateBlockFromBy readB writeB w (i + 1) n).1 =
            u32 (k + 1 + g * v.part.super Superblock.blocksPerGroup) := by
      rcases ih (v := w) (i := i + 1) hw.good (by rw [hw.part]; exact hsize)
        (fun g hg => by rw [hw.part]; exact hnz g (by omega)) with
        ⟨hzero, hsame⟩ | ⟨g, k, hg, hclear, hput, hnum⟩
      · exact .inl ⟨hzero, hsame.good, hsame.part.trans hw.part, hsame.content.trans hw.content⟩
      · rw [hw.groupBitmap] at hclear hput
        rw [hw.part] at hput hnum
        exact .inr ⟨g, k, by omega, hclear, hw.put hput, hnum⟩
    rw [allocateBlockFromBy]
    split
    · exact hpass ⟨hv, rfl, rfl⟩
    · obtain ⟨bitmap, w, hread, hw, hbytes⟩ := readBitmap_spec ht hv (hnz i (by omega))
      simp only [hread]
      rw [if_neg (by omega), hw.part, hsize]
      cases hs : scanWords 4 bitmap 0 (1024 / 4) with
      | none => exact hpass hw
      | some r =>
        obtain ⟨j, k⟩ := r
        obtain ⟨hk, hclear⟩ := scanWords_firstClear hs
        rw [show 8 * (4 * j) + k = 32 * j + k by omega] at hclear
        obtain ⟨hnum, hput⟩ := takeBlockBy_spec (i := i) (j := j) ht hw.good
          (by rw [hw.part]; exact hnz i (by omega)) (by rw [hw.groupBitmap]; exact hbytes) hk
        rw [hw.groupBitmap] at hput
        rw [hw.part] at hput hnum
        refine .inr ⟨i, 32 * j + k, by omega, hclear.congr fun m hm => ?_, hw.put hput, hnum⟩
        exact (bit_congr (hbytes _ (by omega))).symm

theorem deallocateBlockBy_spec {b : Nat} (ht : WholeBlocks readB writeB 1024 good content)
    (hv : good v) (hb : 0 < b) (hb' : b < 4294967296)
    (hg : (b - 1) / v.part.super Superblock.blocksPerGroup = g)
    (hk : (b - 1) % v.part.super Superblock.blocksPerGroup = k) (hin : k < 8192)
    (hnz : 0 < v.part.group BlockGroup.blockBitmap g) :
    ((deallocateBlockBy readB writeB v b).1 = 0 ∧
      SameContent good content v (deallocateBlockBy readB writeB v b).2 ∧
      bit (groupBitmap content v g) k = false) ∨
    ((deallocateBlockBy readB writeB v b).1 = 1 ∧ bit (groupBitmap content v g) k = true ∧
      BitmapPut good content v (deallocateBlockBy readB writeB v b).2 (v.part.countBlockFreed g) g
        (clearBit (groupBitmap content v g) k)) := by
  obtain ⟨bitmap, w, hread, hw, hbytes⟩ := readBitmap_spec ht hv hnz
  have hbits : bit bitmap k = bit (groupBitmap content v g) k := bit_congr (hbytes _ (by omega))
  have hword : (word 4 bitmap (k / 32)).testBit (k % 32) = bit bitmap k := by
    rw [testBit_word bitmap (by omega), show 8 * (4 * (k / 32)) + k % 32 = k by omega]
  have hclear : clearWordBit 4 bitmap (k / 32) (k % 32) = clearBit bitmap k := by
    rw [clearWordBit_eq bitmap (by omega), show 8 * (4 * (k / 32)) + k % 32 = k by omega]
  obtain ⟨x, hx⟩ : ∃ x, sub32 b 1 = x := ⟨_, rfl⟩
  have hxb : b - 1 = x := by rw [← hx, sub32_of_le hb hb']
  rw [hxb] at hg hk
  rw [deallocateBlockBy, hx]
  simp only [hg, hk, hread, hword, hclear]
  rw [if_neg (by omega)]
  cases hbit : bit bitmap k with
  | false =>
    rw [if_neg Bool.false_ne_true]
    exact .inl ⟨rfl, hw, by rw [← hbits]; exact hbit⟩
  | true =>
    have hl : SameLayout v.part (v.part.countBlockFreed g) := Partition.sameLayout_countBlockFreed
    have hbm := hl.group BlockGroup.blockBitmap (by decide) g
    obtain ⟨hgood, hsame⟩ := ht.part w (v.part.countBlockFreed g) hw.good (by rw [hw.part]; exact hl)
    obtain ⟨x, hwrite, hx, hpart, hwritten, hothers⟩ := ht.writes _
      (v.part.group BlockGroup.blockBitmap g) (clearBit bitmap k) hgood hnz
    obtain ⟨hgood', hsame'⟩ := ht.part x { x.part with flushRequired := true } hx
      Partition.sameLayout_flush
    rw [if_pos rfl]
    simp only [hw.part, hbm, hwrite]
    rw [if_neg (by omega)]
    refine .inr ⟨rfl, by rw [← hbits]; exact hbit, hgood', by rw [flushRequired, hpart], fun y hy => ?_,
      fun c hc => ?_⟩
    · change content { x with part := { x.part with flushRequired := true } } _ y = _
      rw [hsame', hwritten y hy, clearBit, clearBit, hbytes y hy]
    · change content { x with part := { x.part with flushRequired := true } } c = _
      rw [hsame', hothers c hc, hsame, hw.content]

/-! ## Counters and bitmaps -/

/-- The bitmaps are blocks of their own, the bits beyond the blocks of the volume are set, every
block belongs to a group, and the counters count the clear bits. -/
structure BlocksCounted (content : Volume → Nat → Bytes) (v : Volume) : Prop where
  blockSize : v.part.blockSize = 1024
  firstSbBlock : v.part.super Superblock.firstSbBlock = 1
  blocksPerGroup : 0 < v.part.super Superblock.blocksPerGroup
  fits : v.part.super Superblock.blocksPerGroup ≤ 8192
  nonzero : ∀ g, g < v.part.groupNumber → 0 < v.part.group BlockGroup.blockBitmap g
  distinct : ∀ g h, g < v.part.groupNumber → h < v.part.groupNumber → g ≠ h →
    v.part.group BlockGroup.blockBitmap g ≠ v.part.group BlockGroup.blockBitmap h
  padded : ∀ g k, g < v.part.groupNumber → k < 8192 → bit (groupBitmap content v g) k = false →
    k < v.part.super Superblock.blocksPerGroup ∧
      1 + g * v.part.super Superblock.blocksPerGroup + k < v.part.super Superblock.blocksCount
  covered : ∀ b, v.part.IsBlock b → v.part.blockGroup b < v.part.groupNumber
  counts : ∀ g, g < v.part.groupNumber →
    v.part.group BlockGroup.freeBlocksCount g = clearCount (groupBitmap content v g) 8192
  total : v.part.super Superblock.freeBlocksCount =
    ∑ g ∈ range v.part.groupNumber, clearCount (groupBitmap content v g) 8192

/-- A sum after one of its terms was lowered. -/
theorem sum_lowered {f f' : Nat → Nat} {n g : Nat} (hg : g < n) (h : f' g + 1 = f g)
    (hne : ∀ i, i < n → i ≠ g → f' i = f i) : ∑ i ∈ range n, f' i + 1 = ∑ i ∈ range n, f i := by
  have hmem := mem_range.mpr hg
  have hrest : ∑ i ∈ (range n).erase g, f' i = ∑ i ∈ (range n).erase g, f i :=
    sum_congr rfl fun i hi => hne i (mem_range.mp (mem_of_mem_erase hi)) (ne_of_mem_erase hi)
  have hbefore := add_sum_erase _ f hmem
  have hafter := add_sum_erase _ f' hmem
  omega

/-- The free blocks of all groups fit in the volume. -/
theorem sum_le_of_slots {c : Nat → Nat} {n s m : Nat} (h : ∀ g, g < n → c g ≤ s ∧ c g ≤ m - g * s) :
    ∑ g ∈ range n, c g ≤ n * s ∧ ∑ g ∈ range n, c g ≤ m := by
  induction n with
  | zero => simp
  | succ n ih =>
    obtain ⟨hslots, hall⟩ := ih fun g hg => h g (by omega)
    obtain ⟨hs, hm⟩ := h n (by omega)
    rw [sum_range_succ, Nat.succ_mul]
    omega

namespace Partition

variable {p : Partition}

theorem group_countBlockTaken_same : (p.countBlockTaken g).group BlockGroup.freeBlocksCount g =
    sub16 (p.group BlockGroup.freeBlocksCount g) 1 := by
  rw [countBlockTaken, group_setSuper, group_setGroup_same]
  exact Nat.mod_eq_of_lt (Nat.mod_lt _ (by omega))

theorem group_countBlockTaken_of_ne (h : i ≠ g) :
    (p.countBlockTaken g).group BlockGroup.freeBlocksCount i =
      p.group BlockGroup.freeBlocksCount i := by
  rw [countBlockTaken, group_setSuper, group_setGroup_of_ne (by decide) (by decide) h.symm]

theorem super_countBlockTaken : (p.countBlockTaken g).super Superblock.freeBlocksCount =
    sub32 (p.super Superblock.freeBlocksCount) 1 := by
  rw [countBlockTaken, super_setSuper_same]
  exact Nat.mod_eq_of_lt (Nat.mod_lt _ (by omega))

theorem group_countBlockFreed_same : (p.countBlockFreed g).group BlockGroup.freeBlocksCount g =
    u16 (p.group BlockGroup.freeBlocksCount g + 1) := by
  rw [countBlockFreed, group_setSuper, group_setGroup_same]
  exact Nat.mod_eq_of_lt (Nat.mod_lt _ (by omega))

theorem group_countBlockFreed_of_ne (h : i ≠ g) :
    (p.countBlockFreed g).group BlockGroup.freeBlocksCount i =
      p.group BlockGroup.freeBlocksCount i := by
  rw [countBlockFreed, group_setSuper, group_setGroup_of_ne (by decide) (by decide) h.symm]

theorem super_countBlockFreed : (p.countBlockFreed g).super Superblock.freeBlocksCount =
    u32 (p.super Superblock.freeBlocksCount + 1) := by
  rw [countBlockFreed, super_setSuper_same]
  exact Nat.mod_eq_of_lt (Nat.mod_lt _ (by omega))

end Partition

namespace BitmapPut

variable {p : Partition} {bitmap : Bytes}

theorem sameLayout (h : BitmapPut good content v w p g bitmap) (hl : SameLayout v.part p) :
    SameLayout v.part w.part := by
  rw [h.part]
  exact hl.trans Partition.sameLayout_flush

theorem groupBitmap_same (h : BitmapPut good content v w p g bitmap) (hl : SameLayout v.part p)
    {x : Nat} (hx : x < 1024) : groupBitmap content w g x = bitmap x := by
  rw [groupBitmap, (h.sameLayout hl).group BlockGroup.blockBitmap (by decide)]
  exact h.bitmap x hx

theorem groupBitmap_other (h : BitmapPut good content v w p g bitmap) (hl : SameLayout v.part p)
    (hne : v.part.group BlockGroup.blockBitmap i ≠ v.part.group BlockGroup.blockBitmap g) :
    groupBitmap content w i = groupBitmap content v i := by
  rw [groupBitmap, (h.sameLayout hl).group BlockGroup.blockBitmap (by decide)]
  exact h.others _ hne

end BitmapPut

namespace BlocksCounted

theorem congr (h : BlocksCounted content v) (hw : SameContent good content v w) :
    BlocksCounted content w := by
  obtain ⟨hsize, hone, hbpg, hfits, hnz, hdistinct, hpadded, hcovered, hcounts, htotal⟩ := h
  have hbitmap (g : Nat) := hw.groupBitmap (g := g)
  have hpart := hw.part
  constructor <;> simp only [hbitmap, hpart]
  all_goals assumption

theorem total_lt (h : BlocksCounted content v) :
    v.part.super Superblock.freeBlocksCount + 1 < 4294967296 := by
  have hlt : v.part.super Superblock.blocksCount < 4294967296 := Partition.super_lt
  have hall := (sum_le_of_slots (c := fun g => clearCount (groupBitmap content v g) 8192)
    (m := v.part.super Superblock.blocksCount - 1) fun g hg =>
    ⟨clearCount_le_of fun k hk hclear => (h.padded g k hg hk hclear).1,
      clearCount_le_of fun k hk hclear => by
        have := (h.padded g k hg hk hclear).2
        omega⟩).2
  rw [← h.total] at hall
  by_cases hzero : v.part.super Superblock.freeBlocksCount = 0
  · omega
  · omega

/-- What an update of one bitmap and the counters must keep. -/
theorem put {p : Partition} {bitmap : Bytes} (h : BlocksCounted content v)
    (hl : SameLayout v.part p) (hput : BitmapPut good content v w p g bitmap)
    (hg : g < v.part.groupNumber) (hpadded : ∀ k, k < 8192 → bit bitmap k = false →
      k < v.part.super Superblock.blocksPerGroup ∧
        1 + g * v.part.super Superblock.blocksPerGroup + k < v.part.super Superblock.blocksCount)
    (hcount : p.group BlockGroup.freeBlocksCount g = clearCount bitmap 8192)
    (hcounts : ∀ i, i ≠ g →
      p.group BlockGroup.freeBlocksCount i = v.part.group BlockGroup.freeBlocksCount i)
    (htotal : ∀ f : Nat → Nat, f g = clearCount bitmap 8192 →
      (∀ i, i < v.part.groupNumber → i ≠ g → f i = clearCount (groupBitmap content v i) 8192) →
      p.super Superblock.freeBlocksCount = ∑ i ∈ range v.part.groupNumber, f i) :
    BlocksCounted content w := by
  have hlw := hput.sameLayout hl
  have hbits {k : Nat} (hk : k < 8192) : bit (groupBitmap content w g) k = bit bitmap k :=
    bit_congr (hput.groupBitmap_same hl (by omega))
  have hsame : clearCount (groupBitmap content w g) 8192 = clearCount bitmap 8192 :=
    clearCount_congr fun k hk => hbits hk
  have hother (i : Nat) (hi : i < v.part.groupNumber) (hne : i ≠ g) :
      groupBitmap content w i = groupBitmap content v i :=
    hput.groupBitmap_other hl (h.distinct i g hi hg hne)
  refine ⟨hlw.blockSize.trans h.blockSize, ?_, ?_, ?_, ?_, ?_, ?_, ?_, ?_, ?_⟩
  · rw [hlw.super _ (by decide)]; exact h.firstSbBlock
  · rw [hlw.super _ (by decide)]; exact h.blocksPerGroup
  · rw [hlw.super _ (by decide)]; exact h.fits
  · rw [hlw.groupNumber]
    intro i hi
    rw [hlw.group _ (by decide)]
    exact h.nonzero i hi
  · rw [hlw.groupNumber]
    intro i j hi hj
    rw [hlw.group _ (by decide), hlw.group _ (by decide)]
    exact h.distinct i j hi hj
  · rw [hlw.groupNumber, hlw.super _ (by decide), hlw.super _ (by decide)]
    intro i k hi hk hclear
    by_cases hne : i = g
    · rw [hne] at hclear ⊢
      exact hpadded k hk (by rw [← hbits hk]; exact hclear)
    · rw [hother i hi hne] at hclear
      exact h.padded i k hi hk hclear
  · intro b
    rw [hlw.isBlock, hlw.blockGroup, hlw.groupNumber]
    exact h.covered b
  · rw [hlw.groupNumber]
    intro i hi
    rw [hput.part, Partition.group_flush]
    by_cases hne : i = g
    · rw [hne, hcount, hsame]
    · rw [hcounts i hne, h.counts i hi, hother i hi hne]
  · rw [hlw.groupNumber, hput.part, Partition.super_flush]
    exact htotal _ hsame fun i hi hne => by rw [hother i hi hne]

/-- A clear bit is set, and the counters go down. -/
theorem taken (h : BlocksCounted content v) (hg : g < v.part.groupNumber) (hk : k < 8192)
    (hclear : bit (groupBitmap content v g) k = false)
    (hput : BitmapPut good content v w (v.part.countBlockTaken g) g
      (setBit (groupBitmap content v g) k)) : BlocksCounted content w := by
  have hone : clearCount (setBit (groupBitmap content v g) k) 8192 + 1 =
      clearCount (groupBitmap content v g) 8192 :=
    clearCount_taken hk hclear fun j _ => bit_setBit _ k j
  have hcount := h.counts g hg
  have htotal := h.total
  refine h.put Partition.sameLayout_countBlockTaken hput hg (fun j hj hbit => ?_) ?_
    (fun i hi => Partition.group_countBlockTaken_of_ne hi) fun f hf hothers => ?_
  · rw [bit_setBit, Bool.or_eq_false_iff] at hbit
    exact h.padded g j hg hj hbit.2
  · have hlt : v.part.group BlockGroup.freeBlocksCount g < 65536 := Partition.group_lt
    rw [Partition.group_countBlockTaken_same, sub16_of_le (by omega) hlt]
    omega
  · have hlt : v.part.super Superblock.freeBlocksCount < 4294967296 := Partition.super_lt
    have hsum := sum_lowered (f := fun i => clearCount (groupBitmap content v i) 8192) hg
      (by rw [hf]; exact hone) hothers
    rw [Partition.super_countBlockTaken, sub32_of_le (by omega) hlt]
    omega

/-- A set bit is cleared, and the counters go up. -/
theorem given (h : BlocksCounted content v) (hg : g < v.part.groupNumber)
    (hk : k < v.part.super Superblock.blocksPerGroup)
    (hblock : 1 + g * v.part.super Superblock.blocksPerGroup + k < v.part.super Superblock.blocksCount)
    (hset : bit (groupBitmap content v g) k = true)
    (hput : BitmapPut good content v w (v.part.countBlockFreed g) g
      (clearBit (groupBitmap content v g) k)) : BlocksCounted content w := by
  have hfits := h.fits
  have hone : clearCount (clearBit (groupBitmap content v g) k) 8192 =
      clearCount (groupBitmap content v g) 8192 + 1 :=
    clearCount_given (by omega) hset fun j _ => bit_clearBit _ k j
  have hcount := h.counts g hg
  have htotal := h.total
  refine h.put Partition.sameLayout_countBlockFreed hput hg (fun j hj hbit => ?_) ?_
    (fun i hi => Partition.group_countBlockFreed_of_ne hi) fun f hf hothers => ?_
  · by_cases hjk : j = k
    · exact hjk ▸ ⟨hk, hblock⟩
    · rw [bit_clearBit_of_ne _ hjk] at hbit
      exact h.padded g j hg hj hbit
  · have := clearCount_le (groupBitmap content v g) 8192
    rw [Partition.group_countBlockFreed_same, hcount, u16, Nat.mod_eq_of_lt (by omega), hone]
  · have hlt := h.total_lt
    have hsum := @sum_lowered f (fun i => clearCount (groupBitmap content v i) 8192) _ g hg
      (by rw [hf]; exact hone.symm) fun i hi hne => (hothers i hi hne).symm
    rw [Partition.super_countBlockFreed, u32_of_lt (by omega)]
    omega

end BlocksCounted

/-! ## Runs -/

/-- The bit of block `b` is set. -/
def Allocated (content : Volume → Nat → Bytes) (v : Volume) (b : Nat) : Prop :=
  bit (groupBitmap content v (v.part.blockGroup b)) (v.part.blockIndex b) = true

/-- A call of one of the two functions, on a block of the volume. -/
inductive CountStep (readB : BlockRead) (writeB : BlockWrite) : Volume → Volume → Prop
  | allocate (v : Volume) : CountStep readB writeB v (allocateBlockBy readB writeB v).2
  | deallocate (v : Volume) (b : Nat) (hb : v.part.IsBlock b) :
      CountStep readB writeB v (deallocateBlockBy readB writeB v b).2

/-- The bitmaps and the counters of `v` again. -/
structure Restored (content : Volume → Nat → Bytes) (v w : Volume) : Prop where
  bitmaps : ∀ g, g < v.part.groupNumber → ∀ x, x < 1024 →
    groupBitmap content w g x = groupBitmap content v g x
  groups : ∀ g, w.part.group BlockGroup.freeBlocksCount g = v.part.group BlockGroup.freeBlocksCount g
  total : w.part.super Superblock.freeBlocksCount = v.part.super Superblock.freeBlocksCount

namespace BlocksCounted

variable {b : Nat}

/-- What a call of `ext2_allocate_block` does. -/
theorem allocate (ht : WholeBlocks readB writeB 1024 good content) (hv : good v)
    (h : BlocksCounted content v) :
    ((allocateBlockBy readB writeB v).1 = 0 ∧
      SameContent good content v (allocateBlockBy readB writeB v).2) ∨
    ∃ g k, g < v.part.groupNumber ∧ k < v.part.super Superblock.blocksPerGroup ∧
      (allocateBlockBy readB writeB v).1 = 1 + g * v.part.super Superblock.blocksPerGroup + k ∧
      v.part.IsBlock (allocateBlockBy readB writeB v).1 ∧
      bit (groupBitmap content v g) k = false ∧
      BitmapPut good content v (allocateBlockBy readB writeB v).2 (v.part.countBlockTaken g) g
        (setBit (groupBitmap content v g) k) := by
  rcases allocateBlockFromBy_spec (i := 0) (n := v.part.groupNumber) ht hv h.blockSize
    (fun g hg => h.nonzero g (by omega)) with hsame | ⟨g, k, hg, hclear, hput, hnum⟩
  · exact .inl hsame
  · have hg : g < v.part.groupNumber := by omega
    obtain ⟨hk, hblock⟩ := h.padded g k hg hclear.1 hclear.2.1
    have hlt : v.part.super Superblock.blocksCount < 4294967296 := Partition.super_lt
    have hb : (allocateBlockBy readB writeB v).1 =
        1 + g * v.part.super Superblock.blocksPerGroup + k := by
      rw [allocateBlockBy, hnum, u32_of_lt (by omega)]
      omega
    refine .inr ⟨g, k, hg, hk, hb, ?_, hclear.2.1, hput⟩
    rw [hb, Partition.IsBlock, h.firstSbBlock]
    omega

/-- What a call of `ext2_deallocate_block` does. -/
theorem deallocate (ht : WholeBlocks readB writeB 1024 good content) (hv : good v)
    (h : BlocksCounted content v) (hb : v.part.IsBlock b) :
    ((deallocateBlockBy readB writeB v b).1 = 0 ∧ ¬ Allocated content v b ∧
      SameContent good content v (deallocateBlockBy readB writeB v b).2) ∨
    ((deallocateBlockBy readB writeB v b).1 = 1 ∧ Allocated content v b ∧
      BitmapPut good content v (deallocateBlockBy readB writeB v b).2
        (v.part.countBlockFreed (v.part.blockGroup b)) (v.part.blockGroup b)
        (clearBit (groupBitmap content v (v.part.blockGroup b)) (v.part.blockIndex b))) := by
  have hlt : v.part.super Superblock.blocksCount < 4294967296 := Partition.super_lt
  have hone := h.firstSbBlock
  have hfits := h.fits
  have hindex : v.part.blockIndex b < v.part.super Superblock.blocksPerGroup :=
    Nat.mod_lt _ h.blocksPerGroup
  obtain ⟨hlower, hupper⟩ := hb
  rcases deallocateBlockBy_spec (b := b) (g := v.part.blockGroup b) (k := v.part.blockIndex b) ht hv
    (by omega) (by omega) (by rw [Partition.blockGroup, hone]) (by rw [Partition.blockIndex, hone])
    (by omega) (h.nonzero _ (h.covered b ⟨hlower, hupper⟩)) with
    ⟨hzero, hsame, hclear⟩ | ⟨hres, hset, hput⟩
  · refine .inl ⟨hzero, ?_, hsame⟩
    rw [Allocated, hclear]
    exact Bool.false_ne_true
  · exact .inr ⟨hres, hset, hput⟩

/-- The bit of a block stands for no other. -/
theorem block_eq (h : BlocksCounted content v) (hb : v.part.IsBlock b) :
    1 + v.part.blockGroup b * v.part.super Superblock.blocksPerGroup + v.part.blockIndex b = b := by
  have hdiv := Nat.div_add_mod (b - v.part.super Superblock.firstSbBlock)
    (v.part.super Superblock.blocksPerGroup)
  have hlower := hb.1
  have hone := h.firstSbBlock
  rw [Nat.mul_comm] at hdiv
  unfold Partition.blockGroup Partition.blockIndex
  omega

theorem step (ht : WholeBlocks readB writeB 1024 good content) (hv : good v)
    (h : BlocksCounted content v) (hstep : CountStep readB writeB v w) :
    good w ∧ BlocksCounted content w := by
  cases hstep with
  | allocate =>
    rcases h.allocate ht hv with ⟨-, hsame⟩ | ⟨g, k, hg, hk, -, -, hclear, hput⟩
    · exact ⟨hsame.good, h.congr hsame⟩
    · have hfits := h.fits
      exact ⟨hput.good, h.taken hg (by omega) hclear hput⟩
  | deallocate b hb =>
    rcases h.deallocate ht hv hb with ⟨-, -, hsame⟩ | ⟨-, hset, hput⟩
    · exact ⟨hsame.good, h.congr hsame⟩
    · have hindex : v.part.blockIndex b < v.part.super Superblock.blocksPerGroup :=
        Nat.mod_lt _ h.blocksPerGroup
      exact ⟨hput.good, h.given (h.covered b hb) hindex (by rw [h.block_eq hb]; exact hb.2) hset hput⟩

/-- Giving back the block just allocated undoes the allocation. -/
theorem restored (ht : WholeBlocks readB writeB 1024 good content) (hv : good v)
    (h : BlocksCounted content v) (hne : (allocateBlockBy readB writeB v).1 ≠ 0) :
    (deallocateBlockBy readB writeB (allocateBlockBy readB writeB v).2
        (allocateBlockBy readB writeB v).1).1 = 1 ∧
      Restored content v (deallocateBlockBy readB writeB (allocateBlockBy readB writeB v).2
        (allocateBlockBy readB writeB v).1).2 := by
  rcases h.allocate ht hv with ⟨hzero, -⟩ | ⟨g, k, hg, hk, hb, hblock, hclear, hput⟩
  · exact absurd hzero hne
  · obtain ⟨w, hw⟩ : ∃ w, (allocateBlockBy readB writeB v).2 = w := ⟨_, rfl⟩
    obtain ⟨b, hbb⟩ : ∃ b, (allocateBlockBy readB writeB v).1 = b := ⟨_, rfl⟩
    rw [hw] at hput ⊢
    rw [hbb] at hb hblock ⊢
    have hl : SameLayout v.part (v.part.countBlockTaken g) := Partition.sameLayout_countBlockTaken
    have hlw := hput.sameLayout hl
    have hfits := h.fits
    have hbit {j : Nat} (hj : j < 8192) : bit (groupBitmap content w g) j =
        bit (setBit (groupBitmap content v g) k) j := bit_congr (hput.groupBitmap_same hl (by omega))
    have hgb : w.part.blockGroup b = g := by
      rw [hlw.blockGroup, hb, ← h.firstSbBlock]
      exact Partition.blockGroup_add hk
    have hkb : w.part.blockIndex b = k := by
      rw [hlw.blockIndex, hb, ← h.firstSbBlock]
      exact Partition.blockIndex_add hk
    have hcw : BlocksCounted content w := h.taken hg (by omega) hclear hput
    rcases hcw.deallocate ht hput.good (hlw.isBlock.mpr hblock) with ⟨-, hclear', -⟩ | ⟨hres, -, hput'⟩
    · rw [Allocated, hgb, hkb, hbit (by omega), bit_setBit_self] at hclear'
      exact absurd rfl hclear'
    · rw [hgb, hkb] at hput'
      obtain ⟨x, hx⟩ : ∃ x, (deallocateBlockBy readB writeB w b).2 = x := ⟨_, rfl⟩
      rw [hx] at hput' ⊢
      have hl' : SameLayout w.part (w.part.countBlockFreed g) := Partition.sameLayout_countBlockFreed
      have hcount := h.counts g hg
      have hpos : clearCount (setBit (groupBitmap content v g) k) 8192 + 1 =
          clearCount (groupBitmap content v g) 8192 :=
        clearCount_taken (by omega) hclear fun j _ => bit_setBit _ k j
      have hle := clearCount_le (groupBitmap content v g) 8192
      refine ⟨hres, fun i hi y hy => ?_, fun i => ?_, ?_⟩
      · by_cases hne : i = g
        · have hbytes : clearBit (groupBitmap content w g) k y =
              clearBit (setBit (groupBitmap content v g) k) k y := by
            unfold clearBit
            rw [hput.groupBitmap_same hl hy]
          rw [hne, hput'.groupBitmap_same hl' hy, hbytes, clearBit_setBit hclear]
        · rw [hput'.groupBitmap_other hl', hput.groupBitmap_other hl (h.distinct i g hi hg hne)]
          rw [hlw.group _ (by decide), hlw.group _ (by decide)]
          exact h.distinct i g hi hg hne
      · rw [hput'.part, Partition.group_flush]
        by_cases hne : i = g
        · have hlt : v.part.group BlockGroup.freeBlocksCount g < 65536 := Partition.group_lt
          rw [hne, Partition.group_countBlockFreed_same, hput.part, Partition.group_flush,
            Partition.group_countBlockTaken_same, sub16_of_le (by omega) hlt, u16,
            Nat.mod_eq_of_lt (by omega)]
          omega
        · rw [Partition.group_countBlockFreed_of_ne hne, hput.part, Partition.group_flush,
            Partition.group_countBlockTaken_of_ne hne]
      · have hlt := h.total_lt
        have hpositive : 0 < v.part.super Superblock.freeBlocksCount := by
          rw [h.total, ← add_sum_erase _ _ (mem_range.mpr hg)]
          omega
        rw [hput'.part, Partition.super_flush, Partition.super_countBlockFreed, hput.part,
          Partition.super_flush, Partition.super_countBlockTaken, sub32_of_le (by omega) (by omega),
          u32_of_lt (by omega)]
        omega

end BlocksCounted

/-- In every run of the two functions the counters count the clear bits, a block is given back
when and only when it is allocated, and giving back the block just allocated undoes the
allocation. -/
theorem blocks_counted (ht : WholeBlocks readB writeB 1024 good content) (hv : good v)
    (hc : BlocksCounted content v) (hrun : Reaches (CountStep readB writeB) v w) :
    BlocksCounted content w ∧
      (∀ b, w.part.IsBlock b →
        ((deallocateBlockBy readB writeB w b).1 ≠ 0 ↔ Allocated content w b)) ∧
      ((allocateBlockBy readB writeB w).1 ≠ 0 →
        (deallocateBlockBy readB writeB (allocateBlockBy readB writeB w).2
            (allocateBlockBy readB writeB w).1).1 = 1 ∧
          Restored content w (deallocateBlockBy readB writeB (allocateBlockBy readB writeB w).2
            (allocateBlockBy readB writeB w).1).2) := by
  obtain ⟨hw, hcw⟩ := Run.invariant (fun v => good v ∧ BlocksCounted content v)
    (fun _ _ hs hstep => hs.2.step ht hs.1 hstep) ⟨hv, hc⟩ hrun
  refine ⟨hcw, fun b hb => ?_, hcw.restored ht hw⟩
  rcases hcw.deallocate ht hw hb with ⟨hzero, hclear, -⟩ | ⟨hone, hset, -⟩
  · exact iff_of_false (fun h => h hzero) hclear
  · exact iff_of_true (by omega) hset

/-- A read of a block of 1024 bytes from the start of the disk. -/
def imageRead : BlockRead := fun v b buffer => (1, copy buffer 0 v.disk.image (1024 * b) 1024, v)

def imageWrite : BlockWrite := fun v b buffer =>
  (1, { v with disk := { v.disk with image := copy v.disk.image (1024 * b) buffer 0 1024 } })

def imageContent (v : Volume) (b : Nat) : Bytes := fun x =>
  if x < 1024 then v.disk.image (1024 * b + x) else 0

theorem wholeBlocks_image :
    WholeBlocks imageRead imageWrite 1024 (fun _ => True) imageContent := by
  refine ⟨fun v _ => ⟨trivial, rfl⟩, fun v p _ _ => ⟨trivial, rfl⟩, fun v b buffer _ _ =>
    ⟨_, v, rfl, trivial, rfl, rfl, fun x hx => ?_⟩, fun v b buffer _ _ =>
    ⟨_, rfl, trivial, rfl, fun x hx => ?_, fun c hc => ?_⟩⟩
  · rw [copy_apply_in _ _ (by omega) (by omega), imageContent, if_pos hx, Nat.sub_zero]
  · simp only [imageContent]
    rw [if_pos hx, copy_apply_in _ _ (by omega) (by omega)]
    congr 1
    omega
  · funext x
    simp only [imageContent]
    split
    · rw [copy_apply_out _ _ (by omega)]
    · rfl

theorem blocksCounted_smallVolume : BlocksCounted imageContent (smallVolume 512) := by
  have hpart : (smallVolume 512).part = smallPartition := rfl
  have hsize : smallPartition.blockSize = 1024 := by decide +kernel
  have hbpg : smallPartition.super Superblock.blocksPerGroup = 8192 := by decide +kernel
  have hcount : smallPartition.super Superblock.blocksCount = 8192 := by decide +kernel
  have hone : smallPartition.super Superblock.firstSbBlock = 1 := by decide +kernel
  have hbitmap : smallPartition.group BlockGroup.blockBitmap 0 = 3 := by decide +kernel
  have hgroup {g : Nat} (hg : g < smallPartition.groupNumber) : g = 0 := Nat.lt_one_iff.mp hg
  have hbits (k : Nat) (hk : k < 8192) :
      bit (groupBitmap imageContent (smallVolume 512) 0) k = false ↔ 4096 ≤ k ∧ k < 8191 := by
    have hlow : ∀ i, i < 8 → ((255 : BitVec 8).getLsbD i = true ∧
      ((128 : BitVec 8).getLsbD i = false ↔ i < 7)) := by decide
    have hi := hlow (k % 8) (Nat.mod_lt _ (by omega))
    have hbyte : groupBitmap imageContent (smallVolume 512) 0 (k / 8) =
        if k / 8 = 1023 then 128 else if k / 8 < 512 then 255 else 0 := by
      rw [groupBitmap, hpart, hbitmap, imageContent, if_pos (by omega)]
      change (if 1024 * 3 + k / 8 = 4095 then 128 else
        if 3072 ≤ 1024 * 3 + k / 8 ∧ 1024 * 3 + k / 8 < 3072 + 512 then 255 else 0) = _
      simp only [show (1024 * 3 + k / 8 = 4095) = (k / 8 = 1023) by simp only [eq_iff_iff]; omega,
        show (3072 ≤ 1024 * 3 + k / 8 ∧ 1024 * 3 + k / 8 < 3072 + 512) = (k / 8 < 512) by
          simp only [eq_iff_iff]; omega]
    rw [bit, hbyte]
    split
    · rw [hi.2]
      omega
    · split
      · rw [hi.1]
        simp
        omega
      · simp
        omega
  have hclear := clearCount_interval hbits
  refine ⟨hsize, hone, ?_, ?_, ?_, ?_, ?_, ?_, ?_, ?_⟩
  · rw [hpart, hbpg]; decide
  · rw [hpart, hbpg]
  · intro g hg
    rw [hpart, hgroup hg, hbitmap]
    decide
  · intro g h hg hh hne
    exact absurd ((hgroup hg).trans (hgroup hh).symm) hne
  · intro g k hg hk hfalse
    rw [hpart] at hg ⊢
    rw [hgroup hg] at hfalse ⊢
    have := (hbits k hk).mp hfalse
    rw [hbpg, hcount]
    omega
  · intro b hb
    have hupper := hb.2
    have hlower := hb.1
    rw [hpart] at hlower hupper ⊢
    rw [Partition.blockGroup, hone, hbpg]
    rw [hcount] at hupper
    show (b - 1) / 8192 < 1
    omega
  · intro g hg
    rw [hpart] at hg ⊢
    rw [hgroup hg, hclear]
    decide +kernel
  · rw [hpart, show smallPartition.groupNumber = 1 from rfl, sum_range_one, hclear]
    decide +kernel

/-- After one allocation. -/
theorem blocks_counted_small :
    BlocksCounted imageContent (allocateBlockBy imageRead imageWrite (smallVolume 512)).2 :=
  (blocks_counted wholeBlocks_image trivial blocksCounted_smallVolume
    (.single (.allocate (smallVolume 512)))).1

end UnedKernel.Ext2
