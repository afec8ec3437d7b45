import UnedKernel.Ext2.BlockRuns

/-! # Failing sector transfers

What the callers of `ext2_read_block` and `ext2_write_block` make of a transfer
that fails. The disk reports the bytes moved before it, the block layer looks
for a zero there, and the sentinels of the block layer are positive numbers
that the tests `!` and `<= 0` of the allocation let through. -/

namespace UnedKernel.Ext2
open ByteMem Word Sectors Bitmap

/-! ## The first failure of a call -/

/-- Number `k` is the first of the next `n` transfers to fail. -/
structure FirstFailure (d : Disk) (n k : Nat) : Prop where
  lt : k < n
  fails : d.fails (d.clock + k) = true
  before : ∀ j, j < k → d.fails (d.clock + j) = false

/-- A sector transfer fails between the two times. -/
def FailsBetween (d : Disk) (lo hi : Nat) : Prop := ∃ t, lo ≤ t ∧ t < hi ∧ d.fails t = true

/-- A sector transfer issued on the way from `v` to `w` failed. -/
def TransferFailed (v w : Volume) : Prop := FailsBetween v.disk v.disk.clock w.disk.clock

section transfers

variable {d : Disk} {n k : Nat}

theorem firstFailure_iff : FirstFailure d n k ↔ d.moved n = k ∧ k < n := by
  constructor
  · intro h
    refine ⟨?_, h.lt⟩
    rcases Nat.lt_trichotomy (d.moved n) k with hlt | heq | hgt
    · have hfail := Disk.moved_fails (Nat.lt_trans hlt h.lt)
      rw [h.before _ hlt] at hfail
      cases hfail
    · exact heq
    · have hok := Disk.moved_ok hgt
      rw [h.fails] at hok
      cases hok
  · rintro ⟨rfl, hlt⟩
    exact ⟨hlt, Disk.moved_fails hlt, fun j hj => Disk.moved_ok hj⟩

/-- Of the transfers issued one fails, or all go through. -/
theorem failsBetween_issued :
    FailsBetween d d.clock (d.clock + d.issued n) ↔ d.moved n < n := by
  constructor
  · rintro ⟨t, hlo, hhi, hfail⟩
    by_contra hall
    obtain ⟨j, rfl⟩ := Nat.exists_eq_add_of_le hlo
    have hle : d.moved n ≤ n := Disk.moved_le
    unfold Disk.issued at hhi
    rw [Disk.moved_ok (n := n) (t := j) (by omega)] at hfail
    cases hfail
  · intro hlt
    refine ⟨d.clock + d.moved n, Nat.le_add_right _ _, ?_, Disk.moved_fails hlt⟩
    unfold Disk.issued
    omega

end transfers

/-! ## One block -/

namespace Partition

/-- The sectors that `ext2_read_block` asks for. -/
def readCount (p : Partition) : Nat :=
  sizeToBlocks (sext32 (u32 (divideRoundedUp p.blockSize p.sectorSize * p.sectorSize)))

/-- The sectors that `ext2_write_block` asks for. -/
def writeCount (p : Partition) : Nat :=
  sizeToBlocks (sext32 (divideRoundedUp p.blockSize p.sectorSize))

end Partition

namespace Volume

/-- What a read of block `block` into `buffer` leaves there, failures included. -/
def filled (v : Volume) (block : Nat) (buffer : Bytes) : Bytes :=
  copy buffer 0 (window v.disk.image (v.part.ioSector block)) 0
    (512 * v.disk.moved v.part.readCount)

/-- The volume after the transfers of a read. -/
def readIssued (v : Volume) : Volume := v.after v.disk.image (v.disk.issued v.part.readCount)

end Volume

variable {v : Volume} {block : Nat} {buffer : Bytes}

theorem u32_blockToSize (m : Nat) : u32 (blockToSize m) = 0 ↔ m % 8388608 = 0 := by
  unfold u32 blockToSize u64
  omega

/-- The answer of a block transfer that moved `m` of `n` sectors, or all of `bytes`. -/
theorem answer_spec {m n bytes : Nat} {sentinel r : Int} (hpos : 0 < sentinel) (hone : sentinel ≠ 1)
    (hr : (if u32 (if m < n then blockToSize m else bytes) = 0 then sentinel else 1) = r) :
    0 < r ∧ (m < n → (r = 1 ↔ m % 8388608 ≠ 0)) := by
  subst hr
  constructor
  · generalize u32 (if m < n then blockToSize m else bytes) = answer
    split
    · exact hpos
    · exact Int.one_pos
  · intro hlt
    simp only [if_pos hlt, u32_blockToSize]
    split
    · rename_i hzero
      exact ⟨fun hr => absurd hr hone, fun hr => absurd hzero hr⟩
    · rename_i hnz
      exact ⟨fun _ => hnz, fun _ => rfl⟩

/-- `ext2_read_block` returns 1 or a sentinel that is not 0 either. -/
theorem readBlock_eq (v : Volume) (block : Nat) (buffer : Bytes) (h : 0 < block) : ∃ r : Int,
    readBlock v block buffer = (r, v.filled block buffer, v.readIssued) ∧ 0 < r ∧
    (v.disk.moved v.part.readCount < v.part.readCount →
      (r = 1 ↔ v.disk.moved v.part.readCount % 8388608 ≠ 0)) :=
  ⟨_, by rw [readBlock, if_pos h, Disk.readDisk_eq]; rfl, answer_spec (by decide) (by decide) rfl⟩

theorem writeBlock_eq (v : Volume) (block : Nat) (buffer : Bytes) (h : block ≠ 0) : ∃ (r : Int) (image : Bytes),
    writeBlock v block buffer = (r, v.after image (v.disk.issued v.part.writeCount)) ∧ 0 < r ∧
    (v.disk.moved v.part.writeCount < v.part.writeCount →
      (r = 1 ↔ v.disk.moved v.part.writeCount % 8388608 ≠ 0)) :=
  ⟨_, _, by rw [writeBlock, if_pos h, Disk.writeDisk_eq (Mounted.blockLba_lt _)]; rfl,
    answer_spec (by decide) (by decide) rfl⟩

/-- The call of `ext2_read_block` does not return 1 when a transfer failed. -/
def ReadReports (v : Volume) (block : Nat) (buffer : Bytes) : Prop :=
  TransferFailed v (readBlock v block buffer).2.2 → (readBlock v block buffer).1 ≠ 1

def WriteReports (v : Volume) (block : Nat) (buffer : Bytes) : Prop :=
  TransferFailed v (writeBlock v block buffer).2 → (writeBlock v block buffer).1 ≠ 1

/-- The first transfer to fail, if any does, moves a number of bytes that an
`int` holds as 0: it is the first of the call, or 2^23 sectors into it. -/
def FailsAtStart (d : Disk) (n : Nat) : Prop := ∀ k, FirstFailure d n k → k % 8388608 = 0

/-- A result that is 1 exactly when something was moved before the failure. -/
private theorem reports_iff {d : Disk} {n : Nat} {r : Int}
    (hr : d.moved n < n → (r = 1 ↔ d.moved n % 8388608 ≠ 0)) :
    (FailsBetween d d.clock (d.clock + d.issued n) → r ≠ 1) ↔ FailsAtStart d n := by
  rw [failsBetween_issued]
  constructor
  · intro h k hk
    obtain ⟨rfl, hlt⟩ := firstFailure_iff.mp hk
    by_contra hnz
    exact h hlt ((hr hlt).mpr hnz)
  · intro h hlt hone
    exact (hr hlt).mp hone (h _ (firstFailure_iff.mpr ⟨rfl, hlt⟩))

/-- Without a transfer there is no failure. -/
theorem not_transferFailed_self : ¬ TransferFailed v v := by
  rintro ⟨t, hlo, hhi, -⟩
  omega

theorem readReports_iff :
    ReadReports v block buffer ↔ block = 0 ∨ FailsAtStart v.disk v.part.readCount := by
  rcases Nat.eq_zero_or_pos block with rfl | hb
  · exact ⟨fun _ => .inl rfl, fun _ hfail => absurd hfail not_transferFailed_self⟩
  · obtain ⟨r, heq, -, hr⟩ := readBlock_eq v block buffer hb
    rw [ReadReports, heq, or_iff_right (by omega)]
    exact reports_iff hr

theorem writeReports_iff :
    WriteReports v block buffer ↔ block = 0 ∨ FailsAtStart v.disk v.part.writeCount := by
  rcases Nat.eq_zero_or_pos block with rfl | hb
  · exact ⟨fun _ => .inl rfl, fun _ hfail => absurd hfail not_transferFailed_self⟩
  · obtain ⟨r, image, heq, -, hr⟩ := writeBlock_eq v block buffer (Nat.ne_of_gt hb)
    rw [WriteReports, heq, or_iff_right (by omega)]
    exact reports_iff hr

/-! ## Allocation -/

namespace Volume

/-- What the next buffer holds after a read of the block bitmap of group `i`. -/
def seen (v : Volume) (i : Nat) : Bytes :=
  v.filled (v.part.group BlockGroup.blockBitmap i) (v.buffers v.allocated)

/-- The volume after `kmalloc` and a read. -/
def looked (v : Volume) : Volume := { v.readIssued with allocated := v.allocated + 1 }

/-- From group `i` on, `n` groups left, the search reads up to a buffer with a clear
bit; `w` is the volume then. A bitmap whose read fails is searched like any other. -/
inductive Finds : Volume → Nat → Nat → Volume → Prop
  | here {v : Volume} {i n : Nat} (free : v.part.group BlockGroup.freeBlocksCount i ≠ 0)
      (bitmap : 0 < v.part.group BlockGroup.blockBitmap i)
      (clear : ¬ Full (v.seen i) (8 * (4 * (v.part.blockSize / 4)))) : Finds v i (n + 1) v.looked
  | full {v w : Volume} {i n : Nat} (full : v.part.group BlockGroup.freeBlocksCount i = 0)
      (rest : Finds v (i + 1) n w) : Finds v i (n + 1) w
  | next {v w : Volume} {i n : Nat} (free : v.part.group BlockGroup.freeBlocksCount i ≠ 0)
      (bitmap : 0 < v.part.group BlockGroup.blockBitmap i)
      (taken : Full (v.seen i) (8 * (4 * (v.part.blockSize / 4))))
      (rest : Finds v.looked (i + 1) n w) : Finds v i (n + 1) w

end Volume

/-- The counters of free blocks, of the groups and of the superblock. -/
def SameCounts (v w : Volume) : Prop :=
  (∀ i, w.part.group BlockGroup.freeBlocksCount i = v.part.group BlockGroup.freeBlocksCount i) ∧
    w.part.super Superblock.freeBlocksCount = v.part.super Superblock.freeBlocksCount

/-- With a failed transfer the function returns 0 and leaves the counters alone. -/
def Reports (v : Volume) (r : Nat × Volume) : Prop :=
  TransferFailed v r.2 → r.1 = 0 ∧ SameCounts v r.2

theorem sameCounts_looked {v w : Volume} : SameCounts v.looked w ↔ SameCounts v w :=
  ⟨fun h => ⟨h.1, h.2⟩, fun h => ⟨h.1, h.2⟩⟩

theorem countBlockTaken_super (p : Partition) (i : Nat) :
    (p.countBlockTaken i).super Superblock.freeBlocksCount ≠ p.super Superblock.freeBlocksCount := by
  have hlt : p.super Superblock.freeBlocksCount < 4294967296 := Partition.super_lt
  rw [Partition.countBlockTaken, Partition.super_setSuper_same]
  show sub32 _ 1 % 4294967296 ≠ _
  unfold sub32 u32
  omega

theorem countBlockFreed_super (p : Partition) (i : Nat) :
    (p.countBlockFreed i).super Superblock.freeBlocksCount ≠ p.super Superblock.freeBlocksCount := by
  have hlt : p.super Superblock.freeBlocksCount < 4294967296 := Partition.super_lt
  rw [Partition.countBlockFreed, Partition.super_setSuper_same]
  show u32 _ % 4294967296 ≠ _
  unfold u32
  omega

section allocation

variable {w : Volume} {i n : Nat}

/-- A bit taken is counted whatever becomes of the write. -/
theorem takeBlock_counts (hb : 0 < v.part.group BlockGroup.blockBitmap i) (bitmap : Bytes)
    (j k : Nat) : ¬ SameCounts v (takeBlock v i bitmap j k).2 ∧
      (takeBlock v i bitmap j k).2.disk.clock = v.disk.clock + v.disk.issued v.part.writeCount := by
  have hl : SameLayout v.part (v.part.countBlockTaken i) := Partition.sameLayout_countBlockTaken
  have hbm := hl.group BlockGroup.blockBitmap (by decide) i
  obtain ⟨r, image, heq, hpos, -⟩ := writeBlock_eq { v with part := v.part.countBlockTaken i }
    _ (setWordBit 4 bitmap j k) (hbm ▸ Nat.ne_of_gt hb)
  have hcount : (v.part.countBlockTaken i).writeCount = v.part.writeCount := by
    rw [Partition.writeCount, Partition.writeCount, hl.blockSize, hl.sectorSize]
  rw [takeBlock]
  simp only [heq, if_neg (Int.not_le.mpr hpos)]
  refine ⟨fun h => countBlockTaken_super v.part i h.2, ?_⟩
  show v.disk.clock + v.disk.issued (v.part.countBlockTaken i).writeCount = _
  rw [hcount]

/-- The search ends with a bit taken, or with 0 and nothing counted. -/
theorem allocateBlockFrom_search :
    (∃ w, v.Finds i n w ∧ ¬ SameCounts v (allocateBlockFrom v i n).2 ∧
      (allocateBlockFrom v i n).2.disk.clock = w.disk.clock + w.disk.issued w.part.writeCount) ∨
    ((∀ w, ¬ v.Finds i n w) ∧ (allocateBlockFrom v i n).1 = 0 ∧
      SameCounts v (allocateBlockFrom v i n).2) := by
  induction n generalizing v i with
  | zero => exact .inr ⟨fun w hw => (nomatch hw), rfl, fun _ => rfl, rfl⟩
  | succ n ih =>
    rw [allocateBlockFrom]
    split
    · rename_i hfull
      rcases ih (v := v) (i := i + 1) with ⟨w, hw, hrest⟩ | ⟨hnone, hrest⟩
      · exact .inl ⟨w, .full hfull hw, hrest⟩
      · refine .inr ⟨fun w hw => ?_, hrest⟩
        cases hw with
        | here free => exact free hfull
        | full _ rest => exact hnone w rest
        | next free => exact free hfull
    rename_i hfree
    rcases Nat.eq_zero_or_pos (v.part.group BlockGroup.blockBitmap i) with hzero | hb
    · -- no bitmap: the read reports block 0
      have hread : readBlock (kmalloc v).2 ((kmalloc v).2.part.group BlockGroup.blockBitmap i)
          (kmalloc v).1 = (0, (kmalloc v).1, (kmalloc v).2) := by
        rw [show (kmalloc v).2.part.group BlockGroup.blockBitmap i = 0 from hzero]
        rfl
      simp only [hread]
      refine .inr ⟨fun w hw => ?_, rfl, fun _ => rfl, rfl⟩
      cases hw with
      | here _ bitmap => omega
      | full full => exact hfree full
      | next _ bitmap => omega
    · obtain ⟨r, hread, hpos, -⟩ := readBlock_eq (kmalloc v).2
        ((kmalloc v).2.part.group BlockGroup.blockBitmap i) (kmalloc v).1 hb
      simp only [hread, if_neg (Int.ne_of_gt hpos)]
      have hseen : (kmalloc v).2.filled ((kmalloc v).2.part.group BlockGroup.blockBitmap i)
          (kmalloc v).1 = v.seen i := rfl
      have hlooked : (kmalloc v).2.readIssued = v.looked := rfl
      have hpart : v.looked.part.blockSize = v.part.blockSize := rfl
      rw [hseen, hlooked, hpart]
      cases hs : scanWords 4 (v.seen i) 0 (v.part.blockSize / 4) with
      | none =>
        have hfull : Full (v.seen i) (8 * (4 * (v.part.blockSize / 4))) := scanWords_full hs
        rcases ih (v := v.looked) (i := i + 1) with ⟨w, hw, hrest⟩ | ⟨hnone, hrest⟩
        · exact .inl ⟨w, .next hfree hb hfull hw, hrest⟩
        · refine .inr ⟨fun w hw => ?_, hrest⟩
          cases hw with
          | here _ _ clear => exact clear hfull
          | full full => exact hfree full
          | next _ _ _ rest => exact hnone w rest
      | some r =>
        obtain ⟨j, k⟩ := r
        dsimp only
        obtain ⟨-, hclear⟩ := scanWords_firstClear hs
        obtain ⟨hcounts, hclock⟩ := takeBlock_counts (v := v.looked) (i := i) hb (v.seen i) j k
        exact .inl ⟨v.looked, .here hfree hb hclear.not_full,
          fun h => hcounts (sameCounts_looked.mpr h), hclock⟩

theorem Volume.Finds.unique {x : Volume} (h : v.Finds i n w) (h' : v.Finds i n x) : w = x := by
  induction h with
  | here free _ clear =>
    cases h' with
    | here => rfl
    | full full => exact absurd full free
    | next _ _ taken => exact absurd taken clear
  | full full _ ih =>
    cases h' with
    | here free => exact absurd full free
    | full _ rest => exact ih rest
    | next free => exact absurd full free
  | next free _ taken _ ih =>
    cases h' with
    | here _ _ clear => exact absurd taken clear
    | full full => exact absurd full free
    | next _ _ _ rest => exact ih rest

end allocation

/-- The time when the write of a bitmap found in `w` is over. -/
def Volume.writeOver (w : Volume) : Nat := w.disk.clock + w.disk.issued w.part.writeCount

/-- Either no transfer fails until the bitmap is written, or no bitmap with a clear bit is seen. -/
def AllocateReports (v : Volume) : Prop :=
  ∀ w, v.Finds 0 v.part.groupNumber w → ¬ FailsBetween v.disk v.disk.clock w.writeOver

theorem allocateBlock_reports_iff : Reports v (allocateBlock v) ↔ AllocateReports v := by
  rw [Reports, TransferFailed, allocateBlock]
  rcases allocateBlockFrom_search (v := v) (i := 0) (n := v.part.groupNumber) with
    ⟨w, hw, hcounts, hclock⟩ | ⟨hnone, hresult⟩
  · rw [hclock]
    constructor
    · intro h x hx hfail
      rw [← hw.unique hx] at hfail
      exact hcounts (h hfail).2
    · intro h hfail
      exact absurd hfail (h w hw)
  · exact ⟨fun _ w hw => absurd hw (hnone w), fun _ _ => hresult⟩

/-- The bitmap that a deallocation sees has the bit of the block set. -/
def Volume.Holds (v : Volume) (block : Nat) : Prop :=
  0 < v.part.group BlockGroup.blockBitmap (sub32 block 1 / v.part.super Superblock.blocksPerGroup) ∧
    bit (v.seen (sub32 block 1 / v.part.super Superblock.blocksPerGroup))
      (sub32 block 1 % v.part.super Superblock.blocksPerGroup) = true

/-- Either no transfer fails until the bitmap is written, or the bit is not seen set. -/
def DeallocateReports (v : Volume) (block : Nat) : Prop :=
  v.Holds block → ¬ FailsBetween v.disk v.disk.clock v.looked.writeOver

theorem deallocateBlock_reports_iff :
    Reports v (deallocateBlock v block) ↔ DeallocateReports v block := by
  obtain ⟨x, hx⟩ : ∃ x, sub32 block 1 = x := ⟨_, rfl⟩
  obtain ⟨g, hg⟩ : ∃ g, x / v.part.super Superblock.blocksPerGroup = g := ⟨_, rfl⟩
  obtain ⟨k, hk⟩ : ∃ k, x % v.part.super Superblock.blocksPerGroup = k := ⟨_, rfl⟩
  rw [DeallocateReports, Volume.Holds, deallocateBlock, hx]
  simp only [hg, hk]
  rcases Nat.eq_zero_or_pos (v.part.group BlockGroup.blockBitmap g) with hzero | hb
  · have hread : readBlock (kmalloc v).2 ((kmalloc v).2.part.group BlockGroup.blockBitmap g)
        (kmalloc v).1 = (0, (kmalloc v).1, (kmalloc v).2) := by
      rw [show (kmalloc v).2.part.group BlockGroup.blockBitmap g = 0 from hzero]
      rfl
    simp only [hread]
    exact ⟨fun _ h => absurd h.1 (by omega), fun _ _ => ⟨rfl, fun _ => rfl, rfl⟩⟩
  obtain ⟨r, hread, hpos, -⟩ := readBlock_eq (kmalloc v).2
    ((kmalloc v).2.part.group BlockGroup.blockBitmap g) (kmalloc v).1 hb
  have hseen : (kmalloc v).2.filled ((kmalloc v).2.part.group BlockGroup.blockBitmap g)
      (kmalloc v).1 = v.seen g := rfl
  have hlooked : (kmalloc v).2.readIssued = v.looked := rfl
  have hword : (word 4 (v.seen g) (k / 32)).testBit (k % 32) = bit (v.seen g) k := by
    rw [testBit_word _ (by omega), show 8 * (4 * (k / 32)) + k % 32 = k by omega]
  simp only [hread, if_neg (Int.ne_of_gt hpos), hseen, hlooked, hword]
  cases hbit : bit (v.seen g) k with
  | false =>
    rw [if_neg Bool.false_ne_true]
    exact ⟨fun _ h => absurd h.2 Bool.false_ne_true, fun _ _ => ⟨rfl, fun _ => rfl, rfl⟩⟩
  | true =>
    have hl : SameLayout v.looked.part (v.looked.part.countBlockFreed g) :=
      Partition.sameLayout_countBlockFreed
    have hbm := hl.group BlockGroup.blockBitmap (by decide) g
    have hcount : (v.looked.part.countBlockFreed g).writeCount = v.looked.part.writeCount := by
      rw [Partition.writeCount, Partition.writeCount, hl.blockSize, hl.sectorSize]
    obtain ⟨r', image, hwrite, hpos', -⟩ := writeBlock_eq
      { v.looked with part := v.looked.part.countBlockFreed g } _
      (clearWordBit 4 (v.seen g) (k / 32) (k % 32)) (hbm ▸ Nat.ne_of_gt hb)
    rw [if_pos rfl]
    simp only [hwrite, if_neg (Int.not_le.mpr hpos')]
    have hover : v.looked.disk.clock +
        v.looked.disk.issued (v.looked.part.countBlockFreed g).writeCount = v.looked.writeOver := by
      rw [hcount]
      rfl
    constructor
    · intro h _ hfail
      rw [← hover] at hfail
      exact countBlockFreed_super v.part g (h hfail).2.2
    · intro h hfail
      have hfail' : FailsBetween v.disk v.disk.clock v.looked.writeOver := hover ▸ hfail
      exact absurd hfail' (h ⟨hb, trivial⟩)

/-- A failing sector transfer is not taken for success: by a block transfer exactly
when it fails at its start, by allocation and deallocation exactly when what they see
in the bitmap leads to no write. -/
theorem failures_reported_iff (v : Volume) (block : Nat) (buffer : Bytes) :
    (ReadReports v block buffer ↔ block = 0 ∨ FailsAtStart v.disk v.part.readCount) ∧
      (WriteReports v block buffer ↔ block = 0 ∨ FailsAtStart v.disk v.part.writeCount) ∧
      (Reports v (allocateBlock v) ↔ AllocateReports v) ∧
      (Reports v (deallocateBlock v block) ↔ DeallocateReports v block) :=
  ⟨readReports_iff, writeReports_iff, allocateBlock_reports_iff, deallocateBlock_reports_iff⟩

/-- The small partition on a disk where only the transfer number `t` fails. -/
def failingVolume (t : Nat) : Volume :=
  { smallVolume 0 with disk := { (smallVolume 0).disk with fails := fun u => u == t } }

/-- When the second sector of a bitmap cannot be read, the block counts as read; when its
first cannot be read, the buffer is searched all the same and a block handed out. -/
theorem failures_not_reported :
    ¬ ReadReports (failingVolume 1) 3 (fun _ => 0) ∧
      ¬ Reports (failingVolume 0) (allocateBlock (failingVolume 0)) := by
  constructor
  · intro h
    exact h ⟨1, by decide, by decide +kernel, rfl⟩ (by decide +kernel)
  · intro h
    have hzero := (h ⟨0, Nat.le_refl 0, by decide +kernel, rfl⟩).1
    exact absurd hzero (by decide +kernel)

end UnedKernel.Ext2
