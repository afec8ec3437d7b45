import Mathlib.Algebra.Order.BigOperators.Group.Finset
import UnedKernel.Ext2.Inode

/-! # Inode allocation

`ext2_allocate_inode` takes the first clear bit of the first group that has free
inodes, and returns the place of the bit in that bitmap. -/

namespace UnedKernel.Ext2
open ByteMem Word Sectors Bitmap

variable {v w : Volume} {g k n : Nat}

/-! ## What the counters leave alone -/

namespace Partition

variable {p : Partition} {i j : Nat}

theorem sameLayout_countInodeTaken : SameLayout p (p.countInodeTaken i) :=
  (sameLayout_setGroup (by decide)).trans (sameLayout_setSuper (by decide))

theorem sameLayout_countInodeFreed : SameLayout p (p.countInodeFreed i) :=
  (sameLayout_setGroup (by decide)).trans (sameLayout_setSuper (by decide))

theorem sameLayout_countDirGone : SameLayout p (p.countDirGone i) :=
  sameLayout_setGroup (by decide)

theorem countInodeTaken_group : (p.countInodeTaken i).group BlockGroup.freeInodesCount j =
    if j = i then sub16 (p.group BlockGroup.freeInodesCount i) 1
    else p.group BlockGroup.freeInodesCount j := by
  rw [countInodeTaken, group_setSuper]
  split
  · rename_i hij
    rw [hij, group_setGroup_same]
    exact Nat.mod_mod _ _
  · rename_i hij
    exact group_setGroup_of_ne (by decide) (by decide) fun h => hij h.symm

theorem countInodeTaken_super : (p.countInodeTaken i).super Superblock.freeInodesCount =
    sub32 (p.super Superblock.freeInodesCount) 1 := by
  rw [countInodeTaken, super_setSuper_same]
  exact Nat.mod_mod _ _

theorem countInodeFreed_group : (p.countInodeFreed i).group BlockGroup.freeInodesCount j =
    if j = i then u16 (p.group BlockGroup.freeInodesCount i + 1)
    else p.group BlockGroup.freeInodesCount j := by
  rw [countInodeFreed, group_setSuper]
  split
  · rename_i hij
    rw [hij, group_setGroup_same]
    exact Nat.mod_mod _ _
  · rename_i hij
    exact group_setGroup_of_ne (by decide) (by decide) fun h => hij h.symm

theorem countInodeFreed_super : (p.countInodeFreed i).super Superblock.freeInodesCount =
    u32 (p.super Superblock.freeInodesCount + 1) := by
  rw [countInodeFreed, super_setSuper_same]
  exact Nat.mod_mod _ _

theorem countDirGone_group : (p.countDirGone i).group BlockGroup.freeInodesCount j =
    p.group BlockGroup.freeInodesCount j :=
  group_setGroup_disjoint (by decide) (by decide) (by decide)

end Partition

namespace SameLayout

variable {p p' : Partition}

theorem inodeSize (h : SameLayout p p') : p'.inodeSize = p.inodeSize := by
  rw [Partition.inodeSize, Partition.inodeSize, h.super _ (by decide), h.super _ (by decide)]

theorem inodeGroup (h : SameLayout p p') : p'.inodeGroup n = p.inodeGroup n := by
  rw [Partition.inodeGroup, Partition.inodeGroup, h.super _ (by decide)]

theorem inodeIndex (h : SameLayout p p') : p'.inodeIndex n = p.inodeIndex n := by
  rw [Partition.inodeIndex, Partition.inodeIndex, h.super _ (by decide)]

theorem inodeLba (h : SameLayout p p') : p'.inodeLba n = p.inodeLba n := by
  simp only [Partition.inodeLba, h.inodeIndex, h.inodeSize, h.inodeGroup, h.blockSize, h.lba,
    h.sectorSize, h.group _ (show BlockGroup.inodeTable ∈ BlockGroup.layout by decide)]

end SameLayout

/-! ## The call -/

/-- Group `g` is the first with free inodes. -/
def Volume.FirstWithInodes (v : Volume) (g : Nat) : Prop :=
  g < v.part.groupNumber ∧ v.part.group BlockGroup.freeInodesCount g ≠ 0 ∧
    ∀ h, h < g → v.part.group BlockGroup.freeInodesCount h = 0

theorem Volume.FirstWithInodes.unique {h : Nat} (hg : v.FirstWithInodes g)
    (hh : v.FirstWithInodes h) : g = h := by
  rcases Nat.lt_trichotomy g h with hlt | rfl | hlt
  · exact absurd (hh.2.2 g hlt) hg.2.1
  · rfl
  · exact absurd (hg.2.2 h hlt) hh.2.1

theorem operateOnBgFrom_freeInodes {i m : Nat} :
    (operateOnBgFrom bgHasFreeInodes v i m = (none, v) ∧
      ∀ h, i ≤ h → h < i + m → v.part.group BlockGroup.freeInodesCount h = 0) ∨
    ∃ g, operateOnBgFrom bgHasFreeInodes v i m = (some g, v) ∧ i ≤ g ∧ g < i + m ∧
      v.part.group BlockGroup.freeInodesCount g ≠ 0 ∧
      ∀ h, i ≤ h → h < g → v.part.group BlockGroup.freeInodesCount h = 0 := by
  induction m generalizing i with
  | zero => exact .inl ⟨rfl, fun h hh hlt => absurd hlt (by omega)⟩
  | succ m ih =>
    by_cases hfree : v.part.group BlockGroup.freeInodesCount i = 0
    · have hcall : bgHasFreeInodes v i = (false, v) := by
        rw [bgHasFreeInodes, hfree]
        rfl
      simp only [operateOnBgFrom, hcall, if_neg Bool.false_ne_true]
      have hcons {h : Nat} (hh : i ≤ h)
          (hrest : i + 1 ≤ h → v.part.group BlockGroup.freeInodesCount h = 0) :
          v.part.group BlockGroup.freeInodesCount h = 0 := by
        rcases Nat.eq_or_lt_of_le hh with rfl | hh
        · exact hfree
        · exact hrest hh
      rcases ih (i := i + 1) with ⟨hnone, hall⟩ | ⟨g, hsome, hle, hlt, hg, hbelow⟩
      · exact .inl ⟨hnone, fun h hh hlt => hcons hh fun hh => hall h hh (by omega)⟩
      · exact .inr ⟨g, hsome, by omega, by omega, hg,
          fun h hh hlt => hcons hh fun hh => hbelow h hh hlt⟩
    · have hcall : bgHasFreeInodes v i = (true, v) := by
        rw [bgHasFreeInodes, decide_eq_true (Nat.pos_of_ne_zero hfree)]
      simp only [operateOnBgFrom, hcall, if_pos]
      exact .inr ⟨i, rfl, Nat.le_refl _, by omega, hfree, fun h hh hlt => absurd hlt (by omega)⟩

theorem operateOnBg_freeInodes :
    (operateOnBg v bgHasFreeInodes = (none, v) ∧ ∀ g, ¬ v.FirstWithInodes g) ∨
    ∃ g, operateOnBg v bgHasFreeInodes = (some g, v) ∧ v.FirstWithInodes g := by
  rcases operateOnBgFrom_freeInodes (v := v) (i := 0) (m := v.part.groupNumber) with
    ⟨hnone, hall⟩ | ⟨g, hsome, -, hlt, hg, hbelow⟩
  · exact .inl ⟨hnone, fun g hg => hg.2.1 (hall g (by omega) (by have := hg.1; omega))⟩
  · exact .inr ⟨g, hsome, by omega, hg, fun h hh => hbelow h (by omega) hh⟩

/-- What the scan of a bitmap returns. -/
theorem findFreeInode_cases (bitmap : Bytes) (size : Nat) :
    (findFreeInode bitmap size = 0 ∧ Full bitmap (8 * size)) ∨
    ∃ k, FirstClear bitmap (8 * size) k ∧ findFreeInode bitmap size = u32 (k + 1) := by
  rw [findFreeInode]
  cases hs : scanWords 1 bitmap 0 size with
  | none =>
    have := scanWords_full hs
    rw [Nat.one_mul] at this
    exact .inl ⟨rfl, this⟩
  | some r =>
    obtain ⟨i, j⟩ := r
    obtain ⟨-, hclear⟩ := scanWords_firstClear hs
    rw [Nat.one_mul, Nat.one_mul] at hclear
    exact .inr ⟨_, hclear, by rw [Nat.mul_comm 8 i]⟩

/-- What a successful allocation leaves behind: bit `k` of group `g` is taken. -/
structure InodeTaken (v w : Volume) (g k : Nat) : Prop where
  part : w.part = { v.part.countInodeTaken g with flushRequired := true }
  written : BlockWritten v w (v.part.group BlockGroup.inodeBitmap g) fun j =>
    decide (j = k) || bit (v.ioGroupBlock BlockGroup.inodeBitmap g) j

theorem InodeTaken.sameLayout (h : InodeTaken v w g k) : SameLayout v.part w.part := by
  rw [h.part]
  exact Partition.sameLayout_countInodeTaken.trans Partition.sameLayout_flush

/-- The call finds no group, no clear bit or a number that wraps to 0, or it takes the
bit before the number it returns. -/
theorem allocateInode_reliable (hm : Mounted v.part) (hr : v.disk.Reliable)
    (hnz : ∀ g, g < v.part.groupNumber → 0 < v.part.group BlockGroup.inodeBitmap g) :
    ((allocateInode v).1 = 0 ∧ Unchanged v (allocateInode v).2 ∧
      ∀ g k, v.FirstWithInodes g →
        FirstClear (v.ioGroupBlock BlockGroup.inodeBitmap g) (8 * v.part.blockSize) k →
        u32 (k + 1) = 0) ∨
    ∃ g k, v.FirstWithInodes g ∧
      FirstClear (v.ioGroupBlock BlockGroup.inodeBitmap g) (8 * v.part.blockSize) k ∧
      (allocateInode v).1 = u32 (k + 1) ∧ u32 (k + 1) ≠ 0 ∧
      InodeTaken v (allocateInode v).2 g (u32 (k + 1) - 1) := by
  rcases operateOnBg_freeInodes (v := v) with ⟨hnone, hall⟩ | ⟨g, hsome, hg⟩
  · rw [allocateInode, hnone]
    exact .inl ⟨rfl, ⟨rfl, rfl, id⟩, fun g k hg => absurd hg (hall g)⟩
  · obtain ⟨bitmap, w, hread, hw, hbits⟩ := readGroupBlock_reliable hm hr (hnz g hg.1)
    rw [allocateInode, hsome]
    simp only [hread]
    rw [if_neg (by simp), hw.part]
    rcases findFreeInode_cases bitmap v.part.blockSize with
      ⟨hzero, hfull⟩ | ⟨k, hclear, hnum⟩
    · rw [if_pos hzero]
      refine .inl ⟨rfl, hw, fun i k hi hclear => ?_⟩
      obtain rfl := hi.unique hg
      exact absurd hfull (hclear.congr hbits).not_full
    · have hclear := hclear.congr fun j hj => (hbits j hj).symm
      rw [hnum]
      by_cases hzero : u32 (k + 1) = 0
      · rw [if_pos hzero]
        refine .inl ⟨rfl, hw, fun i j hi hj => ?_⟩
        obtain rfl := hi.unique hg
        rw [hj.unique hclear]
        exact hzero
      · obtain ⟨m, hmk⟩ : ∃ m, u32 (k + 1) - 1 = m := ⟨_, rfl⟩
        have hset : setWordBit 1 bitmap (m / 8) (m % 8) = setBit bitmap m := by
          rw [setWordBit_eq bitmap (by omega), show 8 * (1 * (m / 8)) + m % 8 = m by omega]
        have hpos : 0 < w.part.group BlockGroup.inodeBitmap g := by
          rw [hw.part]
          exact hnz g hg.1
        have hwrite := writeBlock_reliable (v := w) (setBit bitmap m) (hw.part ▸ hm)
          (hw.reliable hr) hpos
        rw [if_neg hzero, hmk, hset]
        rw [hw.part] at hwrite
        simp only [hwrite]
        rw [if_neg (by omega)]
        rw [hw.image]
        refine .inr ⟨g, k, hg, hclear, rfl, hzero, ?_, hw.reliable hr, setBit bitmap m,
          fun j hj => ?_, rfl⟩
        · simp only [flushRequired, Volume.after_part, hw.part]
        · rw [hmk, bit_setBit, hbits j hj]

end UnedKernel.Ext2
