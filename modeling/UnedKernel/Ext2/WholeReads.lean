import UnedKernel.Ext2.ByteReads

/-! # Reading an inode from its start to its end

What `ext2_read_inode_bytes` returns for all bytes of an inode, whatever number
of blocks it has. -/

namespace UnedKernel.Ext2
open ByteMem Word Indirect

variable {v w : Volume} {n : Nat}

theorem Unchanged.pointer (h : Unchanged v w) : w.pointer = v.pointer := by
  funext b k
  rw [Volume.pointer, Volume.pointer, h.image, h.part]

theorem Unchanged.pointers (h : Unchanged v w) : w.pointers = v.pointers := by
  rw [Volume.pointers, Volume.pointers, h.part]

theorem Unchanged.inodeBytes (h : Unchanged v w) : w.inodeBytes n = v.inodeBytes n := by
  funext x
  rw [Volume.inodeBytes, Volume.inodeBytes, h.image, h.part]

theorem Unchanged.fileBytes (h : Unchanged v w) : w.fileBytes n = v.fileBytes n := by
  funext x
  unfold Volume.fileBytes Volume.logicalBlock
  rw [h.inodeBytes, h.image, h.part, h.pointer, h.pointers]

/-- The way to a logical block depends on the fifteen pointers of the inode. -/
theorem Volume.LogicalAlong.transfer {a b : Bytes} {T L : Nat → Prop} {k : Nat}
    (hw : Unchanged v w) (hblock : ∀ i, i < 15 → iBlock b i = iBlock a i)
    (h : v.LogicalAlong a T L k) : w.LogicalAlong b T L k := by
  rcases v.position_cases k with hk | ⟨j, hj, rfl⟩ | ⟨j, hj, rfl⟩ | ⟨j, rfl⟩
  · rw [logicalAlong_direct hk] at h ⊢
    rwa [hblock k (by omega)]
  · rw [logicalAlong_single hj] at h
    rw [← hw.pointers] at hj h
    rw [logicalAlong_single hj, hw.pointer]
    exact h.first_root (by rwa [Nat.pow_one]) (hblock 12 (by omega))
  · rw [logicalAlong_double hj] at h
    rw [← hw.pointers] at hj h ⊢
    rw [logicalAlong_double hj, hw.pointer]
    exact h.first_root hj (hblock 13 (by omega))
  · rw [logicalAlong_triple] at h
    rw [← hw.pointers] at h ⊢
    rw [logicalAlong_triple, hw.pointer]
    exact ⟨h.1, h.2.first_root h.1 (hblock 14 (by omega))⟩

theorem readInodeBytesBy_last {readBlocks : BlockReader} {dest : Bytes} {count skip : Nat}
    {s s' : ByteRead}
    (hfirst : readFirst readBlocks v.part.blockSize (skip % v.part.blockSize)
      ⟨v, dest, 0, skip / v.part.blockSize, 0⟩ = (true, s))
    (hwhole : readWhole readBlocks v.part.blockSize count
      (divideRoundedUp64 count v.part.blockSize) s = (true, s'))
    (hlast : (readLast readBlocks count s').1 = false) :
    (readInodeBytesBy readBlocks v dest count skip).1 = EXT2_READ_FAILED := by
  unfold readInodeBytesBy
  simp only [hfirst, ite_true, hwhole, hlast, Bool.false_eq_true, ite_false]

/-- The size of inode `n` in bytes. -/
def Volume.fileSize (v : Volume) (n : Nat) : Nat := InodeDescriptor.size.get (v.inodeBytes n) 0

/-- Inode `n` can be read to its end: its blocks lie on the disk, and the blocks of pointers on
the way to them. -/
structure Readable (v : Volume) (n : Nat) : Prop where
  mounted : Mounted v.part
  reliable : v.disk.Reliable
  fits : InodeFits v.part n
  reached : ∀ k, k * v.part.blockSize < v.fileSize n →
    v.LogicalAlong (v.inodeBytes n) v.part.Reached v.part.Reached k

namespace Readable

theorem fileSize_lt : v.fileSize n < 4294967296 := InodeDescriptor.size.get_lt _

theorem transfer (h : Readable v n) (hw : Unchanged v w) : Readable w n := by
  obtain ⟨hm, hr, hfits, hreached⟩ := h
  refine ⟨hw.part.symm ▸ hm, hw.reliable hr, hw.part.symm ▸ hfits, fun k hk => ?_⟩
  rw [hw.part] at hk ⊢
  rw [Volume.fileSize, hw.inodeBytes] at hk
  rw [hw.inodeBytes]
  exact (hreached k hk).transfer hw fun i _ => rfl

/-- What `ext2_read_inode` reads has the inode's fields. -/
theorem readInode (h : Readable v n) : ∃ inode w, readInode v n = (some inode, w) ∧
    Unchanged v w ∧ (∀ f : Field, f.Within 100 → f.get inode 0 = f.get (v.inodeBytes n) 0) ∧
      ∀ i, i < 15 → iBlock inode i = iBlock (v.inodeBytes n) i := by
  obtain ⟨inode, w, hread, hw, hbegins⟩ := readInode_prefix h.mounted h.reliable h.fits
  refine ⟨inode, w, hread, hw, fun f hf => ?_, fun i hi => iBlock_congr hbegins hi⟩
  exact Field.get_congr hf fun x _ hx => hbegins x (by omega)

theorem blockSize_ge (h : Readable v n) : 1024 ≤ v.part.blockSize := by
  have := h.mounted.blockSectors_ge
  have := h.mounted.blockSize_eq
  omega

/-- Up to twelve blocks are read whole. -/
theorem readInodeBytes_small (h : Readable v n) (hsmall : v.fileSize n ≤ 12 * v.part.blockSize)
    (dest : Bytes) :
    (readInodeBytes v n dest (v.fileSize n) 0).1 = v.fileSize n ∧
      Unchanged v (readInodeBytes v n dest (v.fileSize n) 0).2.2 ∧
      ∀ x, (readInodeBytes v n dest (v.fileSize n) 0).2.1 x =
        if x < v.fileSize n then v.fileBytes n x else dest x := by
  have hsize := h.blockSize_ge
  have hblocks : (v.fileSize n + v.part.blockSize - 1) / v.part.blockSize ≤ 12 :=
    Nat.le_of_lt_succ (Nat.div_lt_of_lt_mul (by omega))
  have hd := delivers_readInodeBlocks h.mounted h.reliable h.fits hblocks fun i hi => by
    have hdiv := Nat.div_mul_le_self (v.fileSize n + v.part.blockSize - 1) v.part.blockSize
    have hle := Nat.mul_le_mul_right v.part.blockSize (Nat.succ_le_of_lt hi)
    rw [Nat.succ_mul] at hle
    exact (Volume.logicalAlong_direct (by omega)).mp (h.reached i (by omega))
  obtain ⟨k, hresult, hk, hgood, hdest⟩ := readInodeBytesBy_spec hsize fileSize_lt hd ⟨rfl, rfl, id⟩
    (show 0 + v.fileSize n ≤ v.fileSize n by omega) dest
  have hover : overrun v.part.blockSize (v.fileSize n) 0 = 0 := by
    rw [overrun, if_pos (Nat.zero_mod _)]
  rw [hover, Nat.max_zero] at hk
  rw [hk] at hresult hdest
  rw [readInodeBytes]
  refine ⟨hresult, hgood, fun x => ?_⟩
  rw [hdest, Nat.zero_add]

/-- The last block of more than twelve is looked for past the direct blocks. -/
theorem readInodeBytes_large (h : Readable v n) (hlarge : 12 * v.part.blockSize < v.fileSize n)
    (dest : Bytes) :
    (readInodeBytes v n dest (v.fileSize n) 0).1 = EXT2_READ_FAILED := by
  have hsize := h.blockSize_ge
  have hlt : v.fileSize n < 4294967296 := fileSize_lt
  obtain ⟨count, hcount⟩ : ∃ count, v.fileSize n = count := ⟨_, rfl⟩
  rw [hcount] at hlarge hlt ⊢
  obtain ⟨inode, w, hread, hw, -, hblock⟩ := h.readInode
  -- all blocks but the last
  obtain ⟨m, hm, hlower, hupper⟩ :=
    ceil_succ (show 0 < v.part.blockSize by omega) (show 0 < count by omega)
  have htwelve : 12 ≤ m := Nat.le_of_lt_succ (Nat.lt_of_mul_lt_mul_right (hlarge.trans_le hupper))
  have hmul : m * 1024 ≤ m * v.part.blockSize := Nat.mul_le_mul_left m hsize
  obtain ⟨hblocks, hsame⟩ := readInodeBlocks_spec (fun x => dest (0 + x)) h.mounted h.reliable hread
    hw (show 0 < 12 by omega) (show 0 < m by omega) (by omega) fun k hk => by
      refine (h.reached (0 + k) ?_).transfer ⟨rfl, rfl, id⟩ hblock
      rw [Nat.zero_add, hcount]
      exact (Nat.mul_lt_mul_of_pos_right hk (by omega)).trans hlower
  have hfirst : readFirst (fun v => readInodeBlocks v n) v.part.blockSize (0 % v.part.blockSize)
      ⟨v, dest, 0, 0 / v.part.blockSize, 0⟩ = (true, ⟨v, dest, 0, 0, 0⟩) := by
    rw [readFirst, if_pos (Nat.zero_mod _), Nat.zero_div]
  obtain ⟨s, hwhole, hvol, hskip, hbytes⟩ : ∃ s, readWhole (fun v => readInodeBlocks v n)
      v.part.blockSize (count) (m + 1) ⟨v, dest, 0, 0, 0⟩ = (true, s) ∧ Unchanged v s.vol ∧
      s.skipBlocks = m ∧ s.readBytes = m * v.part.blockSize := by
    unfold readWhole
    rw [if_pos ((int64_pos_iff (by omega) (by omega)).mpr (show 0 < count by omega)),
      sub64_of_le (show 1 ≤ m + 1 by omega) (by omega), Nat.add_sub_cancel]
    simp only [hblocks.1]
    rw [if_neg (by unfold EXT2_READ_FAILED; omega)]
    refine ⟨_, rfl, hsame, ?_, ?_⟩
    · simp only [Int.toNat_natCast, Nat.zero_add]
      exact u64_of_lt (by omega)
    · simp only [Int.toNat_natCast, Nat.zero_add]
      exact u64_of_lt (by omega)
  -- the last block
  have hlast : (readLast (fun v => readInodeBlocks v n) (count) s).1 = false := by
    obtain ⟨inode', w', hread', -⟩ := (h.transfer (hvol.trans ⟨rfl, rfl, id⟩ :
      Unchanged v (kmalloc s.vol).2)).readInode
    have hnone : (readInodeBlocks (kmalloc s.vol).2 n (kmalloc s.vol).1 1 s.skipBlocks).1 = 0 := by
      unfold readInodeBlocks readDirectBlocks
      exact inodeBlocks_of_skip n hread' (by omega)
    unfold readLast
    rw [hbytes, if_pos ((int64_pos_iff (by omega) (by omega)).mpr hlower)]
    simp only [hnone]
    rw [if_pos (by omega)]
  have hsize' : v.part.blockSize < 4294967296 := u32_lt _
  have hrounded := divideRoundedUp64_eq (hlt.trans (by decide)) hsize' (by omega)
  rw [hm] at hrounded
  rw [← hrounded] at hwhole
  exact readInodeBytesBy_last hfirst hwhole hlast

end Readable
end UnedKernel.Ext2
