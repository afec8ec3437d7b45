import UnedKernel.Ext2.ByteWrites
import UnedKernel.Ext2.FileFrames

/-! # Reading and writing files by path

`ext2_read_file` and `ext2_write_file`. A write of a block reaches the disk with
its first sectors only, and so does a write of a file. -/

namespace UnedKernel.Ext2
open ByteMem Word Indirect Scatter

/-- `ext2_read_file`. `none` is a run that does not return, or one that reads the mode of an
inode that was not read. -/
def readFile (v : Volume) (path : List Byte) (destination : Bytes) (size skip : Nat) :
    Option (Nat × Bytes × Volume) :=
  match pathToInode v path with
  | none => none
  | some (inodeIndex, v) =>
    if inodeIndex = EXT2_INO_PTI_ERROR then some (EXT2_RESULT_ERROR, destination, v)
    else match readInode v inodeIndex with
      | (none, _) => none
      | (some inode, v) =>
        if InodeDescriptor.mode.get inode 0 &&& INODE_TYPE_DIR ≠ 0 then
          some (EXT2_RESULT_ERROR, destination, v)
        else if u64 (skip + size) > InodeDescriptor.size.get inode 0 then
          some (EXT2_RESULT_ERROR, destination, v)
        else
          let (readBytes, destination, v) := readInodeBytes v inodeIndex destination size skip
          if readBytes = EXT2_READ_FAILED ∨ readBytes ≤ 0 then some (EXT2_RESULT_ERROR, destination, v)
          else some (EXT2_RESULT_OK, destination, v)

/-- The end of `ext2_write_file`, for a file that is large enough. -/
def finishWrite (v : Volume) (inodeIndex : Nat) (source : Bytes) (size skip : Nat) : Nat × Volume :=
  let (writeBytes, v) := writeInodeBytes v inodeIndex source size skip
  if writeBytes = EXT2_WRITE_FAILED ∨ writeBytes ≤ 0 then (EXT2_RESULT_ERROR, v) else (EXT2_RESULT_OK, v)

/-- `ext2_write_file`, which looks the path up twice. -/
def writeFile (v : Volume) (path : List Byte) (source : Bytes) (size skip : Nat) : Option (Nat × Volume) :=
  match pathToInode v path with
  | none => none
  | some (inodeIndex, v) =>
    if inodeIndex = EXT2_INO_PTI_ERROR then some (EXT2_RESULT_ERROR, v)
    else match pathToInode v path with
      | none => none
      | some (inodeIndex, v) =>
        if inodeIndex = EXT2_INO_PTI_ERROR then some (EXT2_RESULT_ERROR, v)
        else match readInode v inodeIndex with
          | (none, _) => none
          | (some inode, v) =>
            if InodeDescriptor.mode.get inode 0 &&& INODE_TYPE_DIR ≠ 0 then some (EXT2_RESULT_ERROR, v)
            else if u64 (size + skip) > InodeDescriptor.size.get inode 0 then
              let (resized, v) := resizeFile v inodeIndex (u32 (u64 (size + skip)))
              if resized ≠ EXT2_RESULT_OK then some (EXT2_RESULT_ERROR, v)
              else some (finishWrite v inodeIndex source size skip)
            else some (finishWrite v inodeIndex source size skip)

/-! ## Writes that land in part -/

/-- What is asked of the transfers of blocks, in the states `good`: they return the count, a read
fills the destination with the content, and of the bytes that a write is to replace those in
`lands` are. -/
structure LandsBlocks (readBlocks : BlockReader) (writeBlocks : BlockWriter)
    (inodeNumber size blocks : Nat) (lands : Nat → Prop) [DecidablePred lands] (good : Volume → Prop)
    (content : Volume → Bytes) : Prop where
  heap : ∀ v, good v → good (kmalloc v).2 ∧ content (kmalloc v).2 = content v
  inode : ∀ v, good v → ∃ inode w, readInode v inodeNumber = (some inode, w) ∧ good w ∧
    content w = content v
  reads : ∀ v dest count skip, good v → skip + count ≤ blocks →
    (readBlocks v dest count skip).1 = count ∧ good (readBlocks v dest count skip).2.2 ∧
      content (readBlocks v dest count skip).2.2 = content v ∧
      ∀ x, x < count * size → (readBlocks v dest count skip).2.1 x = content v (skip * size + x)
  writes : ∀ v source count skip, good v → skip + count ≤ blocks →
    (writeBlocks v source count skip).1 = count ∧ good (writeBlocks v source count skip).2 ∧
      ∀ x, x < blocks * size → content (writeBlocks v source count skip).2 x =
        if skip * size ≤ x ∧ x < (skip + count) * size ∧ lands x then source (x - skip * size)
        else content v x

section lands

variable {readBlocks : BlockReader} {writeBlocks : BlockWriter}
  {inodeNumber size blocks count skip : Nat} {lands : Nat → Prop} [DecidablePred lands]
  {good : Volume → Prop} {content : Volume → Bytes} {source : Bytes} {v : Volume} {s : ByteWrite}

/-- The first bytes of a block are rewritten. -/
theorem rewriteBlock_lands (source : Bytes) (start : Nat) {n : Nat}
    (ht : LandsBlocks readBlocks writeBlocks inodeNumber size blocks lands good content)
    (hv : good s.vol) (hblock : s.skipBlocks < blocks) :
    ∃ w, rewriteBlock readBlocks writeBlocks source 0 start n s =
        (true, { s with vol := w, sourceEnd := max s.sourceEnd (start + n) }) ∧ good w ∧
      ∀ x, x < blocks * size → content w x =
        if s.skipBlocks * size ≤ x ∧ x < s.skipBlocks * size + min size n ∧ lands x then
          source (start + (x - s.skipBlocks * size))
        else content s.vol x := by
  obtain ⟨hheap, hsame⟩ := ht.heap _ hv
  obtain ⟨hread, hgood, hkept, htemp⟩ := ht.reads _ (kmalloc s.vol).1 1 s.skipBlocks hheap hblock
  obtain ⟨hwrite, hgood', hcontent⟩ := ht.writes _ (copy (readBlocks (kmalloc s.vol).2
    (kmalloc s.vol).1 1 s.skipBlocks).2.1 0 source start n) 1 s.skipBlocks hgood hblock
  unfold rewriteBlock
  simp only [hread, Nat.cast_one, ne_eq, not_true_eq_false, if_false, hwrite, decide_true]
  refine ⟨_, rfl, hgood', fun x hx => ?_⟩
  have hmul : (s.skipBlocks + 1) * size = s.skipBlocks * size + size := Nat.succ_mul _ _
  rw [hcontent x hx, hkept, hsame]
  by_cases hin : s.skipBlocks * size ≤ x ∧ x < (s.skipBlocks + 1) * size ∧ lands x
  · rw [if_pos hin]
    by_cases hcopy : x - s.skipBlocks * size < n
    · rw [copy_apply_in _ _ (Nat.zero_le _) (by omega), if_pos ⟨hin.1, by omega, hin.2.2⟩, Nat.sub_zero]
    · rw [copy_apply_out _ _ (by omega), htemp _ (by omega), hsame, if_neg (by omega),
        Nat.add_sub_cancel' hin.1]
  · rw [if_neg hin, if_neg fun h => hin ⟨h.1, by omega, h.2.2⟩]

/-- A write that starts at a block replaces those of the requested bytes that land. -/
theorem writeInodeBytesBy_lands (source : Bytes) (hsize : 1024 ≤ size) (hsize' : size ≤ 1073741824)
    (hblocks : blocks < 4294967293)
    (ht : LandsBlocks readBlocks writeBlocks inodeNumber size blocks lands good content)
    (hs : v.part.blockSize = size) (hv : good v) (hrange : skip + count ≤ blocks * size)
    (hskip : skip % size = 0) (hpos : 0 < count) :
    ∃ s, writeInodeBytesBy readBlocks writeBlocks source v inodeNumber count skip = ((count : Int), s) ∧
      good s.vol ∧ ∀ x, x < blocks * size → content s.vol x =
        if skip ≤ x ∧ x < skip + count ∧ lands x then source (x - skip) else content v x := by
  obtain ⟨inode, w, hread, hw, hsame⟩ := ht.inode v hv
  have hdiv := Nat.div_add_mod skip size
  rw [Nat.mul_comm, hskip, Nat.add_zero] at hdiv
  have hmax : blocks * size ≤ 4294967293 * 1073741824 := Nat.mul_le_mul (by omega) hsize'
  have hnonneg := Nat.zero_le (skip / size)
  obtain ⟨m, hceil, hlower, hupper⟩ := ceil_succ (show 0 < size by omega) hpos
  rw [Nat.succ_mul] at hupper
  have hadd : (skip / size + m) * size = skip + m * size := by rw [Nat.add_mul, hdiv]
  have hin : skip / size + m < blocks := by
    refine Nat.lt_of_mul_lt_mul_right (a := size) ?_
    rw [hadd]
    omega
  have hfirst : writeFirst readBlocks writeBlocks size source (skip % size) ⟨w, 0, skip / size, 0, 0⟩ =
      (true, ⟨w, 0, skip / size, 0, 0⟩) := by rw [writeFirst, if_pos hskip]
  -- all blocks but the last
  obtain ⟨hwrite, hgood, hcontent⟩ := ht.writes w (fun x => source (0 + x)) m (skip / size) hw (Nat.le_of_lt hin)
  generalize hx : writeBlocks w (fun x => source (0 + x)) m (skip / size) = r at hwrite hgood hcontent
  obtain ⟨result, y⟩ := r
  simp only at hwrite hgood hcontent
  rw [hdiv, hadd] at hcontent
  have hne : ¬ ((m : Int) = EXT2_WRITE_FAILED ∨ (m : Int) < 0) := by
    unfold EXT2_WRITE_FAILED
    omega
  have hwhole : writeWhole writeBlocks size source count (divideRoundedUp64 count size)
      ⟨w, 0, skip / size, 0, 0⟩ = (true, ⟨y, 0, skip / size + m, m * size, max 0 (0 + m * size)⟩) := by
    rw [divideRoundedUp64_eq (by omega) (by omega) (by omega), hceil, writeWhole,
      if_pos ((int64_pos_iff (by omega) (by omega)).mpr (show 0 < count from hpos)),
      sub64_of_le (show 1 ≤ m + 1 by omega) (by omega), Nat.add_sub_cancel]
    simp only [hx, hwrite]
    rw [if_neg hne, Int.toNat_natCast, u64_of_lt (by omega), u64_of_lt (by omega), Nat.zero_add]
  -- the last one
  obtain ⟨z, hrun, hz, hlast⟩ := rewriteBlock_lands source (m * size) (n := count - m * size)
    (s := ⟨y, 0, skip / size + m, m * size, max 0 (0 + m * size)⟩) ht hgood hin
  simp only [hadd] at hrun hlast
  have hdone : writeLast readBlocks writeBlocks source count
      ⟨y, 0, skip / size + m, m * size, max 0 (0 + m * size)⟩ =
        (true, ⟨z, 0, skip / size + m, count, max (max 0 (0 + m * size)) (m * size + (count - m * size))⟩) := by
    rw [writeLast, if_pos ((int64_pos_iff (by omega) (by omega)).mpr (show m * size < count from hlower)),
      sub64_of_le (Nat.le_of_lt hlower) (by omega)]
    simp only [Nat.zero_add] at hrun ⊢
    rw [hrun]
    simp only [if_true]
    rw [Nat.add_sub_cancel' (Nat.le_of_lt hlower), u64_of_lt (by omega)]
  refine ⟨_, writeInodeBytesBy_eq hs hread hfirst hwhole hdone, hz, fun x hxlt => ?_⟩
  rw [hlast x hxlt, hcontent x hxlt, hsame, Nat.zero_add]
  generalize m * size = k at hlower hupper ⊢
  by_cases hin : skip ≤ x ∧ x < skip + count ∧ lands x
  · obtain ⟨hle, hlt, hl⟩ := hin
    rw [if_pos (⟨hle, hlt, hl⟩ : skip ≤ x ∧ x < skip + count ∧ lands x)]
    by_cases htail : skip + k ≤ x
    · rw [if_pos ⟨htail, by omega, hl⟩, show k + (x - (skip + k)) = x - skip by omega]
    · rw [if_neg fun h => htail h.1, if_pos ⟨hle, by omega, hl⟩]
  · rw [if_neg hin, if_neg fun h => hin ⟨by omega, by omega, h.2.2⟩,
      if_neg fun h => hin ⟨h.1, by omega, h.2.2⟩]

end lands

/-! ## The direct blocks of a file -/

/-- A write of its block puts byte `x` of a file on the disk. -/
def Partition.Lands (p : Partition) (x : Nat) : Prop := x % p.blockSize < 512 * p.writtenSectors

instance (p : Partition) : DecidablePred p.Lands := fun x =>
  inferInstanceAs (Decidable (x % p.blockSize < 512 * p.writtenSectors))

/-- The sectors of the direct blocks of inode `n`. -/
def Volume.DataSpan (v : Volume) (n s : Nat) : Prop :=
  ∃ k, k < 12 ∧ k * v.part.blockSize < v.fileSize n ∧ v.part.BlockSpan (iBlock (v.inodeBytes n) k) s

/-- The direct blocks of inode `n` are different, and share no sector with its block of the inode table. -/
structure DataApart (v : Volume) (n : Nat) : Prop where
  distinct : ∀ i j, i < 12 → j < 12 → i * v.part.blockSize < v.fileSize n →
    j * v.part.blockSize < v.fileSize n → iBlock (v.inodeBytes n) i = iBlock (v.inodeBytes n) j → i = j
  inode : ∀ s, v.part.InodeSpan n s → ¬ v.DataSpan n s

/-- Only the sectors of the direct blocks of inode `n` may have changed. -/
structure Rewritten (v : Volume) (n : Nat) (w : Volume) : Prop where
  part : w.part = v.part
  alters : Alters (v.DataSpan n) v w

/-- The direct blocks of inode `n`, wherever else the disk has changed. -/
def Volume.directBytes (v : Volume) (n : Nat) (w : Volume) : Bytes := fun x =>
  w.disk.image (v.part.blockAddress (iBlock (v.inodeBytes n) (x / v.part.blockSize)) + x % v.part.blockSize)

section direct

variable {v u w : Volume} {inode source dest : Bytes} {n blocks count skip a b x : Nat}

/-- A byte of a block lies in a sector of the block. -/
theorem Mounted.blockSpan (hm : Mounted v.part) (hb : v.part.Reached b) (hlo : v.part.blockAddress b ≤ a)
    (hhi : a < v.part.blockAddress b + v.part.blockSize) : v.part.BlockSpan b (a / 512) := by
  have hlt := hm.blockSector_lt hb.lt
  have hsize := hm.blockSize_eq
  have hio := hb.addressable
  unfold Partition.Addressable Partition.ioSector at hio
  unfold Partition.blockAddress at hlo hhi
  rw [Partition.BlockSpan, Partition.Spans, hio]
  unfold sub64 u64
  omega

/-- A write of a range of blocks changes nothing of the partition. -/
theorem writeInodeBlocks_part (source : Bytes) (hm : Mounted v.part) (hr : v.disk.Reliable)
    (hread : readInode v n = (some inode, w)) (hw : Unchanged v w) (hskip : skip < 12)
    (hpos : 0 < count) (hcount : count < 4294967296)
    (hreached : ∀ k, k < count → v.LogicalAlong inode v.part.Reached v.part.Reached (skip + k))
    (hal : Unaliased v inode count skip) :
    (writeInodeBlocks v n source count skip).2.part = v.part ∧
      (writeInodeBlocks v n source count skip).2.disk.Reliable := by
  obtain ⟨hsize, hsize'⟩ := hm.pointers_bounds
  obtain ⟨w', hrun, hgood, -⟩ := inodeBlocks_spec source n
    (transfers_writeAt hm source fun b => ∃ j, j < count ∧ b = v.logicalBlock inode (skip + j))
    (show 4294967293 ≤ EXT2_WRITE_FAILED by decide) hsize hsize' hread
    ⟨hw.part, hw.reliable hr, rfl, fun b _ x _ => by rw [hw.image]⟩ hskip hpos hcount
    fun k hk => ((hreached k hk).at_leaf.and (hal.tables k hk)).mono (fun _ h => h)
      fun _ h => ⟨h.1.1, k, hk, h.1.2⟩
  have heq : writeInodeBlocks v n source count skip = ((count : Int), w'.vol) := by
    unfold writeInodeBlocks writeTripleIndirectBlocks writeDoubleIndirectBlocks writeIndirectBlocks
      writeDirectBlocks
    rw [hrun]
  rw [heq]
  exact ⟨hgood.1, hgood.2.1⟩

namespace Rewritten

theorem refl : Rewritten v n v := ⟨rfl, .refl v⟩

theorem unchanged (h : Rewritten v n u) (hu : Unchanged u w) : Rewritten v n w :=
  ⟨hu.part.trans h.part, h.alters.trans (.of_unchanged hu)⟩

/-- The inode is read as it was. -/
theorem readInode (h : Rewritten v n u) (hf : Readable v n) (ha : DataApart v n) :
    ∃ inode w, readInode u n = (some inode, w) ∧ Unchanged u w ∧
      ∀ x, x < 100 → inode x = v.inodeBytes n x := by
  obtain ⟨inode, w, hread, hw, hbegins⟩ := readInode_prefix (n := n) (h.part ▸ hf.mounted)
    (h.alters.reliable hf.reliable) (h.part.symm ▸ hf.fits)
  exact ⟨inode, w, hread, hw, fun x hx =>
    (hbegins x hx).trans (h.alters.inodeBytes hf.mounted hf.fits ha.inode hx)⟩

end Rewritten

/-- The direct blocks that a file has. -/
theorem Readable.direct (hf : Readable v n) {k : Nat} (hk : k < 12)
    (hfile : k * v.part.blockSize < v.fileSize n) : v.part.Reached (iBlock (v.inodeBytes n) k) :=
  (Volume.logicalAlong_direct hk).mp (hf.reached k hfile)

/-- What the transfers of the direct blocks do. -/
theorem Readable.landsBlocks (hf : Readable v n) (ha : DataApart v n) (hblocks : blocks ≤ 12)
    (hfile : ∀ k, k < blocks → k * v.part.blockSize < v.fileSize n) :
    LandsBlocks (fun v => readInodeBlocks v n) (fun v => writeInodeBlocks v n) n v.part.blockSize blocks
      v.part.Lands (Rewritten v n) (v.directBytes n) := by
  have hm := hf.mounted
  have hsize := hm.blockSize_bounds
  have hwritten := hm.writtenSectors_le
  have hwhole := hm.blockSize_eq
  refine ⟨fun u hu => ⟨hu.unchanged ⟨rfl, rfl, id⟩, rfl⟩, fun u hu => ?_,
    fun u dest count skip hu hrange => ?_, fun u source count skip hu hrange => ?_⟩
  · obtain ⟨inode, w, hread, hw, -⟩ := hu.readInode hf ha
    refine ⟨inode, w, hread, hu.unchanged hw, ?_⟩
    unfold Volume.directBytes
    rw [hw.image]
  · by_cases hcount : count = 0
    · subst hcount
      exact ⟨rfl, hu, rfl, fun x hx => by omega⟩
    obtain ⟨inode, w, hread, hw, hbegins⟩ := hu.readInode hf ha
    have hblock {k : Nat} (hk : k < 12) : iBlock inode k = iBlock (v.inodeBytes n) k :=
      iBlock_congr hbegins (by omega)
    have hpart := hu.part
    obtain ⟨⟨hresult, hdest⟩, hsame⟩ := readInodeBlocks_spec dest (hpart ▸ hm)
      (hu.alters.reliable hf.reliable) hread hw (show skip < 12 by omega) (show 0 < count by omega) (by omega)
      fun k hk => (Volume.logicalAlong_direct (by omega)).mpr (by
        rw [hblock (by omega), hpart]
        exact hf.direct (by omega) (hfile _ (by omega)))
    refine ⟨hresult, hu.unchanged hsame, ?_, fun x hx => ?_⟩
    · unfold Volume.directBytes
      rw [hsame.image]
    · have hdiv : x / v.part.blockSize < count := Nat.div_lt_of_lt_mul (by rwa [Nat.mul_comm])
      rw [hdest, hpart, if_pos hx, Volume.logicalBlock_direct (by omega), hblock (by omega),
        Volume.directBytes, Nat.mul_comm skip, Nat.mul_add_div (by omega), Nat.mul_add_mod]
  · by_cases hcount : count = 0
    · subst hcount
      exact ⟨rfl, hu, fun x hx => by rw [Nat.add_zero, if_neg (by omega)]; rfl⟩
    obtain ⟨inode, w, hread, hw, hbegins⟩ := hu.readInode hf ha
    have hblock {k : Nat} (hk : k < 12) : iBlock inode k = iBlock (v.inodeBytes n) k :=
      iBlock_congr hbegins (by omega)
    have hpart := hu.part
    have hlogical {k : Nat} (hk : k < count) :
        u.logicalBlock inode (skip + k) = iBlock (v.inodeBytes n) (skip + k) := by
      rw [Volume.logicalBlock_direct (by omega), hblock (by omega)]
    have hreached : ∀ k, k < count → u.LogicalAlong inode u.part.Reached u.part.Reached (skip + k) :=
      fun k hk => (Volume.logicalAlong_direct (by omega)).mpr (by
        rw [hblock (by omega), hpart]
        exact hf.direct (by omega) (hfile _ (by omega)))
    have hdistinct {i j : Nat} (hi : i < blocks) (hj : j < blocks)
        (heq : iBlock (v.inodeBytes n) i = iBlock (v.inodeBytes n) j) : i = j :=
      ha.distinct i j (by omega) (by omega) (hfile i hi) (hfile j hj) heq
    have hal : Unaliased u inode count skip := by
      refine ⟨fun i hi j hj heq => ?_, fun k hk => (Volume.logicalAlong_direct (by omega)).mpr trivial⟩
      rw [hlogical hi, hlogical hj] at heq
      have := hdistinct (by omega) (by omega) heq
      omega
    have hrel := hu.alters.reliable hf.reliable
    obtain ⟨hresult, himage⟩ := writeInodeBlocks_spec source (hpart ▸ hm) hrel hread hw
      (show skip < 12 by omega) (show 0 < count by omega) (by omega) hreached hal
    obtain ⟨hpart', hrel'⟩ := writeInodeBlocks_part source (hpart ▸ hm) hrel hread hw
      (show skip < 12 by omega) (show 0 < count by omega) (by omega) hreached hal
    rw [hpart] at himage
    refine ⟨hresult, ⟨hpart'.trans hpart, hu.alters.trans ⟨hpart' ▸ .refl _, by rw [hpart'], by rw [hpart'],
      fun _ => hrel', fun a hspan => ?_⟩⟩, fun x hx => ?_⟩
    · rw [himage]
      refine fold_scatter_out fun k hk => ?_
      rw [hlogical hk]
      by_contra hin
      exact hspan ⟨skip + k, by omega, hfile _ (by omega), hm.blockSpan
        (hf.direct (by omega) (hfile _ (by omega))) (by omega) (by omega)⟩
    · have hmod := Nat.mod_lt x (show 0 < v.part.blockSize by omega)
      have hdivmod := Nat.div_add_mod x v.part.blockSize
      have hk : x / v.part.blockSize < blocks := Nat.div_lt_of_lt_mul (by rwa [Nat.mul_comm])
      have hapart {i j : Nat} (hi : i < blocks) (hj : j < blocks) (hne : i ≠ j) :=
        hm.blockAddress_apart (p := v.part) fun heq => hne (hdistinct hi hj heq)
      unfold Apart at hapart
      rw [Volume.directBytes, Volume.directBytes, himage]
      by_cases hin : skip ≤ x / v.part.blockSize ∧ x / v.part.blockSize < skip + count ∧ v.part.Lands x
      · obtain ⟨k, hkx⟩ := Nat.exists_eq_add_of_le hin.1
        have hlo := Nat.mul_le_mul_right v.part.blockSize hin.1
        have hhi := Nat.mul_le_mul_right v.part.blockSize (Nat.succ_le_of_lt hin.2.1)
        rw [Nat.succ_mul] at hhi
        rw [Nat.mul_comm] at hdivmod
        rw [if_pos ⟨by omega, by omega, hin.2.2⟩, hkx, ← hlogical (show k < count by omega),
          fold_scatter_in (show k < count by omega) hin.2.2 fun j hj hjk => ?_]
        · congr 1
          rw [hkx, Nat.add_mul] at hdivmod
          omega
        · rw [hlogical hj, hlogical (by omega)]
          have := hapart (i := skip + j) (j := skip + k) (by omega) (by omega) (by omega)
          unfold Apart
          omega
      · rw [if_neg fun h => hin ⟨?_, ?_, h.2.2⟩]
        · refine fold_scatter_out fun k hk' => ?_
          rw [hlogical hk']
          by_cases hsame : skip + k = x / v.part.blockSize
          · have hpast : ¬ v.part.Lands x := fun hl => hin ⟨by omega, by omega, hl⟩
            unfold Partition.Lands at hpast
            rw [hsame]
            omega
          · have := hapart (i := skip + k) (j := x / v.part.blockSize) (by omega) hk hsame
            omega
        · exact (Nat.le_div_iff_mul_le (by omega)).mpr h.1
        · exact Nat.div_lt_of_lt_mul (by rw [Nat.mul_comm]; exact h.2.1)

end direct

/-! ## Files by path -/

/-- The direct blocks of file `n` are its own: they are different, and no other block, nor an inode,
of what the directories lead to shares a sector with them. -/
structure Alone (v : Volume) (dir : Nat → Option (List Record)) (n : Nat) : Prop where
  distinct : ∀ i j, i < 12 → j < 12 → i * v.part.blockSize < v.fileSize n →
    j * v.part.blockSize < v.fileSize n → iBlock (v.inodeBytes n) i = iBlock (v.inodeBytes n) j → i = j
  outside : ∀ m, Linked dir m → Outside (v.DataSpan n) v m fun k => m = n → 12 ≤ k

/-- Of the bytes of file `n` from `skip` on `size` are those of the source, as far as they land. The
directories stay, and so do the counters and every other file. -/
structure Overwritten (v w : Volume) (dir : Nat → Option (List Record)) (n : Nat) (source : Bytes)
    (size skip : Nat) : Prop where
  part : w.part = v.part
  directories : Directories w dir
  walk : ∀ path, walk w dir path = walk v dir path
  fileSize : ∀ m, Linked dir m → w.fileSize m = v.fileSize m
  bytes : ∀ x, x < v.fileSize n → w.fileBytes n x =
    if skip ≤ x ∧ x < skip + size ∧ v.part.Lands x then source (x - skip) else v.fileBytes n x
  others : ∀ m, Linked dir m → m ≠ n → ∀ x, x < v.fileSize m → w.fileBytes m x = v.fileBytes m x

section files

variable {v w : Volume} {dir : Nat → Option (List Record)} {n size skip : Nat} {path : List Byte}
  {source : Bytes}

/-- A file that a path leads to is read. -/
theorem Directories.readFile (h : Directories v dir) (hpath : walk v dir path = .leads n) (hfile : dir n = none)
    (hpos : 0 < size) (hcount : size < 4294967293) (haligned : skip % v.part.blockSize = 0)
    (hend : skip + size ≤ v.fileSize n) (hdirect : skip + size ≤ 12 * v.part.blockSize) (dest : Bytes) :
    ∃ dest' w, readFile v path dest size skip = some (EXT2_RESULT_OK, dest', w) ∧ Unchanged v w ∧
      ∀ k, dest' k = if k < size then v.fileBytes n (skip + k) else dest k := by
  have hlookup := h.pathToInode path
  rw [hpath] at hlookup
  obtain ⟨w₁, hfind, hw₁, hn, (hne : ¬ n = EXT2_INO_PTI_ERROR), -⟩ := hlookup
  obtain ⟨inode, w₂, hread, hw₂, htyped, hsize⟩ := h.readInode hw₁ hn
  rw [hfile] at htyped
  have hf := h.readable n hn
  have hlt : v.fileSize n < 4294967296 := Readable.fileSize_lt
  have hge := hf.blockSize_ge
  have hblocks : (skip + size + v.part.blockSize - 1) / v.part.blockSize ≤ 12 :=
    Nat.le_of_lt_succ (Nat.div_lt_of_lt_mul (by omega))
  have hd := delivers_readInodeBlocks hf.mounted hf.reliable hf.fits hblocks fun i hi => by
    have hdiv := Nat.div_mul_le_self (skip + size + v.part.blockSize - 1) v.part.blockSize
    have hle := Nat.mul_le_mul_right v.part.blockSize (Nat.succ_le_of_lt hi)
    rw [Nat.succ_mul] at hle
    exact hf.direct (by omega) (by omega)
  obtain ⟨k, hresult, hk, hgood, hdest⟩ := readInodeBytesBy_spec
    (show 1024 ≤ w₂.part.blockSize by rw [hw₂.part]; exact hge) (show skip + size < 4294967296 by omega)
    (by rw [hw₂.part]; exact hd) hw₂ (Nat.le_refl _) dest
  rw [hw₂.part, overrun, if_pos haligned, Nat.max_zero] at hk
  rw [hk] at hresult hdest
  obtain ⟨⟨result, dest', w⟩, hrun⟩ : ∃ r, readInodeBytes w₂ n dest size skip = r := ⟨_, rfl⟩
  rw [readInodeBytes] at hrun
  rw [hrun] at hresult hgood hdest
  simp only at hresult
  refine ⟨dest', w, ?_, hgood, hdest⟩
  rw [Ext2.readFile, hfind]
  simp only [if_neg hne, hread]
  rw [if_neg fun hmode => Bool.false_ne_true (htyped.mp hmode), hsize, u64_of_lt (by omega), if_neg (by omega),
    readInodeBytes, hrun]
  simp only [hresult]
  rw [if_neg (by unfold EXT2_READ_FAILED; omega)]

/-- The inode that a path leads to, found again after a write that changes neither the directories nor
the sizes. -/
theorem Rewritten.overwritten (h : Directories v dir) (hfile : dir n = none) (hn : Linked dir n)
    (hr : Rewritten v n w) (ha : Alone v dir n) {size skip blocks : Nat} (hblocks : blocks ≤ 12)
    (hall : ∀ k, k < 12 → k * v.part.blockSize < v.fileSize n → k < blocks)
    (hend : skip + size ≤ blocks * v.part.blockSize)
    (hbytes : ∀ x, x < blocks * v.part.blockSize → v.directBytes n w x =
      if skip ≤ x ∧ x < skip + size ∧ v.part.Lands x then source (x - skip) else v.directBytes n v x) :
    Overwritten v w dir n source size skip := by
  have hf := h.readable n hn
  have hpos : 0 < v.part.blockSize := Nat.pos_of_ne_zero hf.mounted.blockSize_pos
  have hsize (m : Nat) (hm : Linked dir m) : w.fileSize m = v.fileSize m :=
    (ha.outside m hm).fileSize (h.readable m hm) hr.alters
  refine ⟨hr.part, h.alters hfile ha.outside hr.alters, fun path => h.walk_eq (by rw [hr.part]) hsize, hsize,
    fun x hx => ?_, fun m hm hne x hx =>
      (ha.outside m hm).fileBytes (h.readable m hm) hr.alters hx fun heq => absurd heq hne⟩
  by_cases hk : x / v.part.blockSize < 12
  · have hin : x < blocks * v.part.blockSize := by
      have hlt := hall _ hk (Nat.lt_of_le_of_lt (Nat.div_mul_le_self _ _) hx)
      rw [Nat.mul_comm]
      exact (Nat.div_lt_iff_lt_mul hpos).mp hlt |>.trans_le (Nat.le_of_eq (Nat.mul_comm _ _))
    have hdirect {u : Volume} (hu : Rewritten v n u) : u.fileBytes n x = v.directBytes n u x := by
      rw [Volume.fileBytes, Volume.directBytes, hu.part, Volume.logicalBlock_direct hk,
        (ha.outside n hn).iBlock hf hu.alters (by omega)]
    rw [hdirect hr, hdirect .refl, hbytes x hin]
  · have hpast : blocks * v.part.blockSize ≤ x := by
      have hle := Nat.mul_le_mul_right v.part.blockSize (show blocks ≤ x / v.part.blockSize by omega)
      exact hle.trans (Nat.div_mul_le_self _ _)
    rw [if_neg (by omega)]
    exact (ha.outside n hn).fileBytes hf hr.alters hx fun _ => by omega

/-- A file that a path leads to is written. -/
theorem Directories.writeFile (source : Bytes) (h : Directories v dir)
    (hpath : walk v dir path = .leads n) (hfile : dir n = none) (ha : Alone v dir n)
    (hpos : 0 < size) (hcount : size < 4294967293)
    (haligned : skip % v.part.blockSize = 0) (hend : skip + size ≤ v.fileSize n)
    (hdirect : skip + size ≤ 12 * v.part.blockSize) :
    ∃ w, writeFile v path source size skip = some (EXT2_RESULT_OK, w) ∧
      Overwritten v w dir n source size skip := by
  have hlookup := h.pathToInode path
  rw [hpath] at hlookup
  obtain ⟨w₁, hfind, hw₁, hn, (hne : ¬ n = EXT2_INO_PTI_ERROR), -⟩ := hlookup
  -- the second lookup begins where the first one ended
  have hagain : (walk v dir path).Meets dir (Unchanged v) (Ext2.pathToInode w₁ path) (searched w₁ path) :=
    h.pathToInodeFrom hw₁ .root (by decide) _ _
  rw [hpath] at hagain
  obtain ⟨w₂, hfind', hw₂, -⟩ := hagain
  obtain ⟨inode, w₃, hread, hw₃, htyped, hsize⟩ := h.readInode hw₂ hn
  rw [hfile] at htyped
  have hf := h.readable n hn
  have hm := hf.mounted
  have hbounds := hm.blockSize_bounds
  have hlt : v.fileSize n < 4294967296 := Readable.fileSize_lt
  obtain ⟨blocks, hblocks⟩ : ∃ blocks, min 12 (v.part.blocksFor (v.fileSize n)) = blocks := ⟨_, rfl⟩
  have hcover : skip + size ≤ blocks * v.part.blockSize := by
    rcases Nat.le_total 12 (v.part.blocksFor (v.fileSize n)) with hle | hle
    · rwa [← hblocks, Nat.min_eq_left hle]
    · rw [← hblocks, Nat.min_eq_right hle]
      by_contra hlt
      exact absurd (hm.lt_blocksFor.mpr (show v.part.blocksFor (v.fileSize n) * v.part.blockSize <
        v.fileSize n by omega)) (Nat.lt_irrefl _)
  have hl : LandsBlocks _ _ n v.part.blockSize blocks v.part.Lands (Rewritten v n) (v.directBytes n) :=
    hf.landsBlocks ⟨ha.distinct, (ha.outside n hn).inode⟩ (by omega) fun k hk => hm.lt_blocksFor.mp (by omega)
  obtain ⟨s, hrun, hgood, hbytes⟩ := writeInodeBytesBy_lands source hbounds.1 hbounds.2
    (by omega) hl (by rw [hw₃.part]) (Rewritten.refl.unchanged hw₃) hcover haligned hpos
  have hsame : v.directBytes n w₃ = v.directBytes n v := by
    unfold Volume.directBytes
    rw [hw₃.image]
  rw [hsame] at hbytes
  refine ⟨s.vol, ?_, hgood.overwritten h hfile hn ha (by omega) (fun k hk hk' => ?_) hcover hbytes⟩
  · rw [Ext2.writeFile, hfind]
    simp only [if_neg hne, hfind', hread]
    rw [if_neg fun hmode => Bool.false_ne_true (htyped.mp hmode), hsize, u64_of_lt (by omega), if_neg (by omega),
      finishWrite, writeInodeBytes, hrun]
    simp only
    rw [if_neg (by unfold EXT2_WRITE_FAILED; omega)]
  · have := hm.lt_blocksFor.mpr hk'
    omega

/-- What a path of a file has been written to is read back through it as far as it landed on the disk, and
as the file had it elsewhere. -/
theorem writeFile_readFile (h : Directories v dir) (hpath : walk v dir path = .leads n) (hfile : dir n = none)
    (ha : Alone v dir n) (hpos : 0 < size) (hcount : size < 4294967293)
    (haligned : skip % v.part.blockSize = 0) (hend : skip + size ≤ v.fileSize n)
    (hdirect : skip + size ≤ 12 * v.part.blockSize) :
    ∃ w, writeFile v path source size skip = some (EXT2_RESULT_OK, w) ∧
      Overwritten v w dir n source size skip ∧ ∀ dest, ∃ dest' x,
        readFile w path dest size skip = some (EXT2_RESULT_OK, dest', x) ∧ Unchanged w x ∧
          ∀ k, dest' k = if k < size then
            if v.part.Lands k then source k else v.fileBytes n (skip + k)
          else dest k := by
  obtain ⟨w, hwrite, ho⟩ := h.writeFile source hpath hfile ha hpos hcount haligned hend hdirect
  refine ⟨w, hwrite, ho, fun dest => ?_⟩
  have hlookup := h.pathToInode path
  rw [hpath] at hlookup
  obtain ⟨-, -, -, hn, -⟩ := hlookup
  obtain ⟨dest', x, hread, hx, hdest⟩ := ho.directories.readFile (n := n)
    (by rw [ho.walk]; exact hpath) hfile hpos hcount
    (show skip % w.part.blockSize = 0 by rw [ho.part]; exact haligned)
    (by rw [ho.fileSize n hn]; exact hend) (by rw [ho.part]; exact hdirect) dest
  refine ⟨dest', x, hread, hx, fun k => ?_⟩
  rw [hdest]
  by_cases hk : k < size
  · have hlands : v.part.Lands (skip + k) ↔ v.part.Lands k := by
      unfold Partition.Lands
      rw [Nat.add_mod, haligned, Nat.zero_add, Nat.mod_mod]
    rw [if_pos hk, if_pos hk, ho.bytes _ (by omega)]
    by_cases hl : v.part.Lands k
    · rw [if_pos hl, if_pos ⟨Nat.le_add_right _ _, by omega, hlands.mpr hl⟩, Nat.add_sub_cancel_left]
    · rw [if_neg hl, if_neg fun hin => hl (hlands.mp hin.2.2)]
  · rw [if_neg hk, if_neg hk]

end files

/-- A volume whose root, inode 2 with its entries in block 100, holds a file of 2000 bytes, inode 12 with
the blocks 110 and 111. -/
def noteVolume : Volume where
  disk :=
    { image := fun x =>
        if 102400 ≤ x then
          BitVec.ofNat 8 ([2, 0, 0, 0, 12, 0, 1, 2, 0x2E, 0, 0, 0, 2, 0, 0, 0, 12, 0, 2, 2, 0x2E, 0x2E, 0, 0,
            12, 0, 0, 0, 0xE8, 3, 1, 1, 0x61].getD (x - 102400) 0)
        else if x = 5249 then 0x40 else if x = 5253 then 4 else if x = 5288 then 100
        else if x = 6529 then 0x80 else if x = 6532 then 0xD0 else if x = 6533 then 7
        else if x = 6568 then 110 else if x = 6572 then 111 else 0
      fails := fun _ => false
      clock := 0 }
  part := tablePartition
  buffers := fun _ _ => 0
  allocated := 0

/-- The entries of the root. -/
def noteRecords : List Record :=
  [⟨2, 12, [0x2E], 2⟩, ⟨2, 12, [0x2E, 0x2E], 2⟩, ⟨12, 1000, [0x61], 1⟩]

def noteDir (n : Nat) : Option (List Record) := if n = 2 then some noteRecords else none

theorem linked_noteDir {n : Nat} (hn : Linked noteDir n) : n = 2 ∨ n = 12 := by
  induction hn with
  | root => exact .inl rfl
  | @entry n rs r _ hdir hr _ ih =>
    rcases ih with rfl | rfl
    · obtain rfl := Option.some.inj hdir
      have hinodes : ∀ r ∈ noteRecords, r.inode = 2 ∨ r.inode = 12 := by decide
      exact hinodes r hr
    · exact nomatch hdir

theorem blocks_noteVolume {n k : Nat} (hn : Linked noteDir n)
    (hk : k * noteVolume.part.blockSize < noteVolume.fileSize n) :
    n = 2 ∧ k = 0 ∧ iBlock (noteVolume.inodeBytes n) k = 100 ∨
      n = 12 ∧ k < 2 ∧ iBlock (noteVolume.inodeBytes n) k = 110 + k := by
  have hblock : noteVolume.part.blockSize = 1024 := by decide +kernel
  rw [hblock] at hk
  rcases linked_noteDir hn with rfl | rfl
  · rw [show noteVolume.fileSize 2 = 1024 by decide +kernel] at hk
    obtain rfl : k = 0 := by omega
    exact .inl ⟨rfl, rfl, by decide +kernel⟩
  · rw [show noteVolume.fileSize 12 = 2000 by decide +kernel] at hk
    obtain rfl | rfl : k = 0 ∨ k = 1 := by omega
    · exact .inr ⟨rfl, by decide, by decide +kernel⟩
    · exact .inr ⟨rfl, by decide, by decide +kernel⟩

theorem directories_noteVolume : Directories noteVolume noteDir := by
  have hreached : ∀ b, b < 112 → 100 ≤ b → noteVolume.part.Reached b := fun b hb hlo => by
    have hall : ∀ b, b < 112 → tablePartition.Addressable b := by decide +kernel
    exact ⟨by omega, hall b hb, by omega⟩
  refine ⟨fun n hn => ⟨mounted_tablePartition, fun _ => rfl, ?_, fun k hk => ?_⟩, fun n hn => ?_,
    fun n rs hn hdir => ?_, fun n rs hn hdir => ?_⟩
  · rcases linked_noteDir hn with rfl | rfl
    · exact ⟨by decide +kernel, by decide +kernel⟩
    · exact ⟨by decide +kernel, by decide +kernel⟩
  · rcases blocks_noteVolume hn hk with ⟨-, rfl, hpointer⟩ | ⟨-, hlt, hpointer⟩
    · rw [Volume.logicalAlong_direct (by decide), hpointer]
      exact hreached 100 (by decide) (by decide)
    · rw [Volume.logicalAlong_direct (by omega), hpointer]
      exact hreached _ (by omega) (by omega)
  · rcases linked_noteDir hn with rfl | rfl
    · decide +kernel
    · decide +kernel
  · rcases linked_noteDir hn with rfl | rfl
    · decide +kernel
    · exact nomatch hdir
  · rcases linked_noteDir hn with rfl | rfl
    · obtain rfl := Option.some.inj hdir
      refine ⟨⟨⟨by decide +kernel, by decide +kernel, by decide +kernel, by decide +kernel, by decide +kernel⟩,
        ⟨by decide, by decide, fun _ => by decide, by decide⟩,
        ⟨by decide +kernel, by decide +kernel, by decide +kernel, by decide +kernel, by decide +kernel⟩,
        ⟨by decide, by decide, fun _ => by decide, by decide⟩,
        ⟨by decide +kernel, by decide +kernel, by decide +kernel, by decide +kernel, by decide +kernel⟩,
        ⟨by decide, by decide, fun _ => by decide, by decide⟩, trivial⟩, by decide +kernel⟩
    · exact nomatch hdir

theorem alone_noteVolume : Alone noteVolume noteDir 12 := by
  have hfile : Linked noteDir 12 :=
    .entry .root (show noteDir 2 = some noteRecords from rfl)
      (show (⟨12, 1000, [0x61], 1⟩ : Record) ∈ noteRecords by simp [noteRecords]) (by decide)
  have hsectors : noteVolume.part.blockSectors = 2 := by decide +kernel
  have hspan : ∀ s, noteVolume.DataSpan 12 s → ∃ k, k < 2 ∧ Partition.Spans (220 + 2 * k) 2 s := by
    rintro s ⟨k, -, hk, hs⟩
    rcases blocks_noteVolume hfile hk with ⟨habsurd, -⟩ | ⟨-, hlt, hpointer⟩
    · exact absurd habsurd (by decide)
    · have hlba : ∀ k, k < 2 → noteVolume.part.blockLba (110 + k) = 220 + 2 * k := by decide +kernel
      rw [hpointer, Partition.BlockSpan, hlba k hlt, hsectors] at hs
      exact ⟨k, hlt, hs⟩
  have hbefore : ∀ a s, a + 2 ≤ 220 → Partition.Spans a 2 s → ¬ noteVolume.DataSpan 12 s := by
    intro a s ha hs hdata
    obtain ⟨k, hk, hs'⟩ := hspan s hdata
    exact Partition.spans_apart (by omega) (by omega) hs hs'
  refine ⟨fun i j _ _ hi hj heq => ?_, fun m hm => ⟨fun s hs => ?_, fun k hk => ?_⟩⟩
  · rcases blocks_noteVolume hfile hi with ⟨habsurd, -⟩ | ⟨-, -, hi'⟩
    · exact absurd habsurd (by decide)
    rcases blocks_noteVolume hfile hj with ⟨habsurd, -⟩ | ⟨-, -, hj'⟩
    · exact absurd habsurd (by decide)
    omega
  · have hlba : noteVolume.part.inodeLba m + 2 ≤ 220 := by
      rcases linked_noteDir hm with rfl | rfl
      · decide +kernel
      · decide +kernel
    rw [Partition.InodeSpan, hsectors] at hs
    exact hbefore _ s hlba hs
  · rcases blocks_noteVolume hm hk with ⟨-, rfl, hpointer⟩ | ⟨rfl, hlt, -⟩
    · rw [Volume.logicalAlong_direct (by decide), hpointer]
      intro _ s hs
      rw [Partition.BlockSpan, hsectors] at hs
      exact hbefore _ s (by decide +kernel) hs
    · rw [Volume.logicalAlong_direct (by omega)]
      intro hge
      have := hge rfl
      omega

/-- Of 1500 bytes that are written to `/a` the first sector of each block is read back. -/
theorem writeFile_readFile_sectors :
    (List.range 1500).filter (fun k => decide (noteVolume.part.Lands k)) =
      List.range 512 ++ (List.range 476).map (1024 + ·) ∧
    ∃ w, writeFile noteVolume [0x2F, 0x61] (fun k => BitVec.ofNat 8 k) 1500 0 = some (EXT2_RESULT_OK, w) ∧
      Overwritten noteVolume w noteDir 12 (fun k => BitVec.ofNat 8 k) 1500 0 ∧ ∀ dest, ∃ dest' x,
        readFile w [0x2F, 0x61] dest 1500 0 = some (EXT2_RESULT_OK, dest', x) ∧ Unchanged w x ∧
          ∀ k, dest' k = if k < 1500 then
            if noteVolume.part.Lands k then BitVec.ofNat 8 k else noteVolume.fileBytes 12 (0 + k)
          else dest k :=
  ⟨by decide +kernel, writeFile_readFile directories_noteVolume (by decide +kernel) rfl alone_noteVolume
    (by decide) (by decide) (by decide +kernel) (by decide +kernel) (by decide +kernel)⟩

end UnedKernel.Ext2
