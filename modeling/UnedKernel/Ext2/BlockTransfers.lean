import UnedKernel.Ext2.BlockWalks
import UnedKernel.Ext2.BlockRuns
import UnedKernel.Ext2.InodeRuns
import UnedKernel.Lib.Scatter

/-! # The blocks that an inode's transfers move

The logical blocks of an inode, as its pointers and the blocks of pointers on
the disk give them, and what `ext2_read_inode_blocks` and
`ext2_write_inode_blocks` do to a range of them. -/

namespace UnedKernel.Ext2
open ByteMem Word Sectors Indirect Scatter

/-! ## Logical blocks -/

/-- Where a block is on the disk. -/
def Partition.blockAddress (p : Partition) (b : Nat) : Nat := 512 * p.blockSector b

/-- Pointer `k` of a block of pointers. -/
def Volume.pointer (v : Volume) (b k : Nat) : Nat :=
  load v.disk.image (v.part.blockAddress b + 4 * k) 4

namespace Volume

/-- The pointers of a block. -/
def pointers (v : Volume) : Nat := v.part.blockSize / 4

/-- Logical block `k` of an inode. -/
def logicalBlock (v : Volume) (inode : Bytes) (k : Nat) : Nat :=
  if k < 12 then iBlock inode k
  else if k - 12 < v.pointers then
    leaf v.pointer v.pointers 1 (fun i => iBlock inode (12 + i)) (k - 12)
  else if k - 12 - v.pointers < v.pointers ^ 2 then
    leaf v.pointer v.pointers 2 (fun i => iBlock inode (13 + i)) (k - 12 - v.pointers)
  else
    leaf v.pointer v.pointers 3 (fun i => iBlock inode (14 + i))
      (k - 12 - v.pointers - v.pointers ^ 2)

/-- Logical block `k` satisfies `L`, and the blocks of pointers on the way to it `T`. -/
def LogicalAlong (v : Volume) (inode : Bytes) (T L : Nat → Prop) (k : Nat) : Prop :=
  if k < 12 then L (iBlock inode k)
  else if k - 12 < v.pointers then
    Along v.pointer v.pointers T L 1 (fun i => iBlock inode (12 + i)) (k - 12)
  else if k - 12 - v.pointers < v.pointers ^ 2 then
    Along v.pointer v.pointers T L 2 (fun i => iBlock inode (13 + i)) (k - 12 - v.pointers)
  else
    k - 12 - v.pointers - v.pointers ^ 2 < v.pointers ^ 3 ∧
      Along v.pointer v.pointers T L 3 (fun i => iBlock inode (14 + i))
        (k - 12 - v.pointers - v.pointers ^ 2)

variable {v : Volume} {inode : Bytes} {T T' L L' : Nat → Prop} {k : Nat}

theorem logicalBlock_direct (h : k < 12) : v.logicalBlock inode k = iBlock inode k := if_pos h

theorem logicalBlock_single (h : k < v.pointers) :
    v.logicalBlock inode (12 + k) =
      leaf v.pointer v.pointers 1 (fun i => iBlock inode (12 + i)) k := by
  rw [logicalBlock, if_neg (by omega), Nat.add_sub_cancel_left, if_pos h]

theorem logicalBlock_double (h : k < v.pointers ^ 2) :
    v.logicalBlock inode (12 + v.pointers + k) =
      leaf v.pointer v.pointers 2 (fun i => iBlock inode (13 + i)) k := by
  rw [logicalBlock, if_neg (by omega), Nat.add_assoc, Nat.add_sub_cancel_left, if_neg (by omega),
    Nat.add_sub_cancel_left, if_pos h]

theorem logicalBlock_triple :
    v.logicalBlock inode (12 + v.pointers + v.pointers ^ 2 + k) =
      leaf v.pointer v.pointers 3 (fun i => iBlock inode (14 + i)) k := by
  rw [logicalBlock, if_neg (by omega), Nat.add_assoc, Nat.add_assoc, Nat.add_sub_cancel_left,
    if_neg (by omega), Nat.add_sub_cancel_left, if_neg (by omega), Nat.add_sub_cancel_left]

/-- The four kinds of position. -/
theorem position_cases (v : Volume) (k : Nat) :
    k < 12 ∨ (∃ j, j < v.pointers ∧ k = 12 + j) ∨
      (∃ j, j < v.pointers ^ 2 ∧ k = 12 + v.pointers + j) ∨
      ∃ j, k = 12 + v.pointers + v.pointers ^ 2 + j := by
  by_cases hd : k < 12
  · exact .inl hd
  by_cases hs : k - 12 < v.pointers
  · exact .inr (.inl ⟨k - 12, hs, by omega⟩)
  by_cases ht : k - 12 - v.pointers < v.pointers ^ 2
  · exact .inr (.inr (.inl ⟨k - 12 - v.pointers, ht, by omega⟩))
  · exact .inr (.inr (.inr ⟨k - 12 - v.pointers - v.pointers ^ 2, by omega⟩))

theorem logicalAlong_direct (h : k < 12) : v.LogicalAlong inode T L k ↔ L (iBlock inode k) := by
  rw [LogicalAlong, if_pos h]

theorem logicalAlong_single (h : k < v.pointers) : v.LogicalAlong inode T L (12 + k) ↔
    Along v.pointer v.pointers T L 1 (fun i => iBlock inode (12 + i)) k := by
  rw [LogicalAlong, if_neg (by omega), Nat.add_sub_cancel_left, if_pos h]

theorem logicalAlong_double (h : k < v.pointers ^ 2) :
    v.LogicalAlong inode T L (12 + v.pointers + k) ↔
      Along v.pointer v.pointers T L 2 (fun i => iBlock inode (13 + i)) k := by
  rw [LogicalAlong, if_neg (by omega), Nat.add_assoc, Nat.add_sub_cancel_left, if_neg (by omega),
    Nat.add_sub_cancel_left, if_pos h]

theorem logicalAlong_triple :
    v.LogicalAlong inode T L (12 + v.pointers + v.pointers ^ 2 + k) ↔ k < v.pointers ^ 3 ∧
      Along v.pointer v.pointers T L 3 (fun i => iBlock inode (14 + i)) k := by
  rw [LogicalAlong, if_neg (by omega), Nat.add_assoc, Nat.add_assoc, Nat.add_sub_cancel_left,
    if_neg (by omega), Nat.add_sub_cancel_left, if_neg (by omega), Nat.add_sub_cancel_left]

namespace LogicalAlong

theorem mono (hT : ∀ b, T b → T' b) (hL : ∀ b, L b → L' b) (h : v.LogicalAlong inode T L k) :
    v.LogicalAlong inode T' L' k := by
  rcases v.position_cases k with hk | ⟨j, hj, rfl⟩ | ⟨j, hj, rfl⟩ | ⟨j, rfl⟩
  · rw [logicalAlong_direct hk] at h ⊢
    exact hL _ h
  · rw [logicalAlong_single hj] at h ⊢
    exact h.mono hT hL
  · rw [logicalAlong_double hj] at h ⊢
    exact h.mono hT hL
  · rw [logicalAlong_triple] at h ⊢
    exact ⟨h.1, h.2.mono hT hL⟩

theorem and (h : v.LogicalAlong inode T L k) (h' : v.LogicalAlong inode T' L' k) :
    v.LogicalAlong inode (fun b => T b ∧ T' b) (fun b => L b ∧ L' b) k := by
  rcases v.position_cases k with hk | ⟨j, hj, rfl⟩ | ⟨j, hj, rfl⟩ | ⟨j, rfl⟩
  · rw [logicalAlong_direct hk] at h h' ⊢
    exact ⟨h, h'⟩
  · rw [logicalAlong_single hj] at h h' ⊢
    exact Along.and h h'
  · rw [logicalAlong_double hj] at h h' ⊢
    exact Along.and h h'
  · rw [logicalAlong_triple] at h h' ⊢
    exact ⟨h.1, Along.and h.2 h'.2⟩

theorem leaf (h : v.LogicalAlong inode T L k) : L (v.logicalBlock inode k) := by
  rcases v.position_cases k with hk | ⟨j, hj, rfl⟩ | ⟨j, hj, rfl⟩ | ⟨j, rfl⟩
  · rwa [logicalAlong_direct hk, ← logicalBlock_direct (v := v) hk] at h
  · rw [logicalAlong_single hj] at h
    rw [logicalBlock_single hj]
    exact Along.leaf h
  · rw [logicalAlong_double hj] at h
    rw [logicalBlock_double hj]
    exact Along.leaf h
  · rw [logicalAlong_triple] at h
    rw [logicalBlock_triple]
    exact Along.leaf h.2

/-- The block that is reached is the logical block. -/
theorem at_leaf (h : v.LogicalAlong inode T L k) :
    v.LogicalAlong inode T (fun b => L b ∧ b = v.logicalBlock inode k) k := by
  rcases v.position_cases k with hk | ⟨j, hj, rfl⟩ | ⟨j, hj, rfl⟩ | ⟨j, rfl⟩
  · rw [logicalAlong_direct hk] at h ⊢
    exact ⟨h, (logicalBlock_direct hk).symm⟩
  · rw [logicalAlong_single hj, logicalBlock_single hj] at *
    exact Along.at_leaf h
  · rw [logicalAlong_double hj, logicalBlock_double hj] at *
    exact Along.at_leaf h
  · rw [logicalAlong_triple, logicalBlock_triple] at *
    exact ⟨h.1, Along.at_leaf h.2⟩

/-- Pointers are 32-bit words. -/
theorem and_lt (h : v.LogicalAlong inode T L k) :
    v.LogicalAlong inode (fun b => T b ∧ b < 4294967296) (fun b => L b ∧ b < 4294967296) k := by
  have hroots (i : Nat) : iBlock inode i < 4294967296 := load_lt inode 4 _
  have hpointer (b i : Nat) : v.pointer b i < 4294967296 := load_lt _ 4 _
  refine h.and ?_
  rcases v.position_cases k with hk | ⟨j, hj, rfl⟩ | ⟨j, hj, rfl⟩ | ⟨j, rfl⟩
  · rw [logicalAlong_direct hk]
    exact hroots k
  · rw [logicalAlong_single hj]
    exact along_of_forall (fun i => hroots _) hpointer
  · rw [logicalAlong_double hj]
    exact along_of_forall (fun i => hroots _) hpointer
  · rw [logicalAlong_triple] at h ⊢
    exact ⟨h.1, along_of_forall (fun i => hroots _) hpointer⟩

end LogicalAlong
end Volume

/-! ## A range of logical blocks -/

section ranges

variable {ω : Type} {transfer : Transfer} {failed : Int} {v w : Volume} {inode : Bytes}
  {obs : Walk → ω} {step : ω → Nat → Nat → ω} {good : Walk → Prop} {T L : Nat → Prop}
  {count skip : Nat} {buffer : Bytes}

/-- The four stages transfer the range in order when it starts at a direct block. -/
theorem inodeBlocks_spec (buffer : Bytes) (inodeNumber : Nat)
    (ht : Transfers transfer v.part.blockSize v.pointer obs step good T L)
    (hfailed : 4294967293 ≤ failed) (hsize : 256 ≤ v.pointers) (hsize' : v.pointers < 4294967293)
    (hread : readInode v inodeNumber = (some inode, w)) (hw : good ⟨w, buffer, skip⟩)
    (hskip : skip < 12) (hpos : 0 < count) (hcount : count < 4294967296)
    (hleaves : ∀ k, k < count → v.LogicalAlong inode T L (skip + k)) :
    ∃ w', inodeBlocks failed (directWalk transfer failed)
        (indirectWalk (directWalk transfer failed) failed u64)
        (indirectWalk (indirectWalk (directWalk transfer failed) failed u64) failed u32)
        (indirectWalk (indirectWalk (indirectWalk (directWalk transfer failed) failed u64) failed u32)
          failed u32) v inodeNumber buffer count skip = ((count : Int), w') ∧ good w' ∧
      obs w' = fold step (fun k => v.logicalBlock inode (skip + k)) v.part.blockSize 0 count
        (obs ⟨w, buffer, skip⟩) := by
  have he : v.part.blockSize / 4 = v.pointers := rfl
  have hwalk₀ := walks_direct ht hfailed
  have hwalk₁ := walks_indirect ht hwalk₀ hfailed
    (fun a (ha : a < 4294967296) => u64_of_lt (by omega)) (by omega)
  have hwalk₂ := walks_indirect ht hwalk₁ hfailed (fun a ha => u32_of_lt ha) (by omega)
  have hwalk₃ := walks_indirect ht hwalk₂ hfailed (fun a ha => u32_of_lt ha) (by omega)
  unfold inodeBlocks
  rw [if_neg (by omega), hread]
  simp only
  rw [ht.blockSize _ hw]
  unfold inodeStages
  -- the direct blocks from `skip` on
  refine stagesFrom_cons (12 - skip) (fun k => iBlock inode (skip + k)) hfailed hcount
    hpos (Nat.zero_mul _).symm (by omega) (by omega) rfl (fun k hk => ?_) ?_
    fun w₁ hw₁ hskip₁ hlt₁ hobs₁ => ?_
  · rw [Nat.zero_add, Volume.logicalBlock_direct (by omega)]
  · exact directWalk_skip ht hfailed hw rfl (by omega) hpos hcount fun k hk =>
      (Volume.logicalAlong_direct (by omega)).mp (hleaves k (by omega))
  -- the single indirect tree
  refine stagesFrom_cons v.pointers
    (leaf v.pointer v.pointers 1 fun i => iBlock inode (12 + i)) hfailed hcount hlt₁ rfl
    (by omega) (by omega) hobs₁ (fun k hk => ?_) ?_ fun w₂ hw₂ hskip₂ hlt₂ hobs₂ => ?_
  · rw [show skip + (0 + (12 - skip) + k) = 12 + k by omega,
      Volume.logicalBlock_single (by omega)]
  · refine hwalk₁.stage (Nat.pow_one _) hw₁ hskip₁ (by omega) (by omega) (fun k hk => ?_) (by omega)
    have hk' := hleaves (12 - skip + k) (by omega)
    rw [show skip + (12 - skip + k) = 12 + k by omega] at hk'
    exact (Volume.logicalAlong_single (by omega)).mp hk'
  -- the double indirect tree
  refine stagesFrom_cons (v.pointers ^ 2)
    (leaf v.pointer v.pointers 2 fun i => iBlock inode (13 + i)) hfailed hcount hlt₂ rfl
    (Nat.pow_pos (by omega)) (by omega) hobs₂ (fun k hk => ?_) ?_ fun w₃ hw₃ hskip₃ hlt₃ hobs₃ => ?_
  · rw [show skip + (0 + (12 - skip) + v.pointers + k) = 12 + v.pointers + k by omega,
      Volume.logicalBlock_double (by omega)]
  · refine hwalk₂.stage rfl hw₂ hskip₂ (by omega) (by omega) (fun k hk => ?_) (by omega)
    have hk' := hleaves (12 - skip + v.pointers + k) (by omega)
    rw [show skip + (12 - skip + v.pointers + k) = 12 + v.pointers + k by omega] at hk'
    exact (Volume.logicalAlong_double (by omega)).mp hk'
  -- the triple indirect tree
  have htriple (k : Nat) (hk : 0 + (12 - skip) + v.pointers + v.pointers ^ 2 + k < count) :
      k < v.pointers ^ 3 ∧ Along v.pointer v.pointers T L 3 (fun i => iBlock inode (14 + i)) k :=
    Volume.logicalAlong_triple.mp (by
      have hk' := hleaves (12 - skip + v.pointers + v.pointers ^ 2 + k) (by omega)
      rwa [show skip + (12 - skip + v.pointers + v.pointers ^ 2 + k) =
        12 + v.pointers + v.pointers ^ 2 + k by omega] at hk')
  refine stagesFrom_cons (v.pointers ^ 3)
    (leaf v.pointer v.pointers 3 fun i => iBlock inode (14 + i)) hfailed hcount hlt₃ rfl
    (Nat.pow_pos (by omega)) (by omega) hobs₃ (fun k hk => ?_) ?_ fun w₄ hw₄ hskip₄ hlt₄ hobs₄ => ?_
  · rw [show skip + (0 + (12 - skip) + v.pointers + v.pointers ^ 2 + k) =
      12 + v.pointers + v.pointers ^ 2 + k by omega, Volume.logicalBlock_triple]
  · exact hwalk₃.stage rfl hw₃ hskip₃ (by omega) (by omega)
      (fun k hk => (htriple k (by omega)).2) (by omega)
  · have hlast := (htriple (v.pointers ^ 3) (by omega)).1
    exact absurd hlast (Nat.lt_irrefl _)

/-- A transfer that starts past the direct blocks transfers nothing. -/
theorem inodeBlocks_of_skip {indirect double triple : BlockWalk} (inodeNumber : Nat)
    (hread : readInode v inodeNumber = (some inode, w)) (hskip : 12 ≤ skip) :
    (inodeBlocks failed (directWalk transfer failed) indirect double triple v inodeNumber buffer
      count skip).1 = 0 := by
  unfold inodeBlocks
  split
  · rfl
  rw [hread]
  simp only [inodeStages]
  have hstop : directWalk transfer failed (iBlock inode) 12 0 (sub64 count 0) ⟨w, buffer, skip⟩ =
      (0, ⟨w, buffer, skip - 12⟩) := by
    unfold directWalk
    rw [directFrom_skip_all hskip]
    rfl
  rw [stagesFrom_cons_stop hstop]

/-- The result fits the 32-bit counter. -/
theorem stagesFrom_lt {stages : List (Nat → Nat → Walk → Int × Walk)} {size pos done : Nat}
    {w : Walk} (hlt : failed < 4294967296) :
    (stagesFrom failed size count stages pos done w).1 < 4294967296 := by
  induction stages generalizing pos done w with
  | nil => exact hlt
  | cons stage stages ih =>
    unfold stagesFrom
    simp only
    split
    · rename_i h
      simp only
      rcases h with h | h <;> rw [h] <;> omega
    split
    · have := u32_lt (done + (stage pos (sub64 count done) w).1.toNat)
      simp only
      omega
    · exact ih

theorem inodeBlocks_lt {direct indirect double triple : BlockWalk} (inodeNumber : Nat)
    (hlt : failed < 4294967296) :
    (inodeBlocks failed direct indirect double triple v inodeNumber buffer count skip).1 <
      4294967296 := by
  unfold inodeBlocks
  split
  · simp only
    omega
  split
  · exact hlt
  · exact stagesFrom_lt hlt

end ranges

/-! ## Transfers of one block -/

section blocks

variable {v w : Volume} {b c : Nat}

/-- The block is not the null block and a transfer of it reaches it. -/
structure Partition.Reached (p : Partition) (b : Nat) : Prop where
  pos : 0 < b
  addressable : p.Addressable b
  lt : b < 4294967296

theorem Mounted.blockAddress_apart {p : Partition} (h : Mounted p) (hne : b ≠ c) :
    Apart (p.blockAddress b) p.blockSize (p.blockAddress c) p.blockSize := by
  have hsize := h.blockSize_eq
  have hmul {x y : Nat} (hxy : x < y) : x * p.blockSectors + p.blockSectors ≤ y * p.blockSectors := by
    rw [← Nat.succ_mul]
    exact Nat.mul_le_mul_right _ hxy
  unfold Apart Partition.blockAddress Partition.blockSector
  rcases Nat.lt_or_gt_of_ne hne with hlt | hgt
  · have := hmul hlt
    omega
  · have := hmul hgt
    omega

theorem readBlock_reached (buffer : Bytes) (hm : Mounted v.part) (hr : v.disk.Reliable) (hb : v.part.Reached b) :
    readBlock v b buffer = (1, copy buffer 0 v.disk.image (v.part.blockAddress b) v.part.blockSize,
      v.after v.disk.image v.part.blockSectors) := by
  have hlt := hm.blockSector_lt hb.lt
  have hsize := hm.blockSize_eq
  rw [readBlock_reliable buffer hm hr hb.pos, hb.addressable]
  congr 2
  funext x
  by_cases hx : x < v.part.blockSize
  · rw [copy_apply_in _ _ (by omega) (by omega), copy_apply_in _ _ (by omega) (by omega),
      Nat.zero_add, Nat.sub_zero, window_eq (by omega), Partition.blockAddress]
  · rw [copy_apply_out _ _ (by omega), copy_apply_out _ _ (by omega)]

theorem writeBlock_reached (buffer : Bytes) (hm : Mounted v.part) (hr : v.disk.Reliable) (hb : v.part.Reached b) :
    writeBlock v b buffer = (1, v.after
      (copy v.disk.image (v.part.blockAddress b) buffer 0 (512 * v.part.writtenSectors))
      v.part.writtenSectors) := by
  have hlt := hm.blockSector_lt hb.lt
  have hle := hm.writtenSectors_le
  rw [writeBlock_reliable buffer hm hr hb.pos, hb.addressable, put_eq_copy (by omega),
    Partition.blockAddress]

/-- The reads of a walk, for the blocks that transfers reach. -/
theorem transfers_readAt (hm : Mounted v.part) (hr : v.disk.Reliable) :
    Transfers readAt v.part.blockSize v.pointer Walk.buffer
      (gather v.part.blockAddress v.disk.image v.part.blockSize) (fun w => Unchanged v w.vol)
      v.part.Reached v.part.Reached := by
  refine ⟨fun w hw => by rw [hw.part], fun w b pos hw hb => ?_, fun w b hw hb => ?_,
    fun w n hw => ⟨hw, rfl⟩⟩
  · have hread := readBlock_reached (fun x => w.buffer (pos + x)) (hw.part ▸ hm)
      (hw.reliable hr) (hw.part.symm ▸ hb)
    unfold readAt
    rw [hread]
    refine ⟨_, rfl, hw.trans ⟨rfl, rfl, id⟩, rfl, ?_⟩
    simp only [hw.part, hw.image]
    funext x
    unfold gather
    by_cases hx : pos ≤ x ∧ x < pos + v.part.blockSize
    · rw [if_neg (by omega), copy_apply_in _ _ (by omega) (by omega),
        copy_apply_in _ _ hx.1 hx.2, Nat.sub_zero]
    · rw [copy_apply_out (w.buffer) _ (by omega)]
      split
      · rfl
      · rw [copy_apply_out _ _ (by omega)]
        congr 1
        omega
  · have hread := readBlock_reached (v := (kmalloc w.vol).2) (kmalloc w.vol).1
      (hw.part ▸ hm) (hw.reliable hr) (hw.part.symm ▸ hb)
    refine ⟨_, _, hread, hw.trans ⟨rfl, rfl, id⟩, rfl, fun k hk => ?_⟩
    simp only [kmalloc, hw.part, hw.image]
    rw [load_copy_in _ _ (by omega) (by omega), Nat.sub_zero]
    rfl

/-- The writes of a walk from the buffer `source`, for targets that are not blocks of
pointers themselves. -/
theorem transfers_writeAt (hm : Mounted v.part) (source : Bytes) (target : Nat → Prop) :
    Transfers writeAt v.part.blockSize v.pointer (fun w => w.vol.disk.image)
      (scatter v.part.blockAddress source (512 * v.part.writtenSectors))
      (fun w => w.vol.part = v.part ∧ w.vol.disk.Reliable ∧ w.buffer = source ∧
        ∀ b, ¬ target b → ∀ x, x < v.part.blockSize → w.vol.disk.image (v.part.blockAddress b + x) =
          v.disk.image (v.part.blockAddress b + x))
      (fun b => v.part.Reached b ∧ ¬ target b) fun b => v.part.Reached b ∧ target b := by
  refine ⟨fun w hw => by rw [hw.1], fun w b pos ⟨hpart, hr, hsource, htables⟩ ⟨hb, htarget⟩ => ?_,
    fun w b ⟨hpart, hr, hsource, htables⟩ ⟨hb, htarget⟩ => ?_, fun w n hw => ⟨hw, rfl⟩⟩
  · have hle := hm.writtenSectors_le
    have hsize := hm.blockSize_eq
    have hwrite := writeBlock_reached (fun x => w.buffer (pos + x)) (hpart ▸ hm) hr
      (hpart.symm ▸ hb)
    have himage : copy w.vol.disk.image (v.part.blockAddress b) (fun x => source (pos + x)) 0
        (512 * v.part.writtenSectors) = scatter v.part.blockAddress source
          (512 * v.part.writtenSectors) w.vol.disk.image b pos := by
      unfold scatter copy
      simp only [Nat.zero_add]
    subst hsource
    unfold writeAt
    rw [hwrite, hpart]
    refine ⟨_, rfl, ⟨hpart, hr, rfl, fun c hc x hx => ?_⟩, rfl, himage⟩
    -- a block of pointers is not the target
    have hapart := hm.blockAddress_apart (b := b) (c := c) fun h => hc (h ▸ htarget)
    unfold Apart at hapart
    rw [← htables c hc x hx]
    exact copy_apply_out (d := v.part.blockAddress b) (n := 512 * v.part.writtenSectors)
      w.vol.disk.image (fun x => w.buffer (pos + x)) (by omega)
  · have hread := readBlock_reached (v := (kmalloc w.vol).2) (kmalloc w.vol).1
      (hpart ▸ hm) hr (hpart.symm ▸ hb)
    refine ⟨_, _, hread, ⟨hpart, hr, hsource, htables⟩, rfl, fun k hk => ?_⟩
    simp only [kmalloc, hpart]
    rw [load_copy_in _ _ (by omega) (by omega), Nat.sub_zero, Volume.pointer]
    refine load_congr fun i hi => ?_
    rw [Nat.add_assoc]
    exact htables b htarget _ (by omega)

end blocks

/-! ## Ranges of blocks -/

section transfers

variable {v w : Volume} {inode dest source : Bytes} {count skip n inodeNumber : Nat}

/-- `ext2_read_inode_blocks` delivers a range of logical blocks. -/
def ReadsBlocks (v : Volume) (inodeNumber : Nat) (inode dest : Bytes) (count skip : Nat) : Prop :=
  (readInodeBlocks v inodeNumber dest count skip).1 = count ∧
    ∀ x, (readInodeBlocks v inodeNumber dest count skip).2.1 x =
      if x < count * v.part.blockSize then
        v.disk.image (v.part.blockAddress (v.logicalBlock inode (skip + x / v.part.blockSize)) +
          x % v.part.blockSize)
      else dest x

/-- `ext2_write_inode_blocks` overwrites a range of logical blocks and nothing else. -/
structure WritesBlocks (v : Volume) (inodeNumber : Nat) (inode source : Bytes) (count skip : Nat) :
    Prop where
  result : (writeInodeBlocks v inodeNumber source count skip).1 = count
  written : ∀ k, k < count → ∀ x, x < v.part.blockSize →
    (writeInodeBlocks v inodeNumber source count skip).2.disk.image
        (v.part.blockAddress (v.logicalBlock inode (skip + k)) + x) =
      source (k * v.part.blockSize + x)
  others : ∀ a, (∀ k, k < count → a < v.part.blockAddress (v.logicalBlock inode (skip + k)) ∨
      v.part.blockAddress (v.logicalBlock inode (skip + k)) + v.part.blockSize ≤ a) →
    (writeInodeBlocks v inodeNumber source count skip).2.disk.image a = v.disk.image a

/-- A logical block and the blocks of pointers on the way to it are not null. -/
def Mapped (v : Volume) (inode : Bytes) (k : Nat) : Prop :=
  v.LogicalAlong inode (fun b => 0 < b) (fun b => 0 < b) k

/-- Transfers of a logical block and of the blocks of pointers reach them. -/
def Placed (v : Volume) (inode : Bytes) (k : Nat) : Prop :=
  v.LogicalAlong inode v.part.Addressable v.part.Addressable k

/-- The logical blocks of a range are different blocks, and not the blocks of pointers
on the way to them. -/
structure Unaliased (v : Volume) (inode : Bytes) (count skip : Nat) : Prop where
  distinct : ∀ i, i < count → ∀ j, j < count →
    v.logicalBlock inode (skip + i) = v.logicalBlock inode (skip + j) → i = j
  tables : ∀ k, k < count → v.LogicalAlong inode
    (fun b => ¬ ∃ j, j < count ∧ b = v.logicalBlock inode (skip + j)) (fun _ => True) (skip + k)

/-- Past the sectors that `ext2_write_block` writes the source has what the disk has. -/
def TailsMatch (v : Volume) (inode source : Bytes) (count skip : Nat) : Prop :=
  ∀ k, k < count → ∀ x, 512 * v.part.writtenSectors ≤ x → x < v.part.blockSize →
    source (k * v.part.blockSize + x) =
      v.disk.image (v.part.blockAddress (v.logicalBlock inode (skip + k)) + x)

theorem reached_of_mapped {k : Nat} (hmapped : Mapped v inode k) (hplaced : Placed v inode k) :
    v.LogicalAlong inode v.part.Reached v.part.Reached k :=
  (Volume.LogicalAlong.and hmapped hplaced).and_lt.mono (fun _ h => ⟨h.1.1, h.1.2, h.2⟩)
    fun _ h => ⟨h.1.1, h.1.2, h.2⟩

theorem readInode_unchanged (hm : Mounted v.part) (hr : v.disk.Reliable)
    (h : readInode v inodeNumber = (some inode, w)) : Unchanged v w := by
  have hread := hm.readDisk_block (kmalloc v).1 (v.part.inodeLba inodeNumber) hr
  simp only [readInode, kmalloc, hm.transferLength] at hread h
  simp only [hread] at h
  rw [if_neg hm.blockSize_pos] at h
  split at h
  · cases h
  · cases h
    exact ⟨rfl, rfl, id⟩

theorem Mounted.pointers_bounds (h : Mounted v.part) :
    256 ≤ v.pointers ∧ v.pointers < 4294967293 := by
  have := h.blockSectors_ge
  have := h.blockSectors_le
  have := h.blockSize_eq
  unfold Volume.pointers
  omega

theorem readInodeBlocks_spec (dest : Bytes) (hm : Mounted v.part) (hr : v.disk.Reliable)
    (hread : readInode v inodeNumber = (some inode, w)) (hw : Unchanged v w) (hskip : skip < 12)
    (hpos : 0 < count) (hcount : count < 4294967296)
    (hreached : ∀ k, k < count → v.LogicalAlong inode v.part.Reached v.part.Reached (skip + k)) :
    ReadsBlocks v inodeNumber inode dest count skip ∧
      Unchanged v (readInodeBlocks v inodeNumber dest count skip).2.2 := by
  obtain ⟨hsize, hsize'⟩ := hm.pointers_bounds
  obtain ⟨w', hrun, hgood, hobs⟩ := inodeBlocks_spec dest inodeNumber (transfers_readAt hm hr)
    (show 4294967293 ≤ EXT2_READ_FAILED by decide) hsize hsize' hread hw hskip hpos hcount hreached
  have heq : readInodeBlocks v inodeNumber dest count skip = ((count : Int), w'.buffer, w'.vol) := by
    unfold readInodeBlocks readTripleIndirectBlocks readDoubleIndirectBlocks readIndirectBlocks
      readDirectBlocks
    rw [hrun]
  unfold ReadsBlocks
  rw [heq]
  refine ⟨⟨rfl, fun x => ?_⟩, hgood⟩
  simp only [hobs]
  exact fold_gather (by have := hm.blockSize_eq; have := hm.blockSectors_ge; omega)

/-- What a write of a range leaves on the disk. -/
theorem writeInodeBlocks_spec (source : Bytes) (hm : Mounted v.part) (hr : v.disk.Reliable)
    (hread : readInode v inodeNumber = (some inode, w)) (hw : Unchanged v w) (hskip : skip < 12)
    (hpos : 0 < count) (hcount : count < 4294967296)
    (hreached : ∀ k, k < count → v.LogicalAlong inode v.part.Reached v.part.Reached (skip + k))
    (hal : Unaliased v inode count skip) :
    (writeInodeBlocks v inodeNumber source count skip).1 = count ∧
      (writeInodeBlocks v inodeNumber source count skip).2.disk.image =
        fold (scatter v.part.blockAddress source (512 * v.part.writtenSectors))
          (fun k => v.logicalBlock inode (skip + k)) v.part.blockSize 0 count v.disk.image := by
  obtain ⟨hsize, hsize'⟩ := hm.pointers_bounds
  obtain ⟨w', hrun, -, hobs⟩ := inodeBlocks_spec source inodeNumber
    (transfers_writeAt hm source fun b => ∃ j, j < count ∧ b = v.logicalBlock inode (skip + j))
    (show 4294967293 ≤ EXT2_WRITE_FAILED by decide) hsize hsize' hread
    ⟨hw.part, hw.reliable hr, rfl, fun b _ x _ => by rw [hw.image]⟩ hskip hpos hcount
    fun k hk => ((hreached k hk).at_leaf.and (hal.tables k hk)).mono (fun _ h => h)
      fun _ h => ⟨h.1.1, k, hk, h.1.2⟩
  have heq : writeInodeBlocks v inodeNumber source count skip = ((count : Int), w'.vol) := by
    unfold writeInodeBlocks writeTripleIndirectBlocks writeDoubleIndirectBlocks writeIndirectBlocks
      writeDirectBlocks
    rw [hrun]
  rw [heq]
  exact ⟨rfl, hobs.trans (by rw [hw.image])⟩

/-- A range from a direct block on is written as far as each block's write reaches. -/
theorem writesBlocks_iff (hm : Mounted v.part) (hr : v.disk.Reliable)
    (hread : readInode v inodeNumber = (some inode, w)) (hw : Unchanged v w) (hskip : skip < 12)
    (hpos : 0 < count) (hcount : count < 4294967296)
    (hreached : ∀ k, k < count → v.LogicalAlong inode v.part.Reached v.part.Reached (skip + k))
    (hal : Unaliased v inode count skip) :
    WritesBlocks v inodeNumber inode source count skip ↔ TailsMatch v inode source count skip := by
  obtain ⟨hresult, himage⟩ := writeInodeBlocks_spec source hm hr hread hw hskip hpos
    hcount hreached hal
  have hle := hm.writtenSectors_le
  have hsize := hm.blockSize_eq
  have hapart {j k : Nat} (hj : j < count) (hk : k < count) (hne : j ≠ k) :=
    hm.blockAddress_apart (p := v.part) fun h => hne (hal.distinct j hj k hk h)
  unfold Apart at hapart
  -- past the sectors written a block keeps what it has
  have htail {k x : Nat} (hk : k < count) (hx : 512 * v.part.writtenSectors ≤ x)
      (hx' : x < v.part.blockSize) :
      (writeInodeBlocks v inodeNumber source count skip).2.disk.image
          (v.part.blockAddress (v.logicalBlock inode (skip + k)) + x) =
        v.disk.image (v.part.blockAddress (v.logicalBlock inode (skip + k)) + x) := by
    rw [himage]
    refine fold_scatter_out fun j hj => ?_
    by_cases hjk : j = k
    · subst hjk
      omega
    · have := hapart hj hk hjk
      omega
  constructor
  · intro h k hk x hx hx'
    rw [← h.written k hk x hx', htail hk hx hx']
  · intro h
    refine ⟨hresult, fun k hk x hx => ?_, fun a ha => ?_⟩
    · by_cases hin : x < 512 * v.part.writtenSectors
      · rw [himage]
        refine fold_scatter_in hk hin fun j hj hjk => ?_
        have := hapart hj hk hjk
        unfold Apart
        omega
      · rw [htail hk (by omega) hx, h k hk x (by omega) hx]
    · rw [himage]
      exact fold_scatter_out fun k hk => by have := ha k hk; omega

/-- A range that is read starts at a direct block and is counted in 32 bits. -/
theorem ReadsBlocks.bounds (h : ReadsBlocks v inodeNumber inode dest count skip)
    (hread : readInode v inodeNumber = (some inode, w)) (hpos : 1 ≤ count) :
    skip < 12 ∧ count < 4294967296 := by
  have hresult := h.1
  unfold readInodeBlocks at hresult
  simp only at hresult
  constructor
  · by_contra hge
    unfold readDirectBlocks at hresult
    rw [inodeBlocks_of_skip inodeNumber hread (by omega)] at hresult
    omega
  · have hlt : (inodeBlocks EXT2_READ_FAILED readDirectBlocks readIndirectBlocks
        readDoubleIndirectBlocks readTripleIndirectBlocks v inodeNumber dest count skip).1 <
        4294967296 := inodeBlocks_lt inodeNumber (by decide)
    omega

/-- For blocks that transfers reach and that are no aliases, a range of logical blocks is
read and overwritten exactly when it starts at a direct block, is counted in 32 bits, and
the source agrees with the disk past the sectors that a write of a block reaches; without
the first two conditions it never is. -/
theorem inodeBlocks_transfer_iff (hm : Mounted v.part) (hr : v.disk.Reliable)
    (hread : (readInode v inodeNumber).1 = some inode) (hmapped : ∀ k, k < n → Mapped v inode k)
    (hpos : 1 ≤ count) (hn : skip + count ≤ n) :
    ((∀ k, k < count → Placed v inode (skip + k)) → Unaliased v inode count skip →
      (ReadsBlocks v inodeNumber inode dest count skip ∧
          WritesBlocks v inodeNumber inode source count skip ↔
        skip < 12 ∧ count < 4294967296 ∧ TailsMatch v inode source count skip)) ∧
    (ReadsBlocks v inodeNumber inode dest count skip ∧
        WritesBlocks v inodeNumber inode source count skip →
      skip < 12 ∧ count < 4294967296) := by
  obtain ⟨w, hw⟩ : ∃ w, readInode v inodeNumber = (some inode, w) := ⟨_, Prod.ext hread rfl⟩
  have hsame := readInode_unchanged hm hr hw
  refine ⟨fun hplaced hal => ⟨fun ⟨hreads, hwrites⟩ => ?_, fun ⟨hskip, hcount, htails⟩ => ?_⟩,
    fun h => h.1.bounds hw hpos⟩
  · obtain ⟨hskip, hcount⟩ := hreads.bounds hw hpos
    exact ⟨hskip, hcount, (writesBlocks_iff hm hr hw hsame hskip hpos hcount
      (fun k hk => reached_of_mapped (hmapped _ (by omega)) (hplaced k hk)) hal).mp hwrites⟩
  · have hreached (k : Nat) (hk : k < count) :=
      reached_of_mapped (hmapped (skip + k) (by omega)) (hplaced k hk)
    exact ⟨(readInodeBlocks_spec dest hm hr hw hsame hskip hpos hcount hreached).1,
      (writesBlocks_iff hm hr hw hsame hskip hpos hcount hreached hal).mpr htails⟩

/-- An inode of 13 blocks, 16 to 27 and 29, with its block of pointers in block 28. -/
def treeImage : Bytes := fun a =>
  if 40 ≤ a ∧ a < 92 ∧ a % 4 = 0 then BitVec.ofNat 8 (16 + (a - 40) / 4)
  else if a = 28672 then 29
  else 0

def treeVolume : Volume where
  disk := { image := treeImage, fails := fun _ => false, clock := 0 }
  part := smallPartition
  buffers := fun _ _ => 0
  allocated := 0

def treeInode : Bytes := fun x => if x < 128 then treeImage x else 0

theorem readInode_treeVolume : (readInode treeVolume 1).1 = some treeInode := by
  have hread := mounted_smallPartition.readDisk_block (d := treeVolume.disk) (fun _ => 0)
    (smallPartition.inodeLba 1) fun _ => rfl
  have hlba : smallPartition.inodeLba 1 = 0 := by decide +kernel
  have hoffset : smallPartition.inodeOffset 1 = 0 := by decide +kernel
  have hsize : smallPartition.inodeSize = 128 := by decide +kernel
  have hblock : smallPartition.blockSize = 1024 := by decide +kernel
  rw [hlba, hblock] at hread
  simp only [readInode, kmalloc, treeVolume, mounted_smallPartition.transferLength] at hread ⊢
  simp only [hlba, hoffset, hsize, hblock, hread]
  rw [if_neg (by decide), if_neg (by decide)]
  simp only [Option.some.injEq]
  funext x
  unfold treeInode
  by_cases hx : x < 128
  · rw [if_pos hx, copy_apply_in _ _ (by omega) (by omega), copy_apply_in _ _ (by omega) (by omega),
      Nat.zero_add, Nat.sub_zero, Nat.zero_add, Nat.sub_zero, show sext32 0 = 0 from rfl,
      window_eq (by omega), Nat.mul_zero, Nat.zero_add]
  · rw [if_neg hx, copy_apply_out _ _ (by omega)]

theorem mapped_treeVolume {k : Nat} (hk : k < 13) : Mapped treeVolume treeInode k := by
  have hdirect : ∀ k, k < 13 → 0 < iBlock treeInode k := by decide +kernel
  by_cases hlast : k < 12
  · exact (Volume.logicalAlong_direct hlast).mpr (hdirect k hk)
  · obtain rfl : k = 12 + 0 := by omega
    refine (Volume.logicalAlong_single (by decide +kernel)).mpr ?_
    simp only [Along, Nat.zero_div, Nat.zero_mod]
    exact ⟨hdirect 12 (by decide), by decide +kernel⟩

/-- Two blocks from block 3 on, the second half of each left as it is. -/
theorem inodeBlocks_transfer_iff_tree :
    ReadsBlocks treeVolume 1 treeInode (fun _ => 0) 2 3 ∧
      WritesBlocks treeVolume 1 treeInode (fun x => if x % 1024 < 512 then 7 else 0) 2 3 := by
  have hblock : ∀ k, k < 2 → treeVolume.logicalBlock treeInode (3 + k) = 19 + k := by decide +kernel
  have hplaced : ∀ k, k < 2 → treeVolume.part.Addressable (iBlock treeInode (3 + k)) := by
    decide +kernel
  refine ((inodeBlocks_transfer_iff (n := 13) mounted_smallPartition (fun _ => rfl)
    readInode_treeVolume (fun k hk => mapped_treeVolume hk) (by omega) (by omega)).1
    (fun k hk => (Volume.logicalAlong_direct (by omega)).mpr (hplaced k hk))
    ⟨fun i hi j hj h => ?_, fun k hk => (Volume.logicalAlong_direct (by omega)).mpr trivial⟩).mpr
    ⟨by omega, by omega, fun k hk x hx hx' => ?_⟩
  · rw [hblock i hi, hblock j hj] at h
    omega
  · have hsize : treeVolume.part.blockSize = 1024 := by decide +kernel
    have hsectors : treeVolume.part.writtenSectors = 1 := by decide +kernel
    have haddress : ∀ k, k < 2 → treeVolume.part.blockAddress (19 + k) = 1024 * (19 + k) := by
      decide +kernel
    rw [hsectors] at hx
    rw [hsize] at hx'
    have himage : treeVolume.disk.image (1024 * (19 + k) + x) = 0 := by
      change treeImage _ = 0
      rw [treeImage, if_neg (by omega), if_neg (by omega)]
    rw [hblock k hk, haddress k hk, himage, hsize]
    exact if_neg (by omega)

/-- The block after the direct ones is not read. -/
theorem inodeBlocks_not_transferred : ¬ ∀ v inodeNumber inode dest source n count skip,
    Mounted v.part → v.disk.Reliable → (readInode v inodeNumber).1 = some inode →
    (∀ k, k < n → Mapped v inode k) → 1 ≤ count → skip + count ≤ n →
    ReadsBlocks v inodeNumber inode dest count skip ∧
      WritesBlocks v inodeNumber inode source count skip := by
  intro h
  have hreads := (h treeVolume 1 treeInode (fun _ => 0) (fun _ => 0) 13 1 12 mounted_smallPartition
    (fun _ => rfl) readInode_treeVolume (fun k hk => mapped_treeVolume hk) (by omega) (by omega)).1
  obtain ⟨w, hw⟩ : ∃ w, readInode treeVolume 1 = (some treeInode, w) :=
    ⟨(readInode treeVolume 1).2, by rw [← readInode_treeVolume]⟩
  have hbounds := hreads.bounds hw (Nat.le_refl 1)
  omega

end transfers
end UnedKernel.Ext2
