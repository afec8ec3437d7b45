import UnedKernel.Ext2.Register
import UnedKernel.Ext2.Flush

/-! # Registering a partition again after a flush

A flush writes the superblock where `ext2_partition_register_partition` looks for
it. It writes the group descriptors at a sector that it takes from the number of a
block, and a partition that is registered again has the old ones. -/

namespace UnedKernel.Ext2
open ByteMem Word Sectors

namespace Partition

/-- The sector from which registering reads the group descriptors. -/
def tableSector (p : Partition) : Nat := u32 (p.lba + p.blockSectors * p.bgdtBlock)

/-- The places that registering gives, with the table of descriptors in the first group and the
groups below sector 2^31. -/
structure TablePlaced (p : Partition) : Prop where
  sbBlock : p.sbBlock = SB_OFFSET_LBA
  bgdtBlock : p.bgdtBlock = if p.blockSize = 1024 then 2 else 1
  backup : 0 < p.backupBgsCount ∧ p.backupBgs 0 ≠ -1
  groups : 0 < p.groupNumber ∧ p.groupNumber ≤ 8192
  table : p.blockSectors * p.bgdtBlock + p.descriptorsSize ≤ p.sectorsPerGroup
  last : p.lba + p.sectorsPerGroup * p.groupNumber < 2147483648

end Partition

section

variable {v w : Volume} {p q : Partition} {d d' : Disk} {env : RegisterEnv} {superblock : Bytes}
  {lba i n x : Nat}

/-! ## What a flush writes -/

theorem operateOnBgFrom_part {callback : Volume → Nat → Bool × Volume}
    (hpart : ∀ v i, (callback v i).2.part = v.part) : (operateOnBgFrom callback v i n).2.part = v.part := by
  induction n generalizing v i with
  | zero => rfl
  | succ n ih =>
    rw [operateOnBgFrom]
    simp only
    split
    · exact hpart v i
    · exact ih.trans (hpart v i)

theorem flushBg_part (v : Volume) (i : Nat) : (flushBg v i).2.part = v.part := rfl

theorem flushSb_part (v : Volume) (i : Nat) : (flushSb v i).2.part = v.part := by
  unfold flushSb
  split <;> rfl

theorem Partition.sectors_lt (hi : i < p.groupNumber) :
    p.sectorsPerGroup * i + p.sectorsPerGroup ≤ p.sectorsPerGroup * p.groupNumber := by
  rw [← Nat.mul_succ]
  exact Nat.mul_le_mul_left _ hi

namespace Partition.TablePlaced

theorem descriptorsSize_eq (h : p.TablePlaced) (hm : Mounted p) :
    p.descriptorsSize = (p.groupNumber * 32 + 511) / 512 := by
  have hg := h.groups
  unfold Partition.descriptorsSize sizeofGroup
  rw [hm.sectorSize]
  simp only
  unfold u32
  split <;> omega

/-- The sectors of a flush of group `i` start at the same sector of each group. -/
theorem sectors_eq (h : p.TablePlaced) (hm : Mounted p) (hi : i < p.groupNumber) :
    p.bgSector i = p.lba + p.sectorsPerGroup * i + p.bgdtBlock ∧
      p.sbSector i = p.lba + p.sectorsPerGroup * i + 2 := by
  have hlast := h.last
  have hlt := sectors_lt hi
  have htable := h.table
  have hsize := h.descriptorsSize_eq hm
  have hg := h.groups.1
  have hle : 2 * p.bgdtBlock ≤ p.blockSectors * p.bgdtBlock := Nat.mul_le_mul_right _ hm.blockSectors_ge
  have hpos : 1 ≤ p.bgdtBlock := by
    rw [h.bgdtBlock]
    split <;> omega
  unfold Partition.bgSector Partition.sbSector
  rw [h.sbBlock, SB_OFFSET_LBA, u32_of_lt (x := p.sectorsPerGroup * i) (by omega)]
  exact ⟨u32_of_lt (by omega), u32_of_lt (by omega)⟩

theorem descriptorsCount (h : p.TablePlaced) (hm : Mounted p) :
    sizeToBlocks (sext32 p.descriptorsSize) = 1 := by
  have hg := h.groups
  rw [h.descriptorsSize_eq hm, sext32_of_lt (by omega)]
  unfold sizeToBlocks u64
  omega

theorem tableSector_eq (h : p.TablePlaced) : p.tableSector = p.lba + p.blockSectors * p.bgdtBlock := by
  have hlast := h.last
  have hlt := sectors_lt h.groups.1
  have htable := h.table
  exact u32_of_lt (by omega)

/-- The table starts behind the superblock. -/
theorem table_ge (h : p.TablePlaced) (hm : Mounted p) :
    p.bgdtBlock + 1 ≤ p.blockSectors * p.bgdtBlock ∧ 4 ≤ p.blockSectors * p.bgdtBlock := by
  have hsize := hm.blockSize_eq
  have hpow := hm.blockSectors_pow
  rw [h.bgdtBlock]
  split
  · omega
  · have hlog : p.super Superblock.logBlockSize ≠ 0 := fun h0 => by
      rw [h0, Nat.zero_add, Nat.pow_one] at hpow
      omega
    have hle : 2 ^ 2 ≤ 2 ^ (p.super Superblock.logBlockSize + 1) :=
      Nat.pow_le_pow_right (by omega) (by omega)
    rw [← hpow] at hle
    omega

/-- No flush writes to the table of descriptors. -/
theorem table_apart (h : p.TablePlaced) (hm : Mounted p) (s : Nat)
    (hs : Partition.Spans p.tableSector p.descriptorsSize s) : ¬ p.FlushSpan s := by
  have hlast := h.last
  have htable := h.table
  have hge := h.table_ge hm
  rw [h.tableSector_eq] at hs
  rintro ⟨i, hi, hspan⟩
  have hlt := sectors_lt hi
  obtain ⟨hbg, hsb⟩ := h.sectors_eq hm hi
  rw [hbg, hsb, h.descriptorsCount hm] at hspan
  by_cases hi0 : i = 0
  · subst hi0
    rw [Nat.mul_zero, Nat.add_zero] at hspan
    have hfirst := sectors_lt h.groups.1
    rcases hspan with hspan | hspan
    · exact spans_apart (by omega) (by omega) hspan hs
    · exact spans_apart (by omega) (by omega) hspan hs
  · have hnext : p.sectorsPerGroup ≤ p.sectorsPerGroup * i := Nat.le_mul_of_pos_right _ (by omega)
    rcases hspan with hspan | hspan
    · exact spans_apart (by omega) (by omega) hs hspan
    · exact spans_apart (by omega) (by omega) hs hspan

end Partition.TablePlaced

/-- A superblock that is flushed for the first group. -/
theorem flushSb_image (hr : v.disk.Reliable)
    (hbackup : 0 < v.part.backupBgsCount ∧ v.part.backupBgs 0 ≠ -1) :
    (flushSb v 0).2.disk.image = put v.disk.image (sext32 (v.part.sbSector 0)) v.part.sb 1 := by
  have hcount : sizeToBlocks 2 = 1 := by decide
  have hlt : v.part.sbSector 0 < 4294967296 := u32_lt _
  unfold flushSb
  rw [if_neg (by omega)]
  simp only [Disk.writeDisk_reliable hr (show 2 < 2147483648 by omega) hlt, hcount]
  rfl

/-- The first sector of the superblock after a flush, and the table of descriptors. -/
theorem flushPartition_spec (hm : Mounted v.part) (hr : v.disk.Reliable) (h : v.part.TablePlaced) :
    (flushPartition v).disk.Reliable ∧
    (∀ f : Field, f.Within 512 → f.get ((flushPartition v).disk.superblock v.part.lba) 0 = v.part.super f) ∧
    ∀ x, x < 512 * v.part.descriptorsSize → (flushPartition v).disk.bytesFrom v.part.tableSector x =
      v.disk.bytesFrom v.part.tableSector x := by
  have hall := (Alters.refl (S := v.part.FlushSpan) v).flushPartition fun _ => id
  refine ⟨hall.reliable hr, fun f hf => Field.get_congr hf fun x _ hx => ?_, fun x hx => ?_⟩
  · -- the flush for the first group is the last write to the sector
    obtain ⟨-, hsector⟩ := h.sectors_eq hm h.groups.1
    rw [Nat.mul_zero, Nat.add_zero] at hsector
    have hlast := h.last
    have hfirst := Partition.sectors_lt h.groups.1
    obtain ⟨w, hw⟩ : ∃ w, (operateOnBg v flushBg).2 = w := ⟨_, rfl⟩
    have hpart : w.part = v.part := hw ▸ operateOnBgFrom_part flushBg_part
    have hbg : Alters v.part.FlushSpan v w := hw ▸ (Alters.refl v).operateOnBg (fun w i _ hi h =>
      h.flushBg i fun s hs => ⟨i, hi, .inl hs⟩) (Nat.zero_le 0) (by omega)
    have hput := flushSb_image (v := w) (hbg.reliable hr) (hpart ▸ h.backup)
    obtain ⟨y, hy⟩ : ∃ y, (flushSb w 0).2 = y := ⟨_, rfl⟩
    have hypart : y.part = v.part := (hy ▸ flushSb_part w 0).trans hpart
    rw [hy, hpart, hsector] at hput
    have hrest : Alters (fun s => ¬ Partition.Spans (v.part.lba + 2) 1 s) y
        (operateOnBg w flushSb).2 := by
      obtain ⟨k, hk⟩ := Nat.exists_eq_add_of_lt h.groups.1
      rw [operateOnBg, hpart, hk, Nat.zero_add, operateOnBgFrom]
      simp only [hy]
      split
      · exact .refl y
      · refine (Alters.refl y).operateOnBg (m := 1) (fun x i hpos hi halt => halt.flushSb i fun s hs => ?_)
          (Nat.le_refl 1) (by rw [hypart]; omega)
        rw [hypart] at hi hs
        have hlt := Partition.sectors_lt hi
        have hnext : v.part.sectorsPerGroup ≤ v.part.sectorsPerGroup * i := Nat.le_mul_of_pos_right _ hpos
        have htable := h.table
        have hge := h.table_ge hm
        rw [(h.sectors_eq hm hi).2] at hs
        exact fun hs' => Partition.spans_apart (by omega) (by omega) hs' hs
    have hsame := hrest.window_eq (m := 1) (k := x) (fun _ => not_not_intro)
      (show v.part.lba + 2 < 4294967296 by omega) (by omega) (by omega)
    have hlba : u32 (v.part.lba + SB_OFFSET_LBA) = v.part.lba + 2 := u32_of_lt (by unfold SB_OFFSET_LBA; omega)
    have hend : (flushPartition v).disk.image = (operateOnBg w flushSb).2.disk.image := by
      rw [← hw]
      rfl
    rw [Disk.superblock, Disk.bytesFrom, hend, hlba, hsame, hput,
      window_put_in (Disk.sext32_lt (by omega)) (by omega) (by omega)]
  · have hg := h.groups
    exact hall.window_eq (h.table_apart hm) (u32_lt _) (by rw [h.descriptorsSize_eq hm]; omega) hx

/-! ## What registering reads -/

/-- The search for superblocks writes nothing. -/
theorem backupsFrom_disk {sectorsPerGroup : Nat} {buffer : Bytes} {b : Backups} {o : Option Backups}
    (h : backupsFrom lba sectorsPerGroup d buffer b i n = .ok (o, d')) :
    d'.image = d.image ∧ (d.Reliable → d'.Reliable) := by
  induction n generalizing d buffer b i with
  | zero =>
    cases h
    exact ⟨rfl, id⟩
  | succ n ih =>
    simp only [backupsFrom, Disk.readDisk_eq] at h
    generalize u32 _ = r at h
    split at h
    · cases h
      exact ⟨rfl, id⟩
    · split at h
      · split at h
        · cases h
        · have hrest := ih h
          exact ⟨hrest.1, hrest.2⟩
      · have hrest := ih h
        exact ⟨hrest.1, hrest.2⟩

theorem registerGroups_gd {sectorsPerBlock bgdtBlock groups : Nat} {b : Backups} (hr : d.Reliable)
    (hgroups : groups ≤ 8192) (h : registerGroups env d superblock lba 512 sectorsPerBlock bgdtBlock
      groups b = (some p, d')) (hx : x < 512 * descriptorSectors groups 512) :
    p.gd x = d.bytesFrom (u32 (lba + sectorsPerBlock * bgdtBlock)) x := by
  have hsize : descriptorSectors groups 512 ≤ 512 := by
    unfold descriptorSectors sizeofGroup u32
    simp only
    split <;> omega
  unfold registerGroups at h
  rw [u32_of_lt (by omega)] at h
  simp only [Disk.readDisk_reliable hr (show descriptorSectors groups 512 * 512 < 2147483648 by omega)] at h
  have hblocks : 512 * sizeToBlocks (descriptorSectors groups 512 * 512) =
      descriptorSectors groups 512 * 512 := by
    unfold sizeToBlocks u64
    omega
  simp only [hblocks] at h
  split at h
  · cases h
  · cases h
    simp only
    rw [copy_apply_in _ _ (Nat.zero_le x) (by omega), copy_apply_in _ _ (by omega) (by omega)]
    exact congrArg _ (by omega)

/-- The fields of the superblock, and the descriptors from the table. -/
theorem registerPartition_reads (hr : d.Reliable) (hsector : env.sectorSize = some 512)
    (hlog : Superblock.logBlockSize.get (d.superblock lba) 0 ≤ 20)
    (hgroups : Superblock.blockGroups (d.superblock lba) ≤ 8192)
    (h : registerPartition env d lba = .ok (some p, d')) :
    (∀ f : Field, f.Within 512 → p.super f = f.get (d.superblock lba) 0) ∧
    ∀ x, x < 512 * descriptorSectors (Superblock.blockGroups (d.superblock lba)) 512 → p.gd x =
      d.bytesFrom (u32 (lba + u32 (1024 <<< Superblock.logBlockSize.get (d.superblock lba) 0) / 512 *
        if u32 (1024 <<< Superblock.logBlockSize.get (d.superblock lba) 0) = 1024 then 2 else 1)) x := by
  have hcount : sizeToBlocks 1024 = 2 := by decide
  unfold registerPartition at h
  split at h
  · cases h
  simp only [hsector, Disk.readDisk_reliable hr (show 1024 < 2147483648 by omega), hcount] at h
  rw [if_neg (by omega), if_neg (by omega)] at h
  split at h
  · cases h
  obtain ⟨superblock, hbuffer⟩ : ∃ b, copy env.superblockBuffer 0 (window d.image (sext32
    (u32 (lba + SB_OFFSET_LBA)))) 0 (512 * 2) = b := ⟨_, rfl⟩
  rw [hbuffer] at h
  have hfield (f : Field) (hf : f.Within 512) : f.get superblock 0 = f.get (d.superblock lba) 0 := by
    refine Field.get_congr hf fun x _ hx => ?_
    rw [← hbuffer, copy_apply_in _ _ (Nat.zero_le x) (by omega), Nat.sub_zero, Nat.zero_add]
    rfl
  obtain ⟨-, -, hsuper⟩ := registerSuperblock_some h
  refine ⟨fun f hf => (hsuper.super f (by unfold Field.Within at hf ⊢; omega)).trans (hfield f hf), ?_⟩
  unfold registerSuperblock at h
  simp only [hfield Superblock.logBlockSize (by decide)] at h
  rw [if_neg (by omega)] at h
  obtain ⟨sectorsPerBlock, hspb, h⟩ := of_bind_eq_ok h
  obtain ⟨first, hfirst, h⟩ := of_bind_eq_ok h
  obtain ⟨second, -, h⟩ := of_bind_eq_ok h
  obtain ⟨-, hspb⟩ := of_divide_eq_ok hspb
  obtain ⟨-, hfirst⟩ := of_divide_eq_ok hfirst
  rw [hfield _ (by decide), hfield _ (by decide)] at hfirst
  split at h
  · cases h
  obtain ⟨⟨o, d''⟩, hbackups, h⟩ := of_bind_eq_ok h
  obtain ⟨himage, hreliable⟩ := backupsFrom_disk hbackups
  cases o with
  | none => cases h
  | some b =>
    intro x hx
    have hgroup : first = Superblock.blockGroups (d.superblock lba) := hfirst
    have hgd := registerGroups_gd (hreliable hr) (by omega) (Except.ok.inj h) (hgroup ▸ hx)
    have hdiv : u32 (1024 <<< Superblock.logBlockSize.get (d.superblock lba) 0) % 512 = 0 := by
      rw [Nat.shiftLeft_eq]
      unfold u32
      omega
    rw [divideRoundedUp, if_neg (not_not_intro hdiv)] at hspb
    rw [hgd, Disk.bytesFrom, Disk.bytesFrom, himage, hspb]
    rfl

/-- Whatever happens between the two, a partition that is registered after a flush has the
superblock of the flush and the group descriptors of the registration before: the counters of the
groups are lost. -/
theorem remount_after_flush {S : Nat → Prop} (halters : Alters S v w) (hm : Mounted v.part)
    (hr : v.disk.Reliable)
    (hS : ∀ s, Partition.Spans v.part.tableSector v.part.descriptorsSize s → ¬ S s)
    (hloaded : ∀ x, x < 512 * v.part.descriptorsSize →
      v.part.gd x = v.disk.bytesFrom v.part.tableSector x)
    (h : w.part.TablePlaced) (hsector : env.sectorSize = some 512)
    (hregister : registerPartition env (flushPartition w).disk w.part.lba = .ok (some q, d')) :
    (∀ f : Field, f.Within 512 → q.super f = w.part.super f) ∧
    ∀ (f : Field) (g : Nat), f.Within sizeofGroup → g < v.part.groupNumber →
      q.group f g = v.part.group f g := by
  have hl := halters.layout
  have hm' := hl.mounted hm
  have hg := h.groups
  obtain ⟨hreliable, hsuper, htable⟩ := flushPartition_spec hm' (halters.reliable hr) h
  have hlog := hsuper Superblock.logBlockSize (by decide)
  have hgroups : Superblock.blockGroups ((flushPartition w).disk.superblock w.part.lba) =
      w.part.groupNumber := by
    rw [Superblock.blockGroups, hsuper _ (by decide), hsuper _ (by decide), ← hm'.blockGroups]
  obtain ⟨hfield, hgd⟩ := registerPartition_reads hreliable hsector (hlog ▸ hm'.logBlockSize)
    (hgroups ▸ hg.2) hregister
  refine ⟨fun f hf => (hfield f hf).trans (hsuper f hf), fun f g hf hlt => ?_⟩
  have hsectors : w.part.tableSector = v.part.tableSector := by
    rw [Partition.tableSector, Partition.tableSector, hl.lba, hl.blockSectors, halters.bgdtBlock]
  have hsize := halters.descriptorsSize
  have hbytes := h.descriptorsSize_eq hm'
  rw [hgroups, hlog] at hgd
  have hcount : descriptorSectors w.part.groupNumber 512 = w.part.descriptorsSize := by
    rw [Partition.descriptorsSize, descriptorSectors, hm'.sectorSize]
  have hblock : u32 (1024 <<< w.part.super Superblock.logBlockSize) = w.part.blockSize := by
    have := hm'.logBlockSize
    unfold Partition.super at this ⊢
    rw [Partition.blockSize, Nat.mod_eq_of_lt (by omega)]
  rw [hcount, hblock, ← h.bgdtBlock] at hgd
  rw [hl.groupNumber] at hbytes
  unfold sizeofGroup at hf
  refine Field.get_congr hf fun x hx hx' => ?_
  unfold sizeofGroup at hx hx'
  have hxlt : x < 512 * w.part.descriptorsSize := by omega
  rw [hgd x hxlt, ← Partition.blockSectors, ← Partition.tableSector, htable x hxlt, hsectors,
    hloaded x (hsize ▸ hxlt)]
  have hnumber := hl.groupNumber
  exact halters.window_eq hS (u32_lt _) (by omega) (hsize ▸ hxlt)

end

/-- The small partition with the magic, registered from a disk that holds its descriptors. -/
def mountVolume : Volume where
  disk :=
    { image := fun a => if 2048 ≤ a ∧ a < 2560 then smallPartition.gd (a - 2048)
        else if a = 4095 then 128 else 0
      fails := fun _ => false
      clock := 0 }
  part := smallPartition.setSuper Superblock.magic EXT2_SUPER_MAGIC
  buffers := fun _ _ => 0
  allocated := 0

/-- A block is allocated: the superblock counts it, the group does not. -/
theorem remount_after_flush_allocated : ∃ q d',
    registerPartition bareEnv (flushPartition (allocateBlock mountVolume).2).disk 0 = .ok (some q, d') ∧
      q.super Superblock.freeBlocksCount = 4094 ∧ q.group BlockGroup.freeBlocksCount 0 = 4095 := by
  have hok : ((registerPartition bareEnv (flushPartition (allocateBlock mountVolume).2).disk 0).toOption.bind
      Prod.fst).isSome = true := by decide +kernel
  have hm : Mounted mountVolume.part :=
    ⟨rfl, by decide +kernel, by decide, by decide +kernel, by decide +kernel, by decide +kernel,
      by decide +kernel⟩
  have hsector : mountVolume.part.tableSector = 4 := by decide +kernel
  have hsize : mountVolume.part.descriptorsSize = 1 := by decide +kernel
  have hplaced : (allocateBlock mountVolume).2.part.TablePlaced :=
    ⟨by decide +kernel, by decide +kernel, by decide +kernel, by decide +kernel, by decide +kernel,
      by decide +kernel⟩
  have hlba : (allocateBlock mountVolume).2.part.lba = 0 := by decide +kernel
  have hfree : (allocateBlock mountVolume).2.part.super Superblock.freeBlocksCount = 4094 := by
    decide +kernel
  have hgroup : mountVolume.part.group BlockGroup.freeBlocksCount 0 = 4095 := by decide +kernel
  cases hregister : registerPartition bareEnv (flushPartition (allocateBlock mountVolume).2).disk 0 with
  | error fault =>
    rw [hregister] at hok
    cases hok
  | ok r =>
    rw [hregister] at hok
    obtain ⟨q, d'⟩ := r
    cases q with
    | none => cases hok
    | some q =>
      have happart (s : Nat) (hs : Partition.Spans mountVolume.part.tableSector
          mountVolume.part.descriptorsSize s) : ¬ mountVolume.part.BitmapSpan s := by
        rintro ⟨g, hg, hspan⟩
        obtain rfl : g = 0 := Nat.lt_one_iff.mp hg
        have hlba : mountVolume.part.blockLba (mountVolume.part.group BlockGroup.blockBitmap 0) = 6 := by
          decide +kernel
        have hq : mountVolume.part.blockSectors = 2 := by decide +kernel
        rw [hsector, hsize] at hs
        rw [Partition.BlockSpan, hlba, hq] at hspan
        exact Partition.spans_apart (by omega) (by omega) hs hspan
      have hloaded (x : Nat) (hx : x < 512 * mountVolume.part.descriptorsSize) :
          mountVolume.part.gd x = mountVolume.disk.bytesFrom mountVolume.part.tableSector x := by
        rw [hsize] at hx
        rw [hsector, Disk.bytesFrom, show sext32 4 = 4 from rfl, window_eq (by omega)]
        change smallPartition.gd x = if 2048 ≤ 512 * 4 + x ∧ 512 * 4 + x < 2560 then _ else _
        rw [if_pos (by omega), Nat.add_sub_cancel_left]
      obtain ⟨hsuper, hgd⟩ := remount_after_flush ((Alters.refl mountVolume).allocateBlock hm fun _ => id)
        hm (fun _ => rfl) happart hloaded hplaced (show bareEnv.sectorSize = some 512 from rfl)
        (hlba ▸ hregister)
      exact ⟨q, d', rfl, (hsuper _ (by decide)).trans hfree,
        (hgd _ 0 (by decide) (by decide)).trans hgroup⟩

end UnedKernel.Ext2
