import UnedKernel.Ext2.Path

/-! # Registering a partition

`ext2_partition_register_partition` takes its divisors, a shift and a loop bound
from the superblock on the disk. The names of the partition and its link are
left out. -/

namespace UnedKernel.Ext2
open ByteMem Word Sectors

def EXT2_SUPER_MAGIC : Nat := 0xEF53
def SB_OFFSET_LBA : Nat := 2

/-- The length of `backup_bgs`. -/
def BACKUP_BGS : Nat := 64

/-- What has no meaning in C. -/
inductive RegisterFault where
  /-- A shift by the width of an `int` or more. -/
  | shift
  | division
  /-- An index outside `backup_bgs`. -/
  | backupBgs
  deriving DecidableEq

/-- `DIVIDE_ROUNDED_UP` of 32-bit operands from the disk. -/
def divide (x y : Nat) : Except RegisterFault Nat :=
  if y = 0 then .error .division else .ok (divideRoundedUp x y)

/-- The groups whose first sectors hold a superblock. -/
structure Backups where
  bgs : Nat → Int
  count : Nat

namespace Backups

/-- `int32_t backup_bgs[64] = {-1}`. -/
def initial : Backups := ⟨fun k => if k = 0 then -1 else 0, 0⟩

def push (b : Backups) (i : Nat) : Except RegisterFault Backups :=
  if b.count < BACKUP_BGS then .ok ⟨Function.update b.bgs b.count (int32 i), b.count + 1⟩
  else .error .backupBgs

end Backups

/-- The sector that the loop over the groups reads for group `i`. -/
def groupLba (lba sectorsPerGroup i : Nat) : Nat := u32 (lba + i * sectorsPerGroup + SB_OFFSET_LBA)

/-- The loop over the groups from group `i` on, `n` of them left. `none` is a superblock that
cannot be read. -/
def backupsFrom (lba sectorsPerGroup : Nat) (d : Disk) (buffer : Bytes) (b : Backups) (i : Nat) :
    Nat → Except RegisterFault (Option Backups × Disk)
  | 0 => .ok (some b, d)
  | n + 1 =>
    let (r, buffer, d) := readDisk d buffer (groupLba lba sectorsPerGroup i) 1024
    if r = 0 then .ok (none, d)
    else if Superblock.magic.get buffer 0 = EXT2_SUPER_MAGIC then
      match b.push i with
      | .error fault => .error fault
      | .ok b => backupsFrom lba sectorsPerGroup d buffer b (i + 1) n
    else backupsFrom lba sectorsPerGroup d buffer b (i + 1) n

/-- What the function finds besides the disk: whether `ext2_check_status` holds, what `ioctl_disk`
gives for the size of a sector, and the contents of its two buffers on the stack and of
those that `kmalloc` hands out. -/
structure RegisterEnv where
  ready : Bool
  sectorSize : Option Nat
  superblockBuffer : Bytes
  dummyBuffer : Bytes
  buffers : Nat → Bytes

/-- `block_group_descriptors_size`: the operands of this division are 64 bits wide. -/
def descriptorSectors (groups sectorSize : Nat) : Nat :=
  let bytes := groups * sizeofGroup
  u32 (if bytes % sectorSize ≠ 0 then (bytes + sectorSize - 1) / sectorSize else bytes / sectorSize)

/-- The rest of the function, from the group descriptors on. -/
def registerGroups (env : RegisterEnv) (d : Disk) (superblock : Bytes)
    (lba sectorSize sectorsPerBlock bgdtBlock groups : Nat) (b : Backups) : Option Partition × Disk :=
  let size := u32 (descriptorSectors groups sectorSize * sectorSize)
  let (r, descriptors, d) := readDisk d (env.buffers 0) (u32 (lba + sectorsPerBlock * bgdtBlock)) size
  if r = 0 then (none, d)
  else (some {
    backupBgs := b.bgs
    backupBgsCount := b.count
    lba := lba
    groupNumber := groups
    sectorSize := sectorSize
    bgdtBlock := bgdtBlock
    sbBlock := SB_OFFSET_LBA
    flushRequired := false
    sb := copy (env.buffers 1) 0 superblock 0 1024
    gd := copy (env.buffers 2) 0 descriptors 0 size }, d)

/-- `ext2_partition_register_partition` with a superblock that has the magic. -/
def registerSuperblock (env : RegisterEnv) (d : Disk) (superblock : Bytes) (lba sectorSize : Nat) :
    Except RegisterFault (Option Partition × Disk) :=
  let field (f : Field) : Nat := f.get superblock 0
  if 32 ≤ field Superblock.logBlockSize then .error .shift
  else do
    let blockSize := u32 (1024 <<< field Superblock.logBlockSize)
    let sectorsPerBlock ← divide blockSize sectorSize
    let bgdtBlock := if blockSize = 1024 then 2 else 1
    let first ← divide (field Superblock.blocksCount) (field Superblock.blocksPerGroup)
    let second ← divide (field Superblock.inodesCount) (field Superblock.inodesPerGroup)
    if first ≠ second then return (none, d)
    let sectorsPerGroup := u32 (field Superblock.blocksPerGroup * sectorsPerBlock)
    let (backups, d) ← backupsFrom lba sectorsPerGroup d env.dummyBuffer .initial 0 first
    match backups with
    | none => return (none, d)
    | some b => return registerGroups env d superblock lba sectorSize sectorsPerBlock bgdtBlock first b

/-- `ext2_partition_register_partition`. -/
def registerPartition (env : RegisterEnv) (d : Disk) (lba : Nat) :
    Except RegisterFault (Option Partition × Disk) :=
  if ¬ env.ready then .ok (none, d)
  else match env.sectorSize with
    | none => .ok (none, d)
    | some sectorSize =>
      if sectorSize = 0 ∨ 4096 < sectorSize then .ok (none, d)
      else
        let (r, superblock, d) := readDisk d env.superblockBuffer (u32 (lba + SB_OFFSET_LBA)) 1024
        if r = 0 then .ok (none, d)
        else if Superblock.magic.get superblock 0 ≠ EXT2_SUPER_MAGIC then .ok (none, d)
        else registerSuperblock env d superblock lba sectorSize

/-! ## The superblocks on the disk -/

namespace Disk

/-- The bytes of the disk from a sector on. -/
def bytesFrom (d : Disk) (sector : Nat) : Bytes := window d.image (sext32 sector)

/-- The loop over the groups comes to group `i`, its first read at time `c`, and finds the
magic there: no first sector of a group up to `i` fails. -/
def Carries (d : Disk) (lba sectorsPerGroup c i : Nat) : Prop :=
  (∀ j, j ≤ i → d.fails (c + 2 * j) = false) ∧
    Superblock.magic.get (d.bytesFrom (groupLba lba sectorsPerGroup i)) 0 = EXT2_SUPER_MAGIC

instance (d : Disk) (lba sectorsPerGroup c i : Nat) : Decidable (d.Carries lba sectorsPerGroup c i) :=
  inferInstanceAs (Decidable (_ ∧ _))

/-- How many of `n` groups from `i` on the loop finds the magic in. -/
def carriers (d : Disk) (lba sectorsPerGroup c i n : Nat) : Nat :=
  (List.range' i n).countP fun i => d.Carries lba sectorsPerGroup c i

variable {d : Disk} {buffer : Bytes} {sector lba sectorsPerGroup c i n : Nat}

/-- A superblock is two sectors; the read fails with the first of them only. -/
theorem readDisk_superblock_fails (h : d.fails d.clock = true) :
    ∃ d', readDisk d buffer sector 1024 = (0, d', d.after d.image 1) := by
  have hcount : sizeToBlocks (sext32 1024) = 2 := by decide
  have hmoved : d.moved 2 = 0 := by rw [moved, if_pos h]
  rw [readDisk_eq, hcount, issued, hmoved]
  exact ⟨_, rfl⟩

theorem readDisk_superblock (h : d.fails d.clock = false) :
    ∃ r buffer', readDisk d buffer sector 1024 = (r, buffer', d.after d.image 2) ∧ r ≠ 0 ∧
      ∀ f : Field, f.Within 512 → f.get buffer' 0 = f.get (d.bytesFrom sector) 0 := by
  have hcount : sizeToBlocks (sext32 1024) = 2 := by decide
  have hmoved : d.moved 2 = 1 ∨ d.moved 2 = 2 := by
    have hle := moved_le (d := d.tick) (n := 1)
    rw [moved, if_neg (by simp [h])]
    omega
  have hissued : d.issued 2 = 2 := by
    rw [issued]
    omega
  rw [readDisk_eq, hcount, hissued]
  refine ⟨_, _, rfl, ?_, fun f hf => Field.get_congr hf fun x _ hx => ?_⟩
  · rcases hmoved with hm | hm
    · rw [hm]
      decide
    · rw [hm]
      decide
  · rw [copy_apply_in _ _ (Nat.zero_le x) (by omega), Nat.sub_zero, Nat.zero_add]
    rfl

@[simp] theorem carriers_zero : d.carriers lba sectorsPerGroup c i 0 = 0 := rfl

theorem carriers_succ : d.carriers lba sectorsPerGroup c i (n + 1) =
    (if d.Carries lba sectorsPerGroup c i then 1 else 0) +
      d.carriers lba sectorsPerGroup c (i + 1) n := by
  rw [carriers, List.range'_succ, List.countP_cons, Nat.add_comm]
  simp [carriers]

/-- Past a group that cannot be read no group is found. -/
theorem carriers_of_fails (h : d.fails (c + 2 * i) = true) :
    d.carriers lba sectorsPerGroup c i n = 0 := by
  refine List.countP_eq_zero.mpr fun k hk hcarries => ?_
  have hle := (List.mem_range'_1.mp hk).1
  have hok := (of_decide_eq_true hcarries).1 i hle
  rw [h] at hok
  cases hok

end Disk

/-! ## The loop over the groups -/

/-- At most 64 groups, all of them below `i`. -/
def Backups.Below (b : Backups) (i : Nat) : Prop :=
  b.count ≤ BACKUP_BGS ∧ ∀ k, k < b.count → b.bgs k < i

theorem Backups.Below.mono {b : Backups} {i j : Nat} (h : b.Below i) (hij : i ≤ j) : b.Below j :=
  ⟨h.1, fun k hk => Int.lt_of_lt_of_le (h.2 k hk) (by omega)⟩

theorem Backups.Below.push {b b' : Backups} {i : Nat} (h : b.Below i) (hpush : b.push i = .ok b') :
    b'.Below (i + 1) ∧ b'.count = b.count + 1 := by
  unfold Backups.push at hpush
  split at hpush
  · rename_i hlt
    cases hpush
    refine ⟨⟨hlt, fun k hk => ?_⟩, rfl⟩
    have hle : int32 i < (i + 1 : Nat) := by
      unfold int32
      split <;> omega
    by_cases hkb : k = b.count
    · simpa [hkb] using hle
    · have hold := h.2 k (by simp only at hk; omega)
      simp only [Function.update_of_ne hkb]
      omega
  · cases hpush

section loop

variable {lba sectorsPerGroup c : Nat}

/-- The loop stays inside `backup_bgs` exactly when it finds no more groups than fit. -/
theorem backupsFrom_spec {d : Disk} {buffer : Bytes} {b : Backups} {i n : Nat} (hb : b.Below i)
    (hclock : d.clock = c + 2 * i) (hread : ∀ j, j < i → d.fails (c + 2 * j) = false) :
    if b.count + d.carriers lba sectorsPerGroup c i n ≤ BACKUP_BGS then
      ∃ o d', backupsFrom lba sectorsPerGroup d buffer b i n = .ok (o, d') ∧
        ∀ b' ∈ o, b'.Below (i + n)
    else backupsFrom lba sectorsPerGroup d buffer b i n = .error .backupBgs := by
  induction n generalizing d buffer b i with
  | zero =>
    rw [Disk.carriers_zero, Nat.add_zero, if_pos hb.1]
    refine ⟨_, _, rfl, fun b' hb' => ?_⟩
    cases hb'
    exact hb
  | succ n ih =>
    cases hfails : d.fails d.clock with
    | true =>
      obtain ⟨buffer', hreads⟩ := @Disk.readDisk_superblock_fails d buffer
        (groupLba lba sectorsPerGroup i) hfails
      rw [Disk.carriers_of_fails (hclock ▸ hfails), Nat.add_zero, if_pos hb.1, backupsFrom, hreads]
      refine ⟨_, _, rfl, fun b' hb' => ?_⟩
      cases hb'
    | false =>
      obtain ⟨r, buffer', hreads, hr, hfield⟩ := @Disk.readDisk_superblock d buffer
        (groupLba lba sectorsPerGroup i) hfails
      have hread' (j : Nat) (hj : j < i + 1) : d.fails (c + 2 * j) = false := by
        by_cases hji : j = i
        · rw [hji, ← hclock]
          exact hfails
        · exact hread j (by omega)
      have hcarries : d.Carries lba sectorsPerGroup c i ↔
          Superblock.magic.get buffer' 0 = EXT2_SUPER_MAGIC := by
        rw [hfield _ (by decide)]
        exact and_iff_right fun j hj => hread' j (by omega)
      have hclock' : (d.after d.image 2).clock = c + 2 * (i + 1) := by
        simp only [Disk.after, hclock]
        omega
      have hsum : i + (n + 1) = i + 1 + n := by omega
      rw [backupsFrom, hreads, Disk.carriers_succ, hsum]
      simp only [if_neg hr]
      by_cases hmagic : Superblock.magic.get buffer' 0 = EXT2_SUPER_MAGIC
      · rw [if_pos (hcarries.mpr hmagic)]
        simp only [if_pos hmagic]
        cases hpush : b.push i with
        | error fault =>
          -- the array is full
          unfold Backups.push at hpush
          split at hpush
          · cases hpush
          · cases hpush
            rw [if_neg (by omega)]
        | ok b' =>
          obtain ⟨hb', hcount⟩ := hb.push hpush
          have hrest := @ih (d.after d.image 2) buffer' b' (i + 1) hb' hclock' hread'
          rw [hcount, Nat.add_assoc] at hrest
          exact hrest
      · rw [if_neg fun h => hmagic (hcarries.mp h)]
        simp only [if_neg hmagic]
        rw [Nat.zero_add]
        exact @ih (d.after d.image 2) buffer' b (i + 1) (hb.mono (Nat.le_succ i)) hclock' hread'

end loop

/-! ## When registering is safe -/

/-- The sectors of a group, as the code multiplies them. -/
def Superblock.sectorsPerGroup (sb : Bytes) (sectorSize : Nat) : Nat :=
  u32 (blocksPerGroup.get sb 0 * divideRoundedUp (u32 (1024 <<< logBlockSize.get sb 0)) sectorSize)

/-- The groups that hold the blocks, and those that hold the inodes. -/
def Superblock.blockGroups (sb : Bytes) : Nat :=
  divideRoundedUp (blocksCount.get sb 0) (blocksPerGroup.get sb 0)

def Superblock.inodeGroups (sb : Bytes) : Nat :=
  divideRoundedUp (inodesCount.get sb 0) (inodesPerGroup.get sb 0)

/-- The superblock of the partition at `lba`. -/
def Disk.superblock (d : Disk) (lba : Nat) : Bytes := d.bytesFrom (u32 (lba + SB_OFFSET_LBA))

/-- The function comes to the fields of a superblock with the magic. -/
structure Disk.HasMagic (d : Disk) (env : RegisterEnv) (lba sectorSize : Nat) : Prop where
  ready : env.ready = true
  size : env.sectorSize = some sectorSize
  bounds : sectorSize ≠ 0 ∧ sectorSize ≤ 4096
  read : d.fails d.clock = false
  magic : Superblock.magic.get (d.superblock lba) 0 = EXT2_SUPER_MAGIC

/-- A superblock that can be divided and shifted by, and whose groups, as far as they are
looked at, carry the magic 64 times at most. -/
structure Disk.Registrable (d : Disk) (lba sectorSize : Nat) : Prop where
  logBlockSize : Superblock.logBlockSize.get (d.superblock lba) 0 < 32
  blocksPerGroup : Superblock.blocksPerGroup.get (d.superblock lba) 0 ≠ 0
  inodesPerGroup : Superblock.inodesPerGroup.get (d.superblock lba) 0 ≠ 0
  carriers : Superblock.blockGroups (d.superblock lba) = Superblock.inodeGroups (d.superblock lba) →
    d.carriers lba (Superblock.sectorsPerGroup (d.superblock lba) sectorSize) (d.clock + 2) 0
      (Superblock.blockGroups (d.superblock lba)) ≤ BACKUP_BGS

/-- A run that has a meaning and returns what it should. -/
def Safe (result : Except RegisterFault (Option Partition × Disk)) : Prop :=
  ∃ r d', result = .ok (r, d') ∧ ∀ p ∈ r, p.backupBgsCount ≤ BACKUP_BGS ∧
    ∀ k, k < p.backupBgsCount → p.backupBgs k < p.groupNumber

theorem safe_none (d : Disk) : Safe (.ok (none, d)) := ⟨none, d, rfl, fun _ h => nomatch h⟩

theorem not_safe_error (fault : RegisterFault) : ¬ Safe (.error fault) := by
  rintro ⟨r, d', h, -⟩
  cases h

theorem safe_registerGroups (env : RegisterEnv) (d : Disk) (superblock : Bytes)
    (lba sectorSize sectorsPerBlock bgdtBlock : Nat) {groups : Nat} {b : Backups}
    (hb : b.Below groups) : Safe (.ok (registerGroups env d superblock lba sectorSize
      sectorsPerBlock bgdtBlock groups b)) := by
  unfold registerGroups
  simp only
  split
  · exact safe_none _
  · refine ⟨_, _, rfl, fun p hp => ?_⟩
    cases hp
    exact hb

section register

variable {env : RegisterEnv} {d : Disk} {lba sectorSize : Nat} {superblock : Bytes}

theorem divide_of_ne {x y : Nat} (h : y ≠ 0) : divide x y = .ok (divideRoundedUp x y) := if_neg h

theorem safe_registerSuperblock_iff (hs : sectorSize ≠ 0)
    (hfield : ∀ f : Field, f.Within 512 → f.get superblock 0 = f.get (d.superblock lba) 0) :
    Safe (registerSuperblock env (d.after d.image 2) superblock lba sectorSize) ↔
      d.Registrable lba sectorSize := by
  have hlog := hfield Superblock.logBlockSize (by decide)
  have hbpg := hfield Superblock.blocksPerGroup (by decide)
  have hipg := hfield Superblock.inodesPerGroup (by decide)
  have hblocks := hfield Superblock.blocksCount (by decide)
  have hinodes := hfield Superblock.inodesCount (by decide)
  unfold registerSuperblock
  simp only [hlog, hbpg, hipg, hblocks, hinodes, divide_of_ne hs]
  by_cases hshift : 32 ≤ Superblock.logBlockSize.get (d.superblock lba) 0
  · rw [if_pos hshift]
    exact iff_of_false (not_safe_error _) fun h => absurd hshift (Nat.not_le.mpr h.logBlockSize)
  rw [if_neg hshift]
  by_cases hzero : Superblock.blocksPerGroup.get (d.superblock lba) 0 = 0
  · simp only [bind, Except.bind, divide, if_pos hzero]
    exact iff_of_false (not_safe_error _) fun h => absurd hzero h.blocksPerGroup
  by_cases hzero' : Superblock.inodesPerGroup.get (d.superblock lba) 0 = 0
  · simp only [bind, Except.bind, divide, if_neg hzero, if_pos hzero']
    exact iff_of_false (not_safe_error _) fun h => absurd hzero' h.inodesPerGroup
  simp only [bind, Except.bind, pure, Except.pure, divide_of_ne hzero, divide_of_ne hzero']
  by_cases hgroups : Superblock.blockGroups (d.superblock lba) =
      Superblock.inodeGroups (d.superblock lba)
  · have hloop := @backupsFrom_spec lba (Superblock.sectorsPerGroup (d.superblock lba) sectorSize)
      (d.clock + 2) (d.after d.image 2) env.dummyBuffer .initial 0
      (Superblock.blockGroups (d.superblock lba)) ⟨Nat.zero_le _, fun k hk => absurd hk (Nat.not_lt_zero k)⟩
      rfl (fun j hj => absurd hj (Nat.not_lt_zero j))
    have hcount : Backups.initial.count = 0 := rfl
    rw [hcount, Nat.zero_add, Nat.zero_add] at hloop
    have hcarriers : d.Registrable lba sectorSize ↔ (d.after d.image 2).carriers lba
        (Superblock.sectorsPerGroup (d.superblock lba) sectorSize) (d.clock + 2) 0
        (Superblock.blockGroups (d.superblock lba)) ≤ BACKUP_BGS :=
      ⟨fun h => h.carriers hgroups, fun h => ⟨by omega, hzero, hzero', fun _ => h⟩⟩
    unfold Superblock.blockGroups Superblock.inodeGroups at hgroups
    rw [if_neg (not_not_intro hgroups), hcarriers]
    unfold Superblock.blockGroups Superblock.sectorsPerGroup at hloop ⊢
    split at hloop
    · rename_i hle
      obtain ⟨o, d', hruns, hbelow⟩ := hloop
      rw [hruns]
      refine iff_of_true ?_ hle
      cases o with
      | none => exact safe_none _
      | some b => exact safe_registerGroups env d' superblock lba sectorSize _ _ (hbelow b rfl)
    · rename_i hgt
      rw [hloop]
      exact iff_of_false (not_safe_error _) hgt
  · have hne := hgroups
    unfold Superblock.blockGroups Superblock.inodeGroups at hne
    rw [if_pos hne]
    exact iff_of_true (safe_none _) ⟨by omega, hzero, hzero', fun h => absurd h hgroups⟩

/-- Registering a partition is safe exactly when the function stops before the fields of the
superblock, or these can be divided and shifted by and no more than 64 groups carry the magic. -/
theorem registerPartition_safe_iff (env : RegisterEnv) (d : Disk) (lba : Nat) :
    Safe (registerPartition env d lba) ↔
      ∀ sectorSize, d.HasMagic env lba sectorSize → d.Registrable lba sectorSize := by
  unfold registerPartition
  by_cases hready : env.ready = true
  swap
  · rw [if_pos hready]
    exact iff_of_true (safe_none _) fun _ h => absurd h.ready hready
  rw [if_neg (not_not_intro hready)]
  cases hsize : env.sectorSize with
  | none =>
    refine iff_of_true (safe_none _) fun _ h => ?_
    rw [h.size] at hsize
    cases hsize
  | some sectorSize =>
    simp only
    by_cases hbounds : sectorSize = 0 ∨ 4096 < sectorSize
    · rw [if_pos hbounds]
      refine iff_of_true (safe_none _) fun s h => ?_
      obtain rfl : s = sectorSize := Option.some.inj (h.size.symm.trans hsize)
      have hb := h.bounds
      omega
    rw [if_neg hbounds]
    cases hread : d.fails d.clock with
    | true =>
      obtain ⟨buffer, hreads⟩ := @Disk.readDisk_superblock_fails d env.superblockBuffer
        (u32 (lba + SB_OFFSET_LBA)) hread
      rw [hreads]
      refine iff_of_true (safe_none _) fun s h => ?_
      rw [h.read] at hread
      cases hread
    | false =>
      obtain ⟨r, superblock, hreads, hr, hfield⟩ := @Disk.readDisk_superblock d env.superblockBuffer
        (u32 (lba + SB_OFFSET_LBA)) hread
      have hmagic := hfield Superblock.magic (by decide)
      rw [hreads]
      simp only [if_neg hr]
      by_cases hm : Superblock.magic.get superblock 0 = EXT2_SUPER_MAGIC
      · rw [if_neg (not_not_intro hm), safe_registerSuperblock_iff (by omega) hfield]
        constructor
        · intro h s hs
          obtain rfl : s = sectorSize := Option.some.inj (hs.size.symm.trans hsize)
          exact h
        · intro h
          exact h sectorSize ⟨hready, hsize, by omega, hread, hmagic ▸ hm⟩
      · rw [if_pos hm]
        refine iff_of_true (safe_none _) fun s h => ?_
        have hm' := h.magic
        unfold Disk.superblock at hm'
        rw [← hmagic] at hm'
        exact absurd hm' hm

/-- A disk whose superblock holds the magic and zeros. -/
def bareDisk : Disk where
  image := fun x => if x = 1080 then 0x53 else if x = 1081 then 0xEF else 0
  fails := fun _ => false
  clock := 0

def bareEnv : RegisterEnv := ⟨true, some 512, fun _ => 0, fun _ => 0, fun _ _ => 0⟩

theorem hasMagic_bareDisk : bareDisk.HasMagic bareEnv 0 512 where
  ready := rfl
  size := rfl
  bounds := by decide
  read := rfl
  magic := by decide +kernel

/-- Its groups hold no blocks. -/
theorem not_registerPartition_safe : ¬ ∀ env d lba sectorSize, d.HasMagic env lba sectorSize →
    Safe (registerPartition env d lba) := by
  intro h
  obtain ⟨r, d', hruns, -⟩ := h bareEnv bareDisk 0 512 hasMagic_bareDisk
  have herror : (registerPartition bareEnv bareDisk 0).toOption.isNone = true := by decide +kernel
  rw [hruns] at herror
  cases herror

/-! ## What is registered -/

/-- What the partition takes from the superblock. -/
structure FromSuperblock (p : Partition) (superblock : Bytes) : Prop where
  super : ∀ f : Field, f.Within 1024 → p.super f = f.get superblock 0
  blocksPerGroup : Superblock.blocksPerGroup.get superblock 0 ≠ 0
  inodesPerGroup : Superblock.inodesPerGroup.get superblock 0 ≠ 0
  blockGroups : p.groupNumber = Superblock.blockGroups superblock
  inodeGroups : p.groupNumber = Superblock.inodeGroups superblock

variable {p : Partition} {d' : Disk}

theorem of_bind_eq_ok {α β : Type} {x : Except RegisterFault α} {f : α → Except RegisterFault β}
    {y : β} (h : x >>= f = .ok y) : ∃ a, x = .ok a ∧ f a = .ok y := by
  cases x with
  | error fault => cases h
  | ok a => exact ⟨a, rfl, h⟩

theorem of_divide_eq_ok {x y z : Nat} (h : divide x y = .ok z) : y ≠ 0 ∧ z = divideRoundedUp x y := by
  unfold divide at h
  split at h
  · cases h
  · cases h
    exact ⟨‹_›, rfl⟩

theorem registerGroups_some {sectorsPerBlock bgdtBlock groups : Nat} {b : Backups}
    (h : registerGroups env d superblock lba sectorSize sectorsPerBlock bgdtBlock groups b =
      (some p, d')) : p.lba = lba ∧ p.sectorSize = sectorSize ∧ p.groupNumber = groups ∧
      ∀ f : Field, f.Within 1024 → p.super f = f.get superblock 0 := by
  unfold registerGroups at h
  simp only at h
  split at h
  · cases h
  · cases h
    refine ⟨rfl, rfl, rfl, fun f hf => Field.get_congr hf fun x _ hx => ?_⟩
    simp only
    rw [copy_apply_in _ _ (Nat.zero_le x) (by omega), Nat.sub_zero, Nat.zero_add]

theorem registerSuperblock_some
    (h : registerSuperblock env d superblock lba sectorSize = .ok (some p, d')) :
    p.lba = lba ∧ p.sectorSize = sectorSize ∧ FromSuperblock p superblock := by
  unfold registerSuperblock at h
  simp only at h
  split at h
  · cases h
  obtain ⟨sectorsPerBlock, -, h⟩ := of_bind_eq_ok h
  obtain ⟨first, hfirst, h⟩ := of_bind_eq_ok h
  obtain ⟨second, hsecond, h⟩ := of_bind_eq_ok h
  obtain ⟨hblocks, hfirst⟩ := of_divide_eq_ok hfirst
  obtain ⟨hinodes, hsecond⟩ := of_divide_eq_ok hsecond
  split at h
  · cases h
  rename_i hgroups
  obtain ⟨⟨o, d''⟩, -, h⟩ := of_bind_eq_ok h
  cases o with
  | none => cases h
  | some b =>
    obtain ⟨hlba, hsize, hnumber, hsuper⟩ := registerGroups_some (Except.ok.inj h)
    exact ⟨hlba, hsize, hsuper, hblocks, hinodes, hnumber.trans hfirst,
      hnumber.trans ((not_not.mp hgroups).trans hsecond)⟩

/-- On sectors of 512 bytes, a partition with blocks of 1 GiB at most is as the rest of the
driver expects it. -/
theorem mounted_of_registerSuperblock
    (h : registerSuperblock env d superblock lba 512 = .ok (some p, d')) (hlba : lba < 4294967296)
    (hlog : Superblock.logBlockSize.get superblock 0 ≤ 20) : Mounted p := by
  obtain ⟨hl, hs, hsb⟩ := registerSuperblock_some h
  refine ⟨hs, ?_, hl ▸ hlba, ?_, ?_, ?_, ?_⟩
  · rw [hsb.super _ (by decide)]
    exact hlog
  · rw [hsb.super _ (by decide)]
    exact Nat.pos_of_ne_zero hsb.blocksPerGroup
  · rw [hsb.super _ (by decide)]
    exact Nat.pos_of_ne_zero hsb.inodesPerGroup
  · rw [hsb.super _ (by decide), hsb.super _ (by decide)]
    exact hsb.blockGroups
  · rw [hsb.super _ (by decide), hsb.super _ (by decide)]
    exact hsb.inodeGroups

end register

end UnedKernel.Ext2
