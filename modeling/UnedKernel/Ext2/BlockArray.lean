import Mathlib.Data.Nat.ModEq
import UnedKernel.Ext2.BlockRuns

/-! # Blocks as an array

What a read of a block returns after another block, or the same, was written:
a write moves fewer sectors than a read, and the first sector of a block is
computed in 32 bits. -/

namespace UnedKernel.Ext2
open ByteMem Word Sectors

namespace Partition

/-- The offset of a block in sectors, as the code computes it. -/
def sectorOffset (p : Partition) (b : Nat) : Nat := u32 (b * p.blockSize) / p.sectorSize

/-- What 32 bits keep of the byte offsets of the blocks differs. -/
def OffsetsDiffer (p : Partition) (b c : Nat) : Prop := u32 (b * p.blockSize) ≠ u32 (c * p.blockSize)

instance (p : Partition) (b c : Nat) : Decidable (p.OffsetsDiffer b c) :=
  inferInstanceAs (Decidable (_ ≠ _))

end Partition

section

variable {p : Partition} {v : Volume} {b c i j k : Nat} {source : Bytes}

theorem sext32_mod (hk : k ∣ 8388608) (x : Nat) : sext32 x % k = x % k := by
  unfold sext32
  split
  · rfl
  · obtain ⟨q, hq⟩ := hk
    rw [show x + 18446744069414584320 = x + k * (q * 2199023255040) by rw [← Nat.mul_assoc, ← hq]]
    exact Nat.add_mul_mod_self_left _ _ _

theorem u32_mod (hk : k ∣ 8388608) (x : Nat) : u32 x % k = x % k :=
  Nat.mod_mod_of_dvd x (hk.trans (by decide))

theorem u64_mod (hk : k ∣ 8388608) (x : Nat) : u64 x % k = x % k :=
  Nat.mod_mod_of_dvd x (hk.trans (by decide))

namespace Mounted

theorem blockSectors_dvd (h : Mounted p) : p.blockSectors ∣ 8388608 := by
  rw [h.blockSectors_pow, show 8388608 = 2 ^ 23 by rfl]
  have := h.logBlockSize
  exact Nat.pow_dvd_pow 2 (by omega)

theorem sectorOffset_eq (h : Mounted p) : p.sectorOffset b = b * p.blockSectors % 8388608 := by
  rw [Partition.sectorOffset, h.sectorSize, h.blockSize_eq, Nat.mul_left_comm]
  unfold u32
  omega

/-- Transfers of a block start on a multiple of its length, from the partition's start on. -/
theorem ioSector_mod_blockSectors (h : Mounted p) :
    p.ioSector b % p.blockSectors = p.lba % p.blockSectors := by
  have hdvd := h.blockSectors_dvd
  have hoffset : p.sectorOffset b % p.blockSectors = 0 := by
    rw [h.sectorOffset_eq, Nat.mod_mod_of_dvd _ hdvd, Nat.mul_mod_left]
  rw [Partition.ioSector, sext32_mod hdvd, Partition.blockLba, u32_mod hdvd]
  change (p.lba + p.sectorOffset b) % p.blockSectors = _
  rw [Nat.add_mod, hoffset, Nat.add_zero, Nat.mod_mod]

theorem ioSector_eq_iff (h : Mounted p) : p.ioSector b = p.ioSector c ↔ ¬ p.OffsetsDiffer b c := by
  have hb := h.sectorOffset_eq (b := b)
  have hc := h.sectorOffset_eq (b := c)
  have hbytes {b : Nat} : u32 (b * p.blockSize) = 512 * p.sectorOffset b := by
    rw [h.sectorOffset_eq, h.blockSize_eq, Nat.mul_left_comm]
    unfold u32
    omega
  have hio {b : Nat} : p.ioSector b = sext32 (u32 (p.lba + p.sectorOffset b)) := rfl
  rw [Partition.OffsetsDiffer, hbytes, hbytes, hio, hio, not_not]
  unfold sext32 u32
  constructor
  · intro heq
    split at heq <;> split at heq <;> omega
  · intro heq
    rw [Nat.eq_of_mul_eq_mul_left (by decide) heq]

/-- Transfers of two blocks start at one sector or share none. -/
theorem io_disjoint (h : Mounted p) (hi : i < p.blockSectors) (hj : j < p.blockSectors)
    (hne : p.OffsetsDiffer b c) : u64 (p.ioSector b + i) ≠ u64 (p.ioSector c + j) := by
  intro heq
  have hdvd := h.blockSectors_dvd
  have hmod := congrArg (· % p.blockSectors) heq
  simp only [u64_mod hdvd] at hmod
  have hb := h.ioSector_mod_blockSectors (b := b)
  have hc := h.ioSector_mod_blockSectors (b := c)
  have hij : i = j := by
    have hi' := Nat.mod_eq_of_lt hi
    have hj' := Nat.mod_eq_of_lt hj
    have hcancel : p.ioSector b + i ≡ p.ioSector b + j [MOD p.blockSectors] :=
      hmod.trans (Nat.ModEq.add_right j (hc.trans hb.symm))
    rw [← hi', ← hj']
    exact hcancel.add_left_cancel' _
  have hblt := ioSector_lt (b := b) p
  have hclt := ioSector_lt (b := c) p
  subst hij
  refine h.ioSector_eq_iff.mp ?_ hne
  unfold u64 at heq
  omega

end Mounted

/-- The blocks behave as an array of bytes: after a write of block `b` a read of it returns all
bytes of the source, and a read of block `c` what it returned before. -/
structure BlocksFaithful (v : Volume) (b c : Nat) (source : Bytes) : Prop where
  written : ∀ dest, (readBlock (writeBlock v b source).2 b dest).1 = 1 ∧
    ∀ x, x < v.part.blockSize → (readBlock (writeBlock v b source).2 b dest).2.1 x = source x
  others : ∀ dest, (readBlock (writeBlock v b source).2 c dest).1 = 1 ∧
    ∀ x, x < v.part.blockSize →
      (readBlock (writeBlock v b source).2 c dest).2.1 x = (readBlock v c dest).2.1 x

theorem readBlock_bytes (hm : Mounted v.part) (hr : v.disk.Reliable) (hb : 0 < b) (dest : Bytes) :
    (readBlock v b dest).1 = 1 ∧ ∀ x, x < v.part.blockSize →
      (readBlock v b dest).2.1 x = window v.disk.image (v.part.ioSector b) x := by
  rw [readBlock_reliable dest hm hr hb]
  refine ⟨rfl, fun x hx => ?_⟩
  simp only
  rw [copy_apply_in _ _ (Nat.zero_le x) (by omega), Nat.sub_zero, Nat.zero_add]

theorem readBlock_written (source : Bytes) (hm : Mounted v.part) (hr : v.disk.Reliable) (hb : 0 < b) (hc : 0 < c)
    (dest : Bytes) : (readBlock (writeBlock v b source).2 c dest).1 = 1 ∧
      ∀ x, x < v.part.blockSize → (readBlock (writeBlock v b source).2 c dest).2.1 x =
        window (put v.disk.image (v.part.ioSector b) source v.part.writtenSectors)
          (v.part.ioSector c) x := by
  rw [writeBlock_reliable source hm hr hb]
  exact readBlock_bytes (v := v.after _ _) hm hr hc dest

/-- Behind the sectors that are written the source is what was there. -/
theorem BlocksFaithful.tail (h : BlocksFaithful v b c source) (hm : Mounted v.part)
    (hr : v.disk.Reliable) (hb : 0 < b) {x : Nat} (hx : 512 * v.part.writtenSectors ≤ x)
    (hx' : x < v.part.blockSize) : source x = window v.disk.image (v.part.ioSector b) x := by
  have hbyte := (h.written source).2 x hx'
  have hsize := hm.blockSize_bounds
  rw [(readBlock_written source hm hr hb hb source).2 x hx',
    window_put_past (Mounted.ioSector_lt _) (by omega) (by omega)] at hbyte
  exact hbyte.symm

/-- A write of a block returns 1, and is faithful when and only when the source agrees with the
disk behind the sectors that are written, and the offset of the other block differs in the 32
bits that are kept of it or the source agrees with the disk in these sectors too. -/
theorem blocks_faithful_iff (source : Bytes) (hm : Mounted v.part) (hr : v.disk.Reliable) (hb : 0 < b)
    (hc : 0 < c) :
    (writeBlock v b source).1 = 1 ∧ (BlocksFaithful v b c source ↔
      (∀ x, 512 * v.part.writtenSectors ≤ x → x < v.part.blockSize →
        source x = window v.disk.image (v.part.ioSector b) x) ∧
      (v.part.OffsetsDiffer b c ∨ ∀ x, x < 512 * v.part.writtenSectors →
        source x = window v.disk.image (v.part.ioSector b) x)) := by
  have hsize := hm.blockSize_eq
  have hsectors := hm.blockSectors_le
  have hwritten := hm.writtenSectors_le
  have hlt := Mounted.ioSector_lt (b := b) v.part
  refine ⟨by rw [writeBlock_reliable source hm hr hb], fun h =>
    ⟨fun x hx hx' => h.tail hm hr hb hx hx', ?_⟩, fun ⟨htail, hhead⟩ =>
    ⟨fun dest => ?_, fun dest => ?_⟩⟩
  · by_cases hdiffer : v.part.OffsetsDiffer b c
    · exact .inl hdiffer
    · refine .inr fun x hx => ?_
      have hbyte := (h.others source).2 x (by omega)
      rw [(readBlock_written source hm hr hb hc source).2 x (by omega),
        (readBlock_bytes hm hr hc source).2 x (by omega), ← hm.ioSector_eq_iff.mpr hdiffer,
        window_put_in hlt hx (by omega)] at hbyte
      exact hbyte
  · obtain ⟨hone, hbytes⟩ := readBlock_written source hm hr hb hb dest
    refine ⟨hone, fun x hx => ?_⟩
    rw [hbytes x hx]
    by_cases hin : x < 512 * v.part.writtenSectors
    · exact window_put_in hlt hin (by omega)
    · rw [window_put_past hlt (by omega) (by omega), htail x (by omega) hx]
  · obtain ⟨hone, hbytes⟩ := readBlock_written source hm hr hb hc dest
    refine ⟨hone, fun x hx => ?_⟩
    rw [hbytes x hx, (readBlock_bytes hm hr hc dest).2 x hx]
    by_cases hdiffer : v.part.OffsetsDiffer b c
    · exact window_put_out hlt (by omega) fun i hi => hm.io_disjoint (by omega) (by omega) hdiffer
    · rw [← hm.ioSector_eq_iff.mpr hdiffer]
      by_cases hin : x < 512 * v.part.writtenSectors
      · rw [window_put_in hlt hin (by omega), hhead.resolve_left hdiffer x hin]
      · exact window_put_past hlt (by omega) (by omega)

/-- A disk of zeros. -/
def zeroVolume : Volume where
  disk := { image := fun _ => 0, fails := fun _ => false, clock := 0 }
  part := smallPartition
  buffers := fun _ _ => 0
  allocated := 0

/-- A block whose second half stays zero. -/
theorem blocks_faithful_iff_zero :
    (writeBlock zeroVolume 1 fun x => if x < 512 then 1 else 0).1 = 1 ∧
      BlocksFaithful zeroVolume 1 2 fun x => if x < 512 then 1 else 0 := by
  have hwritten : zeroVolume.part.writtenSectors = 1 := by decide +kernel
  obtain ⟨hone, hiff⟩ := blocks_faithful_iff (v := zeroVolume) (b := 1) (c := 2)
    (fun x => if x < 512 then 1 else 0) mounted_smallPartition (fun _ => rfl) (by decide) (by decide)
  refine ⟨hone, hiff.mpr ⟨fun x hx _ => ?_, .inl (by decide +kernel)⟩⟩
  rw [hwritten] at hx
  exact if_neg (by omega)

/-- The second half of a block is not written. -/
theorem blocks_not_faithful : ¬ ∀ v b c source, Mounted v.part → v.disk.Reliable →
    v.part.blockSize ≤ 65536 → 0 < b → b < v.part.super Superblock.blocksCount → 0 < c →
    c < v.part.super Superblock.blocksCount → b ≠ c → BlocksFaithful v b c source := by
  intro h
  have hwritten : zeroVolume.part.writtenSectors = 1 := by decide +kernel
  have hsize : zeroVolume.part.blockSize = 1024 := by decide +kernel
  have hcount : zeroVolume.part.super Superblock.blocksCount = 8192 := by decide +kernel
  have hfaithful := h zeroVolume 1 2 (fun _ => 1) mounted_smallPartition (fun _ => rfl)
    (by rw [hsize]; decide) (by decide) (by rw [hcount]; decide) (by decide) (by rw [hcount]; decide)
    (by decide)
  have hbyte := hfaithful.tail (x := 512) mounted_smallPartition (fun _ => rfl) (by decide)
    (by rw [hwritten]) (by rw [hsize]; decide)
  exact absurd hbyte (by decide)

end
end UnedKernel.Ext2
