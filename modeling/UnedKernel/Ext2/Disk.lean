import UnedKernel.Lib.Sectors

/-! # The disk below the file system

`disk_dd.c` and `disk_interface.c`. A request of `bytes` bytes moves whole
sectors, one at a time, and stops at the first that fails. The lengths and
sectors that the file system passes are `int`s. -/

namespace UnedKernel.Ext2
open ByteMem Word Sectors

/-- A disk: its content, and which of its sector transfers fail. -/
structure Disk where
  image : Bytes
  fails : Nat → Bool
  clock : Nat

namespace Disk

/-- One more sector transfer was issued. -/
def tick (d : Disk) : Disk := { d with clock := d.clock + 1 }

/-- No sector transfer fails. -/
def Reliable (d : Disk) : Prop := ∀ t, d.fails t = false

end Disk

def sizeToBlocks (size : Nat) : Nat := u64 (size + 511) / 512

def blockToSize (blocks : Nat) : Nat := u64 (blocks * 512)

/-- The loop of `dd_disk_read` from sector `i` on, `n` sectors left: the sectors moved. -/
def ddReadSectors (d : Disk) (offset : Nat) (buffer : Bytes) (i : Nat) : Nat → Nat × Bytes × Disk
  | 0 => (i, buffer, d)
  | n + 1 =>
    if d.fails d.clock then (i, buffer, d.tick)
    else ddReadSectors d.tick offset
      (copy buffer (512 * i) d.image (512 * u64 (offset + i)) 512) (i + 1) n

def ddDiskRead (d : Disk) (bytes offset : Nat) (buffer : Bytes) : Nat × Bytes × Disk :=
  let size := sizeToBlocks bytes
  let (i, buffer, d) := ddReadSectors d offset buffer 0 size
  (if i < size then blockToSize i else bytes, buffer, d)

/-- The loop of `dd_disk_write`. -/
def ddWriteSectors (d : Disk) (offset : Nat) (buffer : Bytes) (i : Nat) : Nat → Nat × Disk
  | 0 => (i, d)
  | n + 1 =>
    if d.fails d.clock then (i, d.tick)
    else
      let image := copy d.image (512 * u64 (offset + i)) buffer (512 * i) 512
      ddWriteSectors { d.tick with image := image } offset buffer (i + 1) n

def ddDiskWrite (d : Disk) (bytes offset : Nat) (buffer : Bytes) : Nat × Disk :=
  let size := sizeToBlocks bytes
  let (i, d) := ddWriteSectors d offset buffer 0 size
  (if i < size then blockToSize i else bytes, d)

/-- `read_disk`: sector and count arrive as `int`s, the result leaves as one. -/
def readDisk (d : Disk) (buffer : Bytes) (sector count : Nat) : Nat × Bytes × Disk :=
  let (result, buffer, d) := ddDiskRead d (sext32 count) (sext32 sector) buffer
  (u32 result, buffer, d)

def writeDisk (d : Disk) (buffer : Bytes) (sector count : Nat) : Nat × Disk :=
  let (result, d) := ddDiskWrite d (sext32 count) (sext32 sector) buffer
  (u32 result, d)

/-! ## Transfers up to the first failure -/

namespace Disk

/-- The disk after `n` transfers that leave `image` behind. -/
def after (d : Disk) (image : Bytes) (n : Nat) : Disk :=
  { d with image := image, clock := d.clock + n }

/-- How many of the next `n` transfers go through before one fails. -/
def moved (d : Disk) : Nat → Nat
  | 0 => 0
  | n + 1 => if d.fails d.clock then 0 else d.tick.moved n + 1

/-- How many of the next `n` transfers are issued: the first that fails is the last. -/
def issued (d : Disk) (n : Nat) : Nat := min (d.moved n + 1) n

variable {d : Disk} {offset sector count i n t : Nat} {buffer : Bytes}

@[simp] theorem after_image (image : Bytes) : (d.after image n).image = image := rfl

theorem Reliable.after (h : d.Reliable) (image : Bytes) (n : Nat) : (d.after image n).Reliable := h

theorem moved_image (image : Bytes) : moved { d with image := image } n = d.moved n := by
  induction n generalizing d with
  | zero => rfl
  | succ n ih => rw [moved, moved, ← ih (d := d.tick)]; rfl

theorem issued_image (image : Bytes) : issued { d with image := image } n = d.issued n := by
  rw [issued, issued, moved_image]

theorem moved_le : d.moved n ≤ n := by
  induction n generalizing d with
  | zero => exact Nat.le_refl 0
  | succ n ih =>
    have := ih (d := d.tick)
    rw [moved]
    split <;> omega

/-- What went through did not fail. -/
theorem moved_ok (h : t < d.moved n) : d.fails (d.clock + t) = false := by
  induction n generalizing d t with
  | zero => exact absurd h (Nat.not_lt_zero t)
  | succ n ih =>
    rw [moved] at h
    split at h
    · exact absurd h (Nat.not_lt_zero t)
    · rename_i hok
      cases t with
      | zero => simpa using hok
      | succ t =>
        have hstep := ih (d := d.tick) (t := t) (by omega)
        rwa [tick, Nat.add_assoc, Nat.add_comm 1 t] at hstep

/-- The transfer after those that went through failed. -/
theorem moved_fails (h : d.moved n < n) : d.fails (d.clock + d.moved n) = true := by
  induction n generalizing d with
  | zero => exact absurd h (Nat.not_lt_zero _)
  | succ n ih =>
    rw [moved] at h ⊢
    split
    · assumption
    · rename_i hok
      rw [if_neg hok] at h
      have hstep := ih (d := d.tick) (by omega)
      rwa [tick, Nat.add_assoc, Nat.add_comm 1] at hstep

theorem moved_eq (h : ∀ t, t < n → d.fails (d.clock + t) = false) : d.moved n = n := by
  by_contra hne
  have hlt : d.moved n < n := Nat.lt_of_le_of_ne moved_le hne
  exact Bool.false_ne_true ((h _ hlt).symm.trans (moved_fails hlt))

theorem Reliable.moved (h : d.Reliable) : d.moved n = n := moved_eq fun _ _ => h _

theorem Reliable.issued (h : d.Reliable) : d.issued n = n := by
  rw [Disk.issued, h.moved]
  omega

theorem sext32_lt {x : Nat} (h : x < 4294967296) : sext32 x < 18446744073709551616 := by
  unfold sext32
  split <;> omega

theorem issued_succ_of_fails (h : d.fails d.clock = true) : d.issued (n + 1) = 1 := by
  rw [issued, moved, if_pos h]
  omega

theorem issued_succ (h : d.fails d.clock = false) : d.issued (n + 1) = d.tick.issued n + 1 := by
  rw [issued, issued, moved, if_neg (by simp [h])]
  omega

theorem ddReadSectors_eq (offset : Nat) (buffer : Bytes) :
    ddReadSectors d offset (copy buffer 0 (window d.image offset) 0 (512 * i)) i n =
      (i + d.moved n, copy buffer 0 (window d.image offset) 0 (512 * (i + d.moved n)),
        d.after d.image (d.issued n)) := by
  induction n generalizing d i with
  | zero => rfl
  | succ n ih =>
    rw [ddReadSectors]
    cases hf : d.fails d.clock with
    | true =>
      rw [if_pos rfl, issued_succ_of_fails hf, moved, if_pos hf]
      rfl
    | false =>
      have hstep := ih (d := d.tick) (i := i + 1)
      rw [show d.tick.image = d.image from rfl] at hstep
      rw [if_neg Bool.false_ne_true, copy_window_succ, hstep, issued_succ hf, moved,
        if_neg (by simp [hf]), show i + 1 + d.tick.moved n = i + (d.tick.moved n + 1) by omega]
      simp only [Disk.after, tick, Nat.add_assoc, Nat.add_comm 1]

theorem ddWriteSectors_eq (image buffer : Bytes) (ho : offset < 18446744073709551616)
    (hn : i + n ≤ 18446744073709551616) (himage : d.image = put image offset buffer i) :
    ddWriteSectors d offset buffer i n =
      (i + d.moved n, d.after (put image offset buffer (i + d.moved n)) (d.issued n)) := by
  induction n generalizing d i with
  | zero => rw [ddWriteSectors, Disk.after, moved, Nat.add_zero, ← himage]; rfl
  | succ n ih =>
    rw [ddWriteSectors]
    cases hf : d.fails d.clock with
    | true =>
      rw [if_pos rfl, issued_succ_of_fails hf, moved, if_pos hf, Nat.add_zero, ← himage]
      rfl
    | false =>
      rw [if_neg Bool.false_ne_true]
      simp only
      rw [himage, ← put_succ ho (by omega), ih (by omega) rfl, issued_succ hf, moved,
        if_neg (by simp [hf]), moved_image,
        issued_image, show i + 1 + d.tick.moved n = i + (d.tick.moved n + 1) by omega]
      simp only [Disk.after, tick, Nat.add_assoc, Nat.add_comm 1]

theorem copy_zero_length (m src : Bytes) (a s : Nat) : copy m a src s 0 = m := by
  funext x
  exact copy_apply_out m src (by omega)

/-- A read fills the buffer from the window at the sector, up to the first failure. -/
theorem readDisk_eq :
    readDisk d buffer sector count =
      (u32 (if d.moved (sizeToBlocks (sext32 count)) < sizeToBlocks (sext32 count)
          then blockToSize (d.moved (sizeToBlocks (sext32 count))) else sext32 count),
        copy buffer 0 (window d.image (sext32 sector)) 0
          (512 * d.moved (sizeToBlocks (sext32 count))),
        d.after d.image (d.issued (sizeToBlocks (sext32 count)))) := by
  have hloop := ddReadSectors_eq (d := d) (i := 0) (n := sizeToBlocks (sext32 count))
    (sext32 sector) buffer
  rw [Nat.mul_zero, copy_zero_length, Nat.zero_add] at hloop
  rw [readDisk, ddDiskRead, hloop]

/-- A write puts the sectors of the buffer at the sector, up to the first failure. -/
theorem writeDisk_eq (hs : sector < 4294967296) :
    writeDisk d buffer sector count =
      (u32 (if d.moved (sizeToBlocks (sext32 count)) < sizeToBlocks (sext32 count)
          then blockToSize (d.moved (sizeToBlocks (sext32 count))) else sext32 count),
        d.after (put d.image (sext32 sector) buffer (d.moved (sizeToBlocks (sext32 count))))
          (d.issued (sizeToBlocks (sext32 count)))) := by
  have hloop := ddWriteSectors_eq (d := d) (i := 0) (n := sizeToBlocks (sext32 count)) d.image
    buffer (sext32_lt hs) (by unfold sizeToBlocks u64; omega) put_zero.symm
  rw [Nat.zero_add] at hloop
  rw [writeDisk, ddDiskWrite, hloop]

/-- Without failure the whole window is read. -/
theorem readDisk_reliable (h : d.Reliable) (hc : count < 2147483648) :
    readDisk d buffer sector count =
      (count, copy buffer 0 (window d.image (sext32 sector)) 0 (512 * sizeToBlocks count),
        d.after d.image (sizeToBlocks count)) := by
  rw [readDisk_eq, h.moved, h.issued, if_neg (Nat.lt_irrefl _), sext32_of_lt hc,
    u32_of_lt (by omega)]

/-- Without failure all the sectors are put. -/
theorem writeDisk_reliable (h : d.Reliable) (hc : count < 2147483648) (hs : sector < 4294967296) :
    writeDisk d buffer sector count =
      (count, d.after (put d.image (sext32 sector) buffer (sizeToBlocks count))
        (sizeToBlocks count)) := by
  rw [writeDisk_eq hs, h.moved, h.issued, if_neg (Nat.lt_irrefl _), sext32_of_lt hc,
    u32_of_lt (by omega)]

end Disk
end UnedKernel.Ext2
