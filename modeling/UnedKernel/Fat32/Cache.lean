import Mathlib.Logic.Function.Basic
import UnedKernel.Ext2.Disk

/-! # The sector cache of a FAT volume

`fat_read` and `fat_flush` of `fat32.c`, and the table of clusters behind them.
A volume keeps one sector, and writes it back before it takes another. Behind
the cache the table is an array, whatever transfers of the disk fail. -/

namespace UnedKernel.Fat32
open ByteMem Word Sectors Ext2

/-- What `register_fat32_partition` takes from the boot sector. -/
structure Geometry where
  sectorSize : Nat
  clusterSize : Nat
  totalSize : Nat
  fatLba : Nat
  fsinfoLba : Nat
  dataLba : Nat
  rootLba : Nat

structure Volume extends Geometry where
  buffer : Bytes
  bufferLba : Nat
  disk : Disk
  bufferDirty : Bool

/-! ## The functions -/

/-- `disk_read` of one sector: the driver takes the 1 for a number of bytes. -/
def diskRead (d : Disk) (buffer : Bytes) (lba : Nat) : Nat × Bytes × Disk :=
  let (result, buffer, d) := ddDiskRead d 1 lba buffer
  (result % 256, buffer, d)

def diskWrite (d : Disk) (buffer : Bytes) (lba : Nat) : Nat × Disk :=
  let (result, d) := ddDiskWrite d 1 lba buffer
  (result % 256, d)

def fatFlush (v : Volume) : Nat × Volume :=
  if v.bufferDirty then
    let (written, disk) := diskWrite v.disk v.buffer v.bufferLba
    if written = 0 then (0, { v with disk := disk })
    else (1, { v with disk := disk, bufferDirty := false })
  else (1, v)

def fatRead (v : Volume) (lba : Nat) : Nat × Volume :=
  if v.bufferLba ≠ lba then
    let (flushed, v) := fatFlush v
    if flushed = 0 then (0, v)
    else
      let (read, buffer, disk) := diskRead v.disk v.buffer lba
      if read = 0 then (0, { v with buffer := buffer, disk := disk })
      else (1, { v with buffer := buffer, disk := disk, bufferLba := lba })
  else (1, v)

/-- `fat_table_get`, `none` for its 0. -/
def fatTableGet (v : Volume) (cluster : Nat) : Option Nat × Volume :=
  let (read, v) := fatRead v (u32 (v.fatLba + cluster / 128))
  if read = 0 then (none, v) else (some (load v.buffer (cluster % 128 * 4) 4), v)

def fatTableSet (v : Volume) (cluster fatEntry : Nat) : Nat × Volume :=
  let (read, v) := fatRead v (u32 (v.fatLba + cluster / 128))
  if read = 0 then (0, v)
  else
    let v := { v with buffer := store v.buffer (4 * (cluster % 128)) 4 fatEntry, bufferDirty := true }
    (1, (fatFlush v).2)

/-! ## What a volume holds -/

namespace Volume

/-- The byte of a sector, from the buffer where that is cached. -/
def byteAt (v : Volume) (s x : Nat) : Byte :=
  if s = v.bufferLba then v.buffer x else v.disk.image (512 * s + x)

/-- The sector of the table that has the entry of a cluster. -/
def tableSector (v : Volume) (cluster : Nat) : Nat := v.fatLba + cluster / 128

/-- The entry of a cluster in the table. -/
def entry (v : Volume) (cluster : Nat) : Nat :=
  load (v.byteAt (v.tableSector cluster)) (4 * (cluster % 128)) 4

end Volume

/-- A buffer that is not dirty has what the disk has. Sector 0 stands for no sector. -/
structure Coherent (v : Volume) : Prop where
  clean : v.bufferDirty = false → v.bufferLba ≠ 0 →
    ∀ x, x < 512 → v.buffer x = v.disk.image (512 * v.bufferLba + x)
  dirty : v.bufferDirty = true → v.bufferLba ≠ 0
  bound : v.bufferLba < 4294967296

/-- The volumes hold the same bytes. -/
structure Same (v w : Volume) : Prop where
  geometry : w.toGeometry = v.toGeometry
  bytes : ∀ s x, s ≠ 0 → x < 512 → w.byteAt s x = v.byteAt s x
  reliable : v.disk.Reliable → w.disk.Reliable

variable {v w x : Volume} {s lba c e r : Nat}

namespace Same

theorem refl (v : Volume) : Same v v := ⟨rfl, fun _ _ _ _ => rfl, id⟩

theorem trans (h : Same v w) (h' : Same w x) : Same v x :=
  ⟨h'.geometry.trans h.geometry, fun s y hs hy => (h'.bytes s y hs hy).trans (h.bytes s y hs hy),
    fun hr => h'.reliable (h.reliable hr)⟩

theorem load_eq (h : Same v w) (hs : s ≠ 0) {a n : Nat} (ha : a + n ≤ 512) :
    load (w.byteAt s) a n = load (v.byteAt s) a n :=
  load_congr fun i hi => h.bytes s (a + i) hs (by omega)

end Same

/-! ## One sector of the disk -/

section disk

variable {d : Disk} {buffer : Bytes}

theorem diskRead_eq (hs : lba < 4294967296) : diskRead d buffer lba =
    if d.fails d.clock then (0, buffer, d.tick)
    else (1, copy buffer 0 d.image (512 * lba) 512, d.tick) := by
  unfold diskRead ddDiskRead
  cases hf : d.fails d.clock with
  | true => simp [sizeToBlocks, u64, ddReadSectors, hf, blockToSize]
  | false =>
    have hu : u64 lba = lba := u64_of_lt (by omega)
    simp [sizeToBlocks, show u64 (1 + 511) / 512 = 1 from rfl, ddReadSectors, hf, hu]

theorem diskWrite_eq (hs : lba < 4294967296) : diskWrite d buffer lba =
    if d.fails d.clock then (0, d.tick)
    else (1, { d.tick with image := copy d.image (512 * lba) buffer 0 512 }) := by
  unfold diskWrite ddDiskWrite
  cases hf : d.fails d.clock with
  | true => simp [sizeToBlocks, u64, ddWriteSectors, hf, blockToSize]
  | false =>
    have hu : u64 lba = lba := u64_of_lt (by omega)
    simp [sizeToBlocks, show u64 (1 + 511) / 512 = 1 from rfl, ddWriteSectors, hf, hu]

end disk

/-- The disk changes in the sectors of `S` alone, as long as only these wait to be written. -/
structure Writes (S : Nat → Prop) (v w : Volume) : Prop where
  dirty : (v.bufferDirty = true → S v.bufferLba) → w.bufferDirty = true → S w.bufferLba
  disk : (v.bufferDirty = true → S v.bufferLba) → ∀ s x, ¬ S s → x < 512 →
    w.disk.image (512 * s + x) = v.disk.image (512 * s + x)

theorem Writes.refl (S : Nat → Prop) (v : Volume) : Writes S v v := ⟨id, fun _ _ _ _ _ => rfl⟩

theorem Writes.trans {S : Nat → Prop} (h : Writes S v w) (h' : Writes S w x) : Writes S v x :=
  ⟨fun hv => h'.dirty (h.dirty hv), fun hv s y hs hy =>
    (h'.disk (h.dirty hv) s y hs hy).trans (h.disk hv s y hs hy)⟩

/-! ## Flushing and fetching -/

namespace Volume

/-- The transfer of a sector failed. -/
def failed (v : Volume) : Volume := { v with disk := v.disk.tick }

/-- The buffer was written to its sector. -/
def written (v : Volume) : Volume :=
  { v with
    disk := { v.disk.tick with image := copy v.disk.image (512 * v.bufferLba) v.buffer 0 512 }
    bufferDirty := false }

/-- Another sector was read into the buffer. -/
def fetched (v : Volume) (lba : Nat) : Volume :=
  { v with
    buffer := copy v.buffer 0 v.disk.image (512 * lba) 512
    disk := v.disk.tick
    bufferLba := lba }

end Volume

theorem fatFlush_cases (hb : v.bufferLba < 4294967296) :
    (v.bufferDirty = false ∧ fatFlush v = (1, v)) ∨
    (v.bufferDirty = true ∧ v.disk.fails v.disk.clock = true ∧ fatFlush v = (0, v.failed)) ∨
    (v.bufferDirty = true ∧ fatFlush v = (1, v.written)) := by
  unfold fatFlush
  by_cases hd : v.bufferDirty = true
  · rw [if_pos hd, diskWrite_eq hb]
    by_cases hf : v.disk.fails v.disk.clock = true
    · rw [if_pos hf]
      exact .inr (.inl ⟨hd, hf, rfl⟩)
    · rw [if_neg hf]
      exact .inr (.inr ⟨hd, rfl⟩)
  · rw [if_neg hd]
    exact .inl ⟨Bool.eq_false_iff.mpr hd, rfl⟩

theorem fatRead_cases (hs : lba < 4294967296) :
    (v.bufferLba = lba ∧ fatRead v lba = (1, v)) ∨
    ∃ w, v.bufferLba ≠ lba ∧ (((fatFlush v) = (0, w) ∧ fatRead v lba = (0, w)) ∨
      ∃ k, k ≠ 0 ∧ fatFlush v = (k, w) ∧
        ((w.disk.fails w.disk.clock = true ∧ fatRead v lba = (0, w.failed)) ∨
          fatRead v lba = (1, w.fetched lba))) := by
  unfold fatRead
  by_cases hlba : v.bufferLba = lba
  · exact .inl ⟨hlba, if_neg (not_not.mpr hlba)⟩
  · rw [if_pos hlba]
    obtain ⟨k, w, hflush⟩ : ∃ a w, fatFlush v = (a, w) := ⟨_, _, rfl⟩
    refine .inr ⟨w, hlba, ?_⟩
    rw [hflush]
    cases k with
    | zero => exact .inl ⟨rfl, rfl⟩
    | succ k =>
      refine .inr ⟨k + 1, Nat.succ_ne_zero k, rfl, ?_⟩
      simp only [Nat.succ_ne_zero, if_false]
      rw [diskRead_eq hs]
      cases hf : w.disk.fails w.disk.clock with
      | true => exact .inl ⟨rfl, rfl⟩
      | false => exact .inr rfl

theorem Same.failed (v : Volume) : Same v v.failed := ⟨rfl, fun _ _ _ _ => rfl, id⟩

theorem Same.written (v : Volume) : Same v v.written := by
  refine ⟨rfl, fun s y hs hy => ?_, id⟩
  unfold Volume.byteAt
  by_cases hcached : s = v.bufferLba
  · rw [if_pos hcached]
    exact if_pos hcached
  · rw [if_neg hcached]
    have hout : 512 * s + y < 512 * v.bufferLba ∨ 512 * v.bufferLba + 512 ≤ 512 * s + y := by omega
    exact (if_neg hcached).trans (copy_apply_out _ _ hout)

/-- A byte of a clean volume is that of the disk. -/
theorem Coherent.byteAt (h : Coherent v) (hd : v.bufferDirty = false) (hs : s ≠ 0) {y : Nat}
    (hy : y < 512) : v.byteAt s y = v.disk.image (512 * s + y) := by
  unfold Volume.byteAt
  split
  · rename_i heq
    rw [heq]
    exact h.clean hd (heq ▸ hs) y hy
  · rfl

/-- A clean sector can be read again. -/
theorem Same.fetched (h : Coherent v) (hd : v.bufferDirty = false) (lba : Nat) :
    Same v (v.fetched lba) := by
  refine ⟨rfl, fun s y hs hy => ?_, id⟩
  rw [h.byteAt hd hs hy]
  by_cases hcached : s = lba
  · refine (if_pos hcached).trans ((copy_apply_in _ _ (Nat.zero_le y) (by omega)).trans ?_)
    rw [hcached]
    rfl
  · exact if_neg hcached

theorem Coherent.failed (h : Coherent v) : Coherent v.failed := ⟨h.clean, h.dirty, h.bound⟩

theorem Coherent.written (hb : v.bufferLba < 4294967296) : Coherent v.written := by
  refine ⟨fun _ _ y hy => ?_, nofun, hb⟩
  have hin : 512 * v.bufferLba ≤ 512 * v.bufferLba + y := Nat.le_add_right _ _
  exact ((copy_apply_in _ _ hin (by omega)).trans (congrArg v.buffer (by omega))).symm

theorem Coherent.fetched (hd : v.bufferDirty = false) (hs : lba < 4294967296) :
    Coherent (v.fetched lba) := by
  refine ⟨fun _ _ y hy => ?_, fun hdirty => absurd (hd.symm.trans hdirty) nofun, hs⟩
  exact copy_apply_in _ _ (Nat.zero_le y) (by omega)

theorem fatFlush_spec (h : Coherent v) : Same v (fatFlush v).2 ∧ Coherent (fatFlush v).2 ∧
    (fatFlush v).2.bufferLba = v.bufferLba ∧
    ((fatFlush v).1 ≠ 0 → (fatFlush v).2.bufferDirty = false) ∧
    (v.disk.Reliable → (fatFlush v).1 ≠ 0) := by
  rcases fatFlush_cases h.bound with ⟨hd, heq⟩ | ⟨hd, hf, heq⟩ | ⟨hd, heq⟩
  · rw [heq]
    exact ⟨Same.refl v, h, rfl, fun _ => hd, fun _ => Nat.one_ne_zero⟩
  · rw [heq]
    refine ⟨Same.failed v, h.failed, rfl, fun hne => absurd rfl hne, fun hr => ?_⟩
    exact absurd ((hr _).symm.trans hf) nofun
  · rw [heq]
    exact ⟨Same.written v, Coherent.written h.bound, rfl, fun _ => rfl, fun _ => Nat.one_ne_zero⟩

/-- Whatever is fetched, the volume holds the same. -/
theorem fatRead_spec (h : Coherent v) (hs : lba < 4294967296) : Same v (fatRead v lba).2 ∧
    Coherent (fatRead v lba).2 ∧ ((fatRead v lba).1 ≠ 0 → (fatRead v lba).2.bufferLba = lba) ∧
    (v.disk.Reliable → (fatRead v lba).1 ≠ 0) := by
  obtain ⟨hsame, hcoherent, -, hclean, hreliable⟩ := fatFlush_spec h
  rcases fatRead_cases (v := v) hs with ⟨hlba, heq⟩ | ⟨w, hlba, ⟨hflush, heq⟩ | ⟨k, hk, hflush, hread⟩⟩
  · rw [heq]
    exact ⟨Same.refl v, h, fun _ => hlba, fun _ => Nat.one_ne_zero⟩
  · rw [hflush] at hsame hcoherent hreliable
    rw [heq]
    exact ⟨hsame, hcoherent, fun hne => absurd rfl hne, hreliable⟩
  · rw [hflush] at hsame hcoherent hclean
    rcases hread with ⟨hf, heq⟩ | heq
    · rw [heq]
      refine ⟨hsame.trans (Same.failed w), hcoherent.failed, fun hne => absurd rfl hne, fun hr => ?_⟩
      exact absurd ((hsame.reliable hr _).symm.trans hf) nofun
    · rw [heq]
      exact ⟨hsame.trans (Same.fetched hcoherent (hclean hk) lba), Coherent.fetched (hclean hk) hs,
        fun _ => rfl, fun _ => Nat.one_ne_zero⟩

theorem fatFlush_writes (S : Nat → Prop) (hb : v.bufferLba < 4294967296) :
    Writes S v (fatFlush v).2 := by
  rcases fatFlush_cases hb with ⟨-, heq⟩ | ⟨-, -, heq⟩ | ⟨hd, heq⟩
  · rw [heq]
    exact Writes.refl S v
  · rw [heq]
    exact ⟨id, fun _ _ _ _ _ => rfl⟩
  · rw [heq]
    refine ⟨nofun, fun hv s y hs hy => copy_apply_out _ _ ?_⟩
    have hne : s ≠ v.bufferLba := fun h => hs (h ▸ hv hd)
    omega

theorem fatRead_writes (S : Nat → Prop) (h : Coherent v) (hs : lba < 4294967296) :
    Writes S v (fatRead v lba).2 := by
  have hflushed := fatFlush_writes S h.bound
  obtain ⟨-, -, -, hclean, -⟩ := fatFlush_spec h
  rcases fatRead_cases (v := v) hs with ⟨-, heq⟩ | ⟨w, -, ⟨hflush, heq⟩ | ⟨k, hk, hflush, hread⟩⟩
  · rw [heq]
    exact Writes.refl S v
  · rw [heq]
    rwa [hflush] at hflushed
  · rw [hflush] at hflushed hclean
    rcases hread with ⟨-, heq⟩ | heq
    · rw [heq]
      exact hflushed.trans ⟨id, fun _ _ _ _ _ => rfl⟩
    · rw [heq]
      exact hflushed.trans ⟨fun _ hd => absurd ((hclean hk).symm.trans hd) nofun,
        fun _ _ _ _ _ => rfl⟩

/-! ## Writing a field of the cached sector -/

namespace Volume

/-- A field was written to the buffer. -/
def stored (v : Volume) (a n e : Nat) : Volume :=
  { v with buffer := store v.buffer a n e, bufferDirty := true }

end Volume

/-- The second volume holds what the first does but for one field of a sector. -/
structure Put (v w : Volume) (s a n e : Nat) : Prop where
  geometry : w.toGeometry = v.toGeometry
  bytes : ∀ s' x, s' ≠ 0 → x < 512 →
    w.byteAt s' x = if s' = s then store (v.byteAt s) a n e x else v.byteAt s' x
  reliable : v.disk.Reliable → w.disk.Reliable

variable {a b n k : Nat}

theorem Put.stored (hs : v.bufferLba = s) : Put v (v.stored a n e) s a n e := by
  refine ⟨rfl, fun s' x hs' hx => ?_, id⟩
  by_cases hcached : s' = v.bufferLba
  · have hbuffer (y : Nat) : v.byteAt s y = v.buffer y := if_pos hs.symm
    rw [if_pos (hcached.trans hs)]
    refine (if_pos hcached).trans ?_
    simp only [store, hbuffer, Volume.stored]
  · rw [if_neg fun heq => hcached (heq.trans hs.symm)]
    exact (if_neg hcached).trans (if_neg hcached).symm

theorem Coherent.stored (h : Coherent v) (hs : v.bufferLba ≠ 0) : Coherent (v.stored a n e) :=
  ⟨nofun, fun _ => hs, h.bound⟩

theorem Put.before (h : Same v w) (h' : Put w x s a n e) (hs : s ≠ 0) : Put v x s a n e := by
  refine ⟨h'.geometry.trans h.geometry, fun s' y hs' hy => ?_, fun hr => h'.reliable (h.reliable hr)⟩
  rw [h'.bytes s' y hs' hy, h.bytes s' y hs' hy]
  split
  · unfold store
    rw [h.bytes s y hs hy]
  · rfl

theorem Put.after (h : Put v w s a n e) (h' : Same w x) : Put v x s a n e :=
  ⟨h'.geometry.trans h.geometry, fun s' y hs hy => (h'.bytes s' y hs hy).trans (h.bytes s' y hs hy),
    fun hr => h'.reliable (h.reliable hr)⟩

theorem Put.load_same (h : Put v w s a n e) (hs : s ≠ 0) (ha : a + n ≤ 512) :
    load (w.byteAt s) a n = e % 256 ^ n := by
  rw [← load_store_same (v.byteAt s)]
  exact load_congr fun i hi => (h.bytes s (a + i) hs (by omega)).trans (if_pos rfl)

theorem Put.load_apart (h : Put v w s a n e) (hc : lba ≠ 0) (hb : b + k ≤ 512)
    (happart : lba ≠ s ∨ Apart a n b k) : load (w.byteAt lba) b k = load (v.byteAt lba) b k := by
  by_cases hs : lba = s
  · rw [← load_store_apart (v.byteAt lba) (happart.resolve_left fun hne => hne hs)]
    refine load_congr fun i hi => ?_
    rw [h.bytes lba (b + i) hc (by omega), if_pos hs, hs]
  · exact load_congr fun i hi => by rw [h.bytes lba (b + i) hc (by omega), if_neg hs]

theorem Writes.stored (S : Nat → Prop) (hs : S v.bufferLba) : Writes S v (v.stored a n e) :=
  ⟨fun _ _ => hs, fun _ _ _ _ _ => rfl⟩

/-! ## The table -/

/-- The sector of the entry has a number of 32 bits. -/
def Placed (g : Geometry) (c : Nat) : Prop := g.fatLba + c / 128 < 4294967296

theorem Same.entry (h : Same v w) (hfat : v.fatLba ≠ 0) : w.entry = v.entry := by
  funext c
  have hs : v.fatLba + c / 128 ≠ 0 := by omega
  rw [Volume.entry, Volume.entry, Volume.tableSector, Volume.tableSector, h.geometry,
    h.load_eq hs (by omega)]

/-- A field that is an entry of the table. -/
theorem Put.entry (h : Put v w (v.tableSector c) (4 * (c % 128)) 4 e) (hfat : v.fatLba ≠ 0) :
    w.entry = Function.update v.entry c (u32 e) := by
  funext c'
  have hs : v.fatLba + c' / 128 ≠ 0 := by omega
  have hentry : w.entry c' = load (w.byteAt (v.tableSector c')) (4 * (c' % 128)) 4 := by
    rw [Volume.entry, Volume.tableSector, Volume.tableSector, h.geometry]
  rw [hentry]
  by_cases hc : c' = c
  · rw [hc, Function.update_self]
    exact h.load_same (by rwa [← hc]) (by omega)
  · rw [Function.update_of_ne hc]
    refine h.load_apart hs (by omega) ?_
    by_cases hsector : v.tableSector c' = v.tableSector c
    · refine .inr ?_
      unfold Volume.tableSector at hsector
      unfold Apart
      omega
    · exact .inl hsector

theorem fatTableGet_spec (h : Coherent v) (hc : Placed v.toGeometry c) :
    Same v (fatTableGet v c).2 ∧ Coherent (fatTableGet v c).2 ∧
    ((fatTableGet v c).1 = none ∨ (v.fatLba ≠ 0 → (fatTableGet v c).1 = some (v.entry c))) ∧
    (v.disk.Reliable → (fatTableGet v c).1 ≠ none) ∧ ∀ S, Writes S v (fatTableGet v c).2 := by
  have hlba : u32 (v.fatLba + c / 128) = v.tableSector c := u32_of_lt hc
  unfold fatTableGet
  rw [hlba]
  obtain ⟨hsame, hcoherent, hcached, hreliable⟩ := fatRead_spec h (show v.tableSector c < 4294967296 from hc)
  have hwrites (S) := fatRead_writes S h (show v.tableSector c < 4294967296 from hc)
  obtain ⟨r, w, hread⟩ : ∃ r w, fatRead v (v.tableSector c) = (r, w) := ⟨_, _, rfl⟩
  rw [hread] at hsame hcoherent hcached hreliable hwrites ⊢
  cases r with
  | zero => exact ⟨hsame, hcoherent, .inl rfl, fun hr => absurd rfl (hreliable hr), hwrites⟩
  | succ r =>
    refine ⟨hsame, hcoherent, .inr fun hfat => ?_, fun _ => nofun, hwrites⟩
    have hbuffer : w.bufferLba = v.tableSector c := hcached (Nat.succ_ne_zero r)
    have hs : v.tableSector c ≠ 0 := by unfold Volume.tableSector; omega
    refine congrArg some ?_
    rw [Volume.entry, ← hsame.load_eq hs (by omega), Nat.mul_comm]
    exact load_congr fun i _ => (if_pos hbuffer.symm).symm

theorem fatTableSet_spec (h : Coherent v) (hc : Placed v.toGeometry c) (hfat : v.fatLba ≠ 0) :
    Coherent (fatTableSet v c e).2 ∧
    ((fatTableSet v c e).1 = 0 → Same v (fatTableSet v c e).2) ∧
    ((fatTableSet v c e).1 ≠ 0 → (fatTableSet v c e).1 = 1 ∧
      Put v (fatTableSet v c e).2 (v.tableSector c) (4 * (c % 128)) 4 e) ∧
    (v.disk.Reliable → (fatTableSet v c e).1 ≠ 0) ∧
    ∀ S : Nat → Prop, S (v.tableSector c) → Writes S v (fatTableSet v c e).2 := by
  have hlba : u32 (v.fatLba + c / 128) = v.tableSector c := u32_of_lt hc
  have hs : v.tableSector c ≠ 0 := by unfold Volume.tableSector; omega
  unfold fatTableSet
  rw [hlba]
  obtain ⟨hsame, hcoherent, hcached, hreliable⟩ := fatRead_spec h (show v.tableSector c < 4294967296 from hc)
  have hwrites (S) := fatRead_writes S h (show v.tableSector c < 4294967296 from hc)
  obtain ⟨r, w, hread⟩ : ∃ r w, fatRead v (v.tableSector c) = (r, w) := ⟨_, _, rfl⟩
  rw [hread] at hsame hcoherent hcached hreliable hwrites ⊢
  cases r with
  | zero => exact ⟨hcoherent, fun _ => hsame, fun hne => absurd rfl hne,
      fun hr => absurd rfl (hreliable hr), fun S _ => hwrites S⟩
  | succ r =>
    have hbuffer : w.bufferLba = v.tableSector c := hcached (Nat.succ_ne_zero r)
    have hstored : Coherent (w.stored (4 * (c % 128)) 4 e) := hcoherent.stored (by rwa [hbuffer])
    obtain ⟨hflushed, hcoherent', -⟩ := fatFlush_spec hstored
    have hput := (Put.before hsame (Put.stored hbuffer) hs).after hflushed
    refine ⟨hcoherent', nofun, fun _ => ⟨rfl, hput⟩, fun _ => Nat.one_ne_zero, fun S hS => ?_⟩
    exact (hwrites S).trans ((Writes.stored S (hbuffer ▸ hS)).trans (fatFlush_writes S hstored.bound))

/-! ## Runs on the table -/

/-- The calls that reach the table. -/
inductive TableCall
  | get (cluster : Nat)
  | set (cluster fatEntry : Nat)
  | flush

/-- One call, `none` for its 0. -/
def tableCall (v : Volume) : TableCall → Option Nat × Volume
  | .get cluster => fatTableGet v cluster
  | .set cluster fatEntry =>
    let (done, v) := fatTableSet v cluster fatEntry
    (if done = 0 then none else some done, v)
  | .flush =>
    let (done, v) := fatFlush v
    (if done = 0 then none else some done, v)

def tableCalls (v : Volume) : List TableCall → List (Option Nat) × Volume
  | [] => ([], v)
  | call :: calls =>
    let (answer, v) := tableCall v call
    let (answers, v) := tableCalls v calls
    (answer :: answers, v)

namespace TableCall

/-- What the call answers on an array. -/
def answer (t : Nat → Nat) : TableCall → Nat
  | .get cluster => t cluster
  | _ => 1

/-- The array after the call. -/
def after (t : Nat → Nat) : TableCall → Nat → Nat
  | .set cluster fatEntry => Function.update t cluster (u32 fatEntry)
  | _ => t

/-- The entry of the call has a place on the disk. -/
def Placed (g : Geometry) : TableCall → Prop
  | .get cluster => Fat32.Placed g cluster
  | .set cluster _ => Fat32.Placed g cluster
  | .flush => True

end TableCall

/-- The answers are those of an array, which a call that fails leaves as it is. -/
inductive Answers : (Nat → Nat) → List TableCall → List (Option Nat) → (Nat → Nat) → Prop
  | nil {t} : Answers t [] [] t
  | failed {t t' call calls answers} : Answers t calls answers t' →
      Answers t (call :: calls) (none :: answers) t'
  | done {t t'} {call : TableCall} {calls answers} : Answers (call.after t) calls answers t' →
      Answers t (call :: calls) (some (call.answer t) :: answers) t'

/-- The sectors that the calls may write. -/
def Sets (g : Geometry) (calls : List TableCall) (s : Nat) : Prop :=
  ∃ c e, TableCall.set c e ∈ calls ∧ s = g.fatLba + c / 128

theorem tableCall_spec (h : Coherent v) (hfat : v.fatLba ≠ 0) {call : TableCall}
    (hc : call.Placed v.toGeometry) :
    Coherent (tableCall v call).2 ∧ (tableCall v call).2.toGeometry = v.toGeometry ∧
    ((tableCall v call).1 = none ∧ (tableCall v call).2.entry = v.entry ∨
      (tableCall v call).1 = some (call.answer v.entry) ∧
        (tableCall v call).2.entry = call.after v.entry) ∧
    (v.disk.Reliable → (tableCall v call).1 ≠ none ∧ (tableCall v call).2.disk.Reliable) ∧
    ∀ S : Nat → Prop, (∀ c e, call = .set c e → S (v.tableSector c)) →
      Writes S v (tableCall v call).2 := by
  cases call with
  | get c =>
    obtain ⟨hsame, hcoherent, hanswer, hreliable, hwrites⟩ := fatTableGet_spec h hc
    refine ⟨hcoherent, hsame.geometry, ?_, fun hr => ⟨hreliable hr, hsame.reliable hr⟩,
      fun S _ => hwrites S⟩
    exact hanswer.imp (fun hnone => ⟨hnone, hsame.entry hfat⟩) fun hsome =>
      ⟨hsome hfat, hsame.entry hfat⟩
  | set c e =>
    obtain ⟨hcoherent, hzero, hput, hreliable, hwrites⟩ := fatTableSet_spec (e := e) h hc hfat
    simp only [tableCall]
    obtain ⟨r, w, hset⟩ : ∃ r w, fatTableSet v c e = (r, w) := ⟨_, _, rfl⟩
    rw [hset] at hcoherent hzero hput hreliable hwrites ⊢
    by_cases hr : r = 0
    · have hsame := hzero hr
      refine ⟨hcoherent, hsame.geometry, .inl ⟨if_pos hr, hsame.entry hfat⟩,
        fun hrel => absurd hr (hreliable hrel), fun S hS => hwrites S (hS c e rfl)⟩
    · obtain ⟨hone, hput⟩ := hput hr
      refine ⟨hcoherent, hput.geometry, .inr ⟨?_, hput.entry hfat⟩,
        fun hrel => ⟨?_, hput.reliable hrel⟩, fun S hS => hwrites S (hS c e rfl)⟩
      · exact (if_neg hr).trans (congrArg some hone)
      · rw [if_neg hr]
        nofun
  | flush =>
    obtain ⟨hsame, hcoherent, -, -, hreliable⟩ := fatFlush_spec h
    have hwrites (S) := fatFlush_writes (v := v) S h.bound
    have hone : (fatFlush v).1 ≠ 0 → (fatFlush v).1 = 1 := by
      rcases fatFlush_cases h.bound with ⟨-, heq⟩ | ⟨-, -, heq⟩ | ⟨-, heq⟩ <;> simp [heq]
    simp only [tableCall]
    obtain ⟨r, w, hflush⟩ : ∃ r w, fatFlush v = (r, w) := ⟨_, _, rfl⟩
    rw [hflush] at hsame hcoherent hreliable hwrites hone ⊢
    by_cases hr : r = 0
    · exact ⟨hcoherent, hsame.geometry, .inl ⟨if_pos hr, hsame.entry hfat⟩,
        fun hrel => absurd hr (hreliable hrel), fun S _ => hwrites S⟩
    · refine ⟨hcoherent, hsame.geometry, .inr ⟨?_, hsame.entry hfat⟩,
        fun hrel => ⟨?_, hsame.reliable hrel⟩, fun S _ => hwrites S⟩
      · exact (if_neg hr).trans (congrArg some (hone hr))
      · rw [if_neg hr]
        nofun

/-- A run, with the sectors it may write. -/
theorem tableCalls_spec (S : Nat → Prop) {calls : List TableCall} (h : Coherent v)
    (hfat : v.fatLba ≠ 0) (hc : ∀ call ∈ calls, call.Placed v.toGeometry)
    (hS : ∀ s, Sets v.toGeometry calls s → S s) :
    Coherent (tableCalls v calls).2 ∧ (tableCalls v calls).2.toGeometry = v.toGeometry ∧
    Answers v.entry calls (tableCalls v calls).1 (tableCalls v calls).2.entry ∧
    (v.disk.Reliable → none ∉ (tableCalls v calls).1) ∧ Writes S v (tableCalls v calls).2 := by
  induction calls generalizing v with
  | nil => exact ⟨h, rfl, .nil, fun _ => List.not_mem_nil, Writes.refl S v⟩
  | cons call calls ih =>
    obtain ⟨hcoherent, hgeometry, hanswer, hreliable, hwrites⟩ :=
      tableCall_spec h hfat (hc call List.mem_cons_self)
    simp only [tableCalls]
    obtain ⟨r, w, hcall⟩ : ∃ r w, tableCall v call = (r, w) := ⟨_, _, rfl⟩
    rw [hcall] at hcoherent hgeometry hanswer hreliable hwrites ⊢
    obtain ⟨hcoherent', hgeometry', hanswers, hreliable', hwrites'⟩ := ih hcoherent
      (by rwa [hgeometry]) (fun d hd => by rw [hgeometry]; exact hc d (List.mem_cons_of_mem _ hd))
      (fun s ⟨c, e, hmem, hs⟩ => hS s ⟨c, e, List.mem_cons_of_mem _ hmem, by rw [hs, hgeometry]⟩)
    refine ⟨hcoherent', hgeometry'.trans hgeometry, ?_, fun hr => ?_, ?_⟩
    · rcases hanswer with ⟨hnone, hentry⟩ | ⟨hsome, hentry⟩
      · rw [hentry] at hanswers
        rw [hnone]
        exact .failed hanswers
      · rw [hentry] at hanswers
        rw [hsome]
        exact .done hanswers
    · obtain ⟨hne, hr'⟩ := hreliable hr
      exact fun hmem => (List.mem_cons.mp hmem).elim (fun heq => hne heq.symm) (hreliable' hr')
    · refine (hwrites S fun c e heq => hS _ ⟨c, e, ?_, rfl⟩).trans hwrites'
      rw [heq]
      exact List.mem_cons_self

/-- Whatever transfers fail, a run on the table answers like an array: a call that reports failure
has changed nothing, and one that reports success is seen by all that follow. Once the buffer is
written back the array is on the disk, where no sector changes but those of the entries that were
set: there is no second copy of the table. -/
theorem tableCalls_array {calls : List TableCall} (h : Coherent v) (hfat : v.fatLba ≠ 0)
    (hc : ∀ call ∈ calls, call.Placed v.toGeometry) :
    Answers v.entry calls (tableCalls v calls).1 (tableCalls v calls).2.entry ∧
    (v.disk.Reliable → none ∉ (tableCalls v calls).1) ∧
    ((tableCalls v calls).2.bufferDirty = false → ∀ c,
      load (tableCalls v calls).2.disk.image (512 * v.tableSector c + 4 * (c % 128)) 4 =
        (tableCalls v calls).2.entry c) ∧
    (v.bufferDirty = false → ∀ s x, ¬ Sets v.toGeometry calls s → x < 512 →
      (tableCalls v calls).2.disk.image (512 * s + x) = v.disk.image (512 * s + x)) := by
  obtain ⟨hcoherent, hgeometry, hanswers, hreliable, hwrites⟩ :=
    tableCalls_spec (Sets v.toGeometry calls) h hfat hc fun _ hs => hs
  refine ⟨hanswers, hreliable, fun hclean c => ?_, fun hd => hwrites.disk fun ht =>
    absurd (hd.symm.trans ht) nofun⟩
  have hs : v.tableSector c ≠ 0 := by unfold Volume.tableSector; omega
  have hsector : (tableCalls v calls).2.tableSector c = v.tableSector c := by
    unfold Volume.tableSector
    rw [hgeometry]
  rw [Volume.entry, hsector]
  exact load_shift fun i hi => by
    rw [hcoherent.byteAt hclean hs (by omega), Nat.add_assoc]

/-- A volume that nothing was read of yet, on a disk of zeros whose transfer number 2 fails. -/
def blankVolume : Volume :=
  { sectorSize := 512, clusterSize := 1, totalSize := 66000, fatLba := 32, fsinfoLba := 1,
    dataLba := 1064, rootLba := 1064, buffer := fun _ => 0, bufferLba := 0,
    disk := ⟨fun _ => 0, fun t => t = 2, 0⟩, bufferDirty := false }

theorem coherent_blankVolume : Coherent blankVolume :=
  ⟨fun _ hne => absurd rfl hne, nofun, by decide⟩

/-- The entry of cluster 200 cannot be read, and that of cluster 5 is not lost. -/
theorem tableCalls_array_failed :
    (tableCalls blankVolume [.set 5 7, .get 200, .get 5]).1 = [some 1, none, some 7] ∧
    Answers blankVolume.entry [.set 5 7, .get 200, .get 5] [some 1, none, some 7]
      (tableCalls blankVolume [.set 5 7, .get 200, .get 5]).2.entry := by
  have hrun : (tableCalls blankVolume [.set 5 7, .get 200, .get 5]).1 = [some 1, none, some 7] := by
    decide +kernel
  have hplaced : ∀ call ∈ [TableCall.set 5 7, .get 200, .get 5], call.Placed blankVolume.toGeometry := by
    simp only [List.forall_mem_cons]
    exact ⟨show (32 : Nat) + 5 / 128 < 4294967296 by omega,
      show (32 : Nat) + 200 / 128 < 4294967296 by omega,
      show (32 : Nat) + 5 / 128 < 4294967296 by omega, nofun⟩
  have harray := (tableCalls_array coherent_blankVolume (by decide) hplaced).1
  rw [hrun] at harray
  exact ⟨hrun, harray⟩

end UnedKernel.Fat32
