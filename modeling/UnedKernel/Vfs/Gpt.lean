import UnedKernel.Ext2.Disk
import UnedKernel.Lib.Record

/-! # The GUID partition table

`read_gpt` loads the table four entries a sector into an array on its stack and
calls `add_part` for the entries before the first unused one. -/

namespace UnedKernel.Gpt
open ByteMem Word Sectors Ext2

def MBR_BOOT_SIG : Nat := 510
def MBR_BOOT_SIG_VALUE : Nat := 0xAA55
def GPT_SIGNATURE : Nat := 0x5452415020494645

/-! ## `struct gpt_header` and `struct gpt_entry` -/

namespace Header

def signature : Field := ⟨0, 8⟩
def partitionTableLba : Field := ⟨72, 8⟩
def partitionCount : Field := ⟨80, 4⟩
def partitionEntrySize : Field := ⟨84, 4⟩

end Header

namespace Entry

/-- The offset of the type GUID. -/
def typeGuid : Nat := 0

def firstLba : Field := ⟨32, 8⟩
def lastLba : Field := ⟨40, 8⟩

end Entry

/-- `sizeof(struct gpt_entry)`. -/
def sizeofEntry : Nat := 128

/-! ## The type GUID as a string -/

/-- A digit that `sprintf` writes for `x`. -/
def hexDigit (n : Nat) : Byte := if n < 10 then BitVec.ofNat 8 (0x30 + n) else BitVec.ofNat 8 (0x57 + n)

/-- `%0*x` of a value that has no more digits than the width. -/
def hex : (width value : Nat) → List Byte
  | 0, _ => []
  | n + 1, v => hex n (v / 16) ++ [hexDigit (v % 16)]

def dash : Byte := 0x2d

/-- `n` bytes, `%02x` each. -/
def hexBytes (m : Bytes) (a n : Nat) : List Byte :=
  (List.range n).flatMap fun i => hex 2 (m (a + i)).toNat

/-- The string of the type GUID at `a`. -/
def guidString (m : Bytes) (a : Nat) : List Byte :=
  hex 8 (load m a 4) ++ dash :: (hex 4 (load m (a + 4) 2) ++ dash :: (hex 4 (load m (a + 6) 2) ++
    dash :: (hexBytes m (a + 8) 2 ++ dash :: hexBytes m (a + 10) 6)))

/-- "00000000-0000-0000-0000-000000000000". -/
def GPT_NO_ENTRY : List Byte :=
  List.replicate 8 0x30 ++ dash :: (List.replicate 4 0x30 ++ dash :: (List.replicate 4 0x30 ++
    dash :: (List.replicate 4 0x30 ++ dash :: List.replicate 12 0x30)))

/-! ## `read_gpt` -/

/-- A call of `add_part`. -/
structure AddPart where
  lba : Nat
  size : Nat
  status : Nat
  type : Nat
  deriving DecidableEq

inductive GptFault where
  /-- A sector that is read over the end of the array. -/
  | outside
  | endless
  deriving DecidableEq

/-- `disk_read` of one sector: the device counts in bytes, and one byte is a sector. -/
def diskRead (d : Disk) (buffer : Bytes) (lba : Nat) : Nat × Bytes × Disk :=
  let (r, buffer, d) := ddDiskRead d 1 lba buffer
  (r % 256, buffer, d)

/-- The sector that is read for the entries from `i` on. -/
def entryLba (header : Bytes) (i : Nat) : Nat :=
  u32 (Header.partitionTableLba.get header 0 +
    u32 (i * Header.partitionEntrySize.get header 0) >>> 9)

/-- The loop that loads the entries. Its counter has as many values as turns are given. `none`
is a sector that cannot be read. -/
def loadEntries (header : Bytes) (count : Nat) (d : Disk) (entries : Bytes) (i : Nat) :
    Nat → Except GptFault (Option Bytes)
  | 0 => .error .endless
  | turns + 1 =>
    if i < count then
      let (r, sector, d) := diskRead d (fun x => entries (sizeofEntry * i + x)) (entryLba header i)
      if r = 0 then .ok none
      else if count < i + 4 then .error .outside
      else loadEntries header count d (copy entries (sizeofEntry * i) sector 0 512) (u32 (i + 4)) turns
    else .ok (some entries)

/-- The loop that counts the entries before the first unused one, `n` of them left. -/
def validFrom (entries : Bytes) (i : Nat) : Nat → Nat
  | 0 => 0
  | n + 1 =>
    if guidString entries (sizeofEntry * i + Entry.typeGuid) = GPT_NO_ENTRY then 0
    else validFrom entries (i + 1) n + 1

/-- What `add_part` is called with for entry `i`. -/
def addPart (entries : Bytes) (i : Nat) : AddPart where
  lba := u32 (Entry.firstLba.get entries (sizeofEntry * i))
  size := u32 (sub64 (Entry.lastLba.get entries (sizeofEntry * i))
    (Entry.firstLba.get entries (sizeofEntry * i)))
  status := 0
  type := 0

/-- The loop that adds the partitions. Its counter is a `uint8_t`. -/
def addFrom (entries : Bytes) (valid : Nat) (i : Nat) : Nat → Except GptFault (List AddPart)
  | 0 => .error .endless
  | turns + 1 =>
    if i < valid then
      (addFrom entries valid ((i + 1) % 256) turns).map fun calls => addPart entries i :: calls
    else .ok []

/-- `read_gpt`: its result and the calls of `add_part`. `stack` is what the array of entries
holds at first. -/
def readGpt (d : Disk) (stack : Bytes) : Except GptFault (Nat × List AddPart) :=
  let (r, mbr, d) := diskRead d (fun _ => 0) 0
  if r = 0 then .ok (0, [])
  else if load mbr MBR_BOOT_SIG 2 ≠ MBR_BOOT_SIG_VALUE then .ok (0, [])
  else
    let (r, header, d) := diskRead d (fun _ => 0) 1
    if r = 0 then .ok (0, [])
    else if Header.signature.get header 0 ≠ GPT_SIGNATURE then .ok (0, [])
    else
      let count := Header.partitionCount.get header 0
      match loadEntries header count d stack 0 4294967296 with
      | .error fault => .error fault
      | .ok none => .ok (0, [])
      | .ok (some entries) =>
        let valid := validFrom entries 0 count
        (addFrom entries valid 0 256).map fun calls => (valid, calls)

/-! ## The unused entry -/

theorem hexDigit_eq_iff {n : Nat} (h : n < 16) : hexDigit n = 0x30 ↔ n = 0 := by
  have hall : ∀ n < 16, hexDigit n = 0x30 ↔ n = 0 := by decide
  exact hall n h

@[simp] theorem hex_length (width value : Nat) : (hex width value).length = width := by
  induction width generalizing value with
  | zero => rfl
  | succ n ih => simp [hex, ih]

/-- All digits are zero exactly when the value is. -/
theorem hex_eq_iff {width value : Nat} (h : value < 16 ^ width) :
    hex width value = List.replicate width 0x30 ↔ value = 0 := by
  induction width generalizing value with
  | zero =>
    rw [pow_zero] at h
    exact iff_of_true rfl (by omega)
  | succ n ih =>
    have hdiv : value / 16 < 16 ^ n := by
      rw [pow_succ] at h
      exact Nat.div_lt_of_lt_mul (Nat.mul_comm _ _ ▸ h)
    have hdigit := @hexDigit_eq_iff (value % 16) (Nat.mod_lt _ (by omega))
    rw [hex, List.replicate_succ', List.append_eq_append_iff_of_size_eq_left (by simp), ih hdiv,
      List.singleton_inj, hdigit]
    omega

theorem hexBytes_succ (m : Bytes) (a n : Nat) :
    hexBytes m a (n + 1) = hexBytes m a n ++ hex 2 (m (a + n)).toNat := by
  rw [hexBytes, List.range_succ, List.flatMap_append, List.flatMap_singleton]
  rfl

theorem hexBytes_length (m : Bytes) (a n : Nat) : (hexBytes m a n).length = 2 * n := by
  induction n with
  | zero => rfl
  | succ n ih =>
    rw [hexBytes_succ, List.length_append, ih, hex_length]
    omega

theorem hexBytes_eq_iff (m : Bytes) (a n : Nat) :
    hexBytes m a n = List.replicate (2 * n) 0x30 ↔ ∀ i, i < n → m (a + i) = 0 := by
  induction n with
  | zero => exact iff_of_true rfl fun i hi => absurd hi (Nat.not_lt_zero i)
  | succ n ih =>
    have hzero : (m (a + n)).toNat = 0 ↔ m (a + n) = 0 := BitVec.toNat_inj (y := 0)
    have hsplit : List.replicate (2 * (n + 1)) (0x30 : Byte) =
        List.replicate (2 * n) 0x30 ++ List.replicate 2 0x30 := by
      rw [List.replicate_append_replicate]
      congr 1
    rw [hexBytes_succ, hsplit, List.append_eq_append_iff_of_size_eq_left (by simp [hexBytes_length]),
      ih, hex_eq_iff (m (a + n)).isLt, hzero]
    constructor
    · rintro ⟨hbelow, hlast⟩ i hi
      by_cases hin : i = n
      · rw [hin]
        exact hlast
      · exact hbelow i (by omega)
    · intro h
      exact ⟨fun i hi => h i (by omega), h n (by omega)⟩

theorem load_eq_zero_iff (m : Bytes) (a n : Nat) : load m a n = 0 ↔ ∀ i, i < n → m (a + i) = 0 := by
  induction n generalizing a with
  | zero => exact iff_of_true rfl fun i hi => absurd hi (Nat.not_lt_zero i)
  | succ n ih =>
    have hzero : (m a).toNat = 0 ↔ m a = 0 := BitVec.toNat_inj (y := 0)
    have hsum : load m a (n + 1) = 0 ↔ (m a).toNat = 0 ∧ load m (a + 1) n = 0 := by
      rw [load]
      omega
    rw [hsum, hzero, ih]
    constructor
    · rintro ⟨hfirst, hrest⟩ i hi
      cases i with
      | zero => exact hfirst
      | succ i =>
        have hi' := hrest i (by omega)
        rwa [Nat.add_assoc, Nat.add_comm 1 i] at hi'
    · intro h
      refine ⟨h 0 (by omega), fun i hi => ?_⟩
      have hi' := h (i + 1) (by omega)
      rwa [Nat.add_assoc, Nat.add_comm 1 i]

/-- The entry at `a` has a type. -/
def Used (m : Bytes) (a : Nat) : Prop := ∃ i, i < 16 ∧ m (a + Entry.typeGuid + i) ≠ 0

instance (m : Bytes) (a : Nat) : Decidable (Used m a) :=
  inferInstanceAs (Decidable (∃ i, i < 16 ∧ _))

/-- The string is that of no entry exactly when the entry has no type. -/
theorem guidString_eq_iff (m : Bytes) (a : Nat) :
    guidString m (a + Entry.typeGuid) = GPT_NO_ENTRY ↔ ¬ Used m a := by
  have h4 := @hex_eq_iff 8 _ (load_lt m 4 (a + Entry.typeGuid))
  have h2 := @hex_eq_iff 4 _ (load_lt m 2 (a + Entry.typeGuid + 4))
  have h2' := @hex_eq_iff 4 _ (load_lt m 2 (a + Entry.typeGuid + 6))
  have hbytes := hexBytes_eq_iff m (a + Entry.typeGuid + 8) 2
  have hbytes' := hexBytes_eq_iff m (a + Entry.typeGuid + 10) 6
  unfold guidString GPT_NO_ENTRY
  rw [List.append_eq_append_iff_of_size_eq_left (by simp), List.cons_inj_right,
    List.append_eq_append_iff_of_size_eq_left (by simp), List.cons_inj_right,
    List.append_eq_append_iff_of_size_eq_left (by simp), List.cons_inj_right,
    List.append_eq_append_iff_of_size_eq_left (by simp [hexBytes_length]), List.cons_inj_right,
    h4, h2, h2', hbytes, hbytes', load_eq_zero_iff, load_eq_zero_iff, load_eq_zero_iff]
  obtain ⟨g, hg⟩ : ∃ g, a + Entry.typeGuid = g := ⟨_, rfl⟩
  -- the parts of the string are consecutive bytes of the GUID
  have hpart (o n : Nat) (h : ∀ i, i < n → m (g + o + i) = 0) (i : Nat) (hi : o ≤ i)
      (hi' : i < o + n) : m (g + i) = 0 := by
    have hbyte := h (i - o) (by omega)
    rwa [show g + o + (i - o) = g + i by omega] at hbyte
  rw [Used, hg]
  constructor
  · rintro ⟨ha, hb, hc, hd, he⟩ ⟨i, hi, hne⟩
    apply hne
    by_cases h4 : i < 4
    · exact ha i h4
    by_cases h6 : i < 6
    · exact hpart 4 2 hb i (by omega) (by omega)
    by_cases h8 : i < 8
    · exact hpart 6 2 hc i (by omega) (by omega)
    by_cases h10 : i < 10
    · exact hpart 8 2 hd i (by omega) (by omega)
    · exact hpart 10 6 he i (by omega) (by omega)
  · intro h
    have hzero (i : Nat) (hi : i < 16) : m (g + i) = 0 := by
      by_contra hne
      exact h ⟨i, hi, hne⟩
    refine ⟨fun i hi => hzero i (by omega), fun i hi => ?_, fun i hi => ?_, fun i hi => ?_,
      fun i hi => ?_⟩
    · rw [Nat.add_assoc]
      exact hzero _ (by omega)
    · rw [Nat.add_assoc]
      exact hzero _ (by omega)
    · rw [Nat.add_assoc]
      exact hzero _ (by omega)
    · rw [Nat.add_assoc]
      exact hzero _ (by omega)

/-! ## The loops -/

section loops

variable {d : Disk} {buffer stack header entries : Bytes} {lba count i j n turns valid : Nat}

theorem diskRead_fails (h : d.fails d.clock = true) :
    diskRead d buffer lba = (0, buffer, d.after d.image 1) := by
  have hone : sizeToBlocks 1 = 1 := by decide
  simp only [diskRead, ddDiskRead, hone, ddReadSectors, h, if_true]
  rfl

theorem diskRead_ok (h : d.fails d.clock = false) :
    diskRead d buffer lba = (1, copy buffer 0 (window d.image lba) 0 512, d.after d.image 1) := by
  have hone : sizeToBlocks 1 = 1 := by decide
  have hsector := @copy_window_succ d.image buffer lba 0
  rw [Nat.mul_zero, Disk.copy_zero_length, Nat.add_zero, Nat.zero_add, Nat.mul_one] at hsector
  simp only [diskRead, ddDiskRead, hone, ddReadSectors, h, Bool.false_eq_true, if_false,
    Nat.mul_zero, Nat.add_zero, Nat.zero_add, hsector]
  rfl

/-- The bytes that the code takes for the table: four entries of 128 bytes from each sector. -/
def loaded (image header : Bytes) : Bytes := fun x =>
  window image (entryLba header (4 * (x / 512))) (x % 512)

theorem copy_loaded_succ (image buffer : Bytes) :
    copy (copy stack 0 (loaded image header) 0 (512 * j)) (sizeofEntry * (4 * j))
      (copy buffer 0 (window image (entryLba header (4 * j))) 0 512) 0 512 =
      copy stack 0 (loaded image header) 0 (512 * (j + 1)) := by
  have hstart : sizeofEntry * (4 * j) = 512 * j := by
    unfold sizeofEntry
    omega
  rw [hstart]
  funext x
  by_cases hx : 512 * j ≤ x ∧ x < 512 * j + 512
  · have hdiv : x / 512 = j := by omega
    have hmod : x % 512 = x - 512 * j := by omega
    rw [copy_apply_in _ _ hx.1 hx.2, copy_apply_in _ _ (Nat.zero_le _) (by omega),
      copy_apply_in _ _ (Nat.zero_le _) (by omega)]
    simp only [loaded, Nat.sub_zero, Nat.zero_add, hdiv, hmod]
  · rw [copy_apply_out _ _ (by omega)]
    by_cases hlt : x < 512 * j
    · rw [copy_apply_in _ _ (Nat.zero_le _) (by omega), copy_apply_in _ _ (Nat.zero_le _) (by omega)]
    · rw [copy_apply_out _ _ (by omega), copy_apply_out _ _ (by omega)]

/-- With `n` sectors left, the loop stops at the first that cannot be read, or reads the last
one over the end of the array, or loads them all. -/
theorem loadEntries_eq (hcount : count < 4294967296) (hj : j + n = (count + 3) / 4)
    (hlast : n = 0 → count % 4 = 0) (hturns : n < turns) :
    loadEntries header count d (copy stack 0 (loaded d.image header) 0 (512 * j)) (4 * j) turns =
      if d.moved n < n then .ok none
      else if count % 4 = 0 then .ok (some (copy stack 0 (loaded d.image header) 0 (512 * (j + n))))
      else .error .outside := by
  induction n generalizing d j turns with
  | zero =>
    obtain ⟨turns, rfl⟩ : ∃ t, turns = t + 1 := ⟨turns - 1, by omega⟩
    have hend : ¬ 4 * j < count := by
      have hal := hlast rfl
      omega
    rw [loadEntries, if_neg hend, if_neg (Nat.not_lt_zero _), if_pos (hlast rfl), Nat.add_zero]
  | succ n ih =>
    obtain ⟨turns, rfl⟩ : ∃ t, turns = t + 1 := ⟨turns - 1, by omega⟩
    rw [loadEntries, if_pos (by omega)]
    cases hfails : d.fails d.clock with
    | true =>
      have hmoved : d.moved (n + 1) = 0 := by rw [Disk.moved, if_pos hfails]
      rw [diskRead_fails hfails, hmoved]
      rfl
    | false =>
      have hmoved : d.moved (n + 1) = d.tick.moved n + 1 := by
        rw [Disk.moved, if_neg (by simp [hfails])]
      rw [diskRead_ok hfails, hmoved]
      simp only [Nat.one_ne_zero, if_false, Nat.succ_lt_succ_iff]
      by_cases hover : count < 4 * j + 4
      · -- the last sector, which the array does not hold
        obtain rfl : n = 0 := by omega
        rw [if_pos hover, if_neg (Nat.not_lt_zero _), if_neg (by omega)]
      · have hstep := @ih (d.after d.image 1) (j + 1) turns (by omega) (by omega) (by omega)
        have hnext : u32 (4 * j + 4) = 4 * (j + 1) := by
          rw [u32_of_lt (by omega)]
          omega
        have hsum : j + 1 + n = j + (n + 1) := by omega
        rw [if_neg hover, copy_loaded_succ, hnext, ← hsum]
        exact hstep

/-- What the counting loop finds. -/
theorem validFrom_eq_iff : validFrom entries i n = valid ↔ valid ≤ n ∧
    (∀ k, k < valid → Used entries (sizeofEntry * (i + k))) ∧
    (valid < n → ¬ Used entries (sizeofEntry * (i + valid))) := by
  induction n generalizing i valid with
  | zero =>
    rw [validFrom]
    constructor
    · rintro rfl
      exact ⟨Nat.le_refl 0, fun k hk => absurd hk (Nat.not_lt_zero k), fun h => absurd h (by omega)⟩
    · rintro ⟨hle, -⟩
      omega
  | succ n ih =>
    rw [validFrom, ← Nat.add_zero (sizeofEntry * i)]
    by_cases hused : Used entries (sizeofEntry * i)
    · have hstring : guidString entries (sizeofEntry * i + Entry.typeGuid) ≠ GPT_NO_ENTRY :=
        fun h => (guidString_eq_iff _ _).mp h hused
      rw [Nat.add_zero, if_neg hstring]
      cases valid with
      | zero =>
        refine iff_of_false (Nat.succ_ne_zero _) fun h => ?_
        exact h.2.2 (Nat.succ_pos n) hused
      | succ v =>
        have hshift (k : Nat) : i + 1 + k = i + (k + 1) := by omega
        rw [Nat.add_right_cancel_iff, ih, Nat.succ_le_succ_iff, Nat.succ_lt_succ_iff, hshift]
        refine and_congr_right fun _ => and_congr_left fun _ => ⟨fun h k hk => ?_, fun h k hk => ?_⟩
        · cases k with
          | zero => exact hused
          | succ k =>
            rw [← hshift]
            exact h k (by omega)
        · rw [hshift]
          exact h (k + 1) (by omega)
    · rw [Nat.add_zero, if_pos ((guidString_eq_iff _ _).mpr hused)]
      constructor
      · rintro rfl
        exact ⟨Nat.zero_le _, fun k hk => absurd hk (Nat.not_lt_zero k), fun _ => hused⟩
      · rintro ⟨-, hbelow, -⟩
        by_contra hne
        exact hused (hbelow 0 (by omega))

/-- Up to 255 partitions are added in the order of the table. -/
theorem addFrom_eq (hvalid : valid ≤ 255) (hi : i ≤ valid) (hturns : valid - i < turns) :
    addFrom entries valid i turns = .ok ((List.range' i (valid - i)).map (addPart entries)) := by
  obtain ⟨n, hn⟩ : ∃ n, valid - i = n := ⟨_, rfl⟩
  rw [hn] at hturns ⊢
  induction n generalizing i turns with
  | zero =>
    obtain ⟨turns, rfl⟩ : ∃ t, turns = t + 1 := ⟨turns - 1, by omega⟩
    rw [addFrom, if_neg (by omega)]
    rfl
  | succ n ih =>
    obtain ⟨turns, rfl⟩ : ∃ t, turns = t + 1 := ⟨turns - 1, by omega⟩
    have hmod : (i + 1) % 256 = i + 1 := Nat.mod_eq_of_lt (by omega)
    rw [addFrom, if_pos (by omega), hmod, ih (by omega) (by omega) (by omega)]
    rfl

/-- The counter never comes to 256. -/
theorem addFrom_endless (hvalid : 256 ≤ valid) (hi : i < 256) :
    addFrom entries valid i turns = .error .endless := by
  induction turns generalizing i with
  | zero => rfl
  | succ turns ih =>
    rw [addFrom, if_pos (by omega), ih (Nat.mod_lt _ (by omega))]
    rfl

end loops

/-! ## Disks with a table -/

/-- The header on the disk. -/
def gptHeader (d : Disk) : Bytes := window d.image 1

def partitionCount (d : Disk) : Nat := Header.partitionCount.get (gptHeader d) 0

def tableLba (d : Disk) : Nat := Header.partitionTableLba.get (gptHeader d) 0

/-- The bytes of the disk from the table on. -/
def table (d : Disk) : Bytes := window d.image (tableLba d)

/-- Where entry `i` of the table is. -/
def entryAt (d : Disk) (i : Nat) : Nat := i * Header.partitionEntrySize.get (gptHeader d) 0

/-- A disk with both signatures, and a table whose used entries are the first `u`. -/
structure HasGpt (d : Disk) (u : Nat) : Prop where
  readMbr : d.fails d.clock = false
  readHeader : d.fails (d.clock + 1) = false
  bootSig : load (window d.image 0) MBR_BOOT_SIG 2 = MBR_BOOT_SIG_VALUE
  signature : Header.signature.get (gptHeader d) 0 = GPT_SIGNATURE
  entrySize : ∃ k, Header.partitionEntrySize.get (gptHeader d) 0 = 128 * 2 ^ k
  le : u ≤ partitionCount d
  used : ∀ i, i < partitionCount d → (Used (table d) (entryAt d i) ↔ i < u)

/-- A call adds an entry: its first LBA and its length. -/
def Adds (entries : Bytes) (a : Nat) (call : AddPart) : Prop :=
  call.lba = Entry.firstLba.get entries a ∧
    (call.size : Int) = Entry.lastLba.get entries a - Entry.firstLba.get entries a + 1

/-- `read_gpt` ends, stays inside its array, adds the used entries in the order of the table
and returns how many they are. -/
def Parses (d : Disk) (stack : Bytes) (u : Nat) : Prop :=
  ∃ calls, readGpt d stack = .ok (u, calls) ∧ calls.length = u ∧
    ∀ i call, calls[i]? = some call → Adds (table d) (entryAt d i) call

/-- How many sectors the loop over the entries reads. -/
def tableSectors (d : Disk) : Nat := (partitionCount d + 3) / 4

/-- One of the sectors of the table cannot be read. -/
def TableFails (d : Disk) : Prop :=
  (d.after d.image 2).moved (tableSectors d) < tableSectors d

/-- What the code loads stands in for the table: after 255 entries at most comes an unused one,
and each of them is used, begins at a sector below 2^32 where the entry of the table
begins, and ends one sector later. -/
def StandsIn (d : Disk) (u : Nat) : Prop :=
  u ≤ 255 ∧ (∀ i, i < u → Used (loaded d.image (gptHeader d)) (sizeofEntry * i) ∧
      Adds (table d) (entryAt d i) (addPart (loaded d.image (gptHeader d)) i)) ∧
    (u < partitionCount d → ¬ Used (loaded d.image (gptHeader d)) (sizeofEntry * u))

/-- When the code parses the table: no entry is used when one of its sectors cannot be read;
otherwise it fills its sectors, and no entry is used unless the table is at a sector from 2^32
on and what is loaded instead stands in for it. -/
structure Parsable (d : Disk) (u : Nat) : Prop where
  ofFails : TableFails d → u = 0
  aligned : ¬ TableFails d → partitionCount d % 4 = 0
  unused : ¬ TableFails d → tableLba d < 4294967296 → u = 0
  standsIn : ¬ TableFails d → 4294967296 ≤ tableLba d → StandsIn d u

section parses

variable {d : Disk} {stack entries : Bytes} {u i : Nat}

theorem entryLba_congr {h h' : Bytes} (heq : ∀ f : Field, f.Within 512 → f.get h 0 = f.get h' 0)
    (i : Nat) : entryLba h i = entryLba h' i := by
  rw [entryLba, entryLba, heq _ (by decide), heq _ (by decide)]

theorem loadEntries_congr {h h' : Bytes} (heq : ∀ i, entryLba h i = entryLba h' i) (count : Nat)
    (d : Disk) (entries : Bytes) (i turns : Nat) :
    loadEntries h count d entries i turns = loadEntries h' count d entries i turns := by
  induction turns generalizing d entries i with
  | zero => rfl
  | succ turns ih => simp only [loadEntries, heq, ih]

/-- Behind the two signatures everything depends on the loaded entries. -/
theorem HasGpt.readGpt_eq (h : HasGpt d u) (stack : Bytes) : readGpt d stack =
    match loadEntries (gptHeader d) (partitionCount d) (d.after d.image 2) stack 0 4294967296 with
    | .error fault => .error fault
    | .ok none => .ok (0, [])
    | .ok (some entries) =>
      (addFrom entries (validFrom entries 0 (partitionCount d)) 0 256).map fun calls =>
        (validFrom entries 0 (partitionCount d), calls) := by
  have hsector (lba : Nat) (f : Field) (hf : f.Within 512) :
      f.get (copy (fun _ => 0) 0 (window d.image lba) 0 512) 0 = f.get (window d.image lba) 0 :=
    Field.get_congr hf fun x _ hx => by
      rw [copy_apply_in _ _ (Nat.zero_le x) (by omega), Nat.sub_zero, Nat.zero_add]
  have hboot : load (copy (fun _ => 0) 0 (window d.image 0) 0 512) MBR_BOOT_SIG 2 =
      MBR_BOOT_SIG_VALUE := by
    have hfield := hsector 0 ⟨MBR_BOOT_SIG, 2⟩ (by decide)
    simp only [Field.get, Nat.zero_add] at hfield
    rw [hfield, h.bootSig]
  have hsig := (hsector 1 Header.signature (by decide)).trans h.signature
  have hcount : Header.partitionCount.get (copy (fun _ => 0) 0 (window d.image 1) 0 512) 0 =
      partitionCount d := hsector 1 Header.partitionCount (by decide)
  have hread : (d.after d.image 1).fails (d.after d.image 1).clock = false := h.readHeader
  have himage : (d.after d.image 1).image = d.image := rfl
  unfold readGpt
  rw [diskRead_ok h.readMbr]
  simp only [Nat.one_ne_zero, if_false, if_neg (not_not_intro hboot)]
  rw [diskRead_ok hread, himage]
  simp only [Nat.one_ne_zero, if_false, if_neg (not_not_intro hsig), hcount]
  rw [loadEntries_congr (entryLba_congr (hsector 1))]
  rfl

/-- The bytes of an entry decide what is read from it. -/
theorem used_congr {m m' : Bytes} {a : Nat} (h : ∀ x, x < sizeofEntry → m (a + x) = m' (a + x)) :
    Used m a ↔ Used m' a := by
  have hbyte (x : Nat) (hx : x < 16) : m (a + Entry.typeGuid + x) = m' (a + Entry.typeGuid + x) :=
    h x (by unfold sizeofEntry; omega)
  constructor
  · rintro ⟨x, hx, hne⟩
    exact ⟨x, hx, hbyte x hx ▸ hne⟩
  · rintro ⟨x, hx, hne⟩
    exact ⟨x, hx, (hbyte x hx).symm ▸ hne⟩

theorem addPart_congr {m m' : Bytes}
    (h : ∀ x, x < sizeofEntry → m (sizeofEntry * i + x) = m' (sizeofEntry * i + x)) :
    addPart m i = addPart m' i := by
  have hfield (f : Field) (hf : f.Within sizeofEntry) :
      f.get m (sizeofEntry * i) = f.get m' (sizeofEntry * i) :=
    Field.get_congr hf fun x hx hx' => by
      rw [← Nat.add_sub_of_le hx]
      exact h _ (by omega)
  rw [addPart, addPart, hfield _ (by decide), hfield _ (by decide)]

/-- The difference of the ends of an entry is not its length. -/
theorem sub64_ne_length {first last : Nat} (hf : first < 18446744073709551616) :
    (u32 (sub64 last first) : Int) ≠ last - first + 1 := by
  unfold u32 sub64 u64
  omega

/-- Below sector 2^32 the first entry is the one of the table. -/
theorem loaded_first (h : tableLba d < 4294967296) {x : Nat} (hx : x < sizeofEntry) :
    loaded d.image (gptHeader d) x = table d x := by
  unfold sizeofEntry at hx
  have hdiv : x / 512 = 0 := by omega
  have hmod : x % 512 = x := Nat.mod_eq_of_lt (by omega)
  have hlba : entryLba (gptHeader d) 0 = tableLba d := by
    have hzero : u32 0 >>> 9 = 0 := by decide
    rw [entryLba, Nat.zero_mul, hzero, Nat.add_zero]
    exact u32_of_lt h
  rw [loaded, hdiv, hmod, Nat.mul_zero, hlba]
  rfl

/-- Below sector 2^32 only a table without used entries is stood in for. -/
theorem standsIn_iff (h : HasGpt d u) (hlba : tableLba d < 4294967296) : StandsIn d u ↔ u = 0 := by
  have hfirst (x : Nat) (hx : x < sizeofEntry) :
      loaded d.image (gptHeader d) (sizeofEntry * 0 + x) = table d (sizeofEntry * 0 + x) := by
    rw [Nat.mul_zero, Nat.zero_add]
    exact loaded_first hlba hx
  have hentry : entryAt d 0 = sizeofEntry * 0 := by rw [entryAt, Nat.zero_mul, Nat.mul_zero]
  constructor
  · rintro ⟨-, hadds, -⟩
    by_contra hne
    obtain ⟨-, -, hsize⟩ := hadds 0 (Nat.pos_of_ne_zero hne)
    rw [addPart_congr hfirst, hentry] at hsize
    exact sub64_ne_length (Field.get_lt _) hsize
  · rintro rfl
    refine ⟨Nat.zero_le _, fun i hi => absurd hi (Nat.not_lt_zero i), fun hpos hused => ?_⟩
    have hused' := (used_congr hfirst).mp hused
    rw [← hentry, h.used 0 hpos] at hused'
    exact Nat.lt_irrefl 0 hused'

/-- When everything is loaded, the table is parsed exactly when it is stood in for. -/
theorem addFrom_parses_iff (h : HasGpt d u)
    (hentries : ∀ x, x < sizeofEntry * partitionCount d →
      entries x = loaded d.image (gptHeader d) x) :
    (∃ calls, ((addFrom entries (validFrom entries 0 (partitionCount d)) 0 256).map fun calls =>
        (validFrom entries 0 (partitionCount d), calls)) = .ok (u, calls) ∧ calls.length = u ∧
      ∀ i call, calls[i]? = some call → Adds (table d) (entryAt d i) call) ↔ StandsIn d u := by
  have hsame (i : Nat) (hi : i < partitionCount d) (x : Nat) (hx : x < sizeofEntry) :
      entries (sizeofEntry * i + x) = loaded d.image (gptHeader d) (sizeofEntry * i + x) := by
    refine hentries _ ?_
    have hmul : sizeofEntry * (i + 1) ≤ sizeofEntry * partitionCount d := Nat.mul_le_mul_left _ hi
    rw [Nat.mul_succ] at hmul
    omega
  obtain ⟨v, hv⟩ : ∃ v, validFrom entries 0 (partitionCount d) = v := ⟨_, rfl⟩
  obtain ⟨hvle, hvused, hvend⟩ := validFrom_eq_iff.mp hv
  simp only [Nat.zero_add] at hvused hvend
  rw [hv]
  by_cases hmany : 256 ≤ v
  · -- the counter of the second loop is too short
    rw [addFrom_endless hmany (by omega)]
    refine iff_of_false ?_ ?_
    · rintro ⟨calls, hcalls, -⟩
      cases hcalls
    · rintro ⟨hu, -, hend⟩
      exact hend (by omega) ((used_congr (hsame u (by omega))).mp (hvused u (by omega)))
  have hcalls := @addFrom_eq entries 0 256 v (by omega) (Nat.zero_le _) (by omega)
  rw [Nat.sub_zero, ← List.range_eq_range'] at hcalls
  rw [hcalls]
  constructor
  · rintro ⟨calls, heq, -, hadds⟩
    cases heq
    refine ⟨by omega, fun i hi => ⟨(used_congr (hsame i (by omega))).mp (hvused i hi), ?_⟩,
      fun hlt hused => hvend hlt ((used_congr (hsame u hlt)).mpr hused)⟩
    rw [← addPart_congr (hsame i (by omega))]
    exact hadds i _ (by simp [hi])
  · rintro ⟨-, hadds, hend⟩
    -- the used entries end at the same place
    obtain rfl : v = u := by
      by_contra hne
      rcases Nat.lt_or_gt_of_ne hne with hlt | hgt
      · have hu := h.le
        exact hvend (by omega) ((used_congr (hsame v (by omega))).mpr (hadds v hlt).1)
      · exact hend (by omega) ((used_congr (hsame u (by omega))).mp (hvused u hgt))
    refine ⟨_, rfl, by simp, fun i call hcall => ?_⟩
    obtain ⟨k, hk, rfl⟩ : ∃ k, (List.range v)[i]? = some k ∧ addPart entries k = call := by
      simpa using hcall
    obtain ⟨hi, rfl⟩ : i < v ∧ i = k := by
      obtain ⟨hi, hik⟩ := List.getElem?_eq_some_iff.mp hk
      simpa using And.intro hi hik
    rw [addPart_congr (hsame i (by omega))]
    exact (hadds i hi).2

/-- What becomes of a table: a sector of it cannot be read, or its last sector does not fit the
array, or it is loaded. -/
theorem HasGpt.readGpt_cases (h : HasGpt d u) (stack : Bytes) :
    (TableFails d → readGpt d stack = .ok (0, [])) ∧
    (¬ TableFails d → partitionCount d % 4 ≠ 0 → readGpt d stack = .error .outside) ∧
    (¬ TableFails d → partitionCount d % 4 = 0 → ∃ entries,
      (∀ x, x < sizeofEntry * partitionCount d → entries x = loaded d.image (gptHeader d) x) ∧
      readGpt d stack = (addFrom entries (validFrom entries 0 (partitionCount d)) 0 256).map
        fun calls => (validFrom entries 0 (partitionCount d), calls)) := by
  have hcount : partitionCount d < 4294967296 := Field.get_lt _
  have hloop := @loadEntries_eq (d.after d.image 2) stack (gptHeader d) (partitionCount d) 0
    (tableSectors d) 4294967296 hcount (Nat.zero_add _) (by unfold tableSectors; omega)
    (by unfold tableSectors; omega)
  rw [Nat.mul_zero, Disk.copy_zero_length, Nat.zero_add] at hloop
  rw [h.readGpt_eq, hloop]
  refine ⟨fun hfails => ?_, fun hfails haligned => ?_, fun hfails haligned => ?_⟩
  · unfold TableFails at hfails
    rw [if_pos hfails]
  · unfold TableFails at hfails
    rw [if_neg hfails, if_neg haligned]
  · unfold TableFails at hfails
    rw [if_neg hfails, if_pos haligned]
    refine ⟨_, fun x hx => ?_, rfl⟩
    unfold sizeofEntry at hx
    unfold tableSectors
    rw [copy_apply_in _ _ (Nat.zero_le x) (by omega), Nat.sub_zero, Nat.zero_add]
    rfl

/-- A table is parsed exactly when it fills its sectors and none of its entries is used, or
what is read instead of it agrees with it. -/
theorem parses_iff (h : HasGpt d u) : Parses d stack u ↔ Parsable d u := by
  obtain ⟨hunread, houtside, hloaded⟩ := h.readGpt_cases stack
  unfold Parses
  by_cases hfails : TableFails d
  · rw [hunread hfails]
    constructor
    · rintro ⟨calls, heq, -⟩
      cases heq
      exact ⟨fun _ => rfl, fun hn => absurd hfails hn, fun hn => absurd hfails hn,
        fun hn => absurd hfails hn⟩
    · intro hp
      obtain rfl := hp.ofFails hfails
      exact ⟨[], rfl, rfl, fun i call hcall => by simp at hcall⟩
  by_cases haligned : partitionCount d % 4 = 0
  · obtain ⟨entries, hentries, hread⟩ := hloaded hfails haligned
    rw [hread, addFrom_parses_iff h hentries]
    constructor
    · intro hstands
      exact ⟨fun hf => absurd hf hfails, fun _ => haligned,
        fun _ hlba => (standsIn_iff h hlba).mp hstands, fun _ _ => hstands⟩
    · intro hp
      by_cases hlba : tableLba d < 4294967296
      · exact (standsIn_iff h hlba).mpr (hp.unused hfails hlba)
      · exact hp.standsIn hfails (Nat.not_lt.mp hlba)
  · rw [houtside hfails haligned]
    refine iff_of_false ?_ fun hp => haligned (hp.aligned hfails)
    rintro ⟨calls, heq, -⟩
    cases heq

/-- With entries of 128 bytes, below sector 2^32, the code loads the table. -/
theorem loaded_eq_table (hsize : Header.partitionEntrySize.get (gptHeader d) 0 = 128)
    (hcount : partitionCount d ≤ 33554432) (hlba : tableLba d + tableSectors d ≤ 4294967296)
    {x : Nat} (hx : x < sizeofEntry * partitionCount d) :
    loaded d.image (gptHeader d) x = table d x := by
  unfold sizeofEntry at hx
  unfold tableSectors at hlba
  have hsector : entryLba (gptHeader d) (4 * (x / 512)) = tableLba d + x / 512 := by
    have hshift : u32 (4 * (x / 512) * 128) >>> 9 = x / 512 := by
      rw [u32_of_lt (by omega), Nat.shiftRight_eq_div_pow]
      omega
    rw [entryLba, hsize, hshift]
    exact u32_of_lt (by unfold tableLba at hlba; omega)
  have hmod : x % 512 / 512 = 0 := by omega
  rw [loaded, hsector, table, window, window, hmod, Nat.mod_mod, Nat.add_zero]

/-- A table of that kind is added in its order, each entry with the difference of its ends. -/
theorem HasGpt.readGpt_standard (h : HasGpt d u)
    (hsize : Header.partitionEntrySize.get (gptHeader d) 0 = 128)
    (hcount : partitionCount d ≤ 33554432) (hlba : tableLba d + tableSectors d ≤ 4294967296)
    (haligned : partitionCount d % 4 = 0) (hread : ¬ TableFails d) (hu : u ≤ 255) :
    readGpt d stack = .ok (u, (List.range u).map (addPart (table d))) := by
  obtain ⟨entries, hentries, hcalls⟩ := (h.readGpt_cases stack).2.2 hread haligned
  have hsame (i : Nat) (hi : i < partitionCount d) (x : Nat) (hx : x < sizeofEntry) :
      entries (sizeofEntry * i + x) = table d (sizeofEntry * i + x) := by
    have hmul : sizeofEntry * (i + 1) ≤ sizeofEntry * partitionCount d := Nat.mul_le_mul_left _ hi
    rw [Nat.mul_succ] at hmul
    rw [hentries _ (by omega), loaded_eq_table hsize hcount hlba (by omega)]
  have hused (i : Nat) (hi : i < partitionCount d) : Used entries (sizeofEntry * i) ↔ i < u := by
    have hplace : entryAt d i = sizeofEntry * i := by rw [entryAt, hsize, Nat.mul_comm]; rfl
    rw [used_congr (hsame i hi), ← hplace, h.used i hi]
  have hvalid : validFrom entries 0 (partitionCount d) = u := by
    refine validFrom_eq_iff.mpr ⟨h.le, fun k hk => ?_, fun hlt => ?_⟩
    · rw [Nat.zero_add, hused k (Nat.lt_of_lt_of_le hk h.le)]
      exact hk
    · rw [Nat.zero_add, hused u hlt]
      exact Nat.lt_irrefl u
  have hadd := @addFrom_eq entries 0 256 u hu (Nat.zero_le _) (by omega)
  rw [Nat.sub_zero, ← List.range_eq_range'] at hadd
  have hparts : (List.range u).map (addPart entries) = (List.range u).map (addPart (table d)) :=
    List.map_congr_left fun i hi =>
      addPart_congr (hsame i (Nat.lt_of_lt_of_le (List.mem_range.mp hi) h.le))
  rw [hcalls, hvalid, hadd, hparts]
  rfl

end parses

/-- A disk that holds some bytes, and zeros. -/
def diskOf (bytes : List (Nat × Byte)) : Disk := ⟨fun x => (bytes.lookup x).getD 0, fun _ => false, 0⟩

/-- Both signatures, and four entries of 128 bytes at sector 2. -/
def signed : List (Nat × Byte) :=
  [(510, 0x55), (511, 0xAA), (512, 0x45), (513, 0x46), (514, 0x49), (515, 0x20), (516, 0x50),
    (517, 0x41), (518, 0x52), (519, 0x54), (584, 2), (592, 4), (596, 128)]

/-- The first entry is used and takes the sectors from 34 to 43. -/
def oneEntry : List (Nat × Byte) := [(1024, 1), (1056, 34), (1064, 43)]

theorem hasGpt_signed : HasGpt (diskOf signed) 0 where
  readMbr := rfl
  readHeader := rfl
  bootSig := by decide +kernel
  signature := by decide +kernel
  entrySize := ⟨0, by decide +kernel⟩
  le := Nat.zero_le _
  used := by decide +kernel

theorem hasGpt_oneEntry : HasGpt (diskOf (signed ++ oneEntry)) 1 where
  readMbr := rfl
  readHeader := rfl
  bootSig := by decide +kernel
  signature := by decide +kernel
  entrySize := ⟨0, by decide +kernel⟩
  le := by decide +kernel
  used := by decide +kernel

/-- A table without used entries. -/
theorem parses_iff_signed : Parses (diskOf signed) (fun _ => 0) 0 := by
  refine (parses_iff hasGpt_signed).mpr ⟨fun _ => rfl, fun _ => ?_, fun _ _ => rfl, fun _ h => ?_⟩
  · decide +kernel
  · exact absurd h (by decide +kernel)

/-- The ten sectors of the first entry are added as nine. -/
theorem not_parses : ¬ ∀ d stack u, HasGpt d u → Parses d stack u := by
  intro h
  obtain ⟨calls, hcalls, -, hadds⟩ := h _ (fun _ => 0) 1 hasGpt_oneEntry
  have hnine : (readGpt (diskOf (signed ++ oneEntry)) fun _ => 0).toOption =
      some (1, [⟨34, 9, 0, 0⟩]) := by decide +kernel
  rw [hcalls] at hnine
  cases hnine
  have hten : Entry.lastLba.get (table (diskOf (signed ++ oneEntry)))
      (entryAt (diskOf (signed ++ oneEntry)) 0) = 43 := by decide +kernel
  have hfirst : Entry.firstLba.get (table (diskOf (signed ++ oneEntry)))
      (entryAt (diskOf (signed ++ oneEntry)) 0) = 34 := by decide +kernel
  obtain ⟨-, hsize⟩ := hadds 0 _ rfl
  rw [hten, hfirst] at hsize
  exact absurd hsize (by decide)

end UnedKernel.Gpt
