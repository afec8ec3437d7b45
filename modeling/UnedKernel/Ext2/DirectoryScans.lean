import UnedKernel.Ext2.DirectoryEdit
import UnedKernel.Lib.Orbit

/-! # Scans of a directory

The loops over the records of a directory go from a record to the next by the
length that the disk has for it. -/

namespace UnedKernel.Ext2
open ByteMem Word Orbit

/-- Where the record behind the one at `p` is looked for. -/
def nextRecord (block : Bytes) (p : Nat) : Nat := u32 (p + DirectoryEntry.recLen.get block p)

/-- Where the loops look for the record in turn `k`. -/
def position (block : Bytes) (k : Nat) : Nat := (nextRecord block)^[k] 0

/-- A loop that nothing stops reads the header of a record in turn `k`. -/
def ReadsRecord (block : Bytes) (size k : Nat) : Prop := Runs (nextRecord block) size 0 k

/-- The headers that a loop reads which stops at a record where `stop` says so. -/
def headersFrom (stop : Nat → Bool) (block : Bytes) (size : Nat) : (turns parsed : Nat) → List Nat
  | 0, _ => []
  | turns + 1, parsed =>
    if parsed < size then
      parsed :: if stop parsed then [] else headersFrom stop block size turns (nextRecord block parsed)
    else []

/-- Every loop over the records ends, and reads headers inside its buffer: that of
`ext2_create_directory_entry` is as long as the directory, that of the others has a block more. -/
structure ScansSafe (block : Bytes) (size blockSize : Nat) : Prop where
  component : ∀ path, findEntry block path size POSITIONS 0 ≠ none
  count : countDirsFrom block size POSITIONS 0 0 ≠ none
  copy : ∀ entries, copyDirsFrom block size POSITIONS 0 0 entries ≠ none
  create : lastEntryFrom block size POSITIONS 0 none ≠ none
  delete : ∀ target, findInodeFrom block target size POSITIONS 0 none ≠ none
  operate : ∀ callback v, operateOnDentryFrom callback block size POSITIONS v 0 ≠ none
  headers : ∀ stop, ∀ p ∈ headersFrom stop block size POSITIONS 0, p + 8 ≤ u32 (size + blockSize)
  createHeaders : ∀ p ∈ headersFrom (fun _ => false) block size POSITIONS 0, p + 8 ≤ size

/-- No record is reached twice, the directory holds the headers of all that are reached, and a
block more is not too long for 32 bits, or what 32 bits keep of it holds them too. -/
structure RecordsAdvance (block : Bytes) (size blockSize : Nat) : Prop where
  once : ∀ i j, i < j → ReadsRecord block size j → position block i ≠ position block j
  inside : ∀ k, ReadsRecord block size k → position block k + 8 ≤ size
  allocated : size + blockSize < 4294967296 ∨
    ∀ k, ReadsRecord block size k → position block k + 8 ≤ size + blockSize - 4294967296

variable {block entries : Bytes} {path : List Byte} {size blockSize turns p count target k : Nat}

/-! ## The loops end with the positions -/

theorem countDirsFrom_eq_none : countDirsFrom block size turns p count = none ↔
    Runs (nextRecord block) size p turns := by
  induction turns generalizing p count with
  | zero =>
    rw [countDirsFrom, runs_zero]
    by_cases hp : p < size <;> simp [hp]
  | succ turns ih =>
    rw [countDirsFrom, runs_succ]
    by_cases hp : p < size
    · rw [if_pos hp, ih]
      exact (and_iff_right hp).symm
    · simp [hp]

theorem copyDirsFrom_eq_none : copyDirsFrom block size turns p count entries = none ↔
    Runs (nextRecord block) size p turns := by
  induction turns generalizing p count entries with
  | zero =>
    rw [copyDirsFrom, runs_zero]
    by_cases hp : p < size <;> simp [hp]
  | succ turns ih =>
    rw [copyDirsFrom, runs_succ]
    by_cases hp : p < size
    · simp only [if_pos hp]
      split
      · rw [ih]
        exact (and_iff_right hp).symm
      · rw [ih]
        exact (and_iff_right hp).symm
    · simp [hp]

theorem lastEntryFrom_eq_none {entry : Option Nat} : lastEntryFrom block size turns p entry = none ↔
    Runs (nextRecord block) size p turns := by
  induction turns generalizing p entry with
  | zero =>
    rw [lastEntryFrom, runs_zero]
    by_cases hp : p < size <;> simp [hp]
  | succ turns ih =>
    rw [lastEntryFrom, runs_succ]
    by_cases hp : p < size
    · rw [if_pos hp, ih]
      exact (and_iff_right hp).symm
    · simp [hp]

/-- A loop that may stop early runs only where the positions do. -/
theorem findEntry_runs (h : findEntry block path size turns p = none) :
    Runs (nextRecord block) size p turns := by
  induction turns generalizing p with
  | zero =>
    rw [findEntry] at h
    split at h
    · exact runs_zero.mpr ‹_›
    · cases h
  | succ turns ih =>
    rw [findEntry] at h
    split at h
    · simp only at h
      split at h
      · cases h
      · exact runs_succ.mpr ⟨‹_›, ih h⟩
    · cases h

theorem findInodeFrom_runs {previous : Option Nat}
    (h : findInodeFrom block target size turns p previous = none) :
    Runs (nextRecord block) size p turns := by
  induction turns generalizing p previous with
  | zero =>
    rw [findInodeFrom] at h
    split at h
    · exact runs_zero.mpr ‹_›
    · cases h
  | succ turns ih =>
    rw [findInodeFrom] at h
    split at h
    · split at h
      · cases h
      · exact runs_succ.mpr ⟨‹_›, ih h⟩
    · cases h

theorem operateOnDentryFrom_runs {callback : Volume → Nat → Bool × Volume} {v : Volume}
    (h : operateOnDentryFrom callback block size turns v p = none) :
    Runs (nextRecord block) size p turns := by
  induction turns generalizing p v with
  | zero =>
    rw [operateOnDentryFrom] at h
    split at h
    · exact runs_zero.mpr ‹_›
    · cases h
  | succ turns ih =>
    rw [operateOnDentryFrom] at h
    split at h
    · simp only at h
      split at h
      · cases h
      · exact runs_succ.mpr ⟨‹_›, ih h⟩
    · cases h

/-! ## The headers are those of the positions -/

theorem mem_headersFrom {stop : Nat → Bool} {q : Nat} (h : q ∈ headersFrom stop block size turns p) :
    ∃ k, Runs (nextRecord block) size p k ∧ q = (nextRecord block)^[k] p := by
  induction turns generalizing p with
  | zero => cases h
  | succ turns ih =>
    rw [headersFrom] at h
    split at h
    · rename_i hp
      rcases List.mem_cons.mp h with rfl | h
      · exact ⟨0, runs_zero.mpr hp, rfl⟩
      · split at h
        · cases h
        · obtain ⟨k, hruns, heq⟩ := ih h
          exact ⟨k + 1, runs_succ.mpr ⟨hp, hruns⟩, heq⟩
    · cases h

theorem headersFrom_mem (h : Runs (nextRecord block) size p k) (hk : k < turns) :
    (nextRecord block)^[k] p ∈ headersFrom (fun _ => false) block size turns p := by
  induction turns generalizing p k with
  | zero => exact absurd hk (Nat.not_lt_zero k)
  | succ turns ih =>
    have hp : p < size := h 0 (Nat.zero_le k)
    rw [headersFrom, if_pos hp, if_neg Bool.false_ne_true]
    cases k with
    | zero => exact List.mem_cons_self
    | succ k => exact List.mem_cons_of_mem _ (ih (runs_succ.mp h).2 (by omega))

/-- Positions that never come again run out. -/
theorem not_repeats_iff : ¬ Repeats (nextRecord block) size 0 ↔
    ∀ i j, i < j → ReadsRecord block size j → position block i ≠ position block j :=
  ⟨fun h i j hij hruns heq => h ⟨i, j, hij, hruns, heq⟩,
    fun h ⟨i, j, hij, hruns, heq⟩ => h i j hij hruns heq⟩

/-- Below 4 GiB by the longest record, a record comes again when and only when one that is reached
has no length. -/
theorem once_iff (hsize : size ≤ 4294901760) :
    (∀ i j, i < j → ReadsRecord block size j → position block i ≠ position block j) ↔
      ∀ k, ReadsRecord block size k → DirectoryEntry.recLen.get block (position block k) ≠ 0 := by
  have hlen (q : Nat) : DirectoryEntry.recLen.get block q < 65536 := DirectoryEntry.recLen.get_lt block
  have hnext {q : Nat} (hq : q < size) : nextRecord block q = q + DirectoryEntry.recLen.get block q := by
    have := hlen q
    exact u32_of_lt (by omega)
  rw [← not_repeats_iff, repeats_iff_stays fun q hq => by rw [hnext hq]; exact Nat.le_add_right _ _]
  constructor
  · intro h k hk hzero
    have hlt : position block k < size := hk k (Nat.le_refl k)
    refine h ⟨k, hk, ?_⟩
    change nextRecord block (position block k) = position block k
    rw [hnext hlt, hzero, Nat.add_zero]
  · intro h ⟨k, hk, hstay⟩
    have hlt : position block k < size := hk k (Nat.le_refl k)
    change nextRecord block (position block k) = position block k at hstay
    rw [hnext hlt] at hstay
    exact h k hk (by omega)

/-- The loops are safe when and only when the records advance; for a directory of less than 4 GiB
by 64 KiB they are reached once when and only when all that are reached have a length. -/
theorem scans_safe_iff (hsize : size < 4294967296) (hblock : blockSize < 4294967296) :
    (ScansSafe block size blockSize ↔ RecordsAdvance block size blockSize) ∧
      (size ≤ 4294901760 →
        ((∀ i j, i < j → ReadsRecord block size j → position block i ≠ position block j) ↔
          ∀ k, ReadsRecord block size k → DirectoryEntry.recLen.get block (position block k) ≠ 0)) := by
  have hpos : size ≤ POSITIONS := Nat.le_of_lt hsize
  have hends : ¬ Repeats (nextRecord block) size 0 ↔
      ¬ Runs (nextRecord block) size 0 POSITIONS := not_congr (repeats_iff_runs hpos)
  refine ⟨⟨fun h => ?_, fun h => ?_⟩, once_iff⟩
  · have hruns : ¬ Runs (nextRecord block) size 0 POSITIONS := fun hr =>
      h.count (countDirsFrom_eq_none.mpr hr)
    have hmem {k : Nat} (hk : ReadsRecord block size k) :
        position block k ∈ headersFrom (fun _ => false) block size POSITIONS 0 :=
      headersFrom_mem hk (Nat.lt_of_not_le fun hle => hruns (hk.mono hle))
    refine ⟨not_repeats_iff.mp (hends.mpr hruns), fun k hk => h.createHeaders _ (hmem hk), ?_⟩
    by_cases hwrap : size + blockSize < 4294967296
    · exact .inl hwrap
    · refine .inr fun k hk => ?_
      have := h.headers _ _ (hmem hk)
      unfold u32 at this
      omega
  · have hruns := hends.mp (not_repeats_iff.mpr h.once)
    refine ⟨fun _ hn => hruns (findEntry_runs hn), fun hn => hruns (countDirsFrom_eq_none.mp hn),
      fun _ hn => hruns (copyDirsFrom_eq_none.mp hn), fun hn => hruns (lastEntryFrom_eq_none.mp hn),
      fun _ hn => hruns (findInodeFrom_runs hn), fun _ _ hn => hruns (operateOnDentryFrom_runs hn),
      fun stop p hp => ?_, fun p hp => ?_⟩
    · obtain ⟨k, hk, rfl⟩ := mem_headersFrom hp
      have hinside := h.inside k hk
      change position block k + 8 ≤ _
      rcases h.allocated with hwrap | hall
      · rw [u32_of_lt hwrap]
        omega
      · have := hall k hk
        unfold u32
        omega
    · obtain ⟨k, hk, rfl⟩ := mem_headersFrom hp
      exact h.inside k hk

/-- A directory with its two first entries in a block of 1024 bytes. -/
theorem scans_safe_iff_dots : ScansSafe (dotEntries (fun _ => 0) 11 2) 1024 1024 := by
  obtain ⟨hiff, honce⟩ := @scans_safe_iff (dotEntries (fun _ => 0) 11 2) 1024 1024 (by decide)
    (by decide)
  have hfirst : position (dotEntries (fun _ => 0) 11 2) 1 = 12 := by decide +kernel
  have hsecond : position (dotEntries (fun _ => 0) 11 2) 2 = 1024 := by decide +kernel
  have hreads {k : Nat} (hk : ReadsRecord (dotEntries (fun _ => 0) 11 2) 1024 k) : k = 0 ∨ k = 1 := by
    by_contra hne
    have : position (dotEntries (fun _ => 0) 11 2) 2 < 1024 := hk 2 (by omega)
    omega
  refine hiff.mpr ⟨(honce (by decide)).mpr fun k hk => ?_, fun k hk => ?_, .inl (by decide)⟩
  · rcases hreads hk with rfl | rfl
    · decide +kernel
    · rw [hfirst]
      decide +kernel
  · rcases hreads hk with rfl | rfl
    · decide
    · rw [hfirst]
      decide

/-- Over a block of zeros the loops do not end. -/
theorem scans_not_safe : ¬ ∀ block size blockSize, size < 4294967296 → blockSize < 4294967296 →
    ScansSafe block size blockSize := by
  intro h
  have hsafe := h (fun _ => 0) 1024 1024 (by decide) (by decide)
  have hzero : nextRecord (fun _ => 0) 0 = 0 := by decide +kernel
  refine hsafe.count (countDirsFrom_eq_none.mpr fun j _ => ?_)
  rw [Function.iterate_fixed hzero]
  decide

end UnedKernel.Ext2
