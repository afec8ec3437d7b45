import Mathlib.Data.Finset.Card
import Mathlib.Data.Fintype.EquivFin
import UnedKernel.Fat32.Files

/-! # Mounted volumes

A mounted volume is found by its letter, which is the lowest free bit of a
mask. The layer below the mount table keeps the letters in 32 slots of its own
(`generic_f32.h`), so that the mask never runs out. -/

namespace UnedKernel.Fat32
open ByteMem Word

def BPB_SECTOR_SIZE : Nat := 11
def BPB_CLUSTER_SIZE : Nat := 13
def BPB_RSVD_CNT : Nat := 14
def BPB_NUM_FATS : Nat := 16
def BPB_TOT_SECT_32 : Nat := 32
def BPB_32_FAT_SIZE : Nat := 36
def BPB_32_ROOT_CLUST : Nat := 44
def BPB_32_FSINFO : Nat := 48

def MAX_FAT32_PARTITIONS : Nat := 32

/-- What `register_fat32_partition` takes from the boot sector at `lba`. -/
def geometryOf (boot : Bytes) (lba : Nat) : Geometry :=
  let fatLba := u32 (lba + load boot BPB_RSVD_CNT 2)
  let g : Geometry :=
    { sectorSize := load boot BPB_SECTOR_SIZE 2
      clusterSize := (boot BPB_CLUSTER_SIZE).toNat
      totalSize := load boot BPB_TOT_SECT_32 4
      fatLba := fatLba
      fsinfoLba := u32 (lba + load boot BPB_32_FSINFO 2)
      dataLba := u32 (fatLba + u32 (load boot BPB_32_FAT_SIZE 4 * (boot BPB_NUM_FATS).toNat))
      rootLba := 0 }
  { g with rootLba := fatClustToSect g (load boot BPB_32_ROOT_CLUST 4) }

/-- A volume of the list, with its letter, the name of its disk and its geometry. -/
structure Mounted where
  letter : Nat
  disk : List Byte
  geometry : Geometry

/-- The volumes from `volume_base` on, their mask, and the slots of the layer below the mounts. -/
structure Mounts where
  volumes : List Mounted
  bitmask : BitVec 32
  partitions : List Nat

/-- The state at boot. -/
def Mounts.boot : Mounts := ⟨[], 0, List.replicate MAX_FAT32_PARTITIONS 0⟩

/-- `fat_volume_add`. The letter stays 0 when the mask is full. -/
def fatVolumeAdd (s : Mounts) (vol : Mounted) : Nat × Mounts :=
  match (List.range 32).find? fun i => !s.bitmask.getLsbD i with
  | none => (vol.letter, { s with volumes := s.volumes ++ [vol] })
  | some i => (0x43 + i, { s with
      bitmask := s.bitmask ||| 1#32 <<< i
      volumes := s.volumes ++ [{ vol with letter := 0x43 + i }] })

/-- `fat_volume_remove`. `none` is a shift by more than the word. -/
def fatVolumeRemove (s : Mounts) (letter : Nat) : Option (Nat × Mounts) :=
  match s.volumes.find? fun vol => vol.letter = letter with
  | none => some (0, s)
  | some curr =>
    let bitPos := (curr.letter + 256 - 0x43) % 256
    if bitPos < 32 then
      some (1, { s with
        volumes := s.volumes.eraseP fun vol => vol.letter = letter
        bitmask := s.bitmask &&& ~~~(1#32 <<< bitPos) })
    else none

def volumeGet (s : Mounts) (letter : Nat) : Option Mounted := s.volumes.find? fun vol => vol.letter = letter

/-- `register_fat32_partition`, `boot` being the sector that was read, if it was. -/
def registerFat32Partition (s : Mounts) (disk : List Byte) (lba : Nat) (boot : Option Bytes) : Nat × Mounts :=
  match boot with
  | none => (0, s)
  | some boot => fatVolumeAdd s ⟨0, disk, geometryOf boot lba⟩

/-- `unregstr_fat32_partition`. -/
def unregstrFat32Partition (s : Mounts) (letter : Nat) : Option Mounts :=
  match volumeGet s letter with
  | none => some s
  | some _ => (fatVolumeRemove s letter).map Prod.snd

/-- `f32_compat_register_partition`. The index is returned whether or not the registration succeeds. -/
def f32CompatRegisterPartition (s : Mounts) (path : List Byte) (lba : Nat) (boot : Option Bytes) :
    Int × Mounts :=
  match (List.range MAX_FAT32_PARTITIONS).find? fun index => s.partitions.getD index 0 = 0 with
  | none => (-1, s)
  | some index =>
    let (letter, s) := registerFat32Partition s path lba boot
    (index, { s with partitions := s.partitions.set index letter })

/-- `f32_compat_unregister_partition`. -/
def f32CompatUnregisterPartition (s : Mounts) (partition : Int) : Option (Int × Mounts) :=
  if partition < 0 ∨ (MAX_FAT32_PARTITIONS : Int) ≤ partition then some (1, s)
  else if s.partitions.getD partition.toNat 0 = 0 then some (1, s)
  else (unregstrFat32Partition s (s.partitions.getD partition.toNat 0)).map fun s =>
    (0, { s with partitions := s.partitions.set partition.toNat 0 })

/-! ## Slots and volumes -/

/-- What the slots stand for. -/
abbrev Slots := Nat → Option (List Byte × Geometry)

theorem getD_set {l : List Nat} {i : Nat} (hi : i < l.length) (x j : Nat) :
    (l.set i x).getD j 0 = if j = i then x else l.getD j 0 := by
  rw [List.getD_eq_getElem?_getD, List.getD_eq_getElem?_getD, List.getElem?_set]
  by_cases hj : j = i
  · rw [if_pos hj, if_pos hj.symm, if_pos hi]
    rfl
  · rw [if_neg hj, if_neg (Ne.symm hj)]

/-- Where the letters differ, one volume at most goes. -/
theorem mem_eraseP_letter {l : List Mounted} (h : (l.map Mounted.letter).Nodup) {vol : Mounted} {letter : Nat} :
    vol ∈ (l.eraseP fun vol => vol.letter = letter) ↔ vol ∈ l ∧ vol.letter ≠ letter := by
  induction l with
  | nil => simp
  | cons v l ih =>
    rw [List.map_cons, List.nodup_cons] at h
    by_cases hv : v.letter = letter
    · rw [List.eraseP_cons_of_pos (by simpa using hv)]
      have hrest : vol ∈ l → vol.letter ≠ letter := fun hvol heq =>
        h.1 (hv.trans heq.symm ▸ List.mem_map_of_mem hvol)
      constructor
      · exact fun hvol => ⟨List.mem_cons_of_mem _ hvol, hrest hvol⟩
      · rintro ⟨hvol, hne⟩
        exact (List.mem_cons.mp hvol).resolve_left fun heq => hne (heq ▸ hv)
    · rw [List.eraseP_cons_of_neg (by simpa using hv), List.mem_cons, List.mem_cons, ih h.2]
      constructor
      · rintro (rfl | ⟨hvol, hne⟩)
        · exact ⟨.inl rfl, hv⟩
        · exact ⟨.inr hvol, hne⟩
      · rintro ⟨rfl | hvol, hne⟩
        · exact .inl rfl
        · exact .inr ⟨hvol, hne⟩

namespace Mounts

/-- The letter in a slot. -/
def slot (s : Mounts) (i : Nat) : Nat := s.partitions.getD i 0

/-- The slots hold the letters of the volumes, each of them once. -/
structure Holds (s : Mounts) (slots : Slots) : Prop where
  length : s.partitions.length = MAX_FAT32_PARTITIONS
  free : ∀ i, s.slot i = 0 ↔ slots i = none
  found : ∀ i d, slots i = some d → ∃ vol ∈ s.volumes, vol.letter = s.slot i ∧ (vol.disk, vol.geometry) = d
  apart : ∀ i j, s.slot i ≠ 0 → s.slot i = s.slot j → i = j
  letters : ∀ vol ∈ s.volumes, ∃ b, b < 32 ∧ vol.letter = 0x43 + b
  bits : ∀ b, b < 32 → (s.bitmask.getLsbD b = true ↔ ∃ vol ∈ s.volumes, vol.letter = 0x43 + b)
  owned : ∀ vol ∈ s.volumes, ∃ i, s.slot i = vol.letter
  nodup : (s.volumes.map Mounted.letter).Nodup

variable {s t : Mounts} {slots : Slots} {i j b letter : Nat} {vol : Mounted}

theorem holds_boot : boot.Holds fun _ => none := by
  have hslot (i : Nat) : boot.slot i = 0 := by
    rw [slot, boot, List.getD_eq_getElem?_getD, List.getElem?_replicate]
    split <;> rfl
  exact ⟨rfl, fun i => iff_of_true (hslot i) rfl, nofun, fun i j hne => absurd (hslot i) hne, nofun,
    fun b _ => iff_of_false (by simp [boot]) nofun, nofun, .nil⟩

namespace Holds

theorem slot_lt (h : s.Holds slots) (hi : s.slot i ≠ 0) : i < MAX_FAT32_PARTITIONS := by
  by_contra hge
  refine hi ?_
  rw [slot, List.getD_eq_getElem?_getD, List.getElem?_eq_none (by rw [h.length]; omega)]
  rfl

/-- A letter leads to one volume. -/
theorem volumeGet_eq (h : s.Holds slots) (hvol : vol ∈ s.volumes) :
    volumeGet s vol.letter = some vol := by
  cases hfind : volumeGet s vol.letter with
  | none => exact absurd (List.find?_eq_none.mp hfind vol hvol) (by simp)
  | some vol' =>
    have hletter : vol'.letter = vol.letter := by simpa using List.find?_some hfind
    have hmem := List.mem_of_find?_eq_some hfind
    rw [List.inj_on_of_nodup_map h.nodup hmem hvol hletter]

/-- While a slot is free so is a bit of the mask. -/
theorem exists_clear (h : s.Holds slots) (hi : i < MAX_FAT32_PARTITIONS) (hfree : s.slot i = 0) :
    ∃ b, b < 32 ∧ s.bitmask.getLsbD b = false := by
  by_contra hall
  have hset (b : Fin 32) : ∃ j : Fin 32, s.slot j = 0x43 + b := by
    have hb : s.bitmask.getLsbD b = true := by
      by_contra hno
      exact hall ⟨b, b.isLt, by simpa using hno⟩
    obtain ⟨vol, hvol, hletter⟩ := (h.bits b b.isLt).mp hb
    obtain ⟨j, hj⟩ := h.owned vol hvol
    have hne : s.slot j ≠ 0 := by omega
    exact ⟨⟨j, h.slot_lt hne⟩, hj.trans hletter⟩
  choose f hf using hset
  have hinj : Function.Injective f := fun a b hab => by
    have hsame := (hf a).symm.trans (hab ▸ hf b)
    exact Fin.ext (by omega)
  obtain ⟨b, hb⟩ := Finite.surjective_of_injective hinj ⟨i, hi⟩
  have hslot := hf b
  rw [hb] at hslot
  have : s.slot i = 0x43 + b := hslot
  omega

/-- The slots of a volume that is put into a free one. -/
theorem add (h : s.Holds slots) (hi : i < MAX_FAT32_PARTITIONS) (hfree : s.slot i = 0) (hb : b < 32)
    (hclear : s.bitmask.getLsbD b = false) (d : List Byte) (g : Geometry) :
    Holds { volumes := s.volumes ++ [⟨0x43 + b, d, g⟩], bitmask := s.bitmask ||| 1#32 <<< b,
            partitions := s.partitions.set i (0x43 + b) } (Function.update slots i (some (d, g))) := by
  have hslot (j : Nat) : (Mounts.mk (s.volumes ++ [⟨0x43 + b, d, g⟩]) (s.bitmask ||| 1#32 <<< b)
      (s.partitions.set i (0x43 + b))).slot j = if j = i then 0x43 + b else s.slot j := by
    simp only [slot]
    rw [getD_set (by rw [h.length]; exact hi)]
  have hnew (vol : Mounted) (hvol : vol ∈ s.volumes) : vol.letter ≠ 0x43 + b := fun heq => by
    have hset := (h.bits b hb).mpr ⟨vol, hvol, heq⟩
    exact Bool.false_ne_true (hclear.symm.trans hset)
  have hused (j : Nat) : s.slot j ≠ 0x43 + b := fun heq => by
    have hne : s.slot j ≠ 0 := by omega
    cases hj : slots j with
    | none => exact hne ((h.free j).mpr hj)
    | some d' =>
      obtain ⟨vol, hvol, hletter, -⟩ := h.found j d' hj
      exact hnew vol hvol (hletter.trans heq)
  refine ⟨?_, fun j => ?_, fun j e he => ?_, fun j k hj hjk => ?_, fun vol hvol => ?_, fun c hc => ?_,
    fun vol hvol => ?_, ?_⟩
  · rw [List.length_set]
    exact h.length
  · rw [hslot]
    by_cases hji : j = i
    · rw [if_pos hji, hji, Function.update_self]
      exact iff_of_false (by omega) nofun
    · rw [if_neg hji, Function.update_of_ne hji]
      exact h.free j
  · rw [hslot]
    by_cases hji : j = i
    · rw [hji, Function.update_self] at he
      rw [if_pos hji]
      exact ⟨_, List.mem_append_right _ List.mem_cons_self, rfl, Option.some.inj he⟩
    · rw [Function.update_of_ne hji] at he
      rw [if_neg hji]
      obtain ⟨vol, hvol, hrest⟩ := h.found j e he
      exact ⟨vol, List.mem_append_left _ hvol, hrest⟩
  · rw [hslot] at hj
    rw [hslot, hslot] at hjk
    by_cases hji : j = i <;> by_cases hki : k = i
    · exact hji.trans hki.symm
    · rw [if_pos hji, if_neg hki] at hjk
      exact absurd hjk.symm (hused k)
    · rw [if_neg hji, if_pos hki] at hjk
      exact absurd hjk (hused j)
    · rw [if_neg hji] at hj
      rw [if_neg hji, if_neg hki] at hjk
      exact h.apart j k hj hjk
  · rcases List.mem_append.mp hvol with hvol | hvol
    · exact h.letters vol hvol
    · exact ⟨b, hb, congrArg Mounted.letter (List.mem_singleton.mp hvol)⟩
  · rw [BitVec.getLsbD_or, Bool.or_eq_true, h.bits c hc]
    have hbit : (1#32 <<< b).getLsbD c = true ↔ c = b := by
      simp [BitVec.getLsbD_shiftLeft, BitVec.getLsbD_one]
      omega
    rw [hbit]
    constructor
    · rintro (⟨vol, hvol, hletter⟩ | rfl)
      · exact ⟨vol, List.mem_append_left _ hvol, hletter⟩
      · exact ⟨_, List.mem_append_right _ List.mem_cons_self, rfl⟩
    · rintro ⟨vol, hvol, hletter⟩
      rcases List.mem_append.mp hvol with hvol | hvol
      · exact .inl ⟨vol, hvol, hletter⟩
      · have hlast := congrArg Mounted.letter (List.mem_singleton.mp hvol)
        exact .inr (Nat.add_left_cancel (hletter.symm.trans hlast))
  · rcases List.mem_append.mp hvol with hvol | hvol
    · obtain ⟨j, hj⟩ := h.owned vol hvol
      obtain ⟨c, -, hc⟩ := h.letters vol hvol
      have hji : j ≠ i := fun heq => by
        rw [heq, hfree] at hj
        omega
      exact ⟨j, by rw [hslot, if_neg hji, hj]⟩
    · refine ⟨i, ?_⟩
      rw [hslot, if_pos rfl, List.mem_singleton.mp hvol]
  · rw [List.map_append, List.nodup_append]
    refine ⟨h.nodup, List.nodup_singleton _, fun a ha c hc => ?_⟩
    obtain ⟨vol, hvol, rfl⟩ := List.mem_map.mp ha
    obtain rfl := List.mem_singleton.mp hc
    exact hnew vol hvol

/-- What is left when the volume of a slot is taken away. -/
theorem remove (h : s.Holds slots) (hb : b < 32) (hslot : s.slot i = 0x43 + b) :
    Holds { volumes := s.volumes.eraseP fun vol => vol.letter = 0x43 + b,
            bitmask := s.bitmask &&& ~~~(1#32 <<< b), partitions := s.partitions.set i 0 }
      (Function.update slots i none) := by
  have hi : i < MAX_FAT32_PARTITIONS := h.slot_lt (by omega)
  have hmem (vol : Mounted) : vol ∈ (s.volumes.eraseP fun vol => vol.letter = 0x43 + b) ↔
      vol ∈ s.volumes ∧ vol.letter ≠ 0x43 + b := mem_eraseP_letter h.nodup
  have hset (j : Nat) : (Mounts.mk (s.volumes.eraseP fun vol => vol.letter = 0x43 + b)
      (s.bitmask &&& ~~~(1#32 <<< b)) (s.partitions.set i 0)).slot j = if j = i then 0 else s.slot j := by
    simp only [slot]
    rw [getD_set (by rw [h.length]; exact hi)]
  have hother {j : Nat} (hj : j ≠ i) : s.slot j ≠ 0x43 + b := fun heq =>
    hj (h.apart j i (by omega) (heq.trans hslot.symm))
  refine ⟨?_, fun j => ?_, fun j e he => ?_, fun j k hj hjk => ?_, fun vol hvol => ?_, fun c hc => ?_,
    fun vol hvol => ?_, ?_⟩
  · rw [List.length_set]
    exact h.length
  · rw [hset]
    by_cases hji : j = i
    · rw [if_pos hji, hji, Function.update_self]
      exact iff_of_true rfl rfl
    · rw [if_neg hji, Function.update_of_ne hji]
      exact h.free j
  · by_cases hji : j = i
    · rw [hji, Function.update_self] at he
      exact absurd he nofun
    · rw [Function.update_of_ne hji] at he
      rw [hset, if_neg hji]
      obtain ⟨vol, hvol, hletter, hd⟩ := h.found j e he
      exact ⟨vol, (hmem vol).mpr ⟨hvol, hletter ▸ hother hji⟩, hletter, hd⟩
  · rw [hset] at hj
    rw [hset, hset] at hjk
    have hji : j ≠ i := fun heq => hj (if_pos heq)
    rw [if_neg hji] at hj hjk
    by_cases hki : k = i
    · rw [if_pos hki] at hjk
      exact absurd hjk hj
    · rw [if_neg hki] at hjk
      exact h.apart j k hj hjk
  · exact h.letters vol ((hmem vol).mp hvol).1
  · have hbit : (s.bitmask &&& ~~~(1#32 <<< b)).getLsbD c = true ↔
        s.bitmask.getLsbD c = true ∧ c ≠ b := by
      simp [BitVec.getLsbD_shiftLeft, BitVec.getLsbD_one]
      omega
    rw [hbit, h.bits c hc]
    constructor
    · rintro ⟨⟨vol, hvol, hletter⟩, hne⟩
      exact ⟨vol, (hmem vol).mpr ⟨hvol, by omega⟩, hletter⟩
    · rintro ⟨vol, hvol, hletter⟩
      obtain ⟨hvol, hne⟩ := (hmem vol).mp hvol
      exact ⟨⟨vol, hvol, hletter⟩, by omega⟩
  · obtain ⟨hvol, hne⟩ := (hmem vol).mp hvol
    obtain ⟨j, hj⟩ := h.owned vol hvol
    have hji : j ≠ i := fun heq => hne (by rw [← hj, heq, hslot])
    exact ⟨j, by rw [hset, if_neg hji, hj]⟩
  · exact h.nodup.sublist (List.eraseP_sublist.map _)

end Holds
end Mounts

/-! ## Runs -/

/-- The calls of the mount table, a registration with the boot sector that was read, if it was. -/
inductive MountCall
  | register (path : List Byte) (lba : Nat) (boot : Option Bytes)
  | unregister (partition : Int)

def mountCall (s : Mounts) : MountCall → Option (Int × Mounts)
  | .register path lba boot => some (f32CompatRegisterPartition s path lba boot)
  | .unregister partition => f32CompatUnregisterPartition s partition

def mountCalls (s : Mounts) : List MountCall → Option (List Int × Mounts)
  | [] => some ([], s)
  | call :: calls =>
    (mountCall s call).bind fun (answer, s) =>
      (mountCalls s calls).map fun (answers, s) => (answer :: answers, s)

namespace Slots

/-- A call on slots. A registration that fails answers like one that succeeds. -/
def call (slots : Slots) : MountCall → Int × Slots
  | .register path lba boot =>
    match (List.range MAX_FAT32_PARTITIONS).find? fun index => (slots index).isNone with
    | none => (-1, slots)
    | some index => (index, match boot with
      | none => slots
      | some boot => Function.update slots index (some (path, geometryOf boot lba)))
  | .unregister partition =>
    if partition < 0 ∨ (MAX_FAT32_PARTITIONS : Int) ≤ partition then (1, slots)
    else if (slots partition.toNat).isNone then (1, slots)
    else (0, Function.update slots partition.toNat none)

def calls (slots : Slots) : List MountCall → List Int × Slots
  | [] => ([], slots)
  | call :: calls =>
    let (answer, slots) := Slots.call slots call
    let (answers, slots) := Slots.calls slots calls
    (answer :: answers, slots)

end Slots

namespace Mounts

variable {s : Mounts} {slots : Slots} {i b : Nat}

namespace Holds

theorem isNone_eq (h : s.Holds slots) (i : Nat) : decide (s.slot i = 0) = (slots i).isNone := by
  rw [Bool.eq_iff_iff, decide_eq_true_iff, Option.isNone_iff_eq_none]
  exact h.free i

/-- A letter that was never given leaves the slot free. -/
theorem set_zero (h : s.Holds slots) (hi : i < MAX_FAT32_PARTITIONS) (hfree : s.slot i = 0) :
    Holds { s with partitions := s.partitions.set i 0 } slots := by
  have hslot (j : Nat) : slot { s with partitions := s.partitions.set i 0 } j = s.slot j := by
    rw [slot, getD_set (by rw [h.length]; exact hi)]
    split
    · rename_i hj
      rw [hj, hfree]
    · rfl
  obtain ⟨hlength, hfrees, hfound, hapart, hletters, hbits, howned, hnodup⟩ := h
  refine ⟨by rwa [List.length_set], ?_, ?_, ?_, hletters, hbits, ?_, hnodup⟩
  · simpa only [hslot] using hfrees
  · simpa only [hslot] using hfound
  · simpa only [hslot] using hapart
  · simpa only [hslot] using howned

theorem register (h : s.Holds slots) (path : List Byte) (lba : Nat) (boot : Option Bytes) :
    (f32CompatRegisterPartition s path lba boot).1 = (slots.call (.register path lba boot)).1 ∧
    (f32CompatRegisterPartition s path lba boot).2.Holds (slots.call (.register path lba boot)).2 := by
  have hfind : ((List.range MAX_FAT32_PARTITIONS).find? fun index => s.partitions.getD index 0 = 0) =
      (List.range MAX_FAT32_PARTITIONS).find? fun index => (slots index).isNone :=
    congrArg (List.find? · _) (funext h.isNone_eq)
  rw [f32CompatRegisterPartition, Slots.call, hfind]
  cases hfirst : (List.range MAX_FAT32_PARTITIONS).find? fun index => (slots index).isNone with
  | none => exact ⟨rfl, h⟩
  | some i =>
    have hi : i < MAX_FAT32_PARTITIONS := List.mem_range.mp (List.mem_of_find?_eq_some hfirst)
    have hfree : s.slot i = 0 := (h.free i).mpr (by simpa using List.find?_some hfirst)
    cases boot with
    | none => exact ⟨rfl, h.set_zero hi hfree⟩
    | some boot =>
      refine ⟨rfl, ?_⟩
      simp only [registerFat32Partition, fatVolumeAdd]
      cases hbit : (List.range 32).find? fun i => !s.bitmask.getLsbD i with
      | none =>
        obtain ⟨b, hb, hclear⟩ := h.exists_clear hi hfree
        exact absurd (List.find?_eq_none.mp hbit b (List.mem_range.mpr hb)) (by simp [hclear])
      | some b =>
        exact h.add hi hfree (List.mem_range.mp (List.mem_of_find?_eq_some hbit))
          (by simpa using List.find?_some hbit) path (geometryOf boot lba)

theorem unregister (h : s.Holds slots) (partition : Int) : ∃ t,
    f32CompatUnregisterPartition s partition = some ((slots.call (.unregister partition)).1, t) ∧
    t.Holds (slots.call (.unregister partition)).2 := by
  rw [f32CompatUnregisterPartition, Slots.call,
    show s.partitions.getD partition.toNat 0 = s.slot partition.toNat from rfl]
  by_cases hout : partition < 0 ∨ (MAX_FAT32_PARTITIONS : Int) ≤ partition
  · rw [if_pos hout, if_pos hout]
    exact ⟨s, rfl, h⟩
  · rw [if_neg hout, if_neg hout]
    by_cases hfree : s.slot partition.toNat = 0
    · have hnone : (slots partition.toNat).isNone = true := by simpa using (h.free _).mp hfree
      rw [if_pos hfree, if_pos hnone]
      exact ⟨s, rfl, h⟩
    · have hsome : ¬ (slots partition.toNat).isNone = true := fun hnone =>
        hfree ((h.free _).mpr (by simpa using hnone))
      rw [if_neg hfree, if_neg hsome]
      obtain ⟨d, hd⟩ := Option.ne_none_iff_exists'.mp fun hnone => hfree ((h.free _).mpr hnone)
      obtain ⟨vol, hvol, hletter, -⟩ := h.found _ d hd
      obtain ⟨b, hb, hvb⟩ := h.letters vol hvol
      have hslot : s.slot partition.toNat = 0x43 + b := hletter.symm.trans hvb
      have hget : volumeGet s (0x43 + b) = some vol := hvb ▸ h.volumeGet_eq hvol
      have hremove : unregstrFat32Partition s (0x43 + b) = some
          { s with
            volumes := s.volumes.eraseP fun vol => vol.letter = 0x43 + b
            bitmask := s.bitmask &&& ~~~(1#32 <<< b) } := by
        have hfind : (s.volumes.find? fun vol => vol.letter = 0x43 + b) = some vol := hget
        have hpos : (0x43 + b + 256 - 0x43) % 256 = b := by omega
        simp only [unregstrFat32Partition, hget, fatVolumeRemove, hfind, hvb, hpos, if_pos hb,
          Option.map_some]
      rw [hslot, hremove]
      exact ⟨_, rfl, h.remove hb hslot⟩

theorem calls (calls : List MountCall) (h : s.Holds slots) : ∃ t,
    mountCalls s calls = some ((slots.calls calls).1, t) ∧ t.Holds (slots.calls calls).2 := by
  induction calls generalizing s slots with
  | nil => exact ⟨s, rfl, h⟩
  | cons call calls ih =>
    have hstep : ∃ t, mountCall s call = some ((slots.call call).1, t) ∧ t.Holds (slots.call call).2 := by
      cases call with
      | register path lba boot => exact ⟨_, congrArg some (Prod.ext (h.register path lba boot).1 rfl),
          (h.register path lba boot).2⟩
      | unregister partition => exact h.unregister partition
    obtain ⟨t, hcall, hholds⟩ := hstep
    obtain ⟨t', hcalls, hholds'⟩ := ih hholds
    refine ⟨t', ?_, hholds'⟩
    rw [mountCalls, hcall]
    simp only [Option.bind_some, hcalls, Option.map_some]
    rfl

end Holds
end Mounts

end UnedKernel.Fat32
