import UnedKernel.Lib.Run
import UnedKernel.Vfs.Gpt
import UnedKernel.Vfs.Mount

/-! # Probing the file systems

`detect_devices` walks the list of devices and gives each one that is new a slot
of `vfs_root`; `detect_partition_fs` then mounts the partitions that have no
name yet. A device is its place in the list of devices, which only grows. -/

namespace Vfs
open ByteMem CString Run
open UnedKernel.Gpt (AddPart)

def VFS_MAX_DEVICES : Nat := 512

/-- `struct device`: its name, and its class and major number in one byte. -/
structure Device where
  name : Str
  major : Nat

/-- `struct vfs_partition` with the node that mounts point to. -/
structure DiskPartition where
  node : VfsPartition
  lba : Nat
  size : Nat
  status : Nat
  type : Nat

/-- `struct vfs_devmap`. -/
structure Devmap where
  dev : Option Nat
  partitions : Option (List DiskPartition)
  partitionNo : Nat

/-- A file system, over the state `σ` of disks and drivers. -/
structure FsDriver (σ : Type) where
  majors : List Nat
  detect : σ → Str → (lba : Nat) → Bool
  registerPartition : σ → Str → (lba : Nat) → (mountpoint : List Byte) → Int × σ

/-- What a probe calls: the file systems, and `read_gpt` and `read_mbr` with their calls of
`add_part`. -/
structure Drivers (σ : Type) where
  fileSystems : List (FsDriver σ)
  readGpt : σ → Str → Nat × List AddPart
  readMbr : σ → Str → Nat × List AddPart

/-- The list of devices, `vfs_root`, the mounts, and what is below. -/
structure Root (σ : Type) where
  devices : List Device
  root : Nat → Devmap
  rootSize : Nat
  mounts : List (VfsMount Nat Nat)
  below : σ

inductive ProbeFault where
  | nullDevice
  | nullPartition
  /-- An index past `vfs_root`. -/
  | outside
  | panic
  | endless
  deriving DecidableEq

namespace Root

variable {σ : Type} (drivers : Drivers σ)

/-! ## `detect_devices` -/

def getDeviceHead (s : Root σ) : Option Nat := if 0 < s.devices.length then some 0 else none

def getNextDevice (s : Root σ) (dev : Nat) : Option Nat :=
  if dev + 1 < s.devices.length then some (dev + 1) else none

/-- A partition that `add_partition` appends. -/
def diskPartition (call : AddPart) : DiskPartition where
  node := ⟨⟨[], fun _ h => nomatch h⟩, by decide⟩
  lba := call.lba
  size := call.size
  status := call.status
  type := call.type

/-- `detect_partitions`: only disks have a table. -/
def detectPartitions (below : σ) (device : Device) : Nat × List DiskPartition :=
  if device.major < 8 ∨ 0xc < device.major then (1, [diskPartition ⟨0, 0, 0, 0⟩])
  else
    let (n, calls) := drivers.readGpt below device.name
    if n ≠ 0 then (n, calls.map diskPartition)
    else
      let (n, more) := drivers.readMbr below device.name
      (n, (calls ++ more).map diskPartition)

/-- The loop that looks for the device in `vfs_root` from slot `i` on, `n` slots left. Its
`continue` goes on with this loop, at the next device. -/
def skipRegistered (s : Root σ) (dev : Option Nat) (i : Nat) : Nat → Except ProbeFault (Option Nat)
  | 0 => .ok dev
  | n + 1 =>
    if VFS_MAX_DEVICES ≤ i then .error .outside
    else if (s.root i).dev = dev then
      match dev with
      | none => .error .nullDevice
      | some d => skipRegistered s (s.getNextDevice d) (i + 1) n
    else skipRegistered s dev (i + 1) n

/-- The loop that looks for a free slot from slot `i` on, `n` slots left. -/
def freeSlot (s : Root σ) (i : Nat) : Nat → Except ProbeFault Nat
  | 0 => .error .outside
  | n + 1 => if (s.root i).dev ≠ none then freeSlot s (i + 1) n else .ok i

/-- The slot takes the device and its partitions. -/
def register (s : Root σ) (slot d : Nat) (device : Device) : Root σ :=
  let (n, parts) := detectPartitions drivers s.below device
  { s with root := Function.update s.root slot ⟨some d, some parts, n⟩ }

/-- The loop over the devices. -/
def detectFrom (s : Root σ) (slot : Nat) (dev : Option Nat) : Nat → Except ProbeFault (Root σ)
  | 0 => .error .endless
  | turns + 1 =>
    match dev with
    | none => .ok s
    | some _ => do
      let dev ← s.skipRegistered dev 0 s.rootSize
      let slot ← s.freeSlot slot (VFS_MAX_DEVICES - slot)
      match dev.bind fun d => s.devices[d]?.map fun device => (d, device) with
      | none => .error .nullDevice
      | some (d, device) =>
        let s := s.register drivers slot d device
        detectFrom s slot (s.getNextDevice d) turns

def detectDevices (s : Root σ) : Except ProbeFault (Root σ) :=
  let s := { s with rootSize := s.devices.length % 65536 }
  s.detectFrom drivers 0 s.getDeviceHead (s.devices.length + 1)

/-! ## `detect_partition_fs` -/

/-- The loop of `mount_fs` over the file systems: the one that registered the partition and
its index there. -/
def mountWith (below : σ) (device : Device) (lba : Nat) (mountpoint : List Byte) (fs : Nat) :
    List (FsDriver σ) → Option (Nat × Int) × σ
  | [] => (none, below)
  | f :: rest =>
    if device.major ∈ f.majors ∧ f.detect below device.name lba = true then
      let (ret, below) := f.registerPartition below device.name lba mountpoint
      if ret = -1 then (none, below) else (some (fs, ret), below)
    else mountWith below device lba mountpoint (fs + 1) rest

/-- `mount_fs` of partition `index`: the partition, which has its name when it is mounted. -/
def mountFs (s : Root σ) (d : Nat) (device : Device) (index : Nat) (part : DiskPartition) :
    Except ProbeFault (DiskPartition × Root σ) :=
  let mounts := if s.mounts = [] then [initMountHeader] else s.mounts
  let node := mountedPartition device.name index
  match mountWith s.below device part.lba node.name.chars 0 drivers.fileSystems with
  | (none, below) => .ok (part, { s with mounts := mounts, below := below })
  | (some (fs, ret), below) =>
    match addMount mounts (some d) (some node) (some fs) ret with
    | .error _ => .error .panic
    | .ok mounts => .ok ({ part with node := node }, { s with mounts := mounts, below := below })

/-- The loop over the partitions of a slot from partition `index` on. -/
def mountPartitions (dev : Option Nat) : (s : Root σ) → (index : Nat) → List DiskPartition →
    Except ProbeFault (List DiskPartition × Root σ)
  | s, _, [] => .ok ([], s)
  | s, index, part :: rest =>
    if part.node.name.chars ≠ [] then do
      let (rest, s) ← mountPartitions dev s (index + 1) rest
      return (part :: rest, s)
    else
      match dev.bind fun d => s.devices[d]?.map fun device => (d, device) with
      | none => .error .nullDevice
      | some (d, device) => do
        let (part, s) ← s.mountFs drivers d device index part
        let (rest, s) ← mountPartitions dev s (index + 1) rest
        return (part :: rest, s)

/-- The loop over the slots from slot `i` on, `n` slots left. -/
def mountFrom (s : Root σ) (i : Nat) : Nat → Except ProbeFault (Root σ)
  | 0 => .ok s
  | n + 1 =>
    match (s.root i).partitions with
    | none => .error .nullPartition
    | some parts => do
      let (parts, s) ← mountPartitions drivers (s.root i).dev s 0 parts
      mountFrom { s with root := Function.update s.root i { s.root i with partitions := some parts } }
        (i + 1) n

def probeFs (s : Root σ) : Except ProbeFault (Root σ) := do
  let s ← s.detectDevices drivers
  s.mountFrom drivers 0 s.rootSize

/-! ## Runs -/

/-- Before the first probe: no device, and null pointers everywhere. -/
def boot (below : σ) : Root σ := ⟨[], fun _ => ⟨none, none, 0⟩, 0, [], below⟩

/-- Devices are created, fewer than `vfs_root` has slots, probes return, and disks and drivers
change. -/
inductive Event : Root σ → Root σ → Prop
  | create (s) (device : Device) : s.devices.length + 1 < VFS_MAX_DEVICES →
      Event s { s with devices := s.devices ++ [device] }
  | probe (s s') : s.probeFs drivers = .ok s' → Event s s'
  | below (s) (x : σ) : Event s { s with below := x }

/-- A second probe ends and changes neither `vfs_root`, with its partitions, nor the mounts. -/
def SecondProbeKeeps (s : Root σ) : Prop :=
  ∃ s', s.probeFs drivers = .ok s' ∧ s'.root = s.root ∧ s'.mounts = s.mounts

/-- The first `k` slots hold the first `k` devices and their partitions, the others none. -/
structure Holds (s : Root σ) (k : Nat) : Prop where
  le : k ≤ s.devices.length
  lt : s.devices.length < VFS_MAX_DEVICES
  taken : ∀ i, i < k → (s.root i).dev = some i ∧ (s.root i).partitions.isSome
  free : ∀ i, k ≤ i → (s.root i).dev = none

variable {drivers} {s s' : Root σ} {i k n slot turns : Nat} {dev : Option Nat}

/-! ## The walk over the devices -/

/-- The device at a place of the list, null past its end. -/
def deviceAt (s : Root σ) (i : Nat) : Option Nat := if i < s.devices.length then some i else none

theorem skipRegistered_succ (dev : Option Nat) (i n : Nat) : s.skipRegistered dev i (n + 1) =
    if VFS_MAX_DEVICES ≤ i then .error .outside
    else if (s.root i).dev = dev then
      match dev with
      | none => .error .nullDevice
      | some d => s.skipRegistered (s.getNextDevice d) (i + 1) n
    else s.skipRegistered dev (i + 1) n := by
  cases dev with
  | none => rfl
  | some d => rfl

theorem skipRegistered_add (dev : Option Nat) (i n m : Nat) :
    s.skipRegistered dev i (n + m) =
      (s.skipRegistered dev i n).bind fun dev => s.skipRegistered dev (i + n) m := by
  induction n generalizing dev i with
  | zero =>
    rw [Nat.zero_add]
    rfl
  | succ n ih =>
    have hsum : n + 1 + m = n + m + 1 := by omega
    have hnext : i + 1 + n = i + (n + 1) := by omega
    rw [hsum, skipRegistered_succ, skipRegistered_succ]
    split
    · rfl
    split
    · cases dev with
      | none => rfl
      | some d => simp only [ih, hnext]
    · rw [ih, hnext]

/-- A device that is in none of the slots is not skipped. -/
theorem skipRegistered_of_ne (hlt : i + n ≤ VFS_MAX_DEVICES)
    (hne : ∀ j, i ≤ j → j < i + n → (s.root j).dev ≠ dev) :
    s.skipRegistered dev i n = .ok dev := by
  induction n generalizing i with
  | zero => rfl
  | succ n ih =>
    rw [skipRegistered_succ, if_neg (by omega), if_neg (hne i (Nat.le_refl i) (by omega))]
    exact ih (by omega) fun j hj hj' => hne j (by omega) (by omega)

/-- From slot `i` on, every slot moves the walk to its next device. -/
theorem Holds.skip_taken (h : s.Holds k) (hsum : i + n = k) :
    s.skipRegistered (s.deviceAt i) i n = .ok (s.deviceAt k) := by
  have hle := h.le
  have hlt := h.lt
  induction n generalizing i with
  | zero =>
    obtain rfl : i = k := hsum
    rfl
  | succ n ih =>
    have hdev : s.deviceAt i = some i := if_pos (by omega)
    rw [hdev, skipRegistered_succ, if_neg (by omega), if_pos (h.taken i (by omega)).1]
    exact ih (by omega)

/-- The walk from the first device comes to the first that has no slot. -/
theorem Holds.skip_head (h : s.Holds k) :
    s.skipRegistered s.getDeviceHead 0 s.devices.length = .ok (s.deviceAt k) := by
  have hle := h.le
  have hlt := h.lt
  obtain ⟨m, hm⟩ : ∃ m, s.devices.length = k + m := ⟨s.devices.length - k, by omega⟩
  have htaken := h.skip_taken (Nat.zero_add k)
  have hhead : s.getDeviceHead = s.deviceAt 0 := rfl
  rw [hhead, hm, skipRegistered_add, htaken, Nat.zero_add]
  refine skipRegistered_of_ne (by omega) fun j hj hj' => ?_
  have hdev : s.deviceAt k = some k := if_pos (by omega)
  rw [hdev, h.free j hj]
  simp

/-- The first device without a slot is not skipped. -/
theorem Holds.skip_new (h : s.Holds k) :
    s.skipRegistered (some k) 0 s.devices.length = .ok (some k) := by
  have hlt := h.lt
  refine skipRegistered_of_ne (by omega) fun j _ _ => ?_
  by_cases hjk : j < k
  · rw [(h.taken j hjk).1]
    intro heq
    cases heq
    exact Nat.lt_irrefl _ hjk
  · rw [h.free j (by omega)]
    simp

/-- The first free slot is the one after those that are taken. -/
theorem Holds.freeSlot_eq (h : s.Holds k) (hslot : slot ≤ k) (hk : k < slot + n) :
    s.freeSlot slot n = .ok k := by
  induction n generalizing slot with
  | zero => omega
  | succ n ih =>
    rw [freeSlot]
    by_cases heq : slot = k
    · subst heq
      rw [if_neg (not_not_intro (h.free slot (Nat.le_refl _)))]
    · rw [if_pos (by simp [(h.taken slot (by omega)).1])]
      exact ih (by omega) (by omega)

theorem Holds.register (h : s.Holds k) (hk : k < s.devices.length) (device : Device) :
    (s.register drivers k k device).Holds (k + 1) := by
  refine ⟨hk, h.lt, fun i hi => ?_, fun i hi => ?_⟩
  · by_cases hik : i = k
    · subst hik
      simp [Root.register]
    · simpa [Root.register, hik] using h.taken i (by omega)
  · have hik : i ≠ k := by omega
    simpa [Root.register, hik] using h.free i (by omega)

/-- One turn of the walk gives the first device without a slot the next one. -/
theorem Holds.detectFrom_step (h : s.Holds k) (hk : k < s.devices.length)
    (hsize : s.rootSize = s.devices.length) (hslot : slot ≤ k) (hdev : dev.isSome)
    (hskip : s.skipRegistered dev 0 s.devices.length = .ok (some k)) (turns : Nat) :
    ∃ s' : Root σ, s.detectFrom drivers slot dev (turns + 1) =
        s'.detectFrom drivers k (s'.deviceAt (k + 1)) turns ∧ s'.Holds (k + 1) ∧
      s'.devices = s.devices ∧ s'.rootSize = s.rootSize := by
  obtain ⟨d, rfl⟩ := Option.isSome_iff_exists.mp hdev
  have hlt := h.lt
  have hfree := h.freeSlot_eq hslot (show k < slot + (VFS_MAX_DEVICES - slot) by omega)
  refine ⟨s.register drivers k k s.devices[k], ?_, h.register hk _, rfl, rfl⟩
  have hdevice : s.devices[k]? = some s.devices[k] := List.getElem?_eq_getElem hk
  rw [← hsize] at hskip
  simp only [detectFrom, hskip, hfree, bind, Except.bind, Option.bind, hdevice, Option.map_some]
  rfl

/-- The walk from the first device without a slot gives every one of them a slot. -/
theorem Holds.detectFrom_eq (h : s.Holds k) (hsize : s.rootSize = s.devices.length)
    (hslot : slot ≤ k) (hturns : s.devices.length - k < turns) :
    ∃ s', s.detectFrom drivers slot (s.deviceAt k) turns = .ok s' ∧ s'.Holds s.devices.length ∧
      s'.devices = s.devices ∧ s'.rootSize = s.rootSize := by
  have hle := h.le
  obtain ⟨n, hn⟩ : ∃ n, s.devices.length - k = n := ⟨_, rfl⟩
  rw [hn] at hturns
  obtain ⟨turns, rfl⟩ : ∃ t, turns = t + 1 := ⟨turns - 1, by omega⟩
  induction n generalizing s k slot turns with
  | zero =>
    obtain rfl : k = s.devices.length := by omega
    have hnull : s.deviceAt s.devices.length = none := if_neg (Nat.lt_irrefl _)
    rw [hnull]
    exact ⟨s, rfl, h, rfl, rfl⟩
  | succ n ih =>
    have hk : k < s.devices.length := by omega
    have hdev : s.deviceAt k = some k := if_pos hk
    obtain ⟨t, hstep, ht, hdevices, htsize⟩ := @detectFrom_step _ drivers _ _ _ _ h hk hsize hslot
      (Option.isSome_some (a := k)) h.skip_new turns
    obtain ⟨turns, rfl⟩ : ∃ t, turns = t + 1 := ⟨turns - 1, by omega⟩
    rw [← hdevices] at hsize hn
    obtain ⟨s', hrest, hs', hsdevices, hssize⟩ := ih ht (htsize.trans hsize) (Nat.le_succ k)
      (by rw [hdevices]; exact hk) (by omega) turns (by omega)
    rw [hdevices] at hs' hsdevices
    exact ⟨s', by rw [hdev, hstep, hrest], hs', hsdevices, hssize.trans htsize⟩

/-- The walk starts at the first device with the size of the list. -/
theorem Holds.detectDevices_from (drivers : Drivers σ) (h : s.Holds k) : ∃ r : Root σ,
    s.detectDevices drivers = r.detectFrom drivers 0 r.getDeviceHead (r.devices.length + 1) ∧
      r.Holds k ∧ r.devices = s.devices ∧ r.rootSize = r.devices.length := by
  have hmod : s.devices.length % 65536 = s.devices.length :=
    Nat.mod_eq_of_lt (Nat.lt_trans h.lt (by decide))
  refine ⟨{ s with rootSize := s.devices.length }, ?_, ⟨h.le, h.lt, h.taken, h.free⟩, rfl, rfl⟩
  unfold detectDevices
  rw [hmod]

/-- While there are devices without a slot, they get one. -/
theorem Holds.detectDevices_eq (h : s.Holds k) (hk : k < s.devices.length) :
    ∃ s', s.detectDevices drivers = .ok s' ∧ s'.Holds s.devices.length ∧
      s'.devices = s.devices ∧ s'.rootSize = s.devices.length := by
  obtain ⟨r, hstart, hr, hdevices, hsize⟩ := h.detectDevices_from drivers
  rw [← hdevices] at hk ⊢
  have hdev : r.deviceAt k = some k := if_pos hk
  have hhead : r.getDeviceHead.isSome := by
    have hpos : 0 < r.devices.length := by omega
    simp [getDeviceHead, hpos]
  obtain ⟨t, hstep, ht, htdevices, htsize⟩ := @detectFrom_step _ drivers _ _ _ _ hr hk hsize
    (Nat.zero_le k) hhead (hdev ▸ hr.skip_head) r.devices.length
  obtain ⟨s', hrest, hs', hsdevices, hssize⟩ := @detectFrom_eq _ drivers _ _ k r.devices.length ht
    ((htsize.trans hsize).trans (by rw [htdevices])) (Nat.le_succ k) (by rw [htdevices]; omega)
  rw [htdevices] at hs' hsdevices
  exact ⟨s', (hstart.trans hstep).trans hrest, hs', hsdevices, (hssize.trans htsize).trans hsize⟩

/-- Once every device has a slot, the walk ends at a null device, for which a slot is taken. -/
theorem Holds.detectDevices_null (h : s.Holds s.devices.length) (hpos : 0 < s.devices.length) :
    s.detectDevices drivers = .error .nullDevice := by
  obtain ⟨r, hstart, hr, hdevices, hsize⟩ := h.detectDevices_from drivers
  rw [← hdevices] at hr hpos
  have hlt := hr.lt
  have hnull : r.deviceAt r.devices.length = none := if_neg (Nat.lt_irrefl _)
  have hskip := hr.skip_head
  have hfree : r.freeSlot 0 VFS_MAX_DEVICES = .ok r.devices.length :=
    hr.freeSlot_eq (Nat.zero_le _) (by omega)
  have hhead : r.getDeviceHead = some 0 := if_pos hpos
  rw [hnull, hhead, ← hsize] at hskip
  rw [hstart, hhead]
  simp only [detectFrom, hskip, hfree, bind, Except.bind, Option.bind, Nat.sub_zero]

/-! ## The mounts -/

/-- Mounting changes neither the devices nor `vfs_root`. -/
theorem mountFs_eq (s : Root σ) (d : Nat) (device : Device) (index : Nat) (part : DiskPartition) :
    ∃ (p : DiskPartition) (s' : Root σ), s.mountFs drivers d device index part = .ok (p, s') ∧
      s'.devices = s.devices ∧ s'.root = s.root ∧ s'.rootSize = s.rootSize := by
  unfold mountFs
  obtain ⟨mounts, hmounts⟩ : ∃ mounts : List (VfsMount Nat Nat),
      (if s.mounts = [] then [initMountHeader] else s.mounts) = mounts := ⟨_, rfl⟩
  have hne : mounts.isEmpty = false := by
    rw [← hmounts]
    split
    · rfl
    · simpa using ‹_›
  simp only [hmounts]
  split
  · exact ⟨_, _, rfl, rfl, rfl, rfl⟩
  · simp only [addMount, Option.isNone_some, Bool.false_eq_true, if_false, hne]
    exact ⟨_, _, rfl, rfl, rfl, rfl⟩

theorem mountPartitions_eq {d : Nat} (hd : d < s.devices.length) (index : Nat)
    (parts : List DiskPartition) : ∃ (parts' : List DiskPartition) (s' : Root σ),
      mountPartitions drivers (some d) s index parts = .ok (parts', s') ∧
        s'.devices = s.devices ∧ s'.root = s.root ∧ s'.rootSize = s.rootSize := by
  induction parts generalizing s index with
  | nil => exact ⟨[], s, rfl, rfl, rfl, rfl⟩
  | cons part rest ih =>
    rw [mountPartitions]
    split
    · obtain ⟨rest', s', hrest, hsame⟩ := ih hd (index + 1)
      rw [hrest]
      exact ⟨_, _, rfl, hsame⟩
    · have hdevice : s.devices[d]? = some s.devices[d] := List.getElem?_eq_getElem hd
      obtain ⟨p, t, hmount, hdevices, hroot, hsize⟩ :=
        @mountFs_eq _ drivers s d s.devices[d] index part
      obtain ⟨rest', s', hrest, hdevices', hroot', hsize'⟩ :=
        @ih t (by rw [hdevices]; exact hd) (index + 1)
      simp only [Option.bind, hdevice, Option.map_some, hmount, hrest, bind, Except.bind, pure,
        Except.pure]
      exact ⟨_, _, rfl, hdevices'.trans hdevices, hroot'.trans hroot, hsize'.trans hsize⟩

/-- Mounting leaves every slot its device. -/
theorem Holds.mountFrom_eq (h : s.Holds k) (hn : i + n ≤ k) :
    ∃ s', s.mountFrom drivers i n = .ok s' ∧ s'.Holds k ∧ s'.devices = s.devices := by
  induction n generalizing s i with
  | zero => exact ⟨s, rfl, h, rfl⟩
  | succ n ih =>
    obtain ⟨hdev, hparts⟩ := h.taken i (by omega)
    obtain ⟨parts, hsome⟩ := Option.isSome_iff_exists.mp hparts
    have hle := h.le
    obtain ⟨parts', t, hmount, hdevices, hroot, -⟩ :=
      @mountPartitions_eq _ drivers s i (by omega) 0 parts
    obtain ⟨u, hu⟩ : ∃ u : Root σ, { t with
      root := Function.update t.root i { t.root i with partitions := some parts' } } = u := ⟨_, rfl⟩
    have hslot (j : Nat) : (u.root j).dev = (s.root j).dev ∧
        ((s.root j).partitions.isSome → (u.root j).partitions.isSome) := by
      rw [← hu, ← hroot]
      by_cases hji : j = i
      · subst hji
        simp
      · simp [hji]
    have hudevices : u.devices = s.devices := by rw [← hu, ← hdevices]
    have hh : u.Holds k := by
      refine ⟨by rw [hudevices]; exact hle, by rw [hudevices]; exact h.lt, fun j hj => ?_,
        fun j hj => (hslot j).1.trans (h.free j hj)⟩
      exact ⟨(hslot j).1.trans (h.taken j hj).1, (hslot j).2 (h.taken j hj).2⟩
    obtain ⟨s', hrest, hs', hsdevices⟩ := @ih u (i + 1) hh (by omega)
    refine ⟨s', ?_, hs', hsdevices.trans hudevices⟩
    rw [mountFrom]
    simp only [hsome, hdev, hmount, bind, Except.bind, hu]
    exact hrest

/-! ## Probes -/

/-- A probe gives every device a slot, unless all have one already. -/
theorem Holds.probeFs_eq (h : s.Holds k) (hk : k < s.devices.length) :
    ∃ s', s.probeFs drivers = .ok s' ∧ s'.Holds s.devices.length ∧ s'.devices = s.devices := by
  obtain ⟨t, hdetect, ht, hdevices, hsize⟩ := @detectDevices_eq _ drivers _ _ h hk
  obtain ⟨s', hmount, hs', hsdevices⟩ := @mountFrom_eq _ drivers t 0 _ t.rootSize ht (by omega)
  refine ⟨s', ?_, hs', hsdevices.trans hdevices⟩
  unfold probeFs
  rw [hdetect]
  exact hmount

theorem Holds.probeFs_null (h : s.Holds s.devices.length) (hpos : 0 < s.devices.length) :
    s.probeFs drivers = .error .nullDevice := by
  unfold probeFs
  rw [h.detectDevices_null hpos]
  rfl

/-- Without devices a probe does nothing. -/
theorem Holds.probeFs_nil (h : s.Holds k) (hnil : s.devices.length = 0) :
    ∃ s', s.probeFs drivers = .ok s' ∧ s'.Holds k ∧ s'.devices = s.devices := by
  refine ⟨{ s with rootSize := 0 }, ?_, ⟨h.le, h.lt, h.taken, h.free⟩, rfl⟩
  unfold probeFs detectDevices getDeviceHead
  simp only [hnil, Nat.lt_irrefl, if_false]
  rfl

/-- After a probe that returned, every device has a slot. -/
theorem Holds.of_probeFs (h : s.Holds k) (hprobe : s.probeFs drivers = .ok s') :
    s'.Holds s'.devices.length ∧ s'.devices = s.devices := by
  have hle := h.le
  by_cases hnil : s.devices.length = 0
  · obtain ⟨t, hprobe', ht, hdevices⟩ := @probeFs_nil _ drivers _ _ h hnil
    obtain rfl : s' = t := Except.ok.inj (hprobe.symm.trans hprobe')
    obtain rfl : k = s'.devices.length := by rw [hdevices]; omega
    exact ⟨ht, hdevices⟩
  by_cases hk : k < s.devices.length
  · obtain ⟨t, hprobe', ht, hdevices⟩ := @probeFs_eq _ drivers _ _ h hk
    obtain rfl : s' = t := Except.ok.inj (hprobe.symm.trans hprobe')
    exact ⟨hdevices.symm ▸ ht, hdevices⟩
  · obtain rfl : k = s.devices.length := by omega
    rw [h.probeFs_null (by omega)] at hprobe
    cases hprobe

theorem holds_of_reaches {below : σ} (hreach : Reaches (Event drivers) (boot below) s) :
    ∃ k, s.Holds k := by
  refine Run.invariant (fun s => ∃ k, s.Holds k) (fun s t hs hstep => ?_) ⟨0, ?_⟩ hreach
  · obtain ⟨k, h⟩ := hs
    cases hstep with
    | create device hlt =>
      refine ⟨k, ?_, ?_, h.taken, h.free⟩
      · have hle := h.le
        simp only [List.length_append, List.length_singleton]
        omega
      · simpa using hlt
    | probe _ hprobe => exact ⟨_, (h.of_probeFs hprobe).1⟩
    | below x => exact ⟨k, h.le, h.lt, h.taken, h.free⟩
  · have hslots : 0 < VFS_MAX_DEVICES := by decide
    exact ⟨Nat.le_refl 0, hslots, fun i hi => absurd hi (Nat.not_lt_zero i), fun _ _ => rfl⟩

/-- Whenever a probe returned, the next one dereferences a null device. -/
theorem not_secondProbeKeeps_of_reaches {below : σ}
    (hreach : Reaches (Event drivers) (boot below) s) (hpos : s.devices ≠ [])
    (hfirst : s.probeFs drivers = .ok s') : ¬ s'.SecondProbeKeeps drivers := by
  obtain ⟨k, h⟩ := holds_of_reaches hreach
  obtain ⟨h', hdevices⟩ := h.of_probeFs hfirst
  rw [← hdevices] at hpos
  rintro ⟨t, hsecond, -⟩
  rw [h'.probeFs_null (List.length_pos_of_ne_nil hpos)] at hsecond
  cases hsecond

/-- No file systems, and disks without a table. -/
def bareDrivers : Drivers Unit := ⟨[], fun _ _ => (0, []), fun _ _ => (0, [])⟩

/-- `hda`, created after boot. -/
def oneDevice : Root Unit :=
  { boot () with devices := [] ++ [⟨⟨[0x68#8, 0x64#8, 0x61#8], by decide⟩, 8⟩] }

theorem reaches_oneDevice : Reaches (Event bareDrivers) (boot ()) oneDevice :=
  .single (.create _ _ (by decide))

theorem probeFs_oneDevice : ∃ s', oneDevice.probeFs bareDrivers = .ok s' := by
  have hok : (oneDevice.probeFs bareDrivers).toOption.isSome := by decide +kernel
  cases h : oneDevice.probeFs bareDrivers with
  | error fault =>
    rw [h] at hok
    cases hok
  | ok s' => exact ⟨s', rfl⟩

theorem not_secondProbeKeeps_oneDevice : ∃ s', oneDevice.probeFs bareDrivers = .ok s' ∧
    ¬ s'.SecondProbeKeeps bareDrivers := by
  obtain ⟨s', hprobe⟩ := probeFs_oneDevice
  exact ⟨s', hprobe, not_secondProbeKeeps_of_reaches reaches_oneDevice (by simp [oneDevice]) hprobe⟩

/-- `hda` is probed twice. -/
theorem not_secondProbeKeeps : ¬ ∀ (σ : Type) (drivers : Drivers σ) below s s',
    Reaches (Event drivers) (boot below) s → s.devices ≠ [] → s.probeFs drivers = .ok s' →
      s'.SecondProbeKeeps drivers := by
  intro h
  obtain ⟨s', hprobe⟩ := probeFs_oneDevice
  obtain ⟨k, hk⟩ := holds_of_reaches reaches_oneDevice
  obtain ⟨hs', hdevices⟩ := hk.of_probeFs hprobe
  have hpos : 0 < s'.devices.length := by
    rw [hdevices]
    decide
  obtain ⟨t, hsecond, -⟩ := h Unit bareDrivers () oneDevice s' reaches_oneDevice
    (by simp [oneDevice]) hprobe
  rw [hs'.probeFs_null hpos] at hsecond
  cases hsecond

end Root
end Vfs
