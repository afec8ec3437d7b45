import Mathlib.Data.List.Induction
import Mathlib.Data.List.Nodup
import Mathlib.Data.Nat.Digits.Defs
import UnedKernel.Lib.CString

/-! # The mount table

A mount joins a device, a partition and a file system under the partition's
name. `add_mount` appends to a list that always ends in an empty header, and
`get_mount_from_path` takes the first mount whose name begins the path. -/

namespace Vfs
open ByteMem CString

/-- `STR_MAX_SIZE`: the longest string `strlen` measures. -/
def STR_MAX_SIZE : Nat := 65536

/-- The `/` between the components of a path. -/
def slash : Byte := 0x2f#8

/-- `struct vfs_partition`, of which the mount table reads the name. -/
structure VfsPartition where
  name : Str
  name_lt : name.chars.length < 48
  deriving DecidableEq

/-- `struct vfs_mount`; `next` is the order of the list. -/
structure VfsMount (δ φ : Type) where
  device : Option δ
  partition : Option VfsPartition
  fst : Option φ
  internalIndex : Int
  deriving DecidableEq

inductive MountPanic where
  | invalidDevice | invalidPartition | invalidFs | invalidMountHeader
  deriving DecidableEq

variable {δ φ : Type}

def initMountHeader : VfsMount δ φ := ⟨none, none, none, 0⟩

/-- The loop of `add_mount`: the last node takes the mount, and a new header
follows it. -/
def fillLast (mount : VfsMount δ φ) : List (VfsMount δ φ) → List (VfsMount δ φ)
  | [] => []
  | [_] => [mount, initMountHeader]
  | m :: n :: rest => m :: fillLast mount (n :: rest)

def addMount (head : List (VfsMount δ φ)) (device : Option δ) (part : Option VfsPartition)
    (fst : Option φ) (internalIndex : Int) : Except MountPanic (List (VfsMount δ φ)) :=
  if device.isNone then .error .invalidDevice
  else if part.isNone then .error .invalidPartition
  else if fst.isNone then .error .invalidFs
  else if head.isEmpty then .error .invalidMountHeader
  else .ok (fillLast ⟨device, part, fst, internalIndex⟩ head)

/-- The first mount whose name begins the path, and the path after that name.
The walk ends at the header, whose pointers are null. -/
def getMountFromPath (path : List Byte) : List (VfsMount δ φ) → Option (VfsMount δ φ × List Byte)
  | [] => none
  | mount :: next =>
    match mount.device, mount.fst, mount.partition with
    | some _, some _, some partition =>
      let mountpointLen := strlen STR_MAX_SIZE partition.name.chars
      if strncmp partition.name.chars path mountpointLen = 0 then
        some (mount, (path.drop mountpointLen).take (strlen STR_MAX_SIZE path - mountpointLen))
      else getMountFromPath path next
    | _, _, _ => none

/-- A mount whose pointers are set. -/
structure Mount (δ φ : Type) where
  device : δ
  partition : VfsPartition
  fst : φ
  internalIndex : Int
  deriving DecidableEq

def Mount.name (m : Mount δ φ) : List Byte := m.partition.name.chars

def Mount.node (m : Mount δ φ) : VfsMount δ φ :=
  ⟨some m.device, some m.partition, some m.fst, m.internalIndex⟩

/-- The lists that `add_mount` builds from a first header. -/
inductive Built : List (VfsMount δ φ) → Prop
  | header : Built [initMountHeader]
  | add (head next : List (VfsMount δ φ)) (device : Option δ) (part : Option VfsPartition)
      (fst : Option φ) (index : Int) : Built head →
      addMount head device part fst index = .ok next → Built next

/-- The mount a node stands for; the header stands for none. -/
def VfsMount.mount? (m : VfsMount δ φ) : Option (Mount δ φ) :=
  match m.device, m.fst, m.partition with
  | some device, some fst, some partition => some ⟨device, partition, fst, m.internalIndex⟩
  | _, _, _ => none

/-- The mounts of a list in the order they were added. -/
def mountsOf (head : List (VfsMount δ φ)) : List (Mount δ φ) := head.filterMap VfsMount.mount?

/-- The bytes of a path before its first `/`. -/
def firstComponent (path : List Byte) : List Byte := path.takeWhile (· ≠ slash)

/-- What follows a mount's name in a path: nothing, or a `/`. -/
def AtBoundary (rest : List Byte) : Prop := rest = [] ∨ rest.head? = some slash

instance (rest : List Byte) : Decidable (AtBoundary rest) :=
  inferInstanceAs (Decidable (rest = [] ∨ rest.head? = some slash))

/-- A path goes to the mount it names and to no other: a mount's name followed
by nothing or a `/` gives that mount and the remainder, and a first component
that names no mount gives none. -/
def Resolves (head : List (VfsMount δ φ)) (path : List Byte) : Prop :=
  (∀ m ∈ mountsOf head, ∀ rest, path = m.name ++ rest → AtBoundary rest →
    getMountFromPath path head = some (m.node, rest)) ∧
  ((∀ m ∈ mountsOf head, m.name ≠ firstComponent path) → getMountFromPath path head = none)

/-- Every mount whose name begins the path, other than the one the first
component names, ends inside a component and was added after that one; and a
path into a mount is no longer than `strlen` measures. -/
def Unambiguous (mounts : List (Mount δ φ)) (path : List Byte) : Prop :=
  (∀ before m after rest, mounts = before ++ m :: after → path = m.name ++ rest →
    m.name ≠ firstComponent path →
    ¬ AtBoundary rest ∧ ∃ a ∈ before, a.name = firstComponent path) ∧
  ((∃ m ∈ mounts, m.name = firstComponent path) →
    path = firstComponent path ∨ path.length ≤ STR_MAX_SIZE)

variable {path rest : List Byte} {head : List (VfsMount δ φ)} {a m : Mount δ φ}

theorem mountsOf_snoc (mounts : List (Mount δ φ)) :
    mountsOf (mounts.map Mount.node ++ [initMountHeader]) = mounts := by
  induction mounts with
  | nil => rfl
  | cons m mounts ih => exact congrArg (m :: ·) ih

theorem fillLast_snoc (m : VfsMount δ φ) (l : List (VfsMount δ φ)) (h : VfsMount δ φ) :
    fillLast m (l ++ [h]) = l ++ [m, initMountHeader] := by
  induction l with
  | nil => rfl
  | cons a l ih =>
    cases l with
    | nil => rfl
    | cons b l => exact congrArg (a :: ·) ih

/-- A built list is its mounts in the order they were added, and the header. -/
theorem Built.eq_mounts (h : Built head) :
    head = (mountsOf head).map Mount.node ++ [initMountHeader] := by
  induction h with
  | header => rfl
  | add head next device part fst index _ hadd ih =>
    rw [ih] at hadd
    unfold addMount at hadd
    cases device with
    | none => exact nomatch hadd
    | some d =>
    cases part with
    | none => exact nomatch hadd
    | some p =>
    cases fst with
    | none => exact nomatch hadd
    | some f =>
      have hempty : ((mountsOf head).map Mount.node ++ [initMountHeader]).isEmpty = false := by
        simp
      simp only [Option.isNone_some, Bool.false_eq_true, if_false, hempty] at hadd
      rw [← Except.ok.inj hadd, fillLast_snoc]
      have hlist : (mountsOf head).map Mount.node ++ [⟨some d, some p, some f, index⟩,
          initMountHeader] = (mountsOf head ++ [(⟨d, p, f, index⟩ : Mount δ φ)]).map Mount.node ++
          [initMountHeader] := by simp [Mount.node]
      rw [hlist, mountsOf_snoc]

/-! ## What the walk finds -/

/-- The path after a mount's name, as `get_mount_from_path` copies it. -/
def Mount.nativePath (m : Mount δ φ) (path : List Byte) : List Byte :=
  (path.drop m.name.length).take (strlen STR_MAX_SIZE path - m.name.length)

theorem Mount.strlen_name (m : Mount δ φ) :
    strlen STR_MAX_SIZE m.partition.name.chars = m.name.length := by
  have := m.partition.name_lt
  simp only [strlen, STR_MAX_SIZE, Mount.name]
  omega

/-- The walk takes the first mount whose name is a prefix of the path. -/
theorem getMountFromPath_eq (mounts : List (Mount δ φ)) (path : List Byte) :
    getMountFromPath path (mounts.map Mount.node ++ [initMountHeader]) =
      (mounts.find? fun m => decide (m.name <+: path)).map fun m =>
        (m.node, m.nativePath path) := by
  induction mounts with
  | nil => rfl
  | cons m mounts ih =>
    simp only [List.map_cons, List.cons_append, getMountFromPath, Mount.node, Mount.strlen_name]
    have hbegins : strncmp m.partition.name.chars path m.name.length = 0 ↔ m.name <+: path :=
      strncmp_length_eq_zero m.partition.name.nulFree
    by_cases hm : m.name <+: path
    · rw [if_pos (hbegins.mpr hm), List.find?_cons_of_pos (by simpa using hm)]
      rfl
    · rw [if_neg (mt hbegins.mp hm), List.find?_cons_of_neg (by simpa using hm)]
      exact ih

theorem Built.getMountFromPath_eq (h : Built head) (path : List Byte) :
    getMountFromPath path head =
      ((mountsOf head).find? fun m => decide (m.name <+: path)).map fun m =>
        (m.node, m.nativePath path) := by
  conv_lhs => rw [h.eq_mounts]
  exact Vfs.getMountFromPath_eq (mountsOf head) path

theorem firstComponent_begins (path : List Byte) : firstComponent path <+: path :=
  List.takeWhile_prefix _

/-- The first component ends at a boundary. -/
theorem firstComponent_boundary (path : List Byte) :
    ∃ rest, path = firstComponent path ++ rest ∧ AtBoundary rest := by
  refine ⟨path.dropWhile (· ≠ slash), List.takeWhile_append_dropWhile.symm, ?_⟩
  cases h : path.dropWhile (· ≠ slash) with
  | nil => exact .inl rfl
  | cons c rest =>
    have hc := List.head_dropWhile_not (· ≠ slash) (by rw [h]; exact List.cons_ne_nil c rest)
    simp only [h, List.head_cons] at hc
    exact .inr (by simpa using hc)

/-- The copied path is the whole remainder unless the path is longer than
`strlen` measures. -/
theorem Mount.nativePath_eq_iff (m : Mount δ φ) :
    m.nativePath (m.name ++ rest) = rest ↔
      rest = [] ∨ (m.name ++ rest).length ≤ STR_MAX_SIZE := by
  have hlt := m.partition.name_lt
  have hlen : m.name.length < 48 := hlt
  unfold Mount.nativePath strlen
  rw [List.drop_left, List.length_append]
  constructor
  · intro htake
    have h := congrArg List.length htake
    rw [List.length_take] at h
    cases rest with
    | nil => exact .inl rfl
    | cons c rest =>
      refine .inr ?_
      simp only [List.length_cons, STR_MAX_SIZE] at h ⊢
      omega
  · rintro (rfl | h)
    · exact List.take_nil
    · rw [Nat.min_eq_left h, Nat.add_sub_cancel_left, List.take_length]

theorem Mount.node_injective : Function.Injective (Mount.node (δ := δ) (φ := φ)) := by
  intro m m' h
  cases m
  cases m'
  simpa [Mount.node] using h

/-- The mount found on an unambiguous path is the one its first component names. -/
theorem Unambiguous.found (h : Unambiguous (mountsOf head) path)
    (hfind : (mountsOf head).find? (fun m => decide (m.name <+: path)) = some m) :
    m.name = firstComponent path := by
  obtain ⟨hm, before, after, hsplit, hbefore⟩ := List.find?_eq_some_iff_append.mp hfind
  obtain ⟨rest, hrest⟩ := of_decide_eq_true hm
  by_contra hne
  obtain ⟨-, a, ha, hname⟩ := h.1 before m after rest hsplit hrest.symm hne
  have hnot := hbefore a ha
  rw [hname] at hnot
  simp [firstComponent_begins] at hnot

/-- A path goes to the mount it names, and only there, exactly when it is
unambiguous. -/
theorem resolves_iff_unambiguous (hbuilt : Built head)
    (hnames : ((mountsOf head).map Mount.name).Nodup) :
    Resolves head path ↔ Unambiguous (mountsOf head) path := by
  have hget := hbuilt.getMountFromPath_eq path
  obtain ⟨tail, htail, hbound⟩ := firstComponent_boundary path
  constructor
  · intro h
    -- the only mount a path may reach is the one its first component names
    have hreach : ∀ m ∈ mountsOf head, m.name <+: path → m.name ≠ firstComponent path →
        ∃ a ∈ mountsOf head, a.name = firstComponent path ∧
          (mountsOf head).find? (fun m => decide (m.name <+: path)) = some a := by
      intro m hm hp hne
      by_cases hc : ∀ a ∈ mountsOf head, a.name ≠ firstComponent path
      · have hnone := h.2 hc
        rw [hget, Option.map_eq_none_iff, List.find?_eq_none] at hnone
        exact absurd hp (by simpa using hnone m hm)
      · push Not at hc
        obtain ⟨a, ha, hname⟩ := hc
        refine ⟨a, ha, hname, ?_⟩
        have hsome := h.1 a ha tail (hname ▸ htail) hbound
        rw [hget, Option.map_eq_some_iff] at hsome
        obtain ⟨b, hb, heq⟩ := hsome
        rw [hb, Mount.node_injective (Prod.mk.inj heq).1]
    refine ⟨fun before m after rest hsplit hpath hne => ?_, ?_⟩
    · have hm : m ∈ mountsOf head := by rw [hsplit]; simp
      obtain ⟨a, ha, hname, hfind⟩ := hreach m hm ⟨rest, hpath.symm⟩ hne
      constructor
      · intro hat
        have hsome := h.1 m hm rest hpath hat
        rw [hget, hfind] at hsome
        have heq := Mount.node_injective (Prod.mk.inj (Option.some.inj hsome)).1
        exact hne (heq ▸ hname)
      · rw [hsplit, List.find?_append, List.find?_cons_of_pos (by simp [hpath])] at hfind
        cases hb : before.find? fun m => decide (m.name <+: path) with
        | none =>
          rw [hb] at hfind
          exact absurd hname (Option.some.inj hfind ▸ hne)
        | some b =>
          rw [hb] at hfind
          exact ⟨b, List.mem_of_find?_eq_some hb, Option.some.inj hfind ▸ hname⟩
    · rintro ⟨m, hm, hname⟩
      have hsome := h.1 m hm tail (hname ▸ htail) hbound
      rw [hget, Option.map_eq_some_iff] at hsome
      obtain ⟨b, -, heq⟩ := hsome
      have hnative : m.nativePath (m.name ++ tail) = tail := by
        have hbm := Mount.node_injective (Prod.mk.inj heq).1
        rw [hname, ← htail, ← hbm]
        exact (Prod.mk.inj heq).2
      rcases m.nativePath_eq_iff.mp hnative with h | h
      · exact .inl (by conv_lhs => rw [htail, h, List.append_nil])
      · exact .inr (by rw [htail, ← hname]; exact h)
  · intro h
    constructor
    · intro m hm rest hpath hat
      obtain ⟨before, after, hsplit⟩ := List.append_of_mem hm
      have hname : m.name = firstComponent path := by
        by_contra hne
        exact (h.1 before m after rest hsplit hpath hne).1 hat
      have hsome : ((mountsOf head).find? fun m => decide (m.name <+: path)).isSome = true :=
        List.find?_isSome.mpr ⟨m, hm, decide_eq_true (hpath ▸ List.prefix_append m.name rest)⟩
      obtain ⟨b, hb⟩ := Option.isSome_iff_exists.mp hsome
      have hbm : b = m := List.inj_on_of_nodup_map hnames (List.mem_of_find?_eq_some hb) hm
        ((h.found hb).trans hname.symm)
      rw [hget, hb, hbm]
      have hnative : m.nativePath path = rest := by
        rw [hpath, m.nativePath_eq_iff, ← hpath]
        rcases h.2 ⟨m, hm, hname⟩ with heq | hle
        · rw [← hname] at heq
          exact .inl (List.append_right_eq_self.mp (hpath.symm.trans heq))
        · exact .inr hle
      simp [hnative]
    · intro hno
      rw [hget, Option.map_eq_none_iff]
      cases hb : (mountsOf head).find? fun m => decide (m.name <+: path) with
      | none => rfl
      | some b => exact absurd (h.found hb) (hno b (List.mem_of_find?_eq_some hb))

/-! ## The names that `detect_partition_fs` gives -/

/-- The decimal digits of `n`, as `%d` prints them. -/
def decimal (n : Nat) : List Byte :=
  if n = 0 then [0x30#8] else (Nat.digits 10 n).reverse.map fun d => BitVec.ofNat 8 (0x30 + d)

/-- `snprintf(mountpoint, 48, "%sp%d", device, index)`. -/
def mountpoint (device : Str) (index : Nat) : List Byte :=
  (device.chars ++ 0x70#8 :: decimal index).take 47

theorem decimal_nulFree (n : Nat) : NulFree (decimal n) := by
  intro c hc
  unfold decimal at hc
  split at hc
  · rw [List.mem_singleton.mp hc]
    decide
  · obtain ⟨d, hd, rfl⟩ := List.mem_map.mp hc
    have hlt : d < 10 := Nat.digits_lt_base (by decide) (List.mem_reverse.mp hd)
    intro h0
    have h : (0x30 + d) % 256 = 0 := congrArg BitVec.toNat h0
    omega

theorem mountpoint_nulFree (device : Str) (index : Nat) : NulFree (mountpoint device index) := by
  intro c hc
  rcases List.mem_append.mp (List.mem_of_mem_take hc) with h | h
  · exact device.nulFree c h
  · rcases List.mem_cons.mp h with rfl | h
    · decide
    · exact decimal_nulFree index c h

/-- The partition as `mount_fs` names it. -/
def mountedPartition (device : Str) (index : Nat) : VfsPartition :=
  ⟨⟨mountpoint device index, mountpoint_nulFree device index⟩,
    Nat.lt_succ_of_le (List.length_take_le 47 _)⟩

/-! ## Partitions 1 and 10 of one disk -/

/-- `sda`. -/
def diskName : Str := ⟨[0x73#8, 0x64#8, 0x61#8], by decide⟩

/-- Partition `i` of `sda`, mounted. -/
def diskMount (i : Nat) : Mount Str Unit := ⟨diskName, mountedPartition diskName i, (), i⟩

/-- The partitions of `sda` at these indices, mounted in this order. -/
def diskMounts (indices : List Nat) : List (VfsMount Str Unit) :=
  (indices.map diskMount).map Mount.node ++ [initMountHeader]

theorem built_diskMounts (indices : List Nat) : Built (diskMounts indices) := by
  induction indices using List.reverseRecOn with
  | nil => exact .header
  | append_singleton indices i ih =>
    refine .add (diskMounts indices) _ (some diskName) (some (mountedPartition diskName i))
      (some ()) i ih ?_
    simp [addMount, diskMounts, diskMount, fillLast_snoc, Mount.node]

/-- `sdap10/a`. -/
def pathIntoTen : List Byte := mountpoint diskName 10 ++ [slash, 0x61#8]

/-- Partition 10 mounted before partition 1 leaves the path its meaning. -/
theorem resolves_iff_unambiguous_disk : Resolves (diskMounts [10, 1]) pathIntoTen := by
  refine (resolves_iff_unambiguous (built_diskMounts [10, 1]) (by decide)).mpr
    ⟨fun before m after rest hsplit hpath hne => ?_, fun _ => .inr (by decide)⟩
  replace hsplit : [diskMount 10, diskMount 1] = before ++ m :: after := hsplit
  cases before with
  | nil => exact absurd (by rw [← (List.cons.inj hsplit).1]; rfl) hne
  | cons b before =>
    obtain ⟨rfl, htail⟩ := List.cons.inj hsplit
    cases before with
    | nil =>
      rw [← (List.cons.inj htail).1] at hpath
      rw [List.append_cancel_left (hpath.symm.trans
        (rfl : pathIntoTen = mountpoint diskName 1 ++ [0x30#8, slash, 0x61#8]))]
      exact ⟨by decide, _, List.mem_singleton_self _, rfl⟩
    | cons b' before =>
      have hlen := congrArg List.length (List.cons.inj htail).2
      simp at hlen

/-- `sdap10/a` with partitions 1 and 10 mounted in the order of their numbers
reaches partition 1, as the file `0/a`. -/
theorem not_resolves_prefix :
    ¬ ∀ (head : List (VfsMount Str Unit)) (path : List Byte), Built head →
      ((mountsOf head).map Mount.name).Nodup → (∀ m ∈ mountsOf head, m.name ≠ []) →
      NulFree path → Resolves head path := by
  intro h
  have hres := h (diskMounts [1, 10]) pathIntoTen
    (built_diskMounts [1, 10]) (by decide) (by decide) (by decide)
  have hwrong := hres.1 (diskMount 10) (by decide)
    [slash, 0x61#8] rfl (by decide)
  revert hwrong
  decide

end Vfs
