import UnedKernel.Lib.Record
import UnedKernel.Memory.UserHeapPages

/-! # The program loader

`loader.c`, and the part of `create_task` that builds the address space of a
user task. The pages that the kernel's own heap and stack take while it runs
are given: they are mapped in the current directory, page by page. -/

namespace UnedKernel.Proc
open ByteMem Word Memory

/-! ## The file -/

abbrev ELFMAG : Nat := 0x464c457f
abbrev ELFCLASS32 : Nat := 1
abbrev ET_EXEC : Nat := 2
abbrev ET_DYN : Nat := 3
abbrev PT_LOAD : Nat := 1
abbrev PF_X : Nat := 1
abbrev PF_W : Nat := 2
abbrev IDENTITY_MAP_START : Nat := 0xffffa00000000000
abbrev USER_STACK_SIZE : Nat := 0x4000

/-! The fields of `Elf64_Ehdr` that the loader reads. -/

namespace Ehdr

def magic : Field := ⟨0, 4⟩
def elfClass : Field := ⟨4, 1⟩
def type : Field := ⟨16, 2⟩
def entry : Field := ⟨24, 8⟩
def phoff : Field := ⟨32, 8⟩
def phnum : Field := ⟨56, 2⟩

end Ehdr

/-- `Elf64_Phdr`. -/
structure Phdr where
  type : Nat
  flags : Nat
  offset : Nat
  vaddr : Nat
  filesz : Nat
  memsz : Nat
  deriving DecidableEq

namespace Phdr

/-- The program header at `a` of the file. -/
def read (file : Bytes) (a : Nat) : Phdr where
  type := Field.get ⟨0, 4⟩ file a
  flags := Field.get ⟨4, 4⟩ file a
  offset := Field.get ⟨8, 8⟩ file a
  vaddr := Field.get ⟨16, 8⟩ file a
  filesz := Field.get ⟨32, 8⟩ file a
  memsz := Field.get ⟨40, 8⟩ file a

/-- The test of `elf_load_elf` for the segment of the entry point. -/
def contains (ph : Phdr) (entry : Nat) : Prop :=
  ph.type = PT_LOAD ∧ ph.vaddr ≤ entry ∧ entry < u64 (ph.vaddr + ph.memsz)

instance (ph : Phdr) (entry : Nat) : Decidable (ph.contains entry) :=
  inferInstanceAs (Decidable (_ ∧ _ ∧ _))

/-! The local variables of `allocate_segment`. -/

def vaddrOffset (ph : Phdr) : Nat := ph.vaddr % 0x1000

def page (ph : Phdr) : Nat := ph.vaddr - ph.vaddrOffset

def totalSize (ph : Phdr) : Nat := u64 (ph.memsz + ph.vaddrOffset)

def pageNo (ph : Phdr) : Nat :=
  ph.totalSize / 0x1000 + (if ph.totalSize % 0x1000 ≠ 0 then 1 else 0)

def perms (ph : Phdr) : Nat :=
  let perms := PAGE_USER_BIT
  let perms := if ph.flags &&& PF_W ≠ 0 then perms ||| PAGE_WRITE_BIT else perms
  if ph.flags &&& PF_X = 0 then perms ||| PAGE_NX_BIT else perms

def completeBuffer (ph : Phdr) (file : Bytes) : Bytes :=
  copy (fun _ => 0) ph.vaddrOffset file ph.offset ph.filesz

/-- The copy into `complete_buffer` stays inside it. -/
def Fits (ph : Phdr) : Prop :=
  ph.filesz = 0 ∨ ph.vaddrOffset + ph.filesz ≤ u64 (ph.pageNo * 0x1000)

instance (ph : Phdr) : Decidable ph.Fits := inferInstanceAs (Decidable (_ ∨ _))

end Phdr

/-- The program headers, in the order of the file. -/
def programHeaders (file : Bytes) : List Phdr :=
  (List.range (Ehdr.phnum.get file 0)).map fun i =>
    Phdr.read file (u64 (Ehdr.phoff.get file 0 + 56 * i))

/-! ## The task -/

/-- The pages that the kernel heap and stack take: in `create_task` before and after the
directory is duplicated, and for the buffer of each program header. -/
structure Growth where
  task : List Nat
  stack : List Nat
  segment : Nat → List Nat

/-- The growth of the kernel heap, or stack, by some pages. -/
def growKernel (current : Nat) : List Nat → PagingState → Except Panic PagingState
  | [], s => .ok s
  | v :: vs, s => do
    let s ← requestCurrentPageAt s current v PAGE_WRITE_BIT
    growKernel current vs s

/-- `create_task` for a user task: its directory, its heap (whose record is `cheap`, in a page
of its own) and its stack. -/
def createTask (m : Machine) (current : Nat) (g : Growth) (cheap : Heap) :
    Except Panic (Nat × Machine) := do
  let s ← growKernel current g.task m.paging
  let (pd, s) ← duplicateCurrentKernelPml4 s current
  let m := { m with paging := { s with next := s.next + 1 } }
  let (h, m) ← m.createUserHeap current pd cheap
  let (_, _, m) ← m.stackalloc current pd h USER_STACK_SIZE
  let s ← growKernel current g.stack m.paging
  return (pd, { m with paging := s })

/-! ## The segments -/

/-- The loop of `allocate_segment`, over `n` pages from page `i` of `buffer` on. -/
def loadPages (current pd perms vaddr : Nat) (buffer : Bytes) :
    Nat → Nat → Machine → Except Panic Machine
  | _, 0, m => .ok m
  | i, n + 1, m => do
    let partialBuffer := u64 (IDENTITY_MAP_START + m.paging.supply m.paging.next)
    let s := { m.paging with next := m.paging.next + 1 }
    let physical := virtualToPhysical s.mem current partialBuffer
    let s ← mapMemoryHh s pd (u64 (vaddr + i * PAGESIZE)) physical perms
    let frame := virtualToPhysical s.mem current partialBuffer
    loadPages current pd perms vaddr buffer (i + 1) n
      ⟨s, copy m.phys frame buffer (i * PAGESIZE) PAGESIZE⟩

/-- `allocate_segment`. A copy that leaves its buffer has no defined result. -/
def allocateSegment (file : Bytes) (current pd : Nat) (grow : List Nat) (ph : Phdr) (m : Machine) :
    Option (Except Panic Machine) :=
  if ph.type ≠ PT_LOAD then some (.ok m)
  else if ph.Fits then
    some do
      let s ← growKernel current grow m.paging
      loadPages current pd ph.perms ph.page (ph.completeBuffer file) 0 ph.pageNo
        { m with paging := s }
  else none

/-- The inner loop of `elf_load_elf`, from program header `i` on. -/
def loadSegments (file : Bytes) (current pd : Nat) (g : Growth) :
    Nat → List Phdr → Machine → Option (Except Panic Machine)
  | _, [], m => some (.ok m)
  | i, ph :: phs, m =>
    match allocateSegment file current pd (g.segment i) ph m with
    | none => none
    | some (.error e) => some (.error e)
    | some (.ok m) => loadSegments file current pd g (i + 1) phs m

/-- What `elf_load_elf` returns, the directory of the new task, and the machine. -/
structure Loaded where
  code : Nat
  pd : Nat
  machine : Machine

/-- `elf_load_elf`. When no segment holds the entry point it ends without a value. -/
def elfLoadElf (file : Bytes) (m : Machine) (current : Nat) (g : Growth) (cheap : Heap) :
    Option (Except Panic Loaded) :=
  if Ehdr.magic.get file 0 ≠ ELFMAG then some (.ok ⟨0, 0, m⟩)
  else if Ehdr.elfClass.get file 0 = ELFCLASS32 then some (.ok ⟨0, 0, m⟩)
  else if Ehdr.type.get file 0 = ET_DYN then some (.ok ⟨0, 0, m⟩)
  else if Ehdr.type.get file 0 ≠ ET_EXEC then some (.ok ⟨0, 0, m⟩)
  else
    let entry := Ehdr.entry.get file 0
    match (programHeaders file).find? fun ph => ph.contains entry with
    | none => none
    | some _ =>
      match createTask m current g cheap with
      | .error e => some (.error e)
      | .ok (pd, m) =>
        match loadSegments file current pd g 0 (programHeaders file) m with
        | none => none
        | some (.error e) => some (.error e)
        | some (.ok m) =>
          if isPresent m.paging.mem pd entry = 0 then some (.ok ⟨0, pd, m⟩)
          else if isUserAccess m.paging.mem pd entry = 0 then some (.ok ⟨0, pd, m⟩)
          else if isExecutable m.paging.mem pd entry = false then some (.ok ⟨0, pd, m⟩)
          else some (.ok ⟨1, pd, m⟩)

/-! ## Steps -/

section steps

variable {file buffer : Bytes} {current pd perms vaddr i n : Nat} {m m' : Machine} {g : Growth}
  {ph : Phdr} {phs : List Phdr}

/-- One page of a segment, and the pages after it. -/
theorem loadPages_succ {p : Nat} (hp : u64 (IDENTITY_MAP_START + m.paging.supply m.paging.next) = p)
    (h : loadPages current pd perms vaddr buffer i (n + 1) m = .ok m') :
    ∃ t, mapMemoryHh { m.paging with next := m.paging.next + 1 } pd (u64 (vaddr + i * PAGESIZE))
        (virtualToPhysical m.paging.mem current p) perms = .ok t ∧
      loadPages current pd perms vaddr buffer (i + 1) n
        ⟨t, copy m.phys (virtualToPhysical t.mem current p) buffer (i * PAGESIZE) PAGESIZE⟩ =
          .ok m' := by
  rw [loadPages, hp] at h
  cases ht : mapMemoryHh { m.paging with next := m.paging.next + 1 } pd
      (u64 (vaddr + i * PAGESIZE)) (virtualToPhysical m.paging.mem current p) perms with
  | error e => simp only [ht] at h; cases h
  | ok t =>
    simp only [ht] at h
    exact ⟨t, rfl, h⟩

theorem growKernel_next {s t : PagingState} {vs : List Nat} (h : growKernel current vs s = .ok t) :
    s.next ≤ t.next := by
  induction vs generalizing s with
  | nil =>
    cases h
    exact le_refl _
  | cons v vs ih =>
    rw [growKernel] at h
    cases hu : requestCurrentPageAt s current v PAGE_WRITE_BIT with
    | error e => rw [hu] at h; cases h
    | ok u =>
      rw [hu] at h
      refine Nat.le_trans ?_ (ih h)
      rw [requestCurrentPageAt] at hu
      split at hu
      · cases hu
      · exact Nat.le_of_succ_le (mapMemoryHh_next hu).2.1

/-- Each page takes one of the supply at least. -/
theorem loadPages_next (h : loadPages current pd perms vaddr buffer i n m = .ok m') :
    m.paging.next + n ≤ m'.paging.next := by
  induction n generalizing i m with
  | zero =>
    cases h
    exact le_refl _
  | succ n ih =>
    obtain ⟨t, ht, hrest⟩ := loadPages_succ rfl h
    have hle : m.paging.next + 1 ≤ t.next := (mapMemoryHh_next ht).2.1
    have := ih hrest
    simp only at this
    omega

/-- One program header, and the headers after it. -/
theorem loadSegments_cons (hload : ph.type = PT_LOAD)
    (h : loadSegments file current pd g i (ph :: phs) m = some (.ok m')) :
    ph.Fits ∧ ∃ s m₁, growKernel current (g.segment i) m.paging = .ok s ∧
      loadPages current pd ph.perms ph.page (ph.completeBuffer file) 0 ph.pageNo
        { m with paging := s } = .ok m₁ ∧
      loadSegments file current pd g (i + 1) phs m₁ = some (.ok m') := by
  rw [loadSegments, allocateSegment, if_neg (not_not_intro hload)] at h
  by_cases hfits : ph.Fits
  · refine ⟨hfits, ?_⟩
    rw [if_pos hfits] at h
    cases hs : growKernel current (g.segment i) m.paging with
    | error e => simp only [bind, Except.bind, hs] at h; cases h
    | ok s =>
      simp only [bind, Except.bind, hs] at h
      cases hm : loadPages current pd ph.perms ph.page (ph.completeBuffer file) 0 ph.pageNo
          { m with paging := s } with
      | error e => rw [hm] at h; cases h
      | ok m₁ =>
        rw [hm] at h
        exact ⟨s, m₁, rfl, hm, h⟩
  · rw [if_neg hfits] at h
    cases h

theorem loadSegments_skip (hload : ph.type ≠ PT_LOAD) :
    loadSegments file current pd g i (ph :: phs) m =
      loadSegments file current pd g (i + 1) phs m := by
  rw [loadSegments, allocateSegment, if_pos hload]

theorem loadSegments_next (h : loadSegments file current pd g i phs m = some (.ok m')) :
    m.paging.next ≤ m'.paging.next := by
  induction phs generalizing i m with
  | nil =>
    cases h
    exact le_refl _
  | cons ph phs ih =>
    by_cases hload : ph.type = PT_LOAD
    · obtain ⟨-, s, m₁, hs, hm₁, hrest⟩ := loadSegments_cons hload h
      have hpages : s.next + ph.pageNo ≤ m₁.paging.next := loadPages_next hm₁
      exact Nat.le_trans (growKernel_next hs)
        (Nat.le_trans (Nat.le_of_add_right_le hpages) (ih hrest))
    · rw [loadSegments_skip hload] at h
      exact ih h

/-- A file that is accepted: a task is created and every segment loaded. -/
theorem elfLoadElf_accepted {cheap : Heap} {r : Loaded}
    (h : elfLoadElf file m current g cheap = some (.ok r)) (hcode : r.code = 1) :
    ∃ m₁, createTask m current g cheap = .ok (r.pd, m₁) ∧
      loadSegments file current r.pd g 0 (programHeaders file) m₁ = some (.ok r.machine) := by
  have hzero : ∀ {a : Nat} {t : Machine}, some (Except.ok (ε := Panic) (Loaded.mk 0 a t)) ≠
      some (.ok r) := fun {a t} heq => by
    rw [← Except.ok.inj (Option.some.inj heq)] at hcode
    cases hcode
  rw [elfLoadElf] at h
  split at h
  · exact absurd h hzero
  split at h
  · exact absurd h hzero
  split at h
  · exact absurd h hzero
  split at h
  · exact absurd h hzero
  obtain ⟨entry, hentry⟩ : ∃ x, Ehdr.entry.get file 0 = x := ⟨_, rfl⟩
  simp only [hentry] at h
  cases hfind : (programHeaders file).find? fun ph => ph.contains entry with
  | none => rw [hfind] at h; cases h
  | some found =>
    rw [hfind] at h
    cases htask : createTask m current g cheap with
    | error e => simp only [htask] at h; cases h
    | ok t =>
      obtain ⟨pd, m₁⟩ := t
      simp only [htask] at h
      cases hsegs : loadSegments file current pd g 0 (programHeaders file) m₁ with
      | none => rw [hsegs] at h; cases h
      | some out =>
        rw [hsegs] at h
        cases out with
        | error e => cases h
        | ok m₂ =>
          simp only at h
          split at h
          · exact absurd h hzero
          split at h
          · exact absurd h hzero
          split at h
          · exact absurd h hzero
          obtain rfl := Except.ok.inj (Option.some.inj h)
          exact ⟨m₁, rfl, hsegs⟩

end steps

end UnedKernel.Proc
