import UnedKernel.Memory.Access
import UnedKernel.Memory.Heap

/-! # User heaps

`heap.c` on the heap of a user task. The kernel reaches it through the current
directory, at the addresses where the task will find it through its own, so
every page is mapped in both. -/

namespace UnedKernel.Memory
open ByteMem Word

/-- The page tables, and the bytes of physical memory outside them. -/
structure Machine where
  paging : PagingState
  phys : Bytes

/-- The heap of a task, and the pages requested for it with their permissions. -/
structure TaskHeap where
  cheap : Heap
  pages : List (Nat × Nat)

/-- `request_current_page_at`, with the directory that `get_pml4` returns. -/
def requestCurrentPageAt (s : PagingState) (pml4 vaddr flags : Nat) : Except Panic PagingState :=
  let result := s.supply s.next
  if result = 0 then .error ⟨"ERROR: Could not allocate page for mapping\n"⟩
  else mapMemoryHh { s with next := s.next + 1 } pml4 vaddr result flags

/-- The page at `vaddr` of the current directory, also in `pml4` if that is another one:
`virtual_to_physical` and `map_memory`. -/
def mapAlso (s : PagingState) (current pml4 vaddr flags : Nat) : Except Panic PagingState :=
  if current ≠ pml4 then mapMemoryHh s pml4 vaddr (virtualToPhysical s.mem current vaddr) flags
  else .ok s

namespace Machine

/-- Memory as a directory shows it. -/
def view (m : Machine) (pml4 : Nat) : Bytes := fun v =>
  m.phys (virtualToPhysical m.paging.mem pml4 v + v % PAGESIZE)

/-- Physical memory after the pages `pages` of a directory are written. -/
def written (m : Machine) (pml4 : Nat) (pages : List (Nat × Nat)) (b : Bytes) : Bytes := fun a =>
  match pages.find? fun p => virtualToPhysical m.paging.mem pml4 p.1 == a / PAGESIZE * PAGESIZE with
  | some p => b (p.1 + a % PAGESIZE)
  | none => m.phys a

/-- The heap as the functions of `heap.c` find it through a directory. -/
def enter (m : Machine) (pml4 : Nat) (h : TaskHeap) : HeapState := ⟨h.cheap, m.view pml4, h.pages⟩

/-- What the functions of `heap.c` leave behind: they write to pages of the heap. -/
def leave (m : Machine) (pml4 : Nat) (s : HeapState) : TaskHeap × Machine :=
  (⟨s.cheap, s.pages⟩, { m with phys := m.written pml4 s.pages s.mem })

/-- `_initHeap`. -/
def initHeap (m : Machine) (current pml4 : Nat) (cheap : Heap) (heapEnd stackEnd : Nat)
    (user : Bool) : Except Panic (TaskHeap × Machine) := do
  let perms := heapPerms user
  let s ← requestCurrentPageAt m.paging current (sub64 heapEnd PAGESIZE) perms
  let s ← requestCurrentPageAt s current (sub64 stackEnd PAGESIZE) perms
  let s ← mapAlso s current pml4 (sub64 heapEnd PAGESIZE) perms
  let s ← mapAlso s current pml4 (sub64 stackEnd PAGESIZE) perms
  let m := { m with paging := s }
  return m.leave current (Memory.initHeap (m.enter current ⟨cheap, []⟩) heapEnd stackEnd user)

/-- `create_user_heap`, for a task with directory `pd`. -/
def createUserHeap (m : Machine) (current pd : Nat) (cheap : Heap) :
    Except Panic (TaskHeap × Machine) :=
  m.initHeap current pd cheap 0x00007fff6ffff000 0x00007fff7ffff000 true

/-- The loop of `expand_heap` over `n` pages. The second mapping is of the current
directory again: the code passes `pd` there, not `pml4`. -/
def expandPages (current pml4 perms : Nat) :
    Nat → Machine → TaskHeap → Except Panic (TaskHeap × Machine)
  | 0, m, h => .ok (h, m)
  | n + 1, m, h => do
    let heapEnd := sub64 h.cheap.heapEnd PAGESIZE
    let s ← requestCurrentPageAt m.paging current heapEnd perms
    if heapEnd = 0 then .error ⟨"Failed to expand heap"⟩
    else do
      let s ← if current ≠ pml4 then
          mapMemoryHh s current heapEnd (virtualToPhysical s.mem current heapEnd) perms
        else .ok s
      expandPages current pml4 perms n { m with paging := s }
        ⟨{ h.cheap with heapEnd := heapEnd }, (heapEnd, perms) :: h.pages⟩

/-- The end of `expand_heap`: the new segment. -/
def linkSegment (s : HeapState) (length : Nat) : HeapState :=
  let newSegment := s.cheap.heapEnd
  let lastSegment := s.cheap.lastSegment
  { s with
    mem :=
      if lastSegment ≠ 0 ∧ Segment.free.get s.mem lastSegment ≠ 0 ∧
          Segment.last.get s.mem lastSegment ≠ 0 then
        swallowSegment s.mem newSegment lastSegment length
      else appendSegment s.mem newSegment lastSegment length
    cheap := { s.cheap with
      lastSegment := newSegment
      totalSize := u64 (s.cheap.totalSize + u64 (length + sizeofHeader))
      freeSize := u64 (s.cheap.freeSize + u64 (length + sizeofHeader)) } }

/-- `expand_heap`. -/
def expandHeap (m : Machine) (current pml4 : Nat) (h : TaskHeap) (length : Nat) :
    Except Panic (TaskHeap × Machine) := do
  let length := expandLength length
  let pages := length / PAGESIZE + (if length % PAGESIZE ≠ 0 then 1 else 0)
  let (h, m) ← expandPages current pml4 (heapPerms (!h.cheap.isKernel)) pages m h
  return m.leave current (linkSegment (m.enter current h) length)

/-- `_malloc`, for at most `fuel` expansions and `fuel` segments each. -/
def malloc (current pml4 : Nat) : Nat → Machine → TaskHeap → Nat →
    Option (Except Panic (Nat × TaskHeap × Machine))
  | 0, _, _, _ => none
  | fuel + 1, m, h, size =>
    if h.cheap.ready = false then some (.ok (0, h, m))
    else if size = 0 then some (.ok (0, h, m))
    else
      match findSegment (m.view current) (roundSize size) fuel h.cheap.mainSegment with
      | none => none
      | some (.error e) => some (.error e)
      | some (.ok (some segment)) =>
        some ((allocateIn (m.enter current h) segment (roundSize size)).map fun r =>
          (r.1, m.leave current r.2))
      | some (.ok none) =>
        match m.expandHeap current pml4 h (roundSize size) with
        | .error e => some (.error e)
        | .ok (h, m) => malloc current pml4 fuel m h (roundSize size)

/-- `_free`. -/
def free (m : Machine) (current : Nat) (h : TaskHeap) (address : Nat) :
    Except Panic (TaskHeap × Machine) :=
  (heapFree (m.enter current h) address).map (m.leave current)

/-- The end of `_realloc`: copy what fits, and release the old buffer. -/
def moveBlock (m : Machine) (current : Nat) (h : TaskHeap) (buffer newBuffer size : Nat) :
    Except Panic (TaskHeap × Machine) :=
  let s := m.enter current h
  let oldSize := Segment.length.get s.mem (getHeapSegmentHeader buffer)
  let oldSize := if size < oldSize then size else oldSize
  let s := { s with mem := copy s.mem newBuffer s.mem buffer oldSize }
  (heapFree s buffer).map (m.leave current)

/-- `_realloc`. -/
def realloc (current pml4 fuel : Nat) (m : Machine) (h : TaskHeap) (buffer size : Nat) :
    Option (Except Panic (Nat × TaskHeap × Machine)) :=
  if h.cheap.ready = false then some (.ok (0, h, m))
  else
    (malloc current pml4 fuel m h size).map fun r => r.bind fun (newBuffer, h, m) =>
      if newBuffer = 0 then .ok (0, h, m)
      else if buffer = 0 then .ok (newBuffer, h, m)
      else (m.moveBlock current h buffer newBuffer size).map fun r => (newBuffer, r)

/-- The loop of `_stackalloc` over `n` pages. -/
def stackPages (current pml4 perms : Nat) :
    Nat → Machine → TaskHeap → Except Panic (TaskHeap × Machine)
  | 0, m, h => .ok (h, m)
  | n + 1, m, h => do
    let lastStack := sub64 h.cheap.lastStack PAGESIZE
    let s ← requestCurrentPageAt m.paging current lastStack perms
    if lastStack = 0 then .error ⟨"Out of memory"⟩
    else do
      let s ← mapAlso s current pml4 lastStack perms
      stackPages current pml4 perms n { m with paging := s }
        ⟨{ h.cheap with lastStack := lastStack }, (lastStack, perms) :: h.pages⟩

/-- `_stackalloc`. -/
def stackalloc (m : Machine) (current pml4 : Nat) (h : TaskHeap) (length : Nat) :
    Except Panic (Nat × TaskHeap × Machine) := do
  let pages := length / PAGESIZE + (if length % PAGESIZE ≠ 0 then 1 else 0)
  let (h, m) ← stackPages current pml4 (heapPerms (!h.cheap.isKernel)) pages m h
  let address := h.cheap.lastStack
  return (address, { h with cheap := { h.cheap with lastStack := sub64 address PAGESIZE } }, m)

end Machine

/-- The expansion of the user heap links the new segment as that of any heap does. -/
theorem expandHeap_eq (s : HeapState) (length : Nat) : Memory.expandHeap s length =
    (Memory.expandPages (heapPerms (!s.cheap.isKernel)) (expandLength length / PAGESIZE +
      (if expandLength length % PAGESIZE ≠ 0 then 1 else 0)) s).map fun s =>
        Machine.linkSegment s (expandLength length) := rfl

/-! ## Pages and their bytes -/

section pages

variable {m : Machine} {d e v o : Nat} {s : HeapState}

theorem pageNumber_add (hv : v % PAGESIZE = 0) (ho : o < PAGESIZE) :
    pageNumber (v + o) = pageNumber v := by
  unfold PAGESIZE at hv ho
  unfold pageNumber
  omega

theorem virtualToPhysical_add (t : Frames) (hv : v % PAGESIZE = 0) (ho : o < PAGESIZE) :
    virtualToPhysical t d (v + o) = virtualToPhysical t d v := by
  rw [virtualToPhysical_eq, virtualToPhysical_eq, pageNumber_add hv ho]

theorem virtualToPhysical_page (t : Frames) (d v : Nat) : virtualToPhysical t d v % PAGESIZE = 0 := by
  rw [virtualToPhysical_eq]
  cases mappingOf t d (pageNumber v) with
  | none => rfl
  | some x =>
    show x.frame <<< 12 % PAGESIZE = 0
    rw [Nat.shiftLeft_eq]
    unfold PAGESIZE
    omega

namespace Machine

theorem view_add (hv : v % PAGESIZE = 0) (ho : o < PAGESIZE) :
    m.view d (v + o) = m.phys (virtualToPhysical m.paging.mem d v + o) := by
  rw [view, virtualToPhysical_add _ hv ho]
  unfold PAGESIZE at hv ho ⊢
  rw [show (v + o) % 4096 = o by omega]

/-- A page of the heap shows what was written to it. -/
theorem view_leave_in (hv : v % PAGESIZE = 0) (ho : o < PAGESIZE) {p : Nat × Nat}
    (hp : p ∈ s.pages) (hphys : virtualToPhysical m.paging.mem d p.1 =
      virtualToPhysical m.paging.mem e v)
    (hinj : ∀ q ∈ s.pages, virtualToPhysical m.paging.mem d q.1 =
      virtualToPhysical m.paging.mem d p.1 → q.1 = p.1) :
    (m.leave d s).2.view e (v + o) = s.mem (p.1 + o) := by
  rw [view_add hv ho]
  show m.written d s.pages s.mem (virtualToPhysical m.paging.mem e v + o) = _
  have hpage := virtualToPhysical_page m.paging.mem e v
  obtain ⟨a, ha⟩ : ∃ a, virtualToPhysical m.paging.mem e v = a := ⟨_, rfl⟩
  rw [ha] at hphys hpage ⊢
  have hdiv : (a + o) / PAGESIZE * PAGESIZE = a := by unfold PAGESIZE at hpage ho ⊢; omega
  have hmod : (a + o) % PAGESIZE = o := by unfold PAGESIZE at hpage ho ⊢; omega
  rw [written, hdiv, hmod]
  cases hf : s.pages.find? fun p => virtualToPhysical m.paging.mem d p.1 == a with
  | none =>
    have := List.find?_eq_none.mp hf p hp
    simp [hphys] at this
  | some q =>
    have hq := List.find?_some hf
    simp only [beq_iff_eq] at hq
    show s.mem (q.1 + o) = _
    rw [hinj q (List.mem_of_find?_eq_some hf) (hq.trans hphys.symm)]

/-- A page that is not one of the heap shows what it showed before. -/
theorem view_leave_out (hv : v % PAGESIZE = 0) (ho : o < PAGESIZE)
    (hout : ∀ q ∈ s.pages, virtualToPhysical m.paging.mem d q.1 ≠
      virtualToPhysical m.paging.mem e v) :
    (m.leave d s).2.view e (v + o) = m.view e (v + o) := by
  rw [view_add hv ho, view_add hv ho]
  show m.written d s.pages s.mem (virtualToPhysical m.paging.mem e v + o) = _
  have hpage := virtualToPhysical_page m.paging.mem e v
  obtain ⟨a, ha⟩ : ∃ a, virtualToPhysical m.paging.mem e v = a := ⟨_, rfl⟩
  rw [ha] at hout hpage ⊢
  have hdiv : (a + o) / PAGESIZE * PAGESIZE = a := by unfold PAGESIZE at hpage ho ⊢; omega
  rw [written, hdiv]
  cases hf : s.pages.find? fun p => virtualToPhysical m.paging.mem d p.1 == a with
  | none => rfl
  | some q =>
    have hq := List.find?_some hf
    simp only [beq_iff_eq] at hq
    exact absurd hq (hout q (List.mem_of_find?_eq_some hf))

end Machine
end pages
end UnedKernel.Memory
