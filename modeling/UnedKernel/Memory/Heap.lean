import UnedKernel.Lib.Record
import UnedKernel.Lib.Word
import UnedKernel.Memory.Paging

/-! # The heap

`heap.c`. The heap grows down from its end, one page at a time. Its segments
are headers in memory, linked by `next` from `mainSegment`, the highest, to
`lastSegment`, the lowest, and back by `last`. A page that the heap requests
holds whatever the memory of the model holds there. -/

namespace UnedKernel.Memory
open ByteMem Word

abbrev HEAP_SIGNATURE : Nat := 0xcafebabe

/-- `sizeof(struct heap_segment_header)`. -/
abbrev sizeofHeader : Nat := 48

/-! ## `struct heap_segment_header` -/

namespace Segment

def free : Field := ⟨0, 1⟩
def length : Field := ⟨8, 8⟩
def next : Field := ⟨16, 8⟩
def last : Field := ⟨24, 8⟩
def isStack : Field := ⟨32, 1⟩
def signature : Field := ⟨36, 4⟩

end Segment

/-- `struct heap`. -/
structure Heap where
  heapEnd : Nat
  lastStack : Nat
  lastSegment : Nat
  mainSegment : Nat
  totalSize : Nat
  usedSize : Nat
  freeSize : Nat
  isKernel : Bool
  ready : Bool

/-- The heap, the memory it lies in, and the pages it has requested with their
permissions, the latest first. -/
structure HeapState where
  cheap : Heap
  mem : Bytes
  pages : List (Nat × Nat)

/-- The permissions of the pages of a heap. -/
def heapPerms (user : Bool) : Nat := if user then PAGE_WRITE_BIT ||| PAGE_USER_BIT else PAGE_WRITE_BIT

/-- `request_current_page_at`, which returns its address. -/
def HeapState.requestCurrentPageAt (s : HeapState) (vaddr perms : Nat) : HeapState :=
  { s with pages := (vaddr, perms) :: s.pages }

/-- `_initHeap`. -/
def initHeap (s : HeapState) (heapEnd stackEnd : Nat) (user : Bool) : HeapState :=
  let heapEnd := sub64 heapEnd PAGESIZE
  let s := s.requestCurrentPageAt heapEnd (heapPerms user)
  let lastStack := sub64 stackEnd PAGESIZE
  let s := s.requestCurrentPageAt lastStack (heapPerms user)
  let mainSegment := u64 (heapEnd + (PAGESIZE - sizeofHeader))
  let m := Segment.length.set s.mem mainSegment 0
  let m := Segment.free.set m mainSegment 0
  let m := Segment.isStack.set m mainSegment 0
  let m := Segment.last.set m mainSegment 0
  let m := Segment.signature.set m mainSegment HEAP_SIGNATURE
  let next := u64 (sub64 mainSegment PAGESIZE + sizeofHeader)
  let m := Segment.next.set m mainSegment next
  let m := Segment.free.set m next 1
  let m := Segment.isStack.set m next 0
  let m := Segment.length.set m next (PAGESIZE - sizeofHeader - sizeofHeader)
  let m := Segment.last.set m next mainSegment
  let m := Segment.next.set m next 0
  let m := Segment.signature.set m next HEAP_SIGNATURE
  { s with
    mem := m
    cheap := { s.cheap with
      heapEnd := heapEnd
      lastStack := lastStack
      mainSegment := mainSegment
      lastSegment := next
      totalSize := u64 (s.cheap.totalSize + PAGESIZE)
      freeSize := u64 (s.cheap.freeSize + PAGESIZE)
      isKernel := !user
      ready := true } }

/-- `splitSegment`, with 0 for no segment. -/
def splitSegment (s : HeapState) (segment size : Nat) : Except Panic (Nat × HeapState) :=
  let m := s.mem
  if Segment.length.get m segment ≤ u64 (size + sizeofHeader) then .ok (0, s)
  else if Segment.signature.get m segment ≠ HEAP_SIGNATURE then
    .error ⟨"Invalid heap segment signature split"⟩
  else
    let newSegment := sub64 (u64 (segment + Segment.length.get m segment)) size
    let m := fill m newSegment sizeofHeader 0
    let m := Segment.free.set m newSegment 1
    let m := Segment.length.set m newSegment size
    let m := Segment.isStack.set m newSegment 0
    let m := Segment.next.set m newSegment segment
    let m := Segment.signature.set m newSegment HEAP_SIGNATURE
    let m := Segment.last.set m newSegment (Segment.last.get m segment)
    let lastSegment := if Segment.next.get m segment = 0 then segment else s.cheap.lastSegment
    let m :=
      if Segment.last.get m segment ≠ 0 then Segment.next.set m (Segment.last.get m segment) newSegment
      else m
    let m := Segment.last.set m segment newSegment
    let m := Segment.length.set m segment
      (sub64 (Segment.length.get m segment) (u64 (size + sizeofHeader)))
    .ok (newSegment, { s with mem := m, cheap := { s.cheap with lastSegment := lastSegment } })

/-- The size that `_malloc` works with. -/
def roundSize (size : Nat) : Nat := if size % 16 > 0 then u64 (size - size % 16 + 16) else size

/-- The segment serves a request of `size` bytes, split or as it is. -/
def fits (m : Bytes) (segment size : Nat) : Bool :=
  Segment.free.get m segment ≠ 0 &&
    (Segment.length.get m segment > u64 (size + sizeofHeader) || Segment.length.get m segment == size)

/-- The loop of `_malloc`: the first segment that fits, `none` at the end of the list. -/
def findSegment (m : Bytes) (size : Nat) : Nat → Nat → Option (Except Panic (Option Nat))
  | 0, _ => none
  | fuel + 1, currentSegment =>
    if Segment.signature.get m currentSegment ≠ HEAP_SIGNATURE then
      some (.error ⟨"Invalid heap segment signature malloc"⟩)
    else if fits m currentSegment size then some (.ok (some currentSegment))
    else if Segment.next.get m currentSegment = 0 then some (.ok none)
    else if Segment.next.get m currentSegment = currentSegment then
      some (.error ⟨"Current segment cycle\n"⟩)
    else findSegment m size fuel (Segment.next.get m currentSegment)

/-- What `_malloc` does with the segment it takes. -/
def takeSegment (s : HeapState) (segment : Nat) : Nat × HeapState :=
  let m := Segment.free.set s.mem segment 0
  let size := u64 (Segment.length.get m segment + sizeofHeader)
  (u64 (segment + sizeofHeader),
    { s with
      mem := m
      cheap := { s.cheap with
        usedSize := u64 (s.cheap.usedSize + size)
        freeSize := sub64 s.cheap.freeSize size } })

/-- Of the record of the heap, `takeSegment` changes the two sizes only. -/
theorem takeSegment_eq {s : HeapState} {segment : Nat} {r : Nat × HeapState}
    (h : takeSegment s segment = r) : r.1 = u64 (segment + 48) ∧
    r.2.mem = Segment.free.set s.mem segment 0 ∧ r.2.pages = s.pages ∧
    r.2.cheap.ready = s.cheap.ready ∧ r.2.cheap.mainSegment = s.cheap.mainSegment ∧
    r.2.cheap.heapEnd = s.cheap.heapEnd ∧ r.2.cheap.lastSegment = s.cheap.lastSegment := by
  subst h
  simp only [takeSegment, sizeofHeader, and_self]

theorem takeSegment_sizes {s : HeapState} {segment : Nat} {r : Nat × HeapState}
    (h : takeSegment s segment = r) : r.2.cheap.totalSize = s.cheap.totalSize ∧
    r.2.cheap.usedSize =
      u64 (s.cheap.usedSize + u64 (Segment.length.get s.mem segment + sizeofHeader)) ∧
    r.2.cheap.freeSize =
      sub64 s.cheap.freeSize (u64 (Segment.length.get s.mem segment + sizeofHeader)) := by
  subst h
  have hlength : Segment.length.get (Segment.free.set s.mem segment 0) segment =
      Segment.length.get s.mem segment := Field.get_set_disjoint _ _ (by decide)
  simp only [takeSegment, hlength, and_self]

/-- What `_malloc` does with the segment that fits. -/
def allocateIn (s : HeapState) (segment size : Nat) : Except Panic (Nat × HeapState) :=
  if Segment.length.get s.mem segment > u64 (size + sizeofHeader) then
    (splitSegment s segment size).map fun r => takeSegment r.2 r.1
  else .ok (takeSegment s segment)

/-- The loop of `expand_heap` over `n` pages. -/
def expandPages (perms : Nat) : Nat → HeapState → Except Panic HeapState
  | 0, s => .ok s
  | n + 1, s =>
    let heapEnd := sub64 s.cheap.heapEnd PAGESIZE
    let s := s.requestCurrentPageAt heapEnd perms
    if heapEnd = 0 then .error ⟨"Failed to expand heap"⟩
    else expandPages perms n { s with cheap := { s.cheap with heapEnd := heapEnd } }

/-- The length of an expansion: the request and its header, in whole pages. -/
def expandLength (length : Nat) : Nat :=
  let length := u64 (length + sizeofHeader)
  if length % PAGESIZE ≠ 0 then u64 (length - length % PAGESIZE + PAGESIZE) else length

/-- `expand_heap`, when the last segment is free: the new one takes its place. -/
def swallowSegment (m : Bytes) (newSegment lastSegment length : Nat) : Bytes :=
  let size := u64 (Segment.length.get m lastSegment + length)
  let m := Segment.length.set m newSegment (sub64 size sizeofHeader)
  let m := Segment.free.set m newSegment 1
  let m := Segment.isStack.set m newSegment 0
  let m := Segment.signature.set m newSegment HEAP_SIGNATURE
  let m := Segment.last.set m newSegment (Segment.last.get m lastSegment)
  let m := Segment.next.set m (Segment.last.get m newSegment) newSegment
  Segment.next.set m newSegment 0

/-- `expand_heap`, otherwise: the new segment follows the last one. -/
def appendSegment (m : Bytes) (newSegment lastSegment length : Nat) : Bytes :=
  let m := Segment.length.set m newSegment (sub64 length sizeofHeader)
  let m := Segment.free.set m newSegment 1
  let m := Segment.isStack.set m newSegment 0
  let m := Segment.signature.set m newSegment HEAP_SIGNATURE
  let m := Segment.last.set m newSegment lastSegment
  let m := Segment.next.set m newSegment 0
  if lastSegment ≠ 0 then Segment.next.set m lastSegment newSegment else m

/-- `expand_heap`. -/
def expandHeap (s : HeapState) (length : Nat) : Except Panic HeapState :=
  let length := expandLength length
  let pages := length / PAGESIZE + (if length % PAGESIZE ≠ 0 then 1 else 0)
  (expandPages (heapPerms (!s.cheap.isKernel)) pages s).map fun s =>
    let newSegment := s.cheap.heapEnd
    let lastSegment := s.cheap.lastSegment
    { s with
      mem :=
        if lastSegment ≠ 0 ∧ Segment.free.get s.mem lastSegment ≠ 0 ∧
            Segment.last.get s.mem lastSegment ≠ 0 then
          swallowSegment s.mem newSegment lastSegment length
        else appendSegment s.mem newSegment lastSegment length
      cheap := { s.cheap with
        lastSegment := newSegment
        totalSize := u64 (s.cheap.totalSize + u64 (length + sizeofHeader))
        freeSize := u64 (s.cheap.freeSize + u64 (length + sizeofHeader)) } }

theorem expandPages_totalSize {perms n : Nat} {s s' : HeapState} (h : expandPages perms n s = .ok s') :
    s'.cheap.totalSize = s.cheap.totalSize := by
  induction n generalizing s with
  | zero =>
    cases h
    rfl
  | succ n ih =>
    obtain ⟨e, he⟩ : ∃ e, sub64 s.cheap.heapEnd PAGESIZE = e := ⟨_, rfl⟩
    unfold expandPages at h
    simp only [he] at h
    split at h
    · cases h
    · have hrest := ih h
      simpa only [HeapState.requestCurrentPageAt] using hrest

theorem expandHeap_totalSize {s s' : HeapState} {length : Nat} (h : expandHeap s length = .ok s') :
    s'.cheap.totalSize = u64 (s.cheap.totalSize + u64 (expandLength length + sizeofHeader)) := by
  unfold expandHeap at h
  extract_lets len pages at h
  have hlen : len = expandLength length := rfl
  clear_value len pages
  cases hexp : expandPages (heapPerms (!s.cheap.isKernel)) pages s with
  | error err => rw [hexp] at h; cases h
  | ok t =>
    rw [hexp] at h
    simp only [Except.map, Except.ok.injEq] at h
    rw [← h, ← hlen, ← expandPages_totalSize hexp]

/-- `_malloc`, for at most `fuel` expansions and `fuel` segments each. -/
def malloc : Nat → HeapState → Nat → Option (Except Panic (Nat × HeapState))
  | 0, _, _ => none
  | fuel + 1, s, size =>
    if s.cheap.ready = false then some (.ok (0, s))
    else if size = 0 then some (.ok (0, s))
    else
      match findSegment s.mem (roundSize size) fuel s.cheap.mainSegment with
      | none => none
      | some (.error e) => some (.error e)
      | some (.ok (some segment)) => some (allocateIn s segment (roundSize size))
      | some (.ok none) =>
        match expandHeap s (roundSize size) with
        | .error e => some (.error e)
        | .ok s => malloc fuel s (roundSize size)

theorem malloc_zero {s : HeapState} {fuel : Nat} {r : Nat × HeapState} (hready : s.cheap.ready = true)
    (h : malloc fuel s 0 = some (.ok r)) : r = (0, s) := by
  cases fuel with
  | zero => cases h
  | succ fuel =>
    rw [malloc, if_neg (by rw [hready]; decide), if_pos rfl] at h
    exact (Except.ok.inj (Option.some.inj h)).symm

/-- `_calloc`. -/
def calloc (fuel : Nat) (s : HeapState) (num size : Nat) : Option (Except Panic (Nat × HeapState)) :=
  if s.cheap.ready = false then some (.ok (0, s))
  else
    (malloc fuel s (u64 (num * size))).map fun r => r.map fun (ptr, s) =>
      (ptr, { s with mem := fill s.mem ptr (u64 (num * size)) 0 })

/-- `MergeThisToNext`. -/
def mergeThisToNext (m : Bytes) (header : Nat) : Bytes :=
  let next := Segment.next.get m header
  let m := Segment.length.set m next
    (u64 (Segment.length.get m next + (Segment.length.get m header + sizeofHeader)))
  let m := Segment.last.set m next (Segment.last.get m header)
  let m := Segment.next.set m (Segment.last.get m header) next
  fill m header sizeofHeader 0

/-- `MergeLastToThis`. -/
def mergeLastToThis (m : Bytes) (header : Nat) : Bytes :=
  let last := Segment.last.get m header
  let m := Segment.length.set m header
    (u64 (Segment.length.get m header + (Segment.length.get m last + sizeofHeader)))
  let m := Segment.last.set m header (Segment.last.get m last)
  let m := Segment.next.set m (Segment.last.get m header) header
  fill m last sizeofHeader 0

/-- `MergeLastAndThisToNext`. -/
def mergeLastAndThisToNext (m : Bytes) (header : Nat) : Bytes :=
  mergeThisToNext (mergeLastToThis m header) header

/-- The merges at the end of `_free`. -/
def mergeAround (m : Bytes) (header : Nat) : Bytes :=
  let next := Segment.next.get m header
  let last := Segment.last.get m header
  if next ≠ 0 ∧ last ≠ 0 ∧ Segment.free.get m next ≠ 0 ∧ Segment.free.get m last ≠ 0 then
    mergeLastAndThisToNext m header
  else if last ≠ 0 ∧ Segment.free.get m last ≠ 0 then mergeLastToThis m header
  else if next ≠ 0 ∧ Segment.free.get m next ≠ 0 then mergeThisToNext m header
  else m

/-- `_free`. -/
def heapFree (s : HeapState) (address : Nat) : Except Panic HeapState :=
  if s.cheap.ready = false then .ok s
  else if address = 0 then .ok s
  else
    let header := sub64 address sizeofHeader
    if Segment.signature.get s.mem header ≠ HEAP_SIGNATURE then .error ⟨"Invalid free, signature"⟩
    else if Segment.free.get s.mem header ≠ 0 then .error ⟨"Invalid free, double free"⟩
    else
      let m := Segment.free.set s.mem header 1
      let size := u64 (Segment.length.get m header + sizeofHeader)
      .ok { s with
        mem := mergeAround m header
        cheap := { s.cheap with
          freeSize := u64 (s.cheap.freeSize + size)
          usedSize := sub64 s.cheap.usedSize size } }

/-- Of the record of the heap, `heapFree` changes the two sizes only. -/
theorem heapFree_ok {s s' : HeapState} {header : Nat} (hready : s.cheap.ready = true)
    (hlt : header + 48 < 18446744073709551616) (h : heapFree s (header + 48) = .ok s') :
    s'.mem = mergeAround (Segment.free.set s.mem header 1) header ∧ s'.pages = s.pages ∧
    s'.cheap.ready = s.cheap.ready ∧ s'.cheap.mainSegment = s.cheap.mainSegment ∧
    s'.cheap.heapEnd = s.cheap.heapEnd ∧ s'.cheap.lastSegment = s.cheap.lastSegment := by
  have hheader : sub64 (header + 48) sizeofHeader = header := by
    rw [sub64_of_le (by unfold sizeofHeader; omega) hlt]
    exact Nat.add_sub_cancel ..
  rw [heapFree, if_neg (by rw [hready]; decide), if_neg (by omega)] at h
  simp only [hheader] at h
  split at h
  · cases h
  split at h
  · cases h
  obtain rfl := Except.ok.inj h
  simp only [and_self]

theorem heapFree_sizes {s s' : HeapState} {header : Nat} (hready : s.cheap.ready = true)
    (hlt : header + 48 < 18446744073709551616) (h : heapFree s (header + 48) = .ok s') :
    s'.cheap.totalSize = s.cheap.totalSize ∧
    s'.cheap.usedSize =
      sub64 s.cheap.usedSize (u64 (Segment.length.get s.mem header + sizeofHeader)) ∧
    s'.cheap.freeSize =
      u64 (s.cheap.freeSize + u64 (Segment.length.get s.mem header + sizeofHeader)) := by
  have hheader : sub64 (header + 48) sizeofHeader = header := by
    rw [sub64_of_le (by unfold sizeofHeader; omega) hlt]
    exact Nat.add_sub_cancel ..
  have hlength : Segment.length.get (Segment.free.set s.mem header 1) header =
      Segment.length.get s.mem header := Field.get_set_disjoint _ _ (by decide)
  rw [heapFree, if_neg (by rw [hready]; decide), if_neg (by omega)] at h
  simp only [hheader, hlength] at h
  split at h
  · cases h
  split at h
  · cases h
  obtain rfl := Except.ok.inj h
  simp only [and_self]

/-- What the calls that take or release a segment leave as it is. -/
structure SameExtent (s s' : HeapState) : Prop where
  pages : s'.pages = s.pages
  lastStack : s'.cheap.lastStack = s.cheap.lastStack
  isKernel : s'.cheap.isKernel = s.cheap.isKernel
  heapEnd : s'.cheap.heapEnd = s.cheap.heapEnd
  mainSegment : s'.cheap.mainSegment = s.cheap.mainSegment

theorem SameExtent.refl (s : HeapState) : SameExtent s s := ⟨rfl, rfl, rfl, rfl, rfl⟩

theorem SameExtent.trans {s s' s'' : HeapState} (h : SameExtent s s') (h' : SameExtent s' s'') :
    SameExtent s s'' :=
  ⟨h'.pages.trans h.pages, h'.lastStack.trans h.lastStack, h'.isKernel.trans h.isKernel,
    h'.heapEnd.trans h.heapEnd, h'.mainSegment.trans h.mainSegment⟩

theorem splitSegment_same {s : HeapState} {segment size : Nat} {r : Nat × HeapState}
    (h : splitSegment s segment size = .ok r) : SameExtent s r.2 := by
  rw [splitSegment] at h
  split at h
  · obtain rfl := Except.ok.inj h
    exact .refl s
  split at h
  · cases h
  · obtain rfl := Except.ok.inj h
    constructor <;> simp only

theorem takeSegment_same {s : HeapState} {segment : Nat} {r : Nat × HeapState}
    (h : takeSegment s segment = r) : SameExtent s r.2 := by
  subst h
  constructor <;> simp only [takeSegment]

theorem allocateIn_same {s : HeapState} {segment size : Nat} {r : Nat × HeapState}
    (h : allocateIn s segment size = .ok r) : SameExtent s r.2 := by
  rw [allocateIn] at h
  split at h
  · cases hs : splitSegment s segment size with
    | error e => rw [hs] at h; cases h
    | ok t =>
      rw [hs] at h
      exact (splitSegment_same hs).trans (takeSegment_same (Except.ok.inj h))
  · exact takeSegment_same (Except.ok.inj h)

theorem heapFree_same {s s' : HeapState} {address : Nat} (h : heapFree s address = .ok s') :
    SameExtent s s' := by
  rw [heapFree] at h
  split at h
  · obtain rfl := Except.ok.inj h
    exact .refl s
  split at h
  · obtain rfl := Except.ok.inj h
    exact .refl s
  obtain ⟨header, hheader⟩ : ∃ x, sub64 address sizeofHeader = x := ⟨_, rfl⟩
  simp only [hheader] at h
  split at h
  · cases h
  split at h
  · cases h
  · obtain rfl := Except.ok.inj h
    constructor <;> simp only

/-- `GetHeapSegmentHeader`. -/
def getHeapSegmentHeader (address : Nat) : Nat := sub64 address sizeofHeader

/-- `_realloc`. -/
def realloc (fuel : Nat) (s : HeapState) (buffer size : Nat) :
    Option (Except Panic (Nat × HeapState)) :=
  if s.cheap.ready = false then some (.ok (0, s))
  else
    (malloc fuel s size).map fun r => r.bind fun (newBuffer, s) =>
      if newBuffer = 0 then .ok (0, s)
      else if buffer = 0 then .ok (newBuffer, s)
      else
        let oldSize := Segment.length.get s.mem (getHeapSegmentHeader buffer)
        let oldSize := if size < oldSize then size else oldSize
        let s := { s with mem := copy s.mem newBuffer s.mem buffer oldSize }
        (heapFree s buffer).map fun s => (newBuffer, s)

/-- `_realloc` is a `_malloc`, a copy of at most `size` bytes into the new block and a `_free`. -/
theorem realloc_eq {s s' : HeapState} {fuel buffer size p : Nat} (hready : s.cheap.ready = true)
    (h : realloc fuel s buffer size = some (.ok (p, s'))) :
    ∃ t, malloc fuel s size = some (.ok (p, t)) ∧
      ((p = 0 ∨ buffer = 0) ∧ s' = t ∨ p ≠ 0 ∧ buffer ≠ 0 ∧ ∃ old ≤ size,
        heapFree { t with mem := copy t.mem p t.mem buffer old } buffer = .ok s') := by
  rw [realloc, if_neg (by rw [hready]; decide)] at h
  cases hm : malloc fuel s size with
  | none => rw [hm] at h; cases h
  | some out =>
    rw [hm] at h
    cases out with
    | error e => cases h
    | ok r =>
      obtain ⟨q, t⟩ := r
      by_cases hq : q = 0
      · simp only [Option.map_some, Except.bind, if_pos hq] at h
        cases h
        exact ⟨s', by rw [hq], .inl ⟨.inl rfl, rfl⟩⟩
      by_cases hbuffer : buffer = 0
      · simp only [Option.map_some, Except.bind, if_neg hq, if_pos hbuffer] at h
        cases h
        exact ⟨s', rfl, .inl ⟨.inr hbuffer, rfl⟩⟩
      simp only [Option.map_some, Except.bind, if_neg hq, if_neg hbuffer] at h
      generalize hold : (if size < Segment.length.get t.mem (getHeapSegmentHeader buffer) then size
        else Segment.length.get t.mem (getHeapSegmentHeader buffer)) = old at h
      have hle : old ≤ size := by
        rw [← hold]
        split <;> omega
      cases hfree : heapFree { t with mem := copy t.mem q t.mem buffer old } buffer with
      | error e => rw [hfree] at h; cases h
      | ok t' =>
        rw [hfree] at h
        cases h
        exact ⟨t, rfl, .inr ⟨hq, hbuffer, old, hle, hfree⟩⟩

/-- The loop of `_stackalloc` over `n` pages. -/
def stackPages (perms : Nat) : Nat → HeapState → Except Panic HeapState
  | 0, s => .ok s
  | n + 1, s =>
    let lastStack := sub64 s.cheap.lastStack PAGESIZE
    let s := s.requestCurrentPageAt lastStack perms
    if lastStack = 0 then .error ⟨"Out of memory"⟩
    else stackPages perms n { s with cheap := { s.cheap with lastStack := lastStack } }

/-- The pages that `_stackalloc` takes for a length. -/
def stackPageCount (length : Nat) : Nat :=
  length / PAGESIZE + (if length % PAGESIZE ≠ 0 then 1 else 0)

theorem length_le_stackPageCount (length : Nat) : length ≤ stackPageCount length * PAGESIZE := by
  unfold stackPageCount PAGESIZE
  split <;> omega

/-- `_stackalloc`. It leaves a page below the stack. -/
def stackalloc (s : HeapState) (length : Nat) : Except Panic (Nat × HeapState) :=
  (stackPages (heapPerms (!s.cheap.isKernel)) (stackPageCount length) s).map fun s =>
    (s.cheap.lastStack,
      { s with cheap := { s.cheap with lastStack := sub64 s.cheap.lastStack PAGESIZE } })

end UnedKernel.Memory
