import UnedKernel.Memory.HeapCoalesced

/-! # The counters of the heap

`totalSize`, `usedSize` and `freeSize` count the bytes of the segments and
their headers. `_initHeap` adds to the counters the record has, and
`expand_heap` counts a header that its length includes already. -/

namespace UnedKernel.Memory
open ByteMem Word Run HeapInv

/-- The pages of the heap, from `heapEnd` up to the end of the main header. -/
def heapPages (s : HeapState) : Nat := (s.cheap.mainSegment + sizeofHeader - s.cheap.heapEnd) / PAGESIZE

/-- The length of a segment and its header. -/
def lengthWithHeader (m : Bytes) (a : Nat) : Nat := Segment.length.get m a + sizeofHeader

/-- The counters are exact. -/
def Accounts (s : HeapState) : Prop :=
  ∃ headers, HeapList s headers ∧
    s.cheap.totalSize = PAGESIZE * heapPages s ∧
    s.cheap.freeSize = ((headers.filter fun a => Segment.free.get s.mem a != 0).map
      (lengthWithHeader s.mem)).sum + sizeofHeader ∧
    s.cheap.usedSize = ((headers.filter fun a => Segment.free.get s.mem a == 0 &&
      a != s.cheap.mainSegment).map (lengthWithHeader s.mem)).sum ∧
    s.cheap.freeSize + s.cheap.usedSize = s.cheap.totalSize

/-- `_malloc` finds a segment for the request in the heap as it is. -/
def Finds (s : HeapState) (size : Nat) : Prop :=
  size = 0 ∨ ∃ fuel segment,
    findSegment s.mem (roundSize size) fuel s.cheap.mainSegment = some (.ok (some segment))

/-- A step that does not expand the heap. -/
abbrev StepInPlace (t t' : HeapConfig) : Prop :=
  HeapStep (fun size => NoOverflow size ∧ Finds t.1 size) t t'

/-! ## The counters of a list of segments -/

section segments

variable {s : HeapState} {segs : List Seg}

theorem Chain.free_sum {m : Bytes} {l n : Nat} (h : Chain m l n segs) :
    (((segs.map Seg.addr).filter fun a => Segment.free.get m a != 0).map (lengthWithHeader m)).sum =
      bytesOf true segs := by
  induction segs generalizing l with
  | nil => rfl
  | cons x rest ih =>
    have hlength : lengthWithHeader m x.addr = x.bytes := by
      rw [lengthWithHeader, length_of_header h.1]
      rfl
    have hfree := free_of_header h.1
    cases hf : x.free <;> simp [hf, hfree, hlength, Seg.header, ih h.2]

theorem Chain.used_sum {m : Bytes} {l n k : Nat} (h : Chain m l n segs)
    (hk : ∀ x ∈ segs, x.addr ≠ k) :
    (((segs.map Seg.addr).filter fun a => Segment.free.get m a == 0 && a != k).map
      (lengthWithHeader m)).sum = bytesOf false segs := by
  induction segs generalizing l with
  | nil => rfl
  | cons x rest ih =>
    have hlength : lengthWithHeader m x.addr = x.bytes := by
      rw [lengthWithHeader, length_of_header h.1]
      rfl
    have hfree := free_of_header h.1
    have hne : x.addr ≠ k := hk x (List.mem_cons_self ..)
    have hrest := ih h.2 fun y hy => hk y (List.mem_cons_of_mem _ hy)
    cases hf : x.free <;> simp [hf, hfree, hlength, hne, Seg.header, hrest]

/-- The counters in terms of the segments. -/
theorem HeapInv.accounts_iff (h : HeapInv s segs) : Accounts s ↔
    s.cheap.totalSize = PAGESIZE * heapPages s ∧ s.cheap.freeSize = bytesOf true segs + 48 ∧
      s.cheap.usedSize + 48 = bytesOf false segs ∧
      s.cheap.freeSize + s.cheap.usedSize = s.cheap.totalSize := by
  obtain ⟨main, rest, rfl⟩ : ∃ main rest, segs = main :: rest :=
    List.exists_cons_of_ne_nil fun hnil => by rw [hnil] at h; cases h.head
  have hmain : main = ⟨s.cheap.mainSegment, 0, false⟩ := Option.some.inj h.head
  have hne : ∀ x ∈ rest, x.addr ≠ s.cheap.mainSegment := by
    intro x hx heq
    have hxmain := h.below.addr_inj (List.mem_cons_of_mem _ hx) (List.mem_cons_self ..)
      (heq.trans (by rw [hmain]))
    exact (List.nodup_cons.mp h.below.nodup).1 (hxmain ▸ hx)
  have hfree := h.chain.free_sum
  have hused : (((((main :: rest).map Seg.addr).filter fun a => Segment.free.get s.mem a == 0 &&
      a != s.cheap.mainSegment)).map (lengthWithHeader s.mem)).sum + 48 =
      bytesOf false (main :: rest) := by
    have hsum := h.chain.2.used_sum hne
    simp [hmain, Seg.bytes, hsum]
    omega
  constructor
  · rintro ⟨headers, hlist, htotal, hfreeSize, husedSize, hsum⟩
    rw [hlist.unique h.heapList] at hfreeSize husedSize
    exact ⟨htotal, hfreeSize.trans (by rw [hfree]), by rw [husedSize, hused], hsum⟩
  · rintro ⟨htotal, hfreeSize, husedSize, hsum⟩
    exact ⟨_, h.heapList, htotal, by rw [hfree, hfreeSize], by omega, hsum⟩

theorem HeapInv.main_bytes (h : HeapInv s segs) : 48 ≤ bytesOf false segs := by
  obtain ⟨main, rest, rfl⟩ : ∃ main rest, segs = main :: rest :=
    List.exists_cons_of_ne_nil fun hnil => by rw [hnil] at h; cases h.head
  have hmain : main = ⟨s.cheap.mainSegment, 0, false⟩ := Option.some.inj h.head
  simp [hmain, Seg.bytes]

end segments

/-! ## What the calls do to the counters -/

/-- The counters of a heap that began with one page from `bottom`: exact while it has not grown,
and `48 * k` bytes off after `k` expansions. -/
structure Tallied (bottom : Nat) (s : HeapState) (segs : List Seg) : Prop where
  aligned : bottom % 4096 = 0
  heapEnd : s.cheap.heapEnd ≤ bottom
  mainSegment : s.cheap.mainSegment + 48 = bottom + 4096
  totalSize : ∃ k, 4096 * k ≤ bottom - s.cheap.heapEnd ∧ (k = 0 → s.cheap.heapEnd = bottom) ∧
    s.cheap.totalSize = u64 (bottom + 4096 - s.cheap.heapEnd + 48 * k)
  freeSize : s.cheap.heapEnd = bottom → s.cheap.freeSize = bytesOf true segs + 48
  usedSize : s.cheap.heapEnd = bottom → s.cheap.usedSize + 48 = bytesOf false segs
  page : s.cheap.heapEnd = bottom → bytesOf true segs + bytesOf false segs = 4096

section steps

variable {bottom : Nat} {s s' : HeapState} {segs segs' : List Seg}

theorem Tallied.expanded {len : Nat} (ht : Tallied bottom s segs)
    (h : Expanded s s' segs segs' len) : Tallied bottom s' segs' := by
  have hlen := h.length
  have hend := h.heapEnd
  have hle := ht.heapEnd
  obtain ⟨k, hk, -, htotal⟩ := ht.totalSize
  refine ⟨ht.aligned, by omega, by rw [h.mainSegment]; exact ht.mainSegment, ⟨k + 1, by omega, by omega, ?_⟩,
    by omega, by omega, by omega⟩
  rw [h.totalSize, htotal]
  unfold u64
  omega

theorem Tallied.served {p size : Nat} {y : Seg} (ht : Tallied bottom s segs)
    (hinv : HeapInv s segs) (h : Served s (p, s') segs segs' size y) : Tallied bottom s' segs' := by
  obtain ⟨hfree, hused⟩ := h.takes.bytes h.used
  have hmain := hinv.main_bytes
  have hend : s'.cheap.heapEnd = s.cheap.heapEnd := h.heapEnd
  have htotal : s'.cheap.totalSize = s.cheap.totalSize := h.totalSize
  refine ⟨ht.aligned, by rw [hend]; exact ht.heapEnd, (congrArg (· + 48) h.mainSegment).trans ht.mainSegment,
    by rw [hend, htotal]; exact ht.totalSize, fun hbottom => ?_, fun hbottom => ?_, fun hbottom => ?_⟩
  all_goals
    rw [hend] at hbottom
    have hfreeSize := ht.freeSize hbottom
    have husedSize := ht.usedSize hbottom
    have hpage := ht.page hbottom
  · have hnew : s'.cheap.freeSize = sub64 s.cheap.freeSize (u64 y.bytes) := h.freeSize
    rw [hnew, u64_of_lt (by omega), sub64_of_le (by omega) (by omega)]
    omega
  · have hnew : s'.cheap.usedSize = u64 (s.cheap.usedSize + u64 y.bytes) := h.usedSize
    rw [hnew, u64_of_lt (x := y.bytes) (by omega), u64_of_lt (by omega)]
    omega
  · omega

theorem Tallied.freed {x : Seg} (ht : Tallied bottom s segs) (hf : x.free = false)
    (h : Freed s s' segs segs' x) : Tallied bottom s' segs' := by
  obtain ⟨hfree, hused⟩ := h.releases.bytes hf
  have hmain := h.inv.main_bytes
  refine ⟨ht.aligned, by rw [h.heapEnd]; exact ht.heapEnd, by rw [h.mainSegment]; exact ht.mainSegment,
    by rw [h.heapEnd, h.totalSize]; exact ht.totalSize,
    fun hbottom => ?_, fun hbottom => ?_, fun hbottom => ?_⟩
  all_goals
    rw [h.heapEnd] at hbottom
    have hfreeSize := ht.freeSize hbottom
    have husedSize := ht.usedSize hbottom
    have hpage := ht.page hbottom
  · rw [h.freeSize, u64_of_lt (x := x.bytes) (by omega), u64_of_lt (by omega)]
    omega
  · rw [h.usedSize, u64_of_lt (by omega), sub64_of_le (by omega) (by omega)]
    omega
  · omega

theorem kept_tallied : Kept fun s segs _ => Tallied bottom s segs where
  expanded := fun _ ht h => ht.expanded h
  served := fun hinv ht h => ht.served hinv h
  freed := fun _ ht _ _ _ hf _ h => ht.freed hf h
  written := fun ht =>
    ⟨ht.aligned, ht.heapEnd, ht.mainSegment, ht.totalSize, ht.freeSize, ht.usedSize, ht.page⟩

theorem Tallied.pages (ht : Tallied bottom s segs) (h : HeapInv s segs) :
    PAGESIZE * heapPages s = bottom + 4096 - s.cheap.heapEnd := by
  have hmain := ht.mainSegment
  have haligned := ht.aligned
  have hpage := h.page
  have hmod : (bottom + 4096 - s.cheap.heapEnd) % 4096 = 0 := by omega
  rw [heapPages, sizeofHeader, hmain]
  exact Nat.mul_div_cancel' (Nat.dvd_of_mod_eq_zero hmod)

/-- A multiple of 48 that is too small to wrap around shows in a sum. -/
theorem u64_add_eq_iff {range k : Nat} (hrange : range < 18446744073709551616) (hk : 4096 * k ≤ range) :
    u64 (range + 48 * k) = range ↔ k = 0 := by
  constructor
  · intro h
    by_cases hlt : range + 48 * k < 18446744073709551616
    · rw [u64_of_lt hlt] at h
      omega
    · have hwrap : u64 (range + 48 * k) = range + 48 * k - 18446744073709551616 := by
        rw [u64, Nat.mod_eq_sub_mod (by omega), Nat.mod_eq_of_lt (by omega)]
      omega
  · intro h
    rw [h]
    exact u64_of_lt hrange

/-- The counters are exact as long as the heap has not grown. -/
theorem Tallied.accounts_iff (ht : Tallied bottom s segs) (h : HeapInv s segs) :
    Accounts s ↔ s.cheap.heapEnd = bottom := by
  obtain ⟨k, hk, hzero, htotal⟩ := ht.totalSize
  have htop := h.top
  have hpos := h.pos
  have hmain := ht.mainSegment
  have hend := ht.heapEnd
  rw [h.accounts_iff, ht.pages h, htotal, u64_add_eq_iff (by omega) (by omega)]
  constructor
  · intro ⟨hk0, _⟩
    exact hzero hk0
  · intro hbottom
    have hfreeSize := ht.freeSize hbottom
    have husedSize := ht.usedSize hbottom
    have hbytes := ht.page hbottom
    obtain rfl : k = 0 := by omega
    refine ⟨rfl, hfreeSize, husedSize, ?_⟩
    rw [Nat.mul_zero, Nat.add_zero, u64_of_lt (by omega)]
    omega

end steps

/-! ## Steps that expand the heap -/

section steps

variable {s s' : HeapState} {segs : List Seg} {fuel size p : Nat}

theorem Expands.heapEnd_le {t t' : HeapState × List Seg} (h : Expands t t') :
    t'.1.cheap.heapEnd ≤ t.1.cheap.heapEnd := by
  induction h with
  | refl => exact Nat.le_refl _
  | tail _ hstep ih =>
    obtain ⟨len, hexp⟩ := hstep
    have hend := hexp.heapEnd
    omega

theorem HeapInv.malloc_heapEnd_le (h : HeapInv s segs) (hs : NoOverflow size)
    (hm : Memory.malloc fuel s size = some (.ok (p, s'))) : s'.cheap.heapEnd ≤ s.cheap.heapEnd := by
  by_cases hsize : size = 0
  · subst hsize
    obtain ⟨-, rfl⟩ := Prod.mk.inj (malloc_zero h.ready hm)
    exact Nat.le_refl _
  · obtain ⟨s₁, segs₁, segs', y, hexp, -, hserved⟩ := h.serves hs (by omega) hm
    have hle := Expands.heapEnd_le hexp
    have heq : s'.cheap.heapEnd = s₁.cheap.heapEnd := hserved.heapEnd
    simp only at hle
    omega

/-- `_malloc` needs no expansion when a segment of the list fits. -/
theorem HeapInv.finds_iff (h : HeapInv s segs) (hs : NoOverflow size) :
    Finds s size ↔ size = 0 ∨ ∃ y ∈ segs, y.Fits (roundSize size) := by
  have hs' := (roundSize_spec hs).2.2
  have hwrap : roundSize size + 48 < 18446744073709551616 := by
    unfold NoOverflow at hs'
    omega
  refine or_congr_right ⟨fun ⟨fuel, segment, hfind⟩ => ?_, fun ⟨y, hy, hyfit⟩ => ?_⟩
  · rcases h.found hwrap hfind with ⟨y, hy, hyfit, -⟩ | ⟨-, hnone⟩
    · exact ⟨y, hy, hyfit⟩
    · cases hnone
  · rcases h.finds hwrap (Nat.le_refl segs.length) with ⟨z, -, -, hfind⟩ | ⟨hnone, -⟩
    · exact ⟨segs.length, z.addr, hfind⟩
    · exact absurd hyfit (hnone y hy)

/-- `_malloc` leaves the end of the heap where it is when it finds a segment. -/
theorem HeapInv.malloc_heapEnd_iff (h : HeapInv s segs) (hs : NoOverflow size)
    (hm : Memory.malloc fuel s size = some (.ok (p, s'))) :
    s'.cheap.heapEnd = s.cheap.heapEnd ↔ Finds s size := by
  rw [h.finds_iff hs]
  by_cases hsize : size = 0
  · subst hsize
    obtain ⟨-, rfl⟩ := Prod.mk.inj (malloc_zero h.ready hm)
    exact ⟨fun _ => .inl rfl, fun _ => rfl⟩
  obtain ⟨hround, -, hs'⟩ := roundSize_spec hs
  rcases h.malloc_cases hs (Nat.pos_of_ne_zero hsize) hm with
    ⟨x, hx, hfit, hal⟩ | ⟨k, t, -, hnone, hexp, hrest⟩
  · obtain ⟨segs', y, hserved⟩ := h.allocate hx hfit hround hal
    exact ⟨fun _ => .inr ⟨x, hx, hfit⟩, fun _ => hserved.heapEnd⟩
  · obtain ⟨segs₁, hexpanded⟩ := h.expand hs' hround hexp
    have hless := hexpanded.inv.malloc_heapEnd_le hs' hrest
    have hlen := hexpanded.length
    have hend := hexpanded.heapEnd
    constructor
    · intro heq
      omega
    · intro hfinds
      obtain ⟨y, hy, hyfit⟩ := hfinds.resolve_left hsize
      exact absurd hyfit (hnone y hy)

/-- After its `_malloc`, `_realloc` leaves the end of the heap where it is. -/
theorem realloc_heapEnd {buffer : Nat} (hready : s.cheap.ready = true)
    (h : realloc fuel s buffer size = some (.ok (p, s'))) :
    ∃ t, Memory.malloc fuel s size = some (.ok (p, t)) ∧ s'.cheap.heapEnd = t.cheap.heapEnd := by
  obtain ⟨t, hm, ⟨-, rfl⟩ | ⟨-, -, old, -, hfree⟩⟩ := realloc_eq hready h
  · exact ⟨s', hm, rfl⟩
  · have hend := (heapFree_same hfree).heapEnd
    exact ⟨t, hm, hend⟩

end steps

theorem StepInPlace.heapEnd {t t' : HeapConfig} {segs : List Seg} (h : StepInPlace t t')
    (hinv : HeapInv t.1 segs) : t'.1.cheap.heapEnd = t.1.cheap.heapEnd := by
  cases h with
  | malloc hok hm => exact (hinv.malloc_heapEnd_iff hok.1 hm).mpr hok.2
  | free _ hf => exact (heapFree_same hf).heapEnd
  | realloc _ hok hr =>
    obtain ⟨t, hm, hend⟩ := realloc_heapEnd hinv.ready hr
    exact hend.trans ((hinv.malloc_heapEnd_iff hok.1 hm).mpr hok.2)
  | reallocNull hok hr =>
    exact (hinv.malloc_heapEnd_iff hok.1 (realloc_null hinv.ready hr)).mpr hok.2
  | write _ => rfl

theorem HeapStep.heapEnd {t t' : HeapConfig} {segs : List Seg} (h : HeapStep NoOverflow t t')
    (hinv : HeapInv t.1 segs) : t'.1.cheap.heapEnd ≤ t.1.cheap.heapEnd ∧
      (t'.1.cheap.heapEnd = t.1.cheap.heapEnd → StepInPlace t t') := by
  cases h with
  | malloc hok hm =>
    refine ⟨hinv.malloc_heapEnd_le hok hm, fun heq => ?_⟩
    exact .malloc ⟨hok, (hinv.malloc_heapEnd_iff hok hm).mp heq⟩ hm
  | free hb hf => exact ⟨Nat.le_of_eq (heapFree_same hf).heapEnd, fun _ => .free hb hf⟩
  | realloc hb hok hr =>
    obtain ⟨t, hm, hend⟩ := realloc_heapEnd hinv.ready hr
    refine ⟨Nat.le_trans (Nat.le_of_eq hend) (hinv.malloc_heapEnd_le hok hm), fun heq => ?_⟩
    exact .realloc hb ⟨hok, (hinv.malloc_heapEnd_iff hok hm).mp (hend.symm.trans heq)⟩ hr
  | reallocNull hok hr =>
    have hm := realloc_null hinv.ready hr
    refine ⟨hinv.malloc_heapEnd_le hok hm, fun heq => ?_⟩
    exact .reallocNull ⟨hok, (hinv.malloc_heapEnd_iff hok hm).mp heq⟩ hr
  | write hw => exact ⟨Nat.le_refl _, fun _ => .write hw⟩

/-! ## Runs -/

/-- The heap ends where it began at every state of a run whose steps do not expand it, and at no
others. -/
theorem heapEnd_run {P : HeapState → List Seg → List (Nat × Nat) → Prop} (hP : Kept P)
    {t : HeapConfig} {ts : List HeapConfig} (ht : HeapHoldsWith P t)
    (hrun : List.IsChain (HeapStep NoOverflow) (t :: ts)) :
    (∀ u ∈ t :: ts, u.1.cheap.heapEnd = t.1.cheap.heapEnd) ↔ List.IsChain StepInPlace (t :: ts) := by
  induction ts generalizing t with
  | nil => simp
  | cons t' ts ih =>
    obtain ⟨hstep, hrest⟩ := List.isChain_cons_cons.mp hrun
    obtain ⟨segs, hinv, -⟩ := id ht
    have ht' := ht.step hP t t' hstep
    rw [List.isChain_cons_cons, ← ih ht' hrest]
    constructor
    · intro hall
      have heq := hall t' (by simp)
      exact ⟨(hstep.heapEnd hinv).2 heq,
        fun u hu => (hall u (List.mem_cons_of_mem _ hu)).trans heq.symm⟩
    · intro ⟨hplace, hall⟩ u hu
      have heq := hplace.heapEnd hinv
      rcases List.mem_cons.mp hu with rfl | hu
      · rfl
      · exact (hall u hu).trans heq

theorem holds_run {P : HeapState → List Seg → List (Nat × Nat) → Prop} (hP : Kept P)
    {t u : HeapConfig} {ts : List HeapConfig} (ht : HeapHoldsWith P t)
    (hrun : List.IsChain (HeapStep NoOverflow) (t :: ts)) (hu : u ∈ t :: ts) : HeapHoldsWith P u := by
  induction ts generalizing t with
  | nil =>
    rw [List.mem_singleton.mp hu]
    exact ht
  | cons t' ts ih =>
    obtain ⟨hstep, hrest⟩ := List.isChain_cons_cons.mp hrun
    rcases List.mem_cons.mp hu with rfl | hu
    · exact ht
    · exact ih (ht.step hP t t' hstep) hrest hu

/-- The counters of the record are zero. -/
def Heap.NoCounts (h : Heap) : Prop := h.totalSize = 0 ∧ h.usedSize = 0 ∧ h.freeSize = 0

theorem initHeap_counters {s₀ s : HeapState} {heapEnd stackEnd : Nat} {user : Bool}
    (h : initHeap s₀ heapEnd stackEnd user = s) :
    s.cheap.totalSize = u64 (s₀.cheap.totalSize + 4096) ∧ s.cheap.usedSize = s₀.cheap.usedSize ∧
      s.cheap.freeSize = u64 (s₀.cheap.freeSize + 4096) := by
  obtain ⟨e, he⟩ : ∃ e, sub64 heapEnd PAGESIZE = e := ⟨_, rfl⟩
  unfold initHeap at h
  simp only [he, HeapState.requestCurrentPageAt] at h
  rw [← h]
  exact ⟨rfl, rfl, rfl⟩

/-- `_initHeap` makes the counters exact when it finds zeros. -/
theorem initHeap_accounts_iff {s₀ s : HeapState} {heapEnd stackEnd : Nat} {user : Bool}
    (hpage : heapEnd % PAGESIZE = 0) (hlow : PAGESIZE < heapEnd)
    (hhigh : heapEnd < 18446744073709551616) (htotal : s₀.cheap.totalSize < 18446744073709551616)
    (hfree : s₀.cheap.freeSize < 18446744073709551616)
    (h : initHeap s₀ heapEnd stackEnd user = s) : Accounts s ↔ s₀.cheap.NoCounts := by
  have hinv := initHeap_inv hpage hlow hhigh h
  obtain ⟨bottom, hbottom⟩ : ∃ bottom, heapEnd - 4096 = bottom := ⟨_, rfl⟩
  obtain ⟨main, hmain⟩ : ∃ main, heapEnd - 48 = main := ⟨_, rfl⟩
  obtain ⟨htotalSize, husedSize, hfreeSize⟩ := initHeap_counters h
  clear h
  unfold PAGESIZE at hlow
  rw [hbottom, hmain] at hinv
  have hhead : main = s.cheap.mainSegment := congrArg Seg.addr (Option.some.inj hinv.head)
  have hend : bottom = s.cheap.heapEnd := hinv.bottom 0
  have hpages : heapPages s = 1 := by
    rw [heapPages, ← hhead, ← hend]
    unfold sizeofHeader PAGESIZE
    omega
  rw [hinv.accounts_iff, htotalSize, husedSize, hfreeSize, hpages, Heap.NoCounts]
  simp only [bytesOf_cons, bytesOf_nil, Seg.bytes, PAGESIZE]
  unfold u64
  simp
  omega

theorem initHeap_tallied {s₀ s : HeapState} {heapEnd stackEnd : Nat} {user : Bool}
    (hpage : heapEnd % PAGESIZE = 0) (hlow : PAGESIZE < heapEnd)
    (hhigh : heapEnd < 18446744073709551616) (hzero : s₀.cheap.NoCounts)
    (h : initHeap s₀ heapEnd stackEnd user = s) :
    HeapHoldsWith (fun u segs _ => Tallied s.cheap.heapEnd u segs) (s, []) := by
  have hinv := initHeap_inv hpage hlow hhigh h
  obtain ⟨bottom, hbottom⟩ : ∃ bottom, heapEnd - 4096 = bottom := ⟨_, rfl⟩
  obtain ⟨main, hmain⟩ : ∃ main, heapEnd - 48 = main := ⟨_, rfl⟩
  obtain ⟨htotalSize, husedSize, hfreeSize⟩ := initHeap_counters h
  obtain ⟨ht, hu, hf⟩ := hzero
  rw [ht] at htotalSize
  rw [hu] at husedSize
  rw [hf] at hfreeSize
  clear h
  unfold PAGESIZE at hlow
  rw [hbottom, hmain] at hinv
  have hhead : main = s.cheap.mainSegment := congrArg Seg.addr (Option.some.inj hinv.head)
  refine ⟨_, hinv, fun b hb => (nomatch hb), List.nodup_nil, hinv.page, Nat.le_refl _, ?_,
    ⟨0, by omega, fun _ => rfl, ?_⟩, fun _ => ?_, fun _ => ?_, fun _ => ?_⟩
  · have hend : bottom = s.cheap.heapEnd := hinv.bottom 0
    rw [← hhead, ← hend]
    omega
  · rw [htotalSize, Nat.mul_zero, Nat.add_zero, Nat.add_sub_cancel_left]
  · rw [hfreeSize, u64_of_lt (by omega)]
    rfl
  · rw [husedSize]
    rfl
  · rfl

/-- The counters are exact throughout a run exactly when `_initHeap` found zeros in the record and
no request expands the heap. -/
theorem heap_accounts_iff {s₀ : HeapState} {heapEnd stackEnd : Nat} {user : Bool}
    {ts : List HeapConfig} (hpage : heapEnd % PAGESIZE = 0) (hlow : PAGESIZE < heapEnd)
    (hhigh : heapEnd < 18446744073709551616) (htotal : s₀.cheap.totalSize < 18446744073709551616)
    (hfree : s₀.cheap.freeSize < 18446744073709551616)
    (hrun : List.IsChain (HeapStep NoOverflow) ((initHeap s₀ heapEnd stackEnd user, []) :: ts)) :
    (∀ t ∈ (initHeap s₀ heapEnd stackEnd user, []) :: ts, Accounts t.1) ↔
      s₀.cheap.NoCounts ∧
        List.IsChain StepInPlace ((initHeap s₀ heapEnd stackEnd user, []) :: ts) := by
  obtain ⟨s, hs⟩ : ∃ s, initHeap s₀ heapEnd stackEnd user = s := ⟨_, rfl⟩
  rw [hs] at hrun ⊢
  have hinit := initHeap_accounts_iff hpage hlow hhigh htotal hfree hs
  -- with the counters at zero, a state of the run is exact when the heap ends where it began
  have hzero (hz : s₀.cheap.NoCounts) : (∀ t ∈ (s, []) :: ts, Accounts t.1) ↔
      List.IsChain StepInPlace ((s, []) :: ts) := by
    have hholds := initHeap_tallied hpage hlow hhigh hz hs
    rw [← heapEnd_run kept_tallied hholds hrun]
    refine forall₂_congr fun t ht => ?_
    obtain ⟨segs, hinv, -, -, htallied⟩ := holds_run kept_tallied hholds hrun ht
    exact htallied.accounts_iff hinv
  constructor
  · intro hall
    have hz := hinit.mp (hall (s, []) (List.mem_cons_self ..))
    exact ⟨hz, (hzero hz).mp hall⟩
  · intro ⟨hz, hplace⟩
    exact (hzero hz).mpr hplace

/-- 100 bytes fit in the first page of the kernel heap. -/
theorem kernelHeap_finds : Finds kernelHeap 100 := by
  have hview : ((findSegment kernelHeap.mem (roundSize 100) 4 kernelHeap.cheap.mainSegment).bind
      fun r => r.toOption.bind id) = some 0xffffffff6fffe000 := by
    decide +kernel
  simp only [Option.bind_eq_some_iff, id_eq] at hview
  obtain ⟨r, hr, found, hfound, hsegment⟩ := hview
  cases r with
  | error e => cases hfound
  | ok x =>
    obtain rfl := Option.some.inj hfound
    exact .inr ⟨4, _, hr.trans (by rw [hsegment])⟩

theorem heap_accounts_kernelHeap : ∃ p s, malloc 4 kernelHeap 100 = some (.ok (p, s)) ∧ Accounts s := by
  obtain ⟨p, s, -, hm, hp, -⟩ := kernelHeap_malloc_free
  have hsize : NoOverflow 100 := by unfold NoOverflow; decide
  have hstep : StepInPlace (kernelHeap, []) (s, _) := .malloc ⟨hsize, kernelHeap_finds⟩ hm
  have hcall : HeapStep NoOverflow (kernelHeap, []) (s, _) := .malloc hsize hm
  have hall := (heap_accounts_iff (by decide) (by decide) (by decide) (by decide) (by decide)
    (List.isChain_pair.mpr hcall)).mpr ⟨⟨rfl, rfl, rfl⟩, List.isChain_pair.mpr hstep⟩
  exact ⟨p, s, hm, hall (s, _) (List.mem_cons_of_mem _ (List.mem_singleton_self _))⟩

/-- 5000 bytes need two more pages; the heap counts one header more than they hold. -/
theorem kernelHeap_expands : ∃ p s, malloc 4 kernelHeap 5000 = some (.ok (p, s)) ∧
    s.cheap.totalSize = 12336 ∧ heapPages s = 3 := by
  have hview : ((malloc 4 kernelHeap 5000).bind fun r => r.toOption.map fun x =>
      (x.2.cheap.totalSize, heapPages x.2)) = some (12336, 3) := by
    decide +kernel
  simp only [Option.bind_eq_some_iff, Option.map_eq_some_iff, Prod.mk.injEq] at hview
  obtain ⟨r, hr, ⟨p, s⟩, hx, htotal, hpages⟩ := hview
  cases r with
  | error e => cases hx
  | ok x =>
    obtain rfl := Option.some.inj hx
    exact ⟨p, s, hr, htotal, hpages⟩

theorem heap_not_accounts : ¬ ∀ (s₀ : HeapState) (heapEnd stackEnd : Nat) (user : Bool)
    (t : HeapConfig), heapEnd % PAGESIZE = 0 → PAGESIZE < heapEnd → heapEnd < 18446744073709551616 →
    Reaches (HeapStep NoOverflow) (initHeap s₀ heapEnd stackEnd user, []) t → Accounts t.1 := by
  intro hall
  obtain ⟨p, s, hm, htotal, hpages⟩ := kernelHeap_expands
  have hcall : HeapStep NoOverflow (kernelHeap, []) (s, _) :=
    .malloc (by unfold NoOverflow; decide) hm
  obtain ⟨headers, -, hsize, -⟩ := hall _ _ _ _ _ (by decide) (by decide) (by decide) (.single hcall)
  simp only [htotal, hpages] at hsize
  exact absurd hsize (by decide)

end UnedKernel.Memory
