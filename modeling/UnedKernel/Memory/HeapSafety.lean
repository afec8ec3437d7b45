import UnedKernel.Lib.Run
import UnedKernel.Memory.HeapHeaders
import UnedKernel.Memory.HeapShape

/-! # Safety of the heap

The invariant of the heap is that its memory holds a list of segments, from
`mainSegment` down to `heapEnd`. Each operation replaces a few segments of the
list; the segments in use stay. -/

namespace UnedKernel.Memory
open ByteMem Word Run

/-- The memory of the heap holds the segments. -/
structure HeapInv (s : HeapState) (segs : List Seg) : Prop where
  ready : s.cheap.ready = true
  head : segs.head? = some ⟨s.cheap.mainSegment, 0, false⟩
  bottom : ∀ k, lastAddr k segs = s.cheap.heapEnd
  lastSegment : s.cheap.lastSegment = s.cheap.heapEnd
  grown : s.cheap.heapEnd < s.cheap.mainSegment
  chain : Chain s.mem 0 0 segs
  below : Below segs
  aligned : ∀ x ∈ segs, x.addr % 16 = 0 ∧ x.length % 16 = 0
  top : s.cheap.mainSegment + 48 ≤ 18446744073709551616
  page : s.cheap.heapEnd % 4096 = 0
  pos : 0 < s.cheap.heapEnd
  pages : ∀ a, a % 4096 = 0 → s.cheap.heapEnd ≤ a → a < s.cheap.mainSegment + 48 →
    ∃ perms, (a, perms) ∈ s.pages

namespace HeapInv

variable {s s' : HeapState} {segs : List Seg}

theorem le_addr (h : HeapInv s segs) {x : Seg} (hx : x ∈ segs) : s.cheap.heapEnd ≤ x.addr := by
  rw [← h.bottom 0]
  exact h.below.last_le hx 0

theorem top_le (h : HeapInv s segs) {x : Seg} (hx : x ∈ segs) :
    x.top ≤ s.cheap.mainSegment + 48 :=
  h.below.top_le h.head hx

/-- A segment that is free, or not empty, has one before it. -/
theorem before (h : HeapInv s segs) {x : Seg} (hx : x ∈ segs)
    (hne : x.free = true ∨ 0 < x.length) : ∃ pre p post, segs = pre ++ p :: x :: post :=
  exists_before h.head hx (by
    rintro rfl
    rcases hne with h | h
    · cases h
    · exact Nat.lt_irrefl 0 h)

/-- The segments below `p` are replaced, and the heap may grow. -/
theorem replace {pre rest rest' : List Seg} {p : Seg} (h : HeapInv s (pre ++ p :: rest))
    (hbelow : Below rest') (hup : ∀ x ∈ rest', x.top ≤ p.addr)
    (hal : ∀ x ∈ rest', x.addr % 16 = 0 ∧ x.length % 16 = 0)
    (hsame : ∀ x ∈ pre, header s'.mem x.addr = header s.mem x.addr)
    (hchain : Chain s'.mem (lastAddr 0 pre) 0 (p :: rest'))
    (hready : s'.cheap.ready = s.cheap.ready)
    (hmain : s'.cheap.mainSegment = s.cheap.mainSegment)
    (hbottom : lastAddr p.addr rest' = s'.cheap.heapEnd)
    (hls : s'.cheap.lastSegment = s'.cheap.heapEnd) (hend : s'.cheap.heapEnd ≤ s.cheap.heapEnd)
    (hpage : s'.cheap.heapEnd % 4096 = 0) (hpos : 0 < s'.cheap.heapEnd)
    (hold : ∀ q ∈ s.pages, q ∈ s'.pages)
    (hnew : ∀ a, a % 4096 = 0 → s'.cheap.heapEnd ≤ a → a < s.cheap.heapEnd →
      ∃ perms, (a, perms) ∈ s'.pages) : HeapInv s' (pre ++ p :: rest') := by
  have hb := h.below
  simp only [Below, List.pairwise_append, List.pairwise_cons, List.mem_cons] at hb
  obtain ⟨hpre, ⟨_, _⟩, hpp⟩ := hb
  obtain ⟨hcpre, _⟩ := chain_append.mp h.chain
  have hgrown := h.grown
  have hpp' : ∀ y ∈ pre, p.top ≤ y.addr := fun y hy => hpp y hy p (.inl rfl)
  refine ⟨hready.trans h.ready, ?_, fun k => ?_, hls, by omega, ?_, ?_, fun x hx => ?_,
    by rw [hmain]; exact h.top, hpage, hpos, fun a h1 h2 h3 => ?_⟩
  · rw [hmain, ← h.head]
    cases pre <;> rfl
  · rw [lastAddr_append]
    exact hbottom
  · exact chain_append.mpr ⟨hcpre.congr hsame, hchain⟩
  · simp only [Below, List.pairwise_append, List.pairwise_cons, List.mem_cons]
    refine ⟨hpre, ⟨hup, hbelow⟩, fun y hy x hx => ?_⟩
    rcases hx with rfl | hx
    · exact hpp' y hy
    · have := hpp' y hy
      have := hup x hx
      unfold Seg.top at *
      omega
  · simp only [List.mem_append, List.mem_cons] at hx
    rcases hx with hx | rfl | hx
    · exact h.aligned x (by simp [hx])
    · exact h.aligned x (by simp)
    · exact hal x hx
  · by_cases ha : a < s.cheap.heapEnd
    · exact hnew a h1 h2 ha
    · obtain ⟨perms, hp⟩ := h.pages a h1 (by omega) (by rw [← hmain]; exact h3)
      exact ⟨perms, hold _ hp⟩

/-- The segments after `p` are replaced by others between the same addresses. -/
theorem splice {pre mid mid' post : List Seg} {p : Seg}
    (h : HeapInv s (pre ++ (p :: mid) ++ post))
    (hlast : ∀ k, lastAddr k mid' = lastAddr k mid) (hmid : Below mid')
    (hin : ∀ x ∈ mid', (∃ y ∈ mid, x.top ≤ y.top) ∧ ∃ y ∈ mid, y.addr ≤ x.addr)
    (hal : ∀ x ∈ mid', x.addr % 16 = 0 ∧ x.length % 16 = 0)
    (hsame : ∀ x ∈ pre ++ post, header s'.mem x.addr = header s.mem x.addr)
    (hchain : Chain s'.mem (lastAddr 0 pre) (firstAddr 0 post) (p :: mid'))
    (hpages : s'.pages = s.pages) (hready : s'.cheap.ready = s.cheap.ready)
    (hmain : s'.cheap.mainSegment = s.cheap.mainSegment)
    (hend : s'.cheap.heapEnd = s.cheap.heapEnd)
    (hls : s'.cheap.lastSegment = s.cheap.lastSegment) :
    HeapInv s' (pre ++ (p :: mid') ++ post) := by
  have h' : HeapInv s (pre ++ p :: (mid ++ post)) := by simpa using h
  have hb := h'.below
  simp only [Below, List.pairwise_append, List.pairwise_cons, List.mem_append] at hb
  obtain ⟨_, ⟨hup, _, hpost, hdown⟩, _⟩ := hb
  obtain ⟨_, hrest⟩ := chain_append.mp h.chain
  have hgoal : HeapInv s' (pre ++ p :: (mid' ++ post)) := by
    refine h'.replace ?_ (fun x hx => ?_) (fun x hx => ?_)
      (fun x hx => hsame x (List.mem_append_left _ hx)) ?_ hready hmain ?_
      (by rw [hls, hend]; exact h.lastSegment) (by rw [hend]) (by rw [hend]; exact h.page)
      (by rw [hend]; exact h.pos) (by rw [hpages]; exact fun q hq => hq) fun a _ h1 h2 => by omega
    · refine List.pairwise_append.mpr ⟨hmid, hpost, fun x hx z hz => ?_⟩
      obtain ⟨y, hy, hle⟩ := (hin x hx).2
      exact Nat.le_trans (hdown y hy z hz) hle
    · rcases List.mem_append.mp hx with hx | hx
      · obtain ⟨y, hy, hle⟩ := (hin x hx).1
        exact Nat.le_trans hle (hup y (.inl hy))
      · exact hup x (.inr hx)
    · rcases List.mem_append.mp hx with hx | hx
      · exact hal x hx
      · exact h.aligned x (by simp [hx])
    · rw [← List.cons_append]
      refine chain_append.mpr ⟨hchain, ?_⟩
      rw [lastAddr_cons, hlast]
      simp only [lastAddr_append, lastAddr_cons] at hrest
      exact hrest.congr fun x hx => hsame x (List.mem_append_right _ hx)
    · rw [hend, ← h'.bottom 0]
      simp only [lastAddr_append, lastAddr_cons, hlast]
  simpa using hgoal

theorem splice_mem {m : Bytes} {pre mid mid' post : List Seg} {p : Seg}
    (h : HeapInv s (pre ++ (p :: mid) ++ post))
    (hlast : ∀ k, lastAddr k mid' = lastAddr k mid) (hmid : Below mid')
    (hin : ∀ x ∈ mid', (∃ y ∈ mid, x.top ≤ y.top) ∧ ∃ y ∈ mid, y.addr ≤ x.addr)
    (hal : ∀ x ∈ mid', x.addr % 16 = 0 ∧ x.length % 16 = 0)
    (hsame : ∀ x ∈ pre ++ post, header m x.addr = header s.mem x.addr)
    (hchain : Chain m (lastAddr 0 pre) (firstAddr 0 post) (p :: mid')) :
    HeapInv { s with mem := m } (pre ++ (p :: mid') ++ post) :=
  h.splice hlast hmid hin hal hsame hchain rfl rfl rfl rfl rfl

/-- The invariant does not depend on the sizes that the heap counts. -/
theorem congr (h : HeapInv s segs) (hmem : s'.mem = s.mem) (hpages : s'.pages = s.pages)
    (hready : s'.cheap.ready = s.cheap.ready)
    (hmain : s'.cheap.mainSegment = s.cheap.mainSegment)
    (hend : s'.cheap.heapEnd = s.cheap.heapEnd)
    (hls : s'.cheap.lastSegment = s.cheap.lastSegment) : HeapInv s' segs := by
  refine ⟨?_, ?_, ?_, ?_, ?_, ?_, h.below, h.aligned, ?_, ?_, ?_, ?_⟩
  · rw [hready]; exact h.ready
  · rw [hmain]; exact h.head
  · rw [hend]; exact h.bottom
  · rw [hls, hend]; exact h.lastSegment
  · rw [hend, hmain]; exact h.grown
  · rw [hmem]; exact h.chain
  · rw [hmain]; exact h.top
  · rw [hend]; exact h.page
  · rw [hend]; exact h.pos
  · rw [hend, hmain, hpages]; exact h.pages

end HeapInv

/-- The segments in use stay segments in use. -/
def Keeps (segs segs' : List Seg) : Prop := ∀ x ∈ segs, x.free = false → x ∈ segs'

/-! ## Allocation -/

/-- The segment of `size` bytes, or of more than that and a header. -/
def Seg.Fits (x : Seg) (size : Nat) : Prop :=
  x.free = true ∧ (size + 48 < x.length ∨ x.length = size)

theorem fits_iff {m : Bytes} {x : Seg} {n l size : Nat} (hx : header m x.addr = x.header n l)
    (hsize : size + 48 < 18446744073709551616) : fits m x.addr size = true ↔ x.Fits size := by
  have hadd : u64 (size + sizeofHeader) = size + 48 := u64_of_lt hsize
  rw [fits, free_of_header hx, length_of_header hx, hadd]
  cases hf : x.free
  · simp [Seg.header, Seg.Fits, hf]
  · simp [Seg.header, Seg.Fits, hf]

/-- One more turn of fuel does not change what the loop of `_malloc` finds. -/
theorem findSegment_more {m : Bytes} {size fuel a : Nat} {r : Except Panic (Option Nat)}
    (h : findSegment m size fuel a = some r) : findSegment m size (fuel + 1) a = some r := by
  induction fuel generalizing a with
  | zero => cases h
  | succ fuel ih =>
    rw [findSegment] at h ⊢
    split at h
    · rename_i hsig
      rw [if_pos hsig]
      exact h
    rename_i hsig
    rw [if_neg hsig]
    split at h
    · rename_i hfits
      rw [if_pos hfits]
      exact h
    rename_i hfits
    rw [if_neg hfits]
    split at h
    · rename_i hnext
      rw [if_pos hnext]
      exact h
    rename_i hnext
    rw [if_neg hnext]
    split at h
    · rename_i hcycle
      rw [if_pos hcycle]
      exact h
    rename_i hcycle
    rw [if_neg hcycle]
    exact ih h

theorem findSegment_mono {m : Bytes} {size fuel k a : Nat} {r : Except Panic (Option Nat)}
    (hk : fuel ≤ k) (h : findSegment m size fuel a = some r) : findSegment m size k a = some r := by
  induction k with
  | zero =>
    obtain rfl : fuel = 0 := Nat.le_zero.mp hk
    exact h
  | succ k ih =>
    rcases Nat.lt_or_ge k fuel with hlt | hge
    · obtain rfl : fuel = k + 1 := by omega
      exact h
    · exact findSegment_more (ih hge)

/-- The fuel does not decide what the loop finds. -/
theorem findSegment_fuel {m : Bytes} {size fuel fuel' a : Nat} {r r' : Except Panic (Option Nat)}
    (h : findSegment m size fuel a = some r) (h' : findSegment m size fuel' a = some r') : r = r' := by
  rcases Nat.le_total fuel fuel' with hle | hle
  · exact Option.some.inj ((findSegment_mono hle h).symm.trans h')
  · exact Option.some.inj (h.symm.trans (findSegment_mono hle h'))

/-- One turn of the loop, on a segment with its header. -/
theorem findSegment_succ {m : Bytes} {size fuel l n : Nat} {x : Seg}
    (hx : header m x.addr = x.header n l) (hne : n ≠ x.addr) :
    findSegment m size (fuel + 1) x.addr =
      if fits m x.addr size = true then some (.ok (some x.addr))
      else if n = 0 then some (.ok none)
      else findSegment m size fuel n := by
  have hsig : Segment.signature.get m x.addr = HEAP_SIGNATURE := signature_of_header hx
  have hnext : Segment.next.get m x.addr = n := next_of_header hx
  rw [findSegment, if_neg (not_not.mpr hsig), hnext, if_neg hne]

/-- With fuel for every segment the loop finds the first one that fits, or comes to the end of
the list. -/
theorem findSegment_ends {m : Bytes} {size fuel l : Nat} {x : Seg} {rest : List Seg}
    (hc : Chain m l 0 (x :: rest)) (hb : Below (x :: rest))
    (hsize : size + 48 < 18446744073709551616) (hpos : ∀ y ∈ x :: rest, y.addr ≠ 0)
    (hfuel : rest.length < fuel) :
    (∃ y ∈ x :: rest, y.Fits size ∧ findSegment m size fuel x.addr = some (.ok (some y.addr))) ∨
      (∀ y ∈ x :: rest, ¬ y.Fits size) ∧ findSegment m size fuel x.addr = some (.ok none) := by
  induction rest generalizing fuel l x with
  | nil =>
    obtain ⟨fuel, rfl⟩ := Nat.exists_eq_succ_of_ne_zero (Nat.ne_of_gt hfuel)
    have hx : header m x.addr = x.header 0 l := hc.1
    rw [findSegment_succ hx (hpos x List.mem_cons_self).symm]
    by_cases hf : fits m x.addr size = true
    · rw [if_pos hf]
      exact .inl ⟨x, List.mem_cons_self, (fits_iff hc.1 hsize).mp hf, rfl⟩
    · rw [if_neg hf, if_pos rfl]
      refine .inr ⟨fun y hy hfit => hf ((fits_iff hc.1 hsize).mpr ?_), rfl⟩
      exact List.mem_singleton.mp hy ▸ hfit
  | cons y rest ih =>
    obtain ⟨fuel, rfl⟩ := Nat.exists_eq_succ_of_ne_zero (Nat.ne_of_gt (Nat.zero_lt_of_lt hfuel))
    have hyx := (List.pairwise_cons.mp hb).1 y List.mem_cons_self
    have hne : y.addr ≠ x.addr := by
      unfold Seg.top at hyx
      omega
    have hx : header m x.addr = x.header y.addr l := hc.1
    rw [findSegment_succ hx hne]
    by_cases hf : fits m x.addr size = true
    · rw [if_pos hf]
      exact .inl ⟨x, List.mem_cons_self, (fits_iff hc.1 hsize).mp hf, rfl⟩
    · rw [if_neg hf, if_neg (hpos y (by simp))]
      rcases ih hc.2 (List.pairwise_cons.mp hb).2 (fun z hz => hpos z (List.mem_cons_of_mem x hz))
        (by simpa using hfuel) with ⟨z, hz, hfit, hfind⟩ | ⟨hnone, hfind⟩
      · exact .inl ⟨z, List.mem_cons_of_mem x hz, hfit, hfind⟩
      · refine .inr ⟨fun z hz hfit => ?_, hfind⟩
        rcases List.mem_cons.mp hz with rfl | hz
        · exact hf ((fits_iff hc.1 hsize).mpr hfit)
        · exact hnone z hz hfit

namespace HeapInv

variable {s s' : HeapState} {segs : List Seg}

/-- A block of `size` bytes in use, at `p`, that was not in use before. -/
structure Allocated (segs segs' : List Seg) (p size : Nat) : Prop where
  keeps : Keeps segs segs'
  block : ∃ y ∈ segs', y.free = false ∧ p = y.addr + 48 ∧ size ≤ y.length ∧
    ∀ x ∈ segs, x.free = false → x.addr ≠ y.addr

/-- Two segments of the list in a row, with their headers. -/
theorem neighbours {pre post : List Seg} {q x : Seg} (h : HeapInv s (pre ++ q :: x :: post)) :
    header s.mem q.addr = q.header x.addr (lastAddr 0 pre) ∧
    header s.mem x.addr = x.header (firstAddr 0 post) q.addr ∧ x.top ≤ q.addr ∧
    q.addr + 48 ≤ 18446744073709551616 ∧
    ∀ z ∈ pre ++ post, z.addr + 48 ≤ x.addr ∨ q.addr + 48 ≤ z.addr := by
  obtain ⟨_, hq, hx, _⟩ := chain_append.mp h.chain
  have hinv : HeapInv s (pre ++ [q, x] ++ post) := by simpa using h
  have hqb := h.top_le (x := q) (by simp)
  have htop := h.top
  have hxq : x.top ≤ q.addr := by
    have hb := h.below
    simp only [Below, List.pairwise_append, List.pairwise_cons] at hb
    exact hb.2.1.1 x (by simp)
  refine ⟨hq, hx, hxq, by unfold Seg.top at hqb; omega, fun z hz => ?_⟩
  rcases hinv.below.outside hz with ho | ho
  · have := ho q (by simp)
    unfold Seg.top at this
    omega
  · have := ho x (by simp)
    unfold Seg.top at this
    omega

/-- Taking a segment as it is. -/
theorem take {pre post : List Seg} {q x : Seg} {r : Nat × HeapState}
    (h : HeapInv s (pre ++ q :: x :: post)) (hr : takeSegment s x.addr = r) :
    r.1 = x.addr + 48 ∧ HeapInv r.2 (pre ++ q :: ⟨x.addr, x.length, false⟩ :: post) := by
  obtain ⟨hp, hmem, hpages, hready, hmain, hend, hls⟩ := takeSegment_eq hr
  obtain ⟨hq, hxh, hxq, hq64, hout⟩ := h.neighbours
  unfold Seg.top at hxq
  rw [u64_of_lt (by omega)] at hp
  have hinv : HeapInv s (pre ++ (q :: [x]) ++ post) := by simpa using h
  have hsame : ∀ z, z + 48 ≤ x.addr ∨ x.addr + 48 ≤ z → header r.2.mem z = header s.mem z :=
    fun z hz => by rw [hmem, header_setFree_apart hz]
  have hx' : header r.2.mem x.addr = Seg.header ⟨x.addr, x.length, false⟩ (firstAddr 0 post) q.addr := by
    rw [hmem, header_setFree, hxh]
    rfl
  have hgoal : HeapInv r.2 (pre ++ (q :: [⟨x.addr, x.length, false⟩]) ++ post) := by
    refine hinv.splice (fun _ => rfl) (List.pairwise_singleton _ _) ?_ ?_ (fun z hz => ?_)
      ⟨?_, hx', trivial⟩ hpages hready hmain hend hls
    · simp [Seg.top]
    · simpa using h.aligned x (by simp)
    · exact hsame _ (by have := hout z hz; omega)
    · rw [hsame _ (by omega)]
      exact hq
  exact ⟨hp, by simpa using hgoal⟩

/-- Splitting a free segment: the upper part is free and can be taken. -/
theorem split {pre post : List Seg} {q x : Seg} {size n : Nat} (h : HeapInv s (pre ++ q :: x :: post))
    (hfree : x.free = true) (hsize : size + 48 < x.length) (hal : size % 16 = 0)
    (hr : splitSegment s x.addr size = .ok (n, s')) :
    n = x.addr + x.length - size ∧ s'.cheap = s.cheap ∧
      HeapInv s' (pre ++ q :: ⟨n, size, true⟩ :: ⟨x.addr, x.length - (size + 48), true⟩ :: post) := by
  obtain ⟨hq, hxh, hxq, hq64, hout⟩ := h.neighbours
  have hinv : HeapInv s (pre ++ (q :: [x]) ++ post) := by simpa using h
  have hxal := h.aligned x (by simp)
  rw [Seg.header, hfree] at hxh
  obtain ⟨rfl, hpages, hcheap, hq', hn, hx', hsame⟩ :=
    splitSegment_header hxh hsize hxq hq64 hr
  unfold Seg.top at hxq
  have hls : (if firstAddr 0 post = 0 then x.addr else s.cheap.lastSegment) = s.cheap.lastSegment := by
    cases post with
    | nil =>
      rw [if_pos (by rfl), h.lastSegment, ← h.bottom 0, lastAddr_append]
      rfl
    | cons z post =>
      have := h.le_addr (x := z) (by simp)
      have := h.pos
      exact if_neg (by show z.addr ≠ 0; omega)
  rw [hls] at hcheap
  have hgoal : HeapInv s' (pre ++ (q :: [⟨x.addr + x.length - size, size, true⟩,
      ⟨x.addr, x.length - (size + 48), true⟩]) ++ post) := by
    refine hinv.splice (fun _ => rfl) ?_ ?_ ?_ (fun z hz => hsame _ (hout z hz)) ⟨?_, ?_, ?_, trivial⟩
      hpages (by rw [hcheap]) (by rw [hcheap]) (by rw [hcheap]) (by rw [hcheap])
    · simp [Below, Seg.top]; omega
    · simp [Seg.top]; omega
    · simp; omega
    · rw [hq', hq]; rfl
    · rw [hn]; rfl
    · rw [hx']; rfl
  exact ⟨rfl, hcheap, by simpa using hgoal⟩

/-- A request of `size` bytes that takes segment `y` of the list. -/
structure Served (s : HeapState) (r : Nat × HeapState) (segs segs' : List Seg) (size : Nat) (y : Seg) :
    Prop where
  inv : HeapInv r.2 segs'
  takes : Takes y segs segs'
  used : y.free = false
  address : r.1 = y.addr + 48
  length : size ≤ y.length
  heapEnd : r.2.cheap.heapEnd = s.cheap.heapEnd
  mainSegment : r.2.cheap.mainSegment = s.cheap.mainSegment
  totalSize : r.2.cheap.totalSize = s.cheap.totalSize
  usedSize : r.2.cheap.usedSize = u64 (s.cheap.usedSize + u64 y.bytes)
  freeSize : r.2.cheap.freeSize = sub64 s.cheap.freeSize (u64 y.bytes)

/-- An expansion by `len` bytes. -/
structure Expanded (s s' : HeapState) (segs segs' : List Seg) (len : Nat) : Prop where
  inv : HeapInv s' segs'
  grows : Grows len segs segs'
  length : 4096 ≤ len
  heapEnd : s'.cheap.heapEnd + len = s.cheap.heapEnd
  mainSegment : s'.cheap.mainSegment = s.cheap.mainSegment
  totalSize : s'.cheap.totalSize = u64 (s.cheap.totalSize + u64 (len + 48))

/-- The expansions of one request. -/
abbrev Expands : HeapState × List Seg → HeapState × List Seg → Prop :=
  Relation.ReflTransGen fun t t' => ∃ len, Expanded t.1 t'.1 t.2 t'.2 len

theorem Served.of_le {r : Nat × HeapState} {segs' : List Seg} {size size' : Nat} {y : Seg}
    (h : Served s r segs segs' size y) (hle : size' ≤ size) : Served s r segs segs' size' y :=
  ⟨h.inv, h.takes, h.used, h.address, Nat.le_trans hle h.length, h.heapEnd, h.mainSegment, h.totalSize,
    h.usedSize, h.freeSize⟩

theorem allocated {r : Nat × HeapState} {segs' : List Seg} {size : Nat} {y : Seg}
    (h : HeapInv s segs) (hs : Served s r segs segs' size y) : Allocated segs segs' r.1 size := by
  have hkeeps : Keeps segs segs' := fun x hx hf => (hs.takes.used_iff hf).mpr (.inl hx)
  have hmem : y ∈ segs' := (hs.takes.used_iff hs.used).mpr (.inr rfl)
  refine ⟨hkeeps, y, hmem, hs.used, hs.address, hs.length, fun x hx hf ha => ?_⟩
  have hxy := hs.inv.below.addr_inj (hkeeps x hx hf) hmem ha
  exact hs.takes.not_mem hs.used h.below hs.inv.below (hxy ▸ hx)

theorem Expands.keeps {t t' : HeapState × List Seg} (h : Expands t t') : Keeps t.2 t'.2 := by
  induction h with
  | refl => exact fun x hx _ => hx
  | tail _ hstep ih =>
    obtain ⟨len, hexp⟩ := hstep
    exact fun x hx hf => (hexp.grows.used_iff hf).mpr (ih x hx hf)

theorem Allocated.of_keeps {segs₀ segs₁ segs₂ : List Seg} {p size : Nat} (hk : Keeps segs₀ segs₁)
    (h : Allocated segs₁ segs₂ p size) : Allocated segs₀ segs₂ p size := by
  obtain ⟨y, hy, hf, hp, hl, hne⟩ := h.block
  exact ⟨fun x hx hxf => h.keeps x (hk x hx hxf) hxf, y, hy, hf, hp, hl,
    fun x hx hxf => hne x (hk x hx hxf) hxf⟩

theorem allocate (h : HeapInv s segs) {x : Seg} {size : Nat} {r : Nat × HeapState} (hx : x ∈ segs)
    (hfit : x.Fits size) (hal : size % 16 = 0) (hr : allocateIn s x.addr size = .ok r) :
    ∃ segs' y, Served s r segs segs' size y := by
  obtain ⟨hfree, hlen⟩ := hfit
  have hxtop := h.top_le hx
  have hxend := h.le_addr hx
  have hpos := h.pos
  have htop := h.top
  obtain ⟨pre, q, post, rfl⟩ := h.before hx (.inl hfree)
  have hxlen : Segment.length.get s.mem x.addr = x.length := length_of_header h.neighbours.2.1
  have hadd : u64 (size + sizeofHeader) = size + 48 :=
    u64_of_lt (by show size + 48 < _; unfold Seg.top at hxtop; omega)
  rw [allocateIn, hxlen, hadd] at hr
  by_cases hgt : x.length > size + 48
  · rw [if_pos hgt] at hr
    cases hs : splitSegment s x.addr size with
    | error e => rw [hs] at hr; cases hr
    | ok t =>
      rw [hs] at hr
      obtain ⟨hn, hcheap, hinv⟩ := h.split hfree hgt hal hs
      have htake : takeSegment t.2 t.1 = r := Except.ok.inj hr
      have hlen' : Segment.length.get t.2.mem t.1 = size :=
        length_of_header hinv.neighbours.2.1
      obtain ⟨hp, hinv'⟩ := HeapInv.take (x := ⟨t.1, size, true⟩) hinv htake
      obtain ⟨-, -, -, -, hmain, hend, -⟩ := takeSegment_eq htake
      obtain ⟨htotal, hused, hfreed⟩ := takeSegment_sizes htake
      rw [hlen', hcheap] at hused hfreed
      rw [hcheap] at htotal hmain hend
      refine ⟨_, ⟨t.1, size, false⟩, hinv', ?_, rfl, hp, Nat.le_refl _, hend, hmain, htotal, hused, hfreed⟩
      have hsplit := @Takes.split ⟨t.1, size, false⟩ (pre ++ [q]) post _ hfree hgt
      simpa [Seg.bytes] using hsplit
  · rw [if_neg hgt] at hr
    obtain rfl : x.length = size := by omega
    have htake : takeSegment s x.addr = r := Except.ok.inj hr
    obtain ⟨hp, hinv⟩ := h.take htake
    obtain ⟨-, -, -, -, hmain, hend, -⟩ := takeSegment_eq htake
    obtain ⟨htotal, hused, hfreed⟩ := takeSegment_sizes htake
    rw [hxlen] at hused hfreed
    refine ⟨_, ⟨x.addr, x.length, false⟩, hinv, ?_, rfl, hp, Nat.le_refl _, hend, hmain, htotal, hused,
      hfreed⟩
    have hwhole := @Takes.whole ⟨x.addr, x.length, false⟩ (pre ++ [q]) post
    rw [← hfree] at hwhole
    simpa using hwhole

/-- Growing the heap: below the last segment, or by making it longer when it is free. -/
theorem expand (h : HeapInv s segs) {size : Nat} (hs : NoOverflow size) (hal : size % 16 = 0)
    (hr : expandHeap s size = .ok s') : ∃ segs', Expanded s s' segs segs' (expandLength size) := by
  obtain ⟨init, x, rfl⟩ := (List.eq_nil_or_concat' segs).resolve_left (by
    rintro rfl
    cases h.head)
  have hxend : x.addr = s.cheap.heapEnd := by
    rw [← h.bottom 0, lastAddr_append]
    rfl
  obtain ⟨pre, q, rfl⟩ := (List.eq_nil_or_concat' init).resolve_left (by
    rintro rfl
    have := h.grown
    obtain rfl := Option.some.inj h.head
    simp only at hxend
    omega)
  rw [List.append_assoc, List.singleton_append] at h ⊢
  obtain ⟨hq, hxh, hxq, hq64, hout⟩ := h.neighbours
  have hxal := h.aligned x (by simp)
  have hqal := h.aligned q (by simp)
  obtain ⟨hmod, hle, hlt⟩ := expandLength_spec hs
  have htotal := expandHeap_totalSize hr
  obtain ⟨hfit, hend, hls, hmain, hready, hold, hnew, hmem⟩ := expandHeap_header hs hxend.symm
    (h.lastSegment.trans hxend.symm) (by rw [hxend]; exact h.page) (by rw [hxend]; exact h.pos)
    hxh hxq hq64 hr
  generalize expandLength size = len at *
  have hpage := h.page
  have habove : ∀ z ∈ pre, q.addr + 48 ≤ z.addr := fun z hz => by
    have hb := h.below
    simp only [Below, List.pairwise_append] at hb
    have := hb.2.2 z hz q (by simp)
    unfold Seg.top at this
    omega
  have hchainq : Chain s.mem (lastAddr 0 pre) 0 (q :: [x]) := (chain_append.mp h.chain).2
  by_cases hf : x.free = true
  · rw [if_pos (by rw [hf]; decide)] at hmem
    obtain ⟨hk, hq', hsame⟩ := hmem
    have hgrows := @Grows.swallow len (pre ++ [q]) x hf
    simp only [List.append_assoc, List.singleton_append] at hgrows
    refine ⟨pre ++ q :: [⟨x.addr - len, x.length + len - 48, true⟩], h.replace
      (List.pairwise_singleton _ _) ?_ ?_ (fun z hz => hsame _ (habove z hz)) ⟨?_, hk, trivial⟩ hready hmain hend.symm (hls.trans hend.symm) (by omega) (by omega) (by omega) hold
      (by rw [hend, ← hxend]; exact hnew), hgrows, by omega, by omega, hmain, htotal⟩
    · simp only [List.mem_singleton, forall_eq, Seg.top]
      unfold Seg.top at hxq
      omega
    · simp only [List.mem_singleton, forall_eq]
      omega
    · rw [hq', hq]
      rfl
  · rw [if_neg (by rw [eq_false_of_ne_true hf]; decide)] at hmem
    obtain ⟨hk, hx', hsame⟩ := hmem
    have hgrows := @Grows.append len (pre ++ [q]) x (eq_false_of_ne_true hf)
    simp only [List.append_assoc, List.singleton_append] at hgrows
    unfold Seg.top at hxq
    refine ⟨pre ++ q :: [x, ⟨x.addr - len, len - 48, true⟩], h.replace ?_ ?_ ?_
      (fun z hz => hsame _ (by have := habove z hz; omega)) ⟨?_, ?_, hk, trivial⟩
      hready hmain hend.symm (hls.trans hend.symm) (by omega) (by omega) (by omega) hold
      (by rw [hend, ← hxend]; exact hnew), hgrows, by omega, by omega, hmain, htotal⟩
    · simp only [Below, List.pairwise_cons, List.mem_singleton, forall_eq, Seg.top]
      simp
      omega
    · simp only [List.mem_cons, List.not_mem_nil, or_false, forall_eq_or_imp, forall_eq, Seg.top]
      omega
    · simp only [List.mem_cons, List.not_mem_nil, or_false, forall_eq_or_imp, forall_eq]
      omega
    · rw [hsame _ (by omega), hq]
      rfl
    · rw [hx', hxh]
      rfl

/-- The loop of `_malloc` ends, with a segment that fits if there is one. -/
theorem finds {fuel size : Nat} (h : HeapInv s segs) (hwrap : size + 48 < 18446744073709551616)
    (hfuel : segs.length ≤ fuel) :
    (∃ y ∈ segs, y.Fits size ∧
        findSegment s.mem size fuel s.cheap.mainSegment = some (.ok (some y.addr))) ∨
      (∀ y ∈ segs, ¬ y.Fits size) ∧
        findSegment s.mem size fuel s.cheap.mainSegment = some (.ok none) := by
  obtain ⟨main, rest, rfl⟩ : ∃ main rest, segs = main :: rest :=
    List.exists_cons_of_ne_nil fun hnil => by
      rw [hnil] at h
      cases h.head
  have hmain : main.addr = s.cheap.mainSegment := by rw [Option.some.inj h.head]
  have hpos := h.pos
  rw [← hmain]
  exact findSegment_ends h.chain h.below hwrap (fun y hy => by have := h.le_addr hy; omega) hfuel

/-- What the loop found, for any fuel. -/
theorem found {fuel size : Nat} {r : Except Panic (Option Nat)} (h : HeapInv s segs)
    (hwrap : size + 48 < 18446744073709551616)
    (hfind : findSegment s.mem size fuel s.cheap.mainSegment = some r) :
    (∃ y ∈ segs, y.Fits size ∧ r = .ok (some y.addr)) ∨
      (∀ y ∈ segs, ¬ y.Fits size) ∧ r = .ok none := by
  rcases h.finds hwrap (Nat.le_refl segs.length) with ⟨y, hy, hfit, hends⟩ | ⟨hnone, hends⟩
  · exact .inl ⟨y, hy, hfit, findSegment_fuel hfind hends⟩
  · exact .inr ⟨hnone, findSegment_fuel hfind hends⟩

/-- A request takes a segment that fits, or expands the heap and is made again. -/
theorem malloc_cases (h : HeapInv s segs) {fuel size : Nat} {r : Nat × HeapState}
    (hs : NoOverflow size) (hpos : 0 < size) (hr : malloc fuel s size = some (.ok r)) :
    (∃ x ∈ segs, x.Fits (roundSize size) ∧ allocateIn s x.addr (roundSize size) = .ok r) ∨
      ∃ k t, fuel = k + 1 ∧ (∀ x ∈ segs, ¬ x.Fits (roundSize size)) ∧
        expandHeap s (roundSize size) = .ok t ∧
        UnedKernel.Memory.malloc k t (roundSize size) = some (.ok r) := by
  cases fuel with
  | zero => cases hr
  | succ fuel =>
    obtain ⟨-, -, hs'⟩ := roundSize_spec hs
    rw [UnedKernel.Memory.malloc, if_neg (by rw [h.ready]; decide), if_neg (by omega)] at hr
    have hwrap : roundSize size + 48 < 18446744073709551616 := by unfold NoOverflow at hs'; omega
    cases hfind : findSegment s.mem (roundSize size) fuel s.cheap.mainSegment with
    | none => rw [hfind] at hr; cases hr
    | some out =>
      rw [hfind] at hr
      rcases h.found hwrap hfind with ⟨x, hx, hfit, rfl⟩ | ⟨hnone, rfl⟩
      · exact .inl ⟨x, hx, hfit, Option.some.inj hr⟩
      · simp only at hr
        cases hexp : expandHeap s (roundSize size) with
        | error e => rw [hexp] at hr; cases hr
        | ok t =>
          rw [hexp] at hr
          exact .inr ⟨fuel, t, rfl, hnone, rfl, hr⟩

/-- `_malloc` expands the heap until a segment serves the request. -/
theorem serves (h : HeapInv s segs) {fuel size : Nat} {r : Nat × HeapState} (hs : NoOverflow size)
    (hpos : 0 < size) (hr : malloc fuel s size = some (.ok r)) :
    ∃ s₁ segs₁ segs' y, Expands (s, segs) (s₁, segs₁) ∧ HeapInv s₁ segs₁ ∧
      Served s₁ r segs₁ segs' size y := by
  induction fuel generalizing s segs size with
  | zero => cases hr
  | succ fuel ih =>
    obtain ⟨hround, hle, hs'⟩ := roundSize_spec hs
    rcases h.malloc_cases hs hpos hr with ⟨x, hx, hfit, hal⟩ | ⟨k, t, hk, -, hexp, hrest⟩
    · obtain ⟨segs', y, hserved⟩ := h.allocate hx hfit hround hal
      exact ⟨s, segs, segs', y, .refl, h, hserved.of_le hle⟩
    · obtain rfl : fuel = k := Nat.succ.inj hk
      obtain ⟨segs₁, hexpanded⟩ := h.expand hs' hround hexp
      obtain ⟨s₂, segs₂, segs', y, hmore, hinv₂, hserved⟩ := ih hexpanded.inv hs' (by omega) hrest
      exact ⟨s₂, segs₂, segs', y, .head ⟨_, hexpanded⟩ hmore, hinv₂, hserved.of_le hle⟩

theorem malloc (h : HeapInv s segs) {fuel size : Nat} {r : Nat × HeapState} (hs : NoOverflow size)
    (hpos : 0 < size) (hr : malloc fuel s size = some (.ok r)) :
    ∃ segs', HeapInv r.2 segs' ∧ Allocated segs segs' r.1 size := by
  obtain ⟨s₁, segs₁, segs', y, hexp, hinv₁, hserved⟩ := h.serves hs hpos hr
  exact ⟨segs', hserved.inv, (hinv₁.allocated hserved).of_keeps hexp.keeps⟩

/-! ## Release -/

/-- Marking a segment free. -/
theorem mark {pre post : List Seg} {q x : Seg} (h : HeapInv s (pre ++ q :: x :: post)) :
    HeapInv { s with mem := Segment.free.set s.mem x.addr 1 }
      (pre ++ q :: ⟨x.addr, x.length, true⟩ :: post) := by
  obtain ⟨hq, hxh, hxq, hq64, hout⟩ := h.neighbours
  unfold Seg.top at hxq
  have hinv : HeapInv s (pre ++ (q :: [x]) ++ post) := by simpa using h
  have hx' : header (Segment.free.set s.mem x.addr 1) x.addr =
      Seg.header ⟨x.addr, x.length, true⟩ (firstAddr 0 post) q.addr := by
    rw [header_setFree, hxh]
    rfl
  have hgoal : HeapInv { s with mem := Segment.free.set s.mem x.addr 1 }
      (pre ++ (q :: [⟨x.addr, x.length, true⟩]) ++ post) :=
    hinv.splice_mem (fun _ => rfl) (List.pairwise_singleton _ _) (by simp [Seg.top])
      (by simpa using h.aligned x (by simp))
      (fun z hz => header_setFree_apart (by have := hout z hz; omega))
      ⟨(header_setFree_apart (.inr (by omega))).trans hq, hx', trivial⟩
  simpa using hgoal

/-- `MergeThisToNext` makes one segment of a segment and the one below it. -/
theorem mergeNext {pre post : List Seg} {q x n : Seg} (h : HeapInv s (pre ++ q :: x :: n :: post)) :
    HeapInv { s with mem := mergeThisToNext s.mem x.addr }
      (pre ++ q :: ⟨n.addr, n.length + x.bytes, n.free⟩ :: post) := by
  obtain ⟨hq, hxh, hxq, hq64, hout⟩ := h.neighbours
  have h' : HeapInv s ((pre ++ [q]) ++ x :: n :: post) := by simpa using h
  obtain ⟨_, hnh, hnx, _, hout'⟩ := h'.neighbours
  rw [firstAddr_cons] at hxh
  obtain ⟨hn', hq', hsame⟩ := mergeThisToNext_header hxh hnh hnx hxq hq64
  have hinv : HeapInv s (pre ++ (q :: [x, n]) ++ post) := by simpa using h
  have hxal := h.aligned x (by simp)
  have hnal := h.aligned n (by simp)
  unfold Seg.top at hnx hxq
  have hgoal : HeapInv { s with mem := mergeThisToNext s.mem x.addr }
      (pre ++ (q :: [⟨n.addr, n.length + (x.length + 48), n.free⟩]) ++ post) :=
    hinv.splice_mem (fun _ => by simp only [lastAddr_cons, lastAddr_nil])
      (List.pairwise_singleton _ _) (by simp [Seg.top]; omega) (by simp; omega)
      (fun z hz => hsame _ (by
        have h1 := hout z (by simp only [List.mem_append, List.mem_cons] at hz ⊢; tauto)
        have h2 := hout' z (by simp only [List.mem_append, List.mem_cons] at hz ⊢; tauto)
        omega)) ⟨by rw [hq', hq]; rfl, hn', trivial⟩
  simpa [Seg.bytes] using hgoal

/-- `MergeLastToThis` makes one segment of a segment and the one above it. -/
theorem mergeLast {pre post : List Seg} {q p x : Seg} (h : HeapInv s (pre ++ q :: p :: x :: post)) :
    HeapInv { s with mem := mergeLastToThis s.mem x.addr }
      (pre ++ q :: ⟨x.addr, x.length + p.bytes, x.free⟩ :: post) := by
  obtain ⟨hq, hph, hpq, hq64, hout⟩ := h.neighbours
  have h' : HeapInv s ((pre ++ [q]) ++ p :: x :: post) := by simpa using h
  obtain ⟨_, hxh, hxp, _, hout'⟩ := h'.neighbours
  obtain ⟨hx', hq', hsame⟩ := mergeLastToThis_header hxh hph hxp hpq hq64
  have hinv : HeapInv s (pre ++ (q :: [p, x]) ++ post) := by simpa using h
  have hxal := h.aligned x (by simp)
  have hpal := h.aligned p (by simp)
  unfold Seg.top at hxp hpq
  have hgoal : HeapInv { s with mem := mergeLastToThis s.mem x.addr }
      (pre ++ (q :: [⟨x.addr, x.length + (p.length + 48), x.free⟩]) ++ post) :=
    hinv.splice_mem (fun _ => by simp only [lastAddr_cons, lastAddr_nil])
      (List.pairwise_singleton _ _) (by simp [Seg.top]; omega) (by simp; omega)
      (fun z hz => hsame _ (by
        have h1 := hout z (by simp only [List.mem_append, List.mem_cons] at hz ⊢; tauto)
        have h2 := hout' z (by simp only [List.mem_append, List.mem_cons] at hz ⊢; tauto)
        omega)) ⟨by rw [hq', hq]; rfl, hx', trivial⟩
  simpa [Seg.bytes] using hgoal

/-- The merges of `_free`, by the segments next to `x`. -/
theorem merge {pre post : List Seg} {q x : Seg} (h : HeapInv s (pre ++ q :: x :: post)) (hfree : x.free = true) :
    ∃ segs', HeapInv { s with mem := mergeAround s.mem x.addr } segs' ∧
      ∀ y : Seg, y.addr = x.addr → y.length = x.length → Releases y (pre ++ q :: y :: post) segs' := by
  obtain ⟨segs, hsegs⟩ : ∃ segs, segs = pre ++ q :: x :: post := ⟨_, rfl⟩
  rw [← hsegs] at h
  have hchain := h.chain
  rw [hsegs] at hchain
  obtain ⟨_, hqh, hxh, hpost⟩ := chain_append.mp hchain
  have hpos := h.pos
  have hmem : ∀ y ∈ segs, y.addr ≠ 0 := fun y hy => by
    have := h.le_addr hy
    omega
  have hbit : ∀ b : Bool, b.toNat ≠ 0 ↔ b = true := by decide
  have hlast : q.addr ≠ 0 ∧ Segment.free.get s.mem q.addr ≠ 0 ↔ q.free = true := by
    rw [free_of_header hqh]
    exact ⟨fun h => (hbit _).mp h.2, fun h => ⟨hmem q (by simp [hsegs]), (hbit _).mpr h⟩⟩
  have hnext : (firstAddr 0 post ≠ 0 ∧ Segment.free.get s.mem (firstAddr 0 post) ≠ 0) ↔
      ∃ n rest, post = n :: rest ∧ n.free = true := by
    cases post with
    | nil => exact ⟨fun h => absurd rfl h.1, fun ⟨n, rest, h, _⟩ => by cases h⟩
    | cons n rest =>
      rw [firstAddr_cons, free_of_header hpost.1]
      refine ⟨fun h => ⟨n, rest, rfl, (hbit _).mp h.2⟩, fun ⟨n', rest', heq, hf⟩ => ?_⟩
      obtain ⟨rfl, rfl⟩ := List.cons.inj heq
      exact ⟨hmem n (by simp [hsegs]), (hbit _).mpr hf⟩
  have hbelow (hnf : ¬ ∃ n rest, post = n :: rest ∧ n.free = true) : UsedBelow post := by
    intro n hn
    cases post with
    | nil => cases hn
    | cons m rest =>
      obtain rfl : m = n := by simpa using hn
      exact eq_false_of_ne_true fun hf => hnf ⟨m, rest, rfl, hf⟩
  -- a free segment above `x` has itself one above it
  have habove : q.free = true → ∃ pre' p, pre = pre' ++ [p] := fun hq => by
    rcases List.eq_nil_or_concat' pre with rfl | ⟨pre', p, rfl⟩
    · have hhead := h.head
      rw [hsegs] at hhead
      rw [Option.some.inj hhead] at hq
      cases hq
    · exact ⟨pre', p, rfl⟩
  have hn : Segment.next.get s.mem x.addr = firstAddr 0 post := next_of_header hxh
  have hl : Segment.last.get s.mem x.addr = q.addr := last_of_header hxh
  unfold mergeAround
  extract_lets next last
  rw [show next = firstAddr 0 post from hn, show last = q.addr from hl]
  by_cases hqf : q.free = true
  · obtain ⟨pre', p, rfl⟩ := habove hqf
    have hsegs' : segs = pre' ++ p :: q :: x :: post := by simp [hsegs]
    rw [hsegs'] at h
    have hinv := h.mergeLast
    by_cases hnf : ∃ n rest, post = n :: rest ∧ n.free = true
    · rw [if_pos ⟨(hnext.mpr hnf).1, (hlast.mpr hqf).1, (hnext.mpr hnf).2, (hlast.mpr hqf).2⟩]
      obtain ⟨n, rest, rfl, hf⟩ := hnf
      rw [mergeLastAndThisToNext]
      obtain ⟨m, hm⟩ : ∃ m, mergeLastToThis s.mem x.addr = m := ⟨_, rfl⟩
      rw [hm] at hinv ⊢
      have hinv' := hinv.mergeNext
      refine ⟨_, hinv', fun y hya hyl => ?_⟩
      have hboth := @Releases.both y (pre' ++ [p]) rest q n hqf hf
      have hsum : (⟨x.addr, x.length + q.bytes, x.free⟩ : Seg).bytes = y.bytes + q.bytes := by
        simp only [Seg.bytes]
        omega
      rw [hsum, hf]
      simpa using hboth
    · rw [if_neg (fun hc => hnf (hnext.mp ⟨hc.1, hc.2.2.1⟩)), if_pos (hlast.mpr hqf)]
      refine ⟨_, hinv, fun y hya hyl => ?_⟩
      have hrel := @Releases.last y (pre' ++ [p]) post q hqf (hbelow hnf)
      rw [hfree, ← hya, ← hyl]
      simpa using hrel
  · have hused : UsedAbove (pre ++ [q]) := by
      intro p hp
      rw [List.getLast?_append, List.getLast?_singleton] at hp
      obtain rfl : q = p := by simpa using hp
      exact eq_false_of_ne_true hqf
    rw [if_neg (fun hc => hqf (hlast.mp ⟨hc.2.1, hc.2.2.2⟩)), if_neg (fun hc => hqf (hlast.mp hc))]
    rw [hsegs] at h
    by_cases hnf : ∃ n rest, post = n :: rest ∧ n.free = true
    · rw [if_pos (hnext.mpr hnf)]
      obtain ⟨n, rest, rfl, hf⟩ := hnf
      refine ⟨_, h.mergeNext, fun y hya hyl => ?_⟩
      have hrel := @Releases.next y (pre ++ [q]) rest n hf hused
      have hsum : x.bytes = y.bytes := by
        unfold Seg.bytes
        omega
      rw [hsum, hf]
      simpa using hrel
    · rw [if_neg (fun hc => hnf (hnext.mp hc))]
      refine ⟨_, h, fun y hya hyl => ?_⟩
      have hrel := @Releases.alone y (pre ++ [q]) post hused (hbelow hnf)
      rw [hya, hyl, ← hfree] at hrel
      simpa using hrel

/-- `_free` of segment `x`. -/
structure Freed (s s' : HeapState) (segs segs' : List Seg) (x : Seg) : Prop where
  inv : HeapInv s' segs'
  releases : Releases x segs segs'
  heapEnd : s'.cheap.heapEnd = s.cheap.heapEnd
  mainSegment : s'.cheap.mainSegment = s.cheap.mainSegment
  totalSize : s'.cheap.totalSize = s.cheap.totalSize
  usedSize : s'.cheap.usedSize = sub64 s.cheap.usedSize (u64 x.bytes)
  freeSize : s'.cheap.freeSize = u64 (s.cheap.freeSize + u64 x.bytes)

theorem frees (h : HeapInv s segs) {x : Seg} (hx : x ∈ segs) (hpos : 0 < x.length)
    (hr : heapFree s (x.addr + 48) = .ok s') : ∃ segs', Freed s s' segs segs' x := by
  obtain ⟨pre, q, post, rfl⟩ := h.before hx (.inr hpos)
  have htop := h.top
  have hxtop := h.top_le hx
  unfold Seg.top at hxtop
  obtain ⟨hmem, hpages, hready, hmain, hend, hls⟩ := heapFree_ok h.ready (by omega) hr
  obtain ⟨htotal, hused, hfreed⟩ := heapFree_sizes h.ready (by omega) hr
  rw [length_of_header h.neighbours.2.1] at hused hfreed
  obtain ⟨segs', hinv', hrel⟩ := h.mark.merge rfl
  simp only at hinv'
  obtain ⟨m, hm⟩ : ∃ m, mergeAround (Segment.free.set s.mem x.addr 1) x.addr = m := ⟨_, rfl⟩
  rw [hm] at hinv' hmem
  exact ⟨segs', hinv'.congr hmem hpages hready hmain hend hls, hrel x rfl rfl, hend, hmain, htotal, hused,
    hfreed⟩

/-- `_free` on a segment in use: the others stay in use. -/
theorem free (h : HeapInv s segs) {x : Seg} (hx : x ∈ segs) (hpos : 0 < x.length)
    (hr : heapFree s (x.addr + 48) = .ok s') :
    ∃ segs', HeapInv s' segs' ∧ ∀ y ∈ segs, y.free = false → y ≠ x → y ∈ segs' := by
  obtain ⟨segs', hfreed⟩ := h.frees hx hpos hr
  exact ⟨segs', hfreed.inv, fun y hy hf hne => hfreed.releases.used hf hy hne⟩

end HeapInv
end UnedKernel.Memory
