import UnedKernel.Memory.HeapRuns

/-! # The expansions of one request

`_malloc` expands the heap until a segment serves the request. A segment that is a
little longer than the request does not, so one expansion may not be enough; after a
second one the lowest segment is long enough to be split. -/

namespace UnedKernel.Memory
open ByteMem Word Run

/-- The calls of `expand_heap` that `_malloc` makes. -/
def expansions : Nat → HeapState → Nat → Nat
  | 0, _, _ => 0
  | fuel + 1, s, size =>
    if s.cheap.ready = false then 0
    else if size = 0 then 0
    else
      match findSegment s.mem (roundSize size) fuel s.cheap.mainSegment with
      | some (.ok none) =>
        match expandHeap s (roundSize size) with
        | .error _ => 1
        | .ok s => expansions fuel s (roundSize size) + 1
      | _ => 0

/-! ## What an expansion makes -/

variable {segs segs' segs'' : List Seg} {len size : Nat}

/-- An expansion leaves a free lowest segment that is at least as long as the request. -/
theorem Grows.last (h : Grows len segs segs') (hlen : size + 48 ≤ len) :
    ∃ init z, segs' = init ++ [z] ∧ z.free = true ∧ size ≤ z.length := by
  cases h with
  | @append init x hx =>
    refine ⟨init ++ [x], ⟨x.addr - len, len - 48, true⟩, by simp, rfl, ?_⟩
    show size ≤ len - 48
    omega
  | @swallow init x hx =>
    refine ⟨init, ⟨x.addr - len, x.length + len - 48, true⟩, rfl, rfl, ?_⟩
    show size ≤ x.length + len - 48
    omega

/-- The next expansion makes it so long that it can be split. -/
theorem Grows.fits {init : List Seg} {z : Seg} (h : Grows len (init ++ [z]) segs'')
    (hfree : z.free = true) (hlong : size ≤ z.length) (hlen : 4096 ≤ len) :
    ∃ y ∈ segs'', y.Fits size := by
  obtain ⟨segs, hsegs⟩ : ∃ segs, init ++ [z] = segs := ⟨_, rfl⟩
  rw [hsegs] at h
  cases h with
  | @append init' x hx =>
    obtain ⟨-, hzx⟩ := List.append_inj' hsegs rfl
    obtain rfl : z = x := (List.cons.inj hzx).1
    rw [hfree] at hx
    cases hx
  | @swallow init' x hx =>
    obtain ⟨-, hzx⟩ := List.append_inj' hsegs rfl
    obtain rfl : z = x := (List.cons.inj hzx).1
    refine ⟨⟨z.addr - len, z.length + len - 48, true⟩, by simp, rfl, .inl ?_⟩
    show size + 48 < z.length + len - 48
    omega

theorem Grows.length_le (h : Grows len segs segs') : segs'.length ≤ segs.length + 1 := by
  cases h <;> simp

/-! ## An expansion ends -/

/-- The loop of `expand_heap` ends, and panics when it comes down to address 0. -/
theorem expandPages_ends {perms n : Nat} {s : HeapState} (hpage : s.cheap.heapEnd % 4096 = 0)
    (hpos : 0 < s.cheap.heapEnd) (hlt : s.cheap.heapEnd < 18446744073709551616) :
    (4096 * n < s.cheap.heapEnd → ∃ s', expandPages perms n s = .ok s') ∧
      (s.cheap.heapEnd ≤ 4096 * n → expandPages perms n s = .error ⟨"Failed to expand heap"⟩) := by
  induction n generalizing s with
  | zero => exact ⟨fun _ => ⟨s, rfl⟩, fun hle => by omega⟩
  | succ n ih =>
    obtain ⟨e, he⟩ : ∃ e, sub64 s.cheap.heapEnd PAGESIZE = e := ⟨_, rfl⟩
    have hsub : e = s.cheap.heapEnd - 4096 := by
      rw [← he]
      exact sub64_of_le (by unfold PAGESIZE; omega) hlt
    unfold expandPages
    simp only [he]
    by_cases hzero : e = 0
    · rw [if_pos hzero]
      exact ⟨fun hlow => by omega, fun _ => rfl⟩
    · rw [if_neg hzero]
      obtain ⟨hok, herror⟩ := @ih { s.requestCurrentPageAt e perms with
        cheap := { (s.requestCurrentPageAt e perms).cheap with heapEnd := e } }
        (by show e % 4096 = 0; omega) (Nat.pos_of_ne_zero hzero) (by show e < _; omega)
      exact ⟨fun hlow => hok (by show 4096 * n < e; omega),
        fun hle => herror (by show e ≤ 4096 * n; omega)⟩

theorem expandHeap_ends {s : HeapState} (hs : NoOverflow size) (hpage : s.cheap.heapEnd % 4096 = 0)
    (hpos : 0 < s.cheap.heapEnd) (hlt : s.cheap.heapEnd < 18446744073709551616) :
    (expandLength size < s.cheap.heapEnd → ∃ s', expandHeap s size = .ok s') ∧
      (s.cheap.heapEnd ≤ expandLength size →
        expandHeap s size = .error ⟨"Failed to expand heap"⟩) := by
  obtain ⟨hmod, -, -⟩ := expandLength_spec hs
  unfold expandHeap
  extract_lets length pages
  have hlength : length = expandLength size := rfl
  clear_value length
  subst hlength
  have hpages : 4096 * pages = expandLength size := by
    simp only [pages]
    rw [if_neg (by unfold PAGESIZE; omega)]
    unfold PAGESIZE
    omega
  clear_value pages
  rw [← hpages]
  obtain ⟨hok, herror⟩ := @expandPages_ends (heapPerms (!s.cheap.isKernel)) pages s hpage hpos hlt
  constructor
  · intro hlow
    obtain ⟨s', hs'⟩ := hok hlow
    rw [hs']
    exact ⟨_, rfl⟩
  · intro hle
    rw [herror hle]
    rfl

/-! ## A request ends -/

theorem roundSize_roundSize (hs : NoOverflow size) : roundSize (roundSize size) = roundSize size := by
  have hround := (roundSize_spec hs).1
  rw [roundSize, if_neg (by omega)]

/-- The request returns a block. -/
def ReturnsBlock (fuel : Nat) (s : HeapState) (size : Nat) : Prop :=
  ∃ p s', malloc fuel s size = some (.ok (p, s')) ∧ p ≠ 0

/-- The request comes down to address 0. -/
def ComesToZero (fuel : Nat) (s : HeapState) (size : Nat) : Prop :=
  malloc fuel s size = some (.error ⟨"Failed to expand heap"⟩)

namespace HeapInv

variable {s t : HeapState} {fuel : Nat}

theorem heapEnd_lt (h : HeapInv s segs) : s.cheap.heapEnd < 18446744073709551616 := by
  have := h.top
  have := h.grown
  omega

/-- A segment that fits can be taken. -/
theorem allocates (h : HeapInv s segs) {x : Seg} (hx : x ∈ segs) (hfit : x.Fits size)
    (hal : size % 16 = 0) : ∃ r, allocateIn s x.addr size = .ok r ∧ r.1 ≠ 0 := by
  have hok : ∃ r, allocateIn s x.addr size = .ok r := by
    obtain ⟨hfree, -⟩ := id hfit
    obtain ⟨pre, q, post, rfl⟩ := h.before hx (.inl hfree)
    have hheader := h.neighbours.2.1
    have hsig : Segment.signature.get s.mem x.addr = HEAP_SIGNATURE := signature_of_header hheader
    rw [allocateIn]
    split
    · rename_i hlong
      rw [splitSegment, if_neg (Nat.not_le.mpr hlong), if_neg (not_not.mpr hsig)]
      exact ⟨_, rfl⟩
    · exact ⟨_, rfl⟩
  obtain ⟨r, hr⟩ := hok
  obtain ⟨segs', y, hserved⟩ := h.allocate hx hfit hal hr
  have haddr := hserved.address
  exact ⟨r, hr, by omega⟩

/-- A segment fits: no expansion. -/
theorem malloc_in_place (h : HeapInv s segs) (hs : NoOverflow size) (hpos : 0 < size)
    (hfit : ∃ y ∈ segs, y.Fits (roundSize size)) (hfuel : segs.length < fuel) :
    ReturnsBlock fuel s size ∧ expansions fuel s size = 0 := by
  obtain ⟨fuel, rfl⟩ := Nat.exists_eq_succ_of_ne_zero (Nat.ne_of_gt (Nat.zero_lt_of_lt hfuel))
  obtain ⟨hround, -, hs'⟩ := roundSize_spec hs
  have hready : ¬ s.cheap.ready = false := by
    rw [h.ready]
    decide
  have hwrap : roundSize size + 48 < 18446744073709551616 := by
    unfold NoOverflow at hs'
    omega
  rcases h.finds hwrap (Nat.lt_succ_iff.mp hfuel) with ⟨y, hy, hyfit, hfind⟩ | ⟨hnone, -⟩
  · obtain ⟨r, hr, hne⟩ := h.allocates hy hyfit hround
    rw [ReturnsBlock, UnedKernel.Memory.malloc, expansions, if_neg hready, if_neg (by omega),
      if_neg hready, if_neg (by omega), hfind]
    exact ⟨⟨r.1, r.2, congrArg some hr, hne⟩, rfl⟩
  · obtain ⟨y, hy, hyfit⟩ := hfit
    exact absurd hyfit (hnone y hy)

/-- No segment fits: one expansion, and the request again. -/
theorem malloc_expands (h : HeapInv s segs) (hs : NoOverflow size) (hpos : 0 < size)
    (hnone : ∀ y ∈ segs, ¬ y.Fits (roundSize size)) (hfuel : segs.length ≤ fuel) :
    (s.cheap.heapEnd ≤ expandLength (roundSize size) ∧
        ComesToZero (fuel + 1) s size ∧ expansions (fuel + 1) s size = 1) ∨
      ∃ t segs', Expanded s t segs segs' (expandLength (roundSize size)) ∧
        Memory.malloc (fuel + 1) s size = Memory.malloc fuel t (roundSize size) ∧
        expansions (fuel + 1) s size = expansions fuel t (roundSize size) + 1 := by
  obtain ⟨hround, -, hs'⟩ := roundSize_spec hs
  have hready : ¬ s.cheap.ready = false := by
    rw [h.ready]
    decide
  have hfind : findSegment s.mem (roundSize size) fuel s.cheap.mainSegment = some (.ok none) := by
    have hwrap : roundSize size + 48 < 18446744073709551616 := by
      unfold NoOverflow at hs'
      omega
    rcases h.finds hwrap hfuel with ⟨y, hy, hyfit, -⟩ | ⟨-, hfind⟩
    · exact absurd hyfit (hnone y hy)
    · exact hfind
  obtain ⟨hok, herror⟩ := expandHeap_ends hs' h.page h.pos h.heapEnd_lt
  rw [ComesToZero, UnedKernel.Memory.malloc, expansions, if_neg hready, if_neg (by omega),
    if_neg hready, if_neg (by omega), hfind]
  by_cases hlow : s.cheap.heapEnd ≤ expandLength (roundSize size)
  · left
    simp only [herror hlow, and_self, and_true]
    exact hlow
  · right
    obtain ⟨t, ht⟩ := hok (Nat.not_le.mp hlow)
    obtain ⟨segs', hexpanded⟩ := h.expand hs' hround ht
    simp only [ht]
    exact ⟨t, segs', hexpanded, rfl, rfl⟩

/-- A request ends after at most two expansions. -/
theorem malloc_ends (h : HeapInv s segs) (hs : NoOverflow size) (hpos : 0 < size)
    (hfuel : segs.length + 5 ≤ fuel) :
    expansions fuel s size ≤ 2 ∧ (ReturnsBlock fuel s size ∨
      ComesToZero fuel s size ∧ s.cheap.heapEnd ≤ 2 * expandLength (roundSize size)) := by
  obtain ⟨hround, hle, hs'⟩ := roundSize_spec hs
  obtain ⟨hmod, hlen, -⟩ := expandLength_spec hs'
  have hagain := roundSize_roundSize hs
  by_cases hfit : ∃ y ∈ segs, y.Fits (roundSize size)
  · obtain ⟨hret, hzero⟩ := h.malloc_in_place hs hpos hfit (show segs.length < fuel by omega)
    exact ⟨by omega, .inl hret⟩
  obtain ⟨fuel, rfl⟩ : ∃ k, fuel = k + 1 := ⟨fuel - 1, by omega⟩
  rcases h.malloc_expands hs hpos (fun y hy hyfit => hfit ⟨y, hy, hyfit⟩) (show segs.length ≤ fuel by omega)
    with ⟨hlow, hzero, hone⟩ | ⟨t, segs', hexpanded, hmalloc, hcount⟩
  · exact ⟨by omega, .inr ⟨hzero, by omega⟩⟩
  have hgrows := hexpanded.grows.length_le
  have hpos' : 0 < roundSize size := by omega
  rw [ReturnsBlock, ComesToZero, hmalloc, hcount]
  by_cases hfit' : ∃ y ∈ segs', y.Fits (roundSize size)
  · obtain ⟨hret, hzero⟩ := hexpanded.inv.malloc_in_place hs' hpos' (by rwa [hagain])
      (show segs'.length < fuel by omega)
    exact ⟨by omega, .inl hret⟩
  obtain ⟨fuel, rfl⟩ : ∃ k, fuel = k + 1 := ⟨fuel - 1, by omega⟩
  have hend := hexpanded.heapEnd
  rcases hexpanded.inv.malloc_expands hs' hpos'
    (fun y hy hyfit => hfit' ⟨y, hy, by rwa [hagain] at hyfit⟩) (show segs'.length ≤ fuel by omega)
    with ⟨hlow, hzero, hone⟩ | ⟨t', segs'', hexpanded', hmalloc', hcount'⟩
  · rw [hagain] at hlow
    exact ⟨by omega, .inr ⟨hzero, by omega⟩⟩
  rw [hagain] at hexpanded' hmalloc' hcount'
  have hgrows' := hexpanded'.grows.length_le
  obtain ⟨init, z, rfl, hfree, hlong⟩ := hexpanded.grows.last hlen
  obtain ⟨hret, hzero⟩ := hexpanded'.inv.malloc_in_place hs' hpos'
    (by rw [hagain]; exact hexpanded'.grows.fits hfree hlong hexpanded.length)
    (show segs''.length < fuel by omega)
  rw [hmalloc', hcount', hzero]
  exact ⟨Nat.le_refl 2, .inl hret⟩

end HeapInv

/-- In every run, a request whose size does not wrap with two pages added returns null
for no bytes, and otherwise a block after at most two expansions, unless these come down to
address 0. -/
theorem malloc_two_expansions {s₀ s : HeapState} {heapEnd stackEnd : Nat} {user : Bool}
    {live : List (Nat × Nat)} (hpage : heapEnd % PAGESIZE = 0) (hlow : PAGESIZE < heapEnd)
    (hhigh : heapEnd < 18446744073709551616)
    (hrun : Reaches (HeapStep NoOverflow) (initHeap s₀ heapEnd stackEnd user, []) (s, live))
    (hsize : size + 2 * PAGESIZE < 18446744073709551616) :
    (size = 0 → ∀ fuel, expansions fuel s size = 0 ∧
      malloc (fuel + 1) s size = some (.ok (0, s))) ∧
    (0 < size → ∃ enough, ∀ fuel, enough ≤ fuel → expansions fuel s size ≤ 2 ∧
      (ReturnsBlock fuel s size ∨ ComesToZero fuel s size ∧
        s.cheap.heapEnd ≤ 2 * expandLength (roundSize size))) := by
  obtain ⟨segs, hinv, -⟩ := HeapHolds.reached hpage hlow hhigh hrun
  have hready : ¬ s.cheap.ready = false := by
    rw [show s.cheap.ready = true from hinv.ready]
    decide
  constructor
  · rintro rfl fuel
    constructor
    · cases fuel with
      | zero => rfl
      | succ fuel => rw [expansions, if_neg hready, if_pos rfl]
    · rw [malloc, if_neg hready, if_pos rfl]
  · intro hpos
    have hs : NoOverflow size := by
      unfold NoOverflow
      unfold PAGESIZE at hsize
      omega
    exact ⟨segs.length + 5, fun fuel hfuel => hinv.malloc_ends hs hpos hfuel⟩

theorem malloc_two_expansions_kernelHeap : ∃ enough, ∀ fuel, enough ≤ fuel →
    expansions fuel kernelHeap 5000 ≤ 2 ∧ (ReturnsBlock fuel kernelHeap 5000 ∨
      ComesToZero fuel kernelHeap 5000 ∧
        kernelHeap.cheap.heapEnd ≤ 2 * expandLength (roundSize 5000)) :=
  (malloc_two_expansions (by decide) (by decide) (by decide) .refl (by decide)).2 (by decide)

/-- A request for no bytes. -/
theorem not_malloc_two_expansions : ¬ ∀ (s₀ s : HeapState) (heapEnd stackEnd : Nat) (user : Bool)
    (live : List (Nat × Nat)) (size : Nat), heapEnd % PAGESIZE = 0 → PAGESIZE < heapEnd →
    heapEnd < 18446744073709551616 →
    Reaches (HeapStep NoOverflow) (initHeap s₀ heapEnd stackEnd user, []) (s, live) →
    size + 2 * PAGESIZE < 18446744073709551616 →
    ∃ fuel, expansions fuel s size ≤ 2 ∧ ReturnsBlock fuel s size := by
  intro hall
  obtain ⟨fuel, -, p, s', h, hp⟩ := hall _ kernelHeap 0xffffffff6ffff000 0xffffffff7ffff000 false _ 0
    (by decide) (by decide) (by decide) .refl (by decide)
  exact hp (Prod.mk.inj (malloc_zero rfl h)).1

end UnedKernel.Memory
