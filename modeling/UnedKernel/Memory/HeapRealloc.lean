import UnedKernel.Memory.HeapContents

/-! # Moving a block

`_realloc` takes a new block, copies the bytes of the old one into it and frees the old
one. What it copies is in a segment of its own, so every other block keeps its bytes. -/

namespace UnedKernel.Memory
open ByteMem Word Run

/-- The list of the memory has a segment in use with its payload at `p`. -/
def InUse (s : HeapState) (p : Nat) : Prop :=
  ∃ headers, HeapList s headers ∧ ∃ a ∈ headers, a + 48 = p ∧ Segment.free.get s.mem a = 0

/-- The block at `q` takes the place of block `b`, and the others are as they were. -/
structure Moved (s s' : HeapState) (live : List (Nat × Nat)) (b : Nat × Nat) (size q : Nat) : Prop where
  block : InUse s' q
  room : size ≤ blockLength s' q
  contents : ∀ i, i < min size (blockLength s b.1) → s'.mem (q + i) = s.mem (b.1 + i)
  released : ¬ InUse s' b.1
  others : ∀ c ∈ live.erase b, InUse s' c.1 ∧ blockLength s' c.1 = blockLength s c.1 ∧
    ∀ i, i < blockLength s c.1 → s'.mem (c.1 + i) = s.mem (c.1 + i)
  safe : HeapSafe (s', (q, size) :: live.erase b)

namespace HeapInv

variable {s s' : HeapState} {segs : List Seg}

theorem inUse_iff (h : HeapInv s segs) {p : Nat} :
    InUse s p ↔ ∃ x ∈ segs, x.free = false ∧ x.addr + 48 = p := by
  have hfree : ∀ x ∈ segs, Segment.free.get s.mem x.addr = 0 ↔ x.free = false := fun x hx => by
    have hiff := h.chain.free_iff hx
    rw [← Bool.not_eq_true, ← hiff, not_not]
  constructor
  · intro ⟨headers, hlist, a, ha, hp, hused⟩
    rw [hlist.unique h.heapList] at ha
    obtain ⟨x, hx, hxa⟩ := List.mem_map.mp ha
    rw [← hxa] at hp hused
    exact ⟨x, hx, (hfree x hx).mp hused, hp⟩
  · intro ⟨x, hx, hused, hp⟩
    exact ⟨_, h.heapList, x.addr, List.mem_map_of_mem hx, hp, (hfree x hx).mpr hused⟩

/-- A segment in use can be freed. -/
theorem free_ok (h : HeapInv s segs) {x : Seg} (hx : x ∈ segs) (hf : x.free = false)
    (hpos : 0 < x.length) : ∃ s', heapFree s (x.addr + 48) = .ok s' := by
  have htop := h.top
  have hxtop := h.top_le hx
  unfold Seg.top at hxtop
  have hheader : sub64 (x.addr + 48) sizeofHeader = x.addr := by
    rw [sub64_of_le (by unfold sizeofHeader; omega) (by omega)]
    exact Nat.add_sub_cancel ..
  have hsig := h.chain.signature hx
  have hused : ¬ Segment.free.get s.mem x.addr ≠ 0 := by
    rw [h.chain.free_iff hx, hf]
    decide
  rw [heapFree, if_neg (by rw [h.ready]; decide), if_neg (by omega)]
  simp only [hheader]
  rw [if_neg (not_not.mpr hsig), if_neg hused]
  exact ⟨_, rfl⟩

end HeapInv

/-- `_realloc`, when `_malloc` finds a block and `_free` takes the old one. -/
theorem realloc_moves {s s' t : HeapState} {fuel buffer size q : Nat} (hready : s.cheap.ready = true)
    (hm : malloc fuel s size = some (.ok (q, t))) (hq : q ≠ 0) (hbuffer : buffer ≠ 0)
    (hf : heapFree { t with
      mem := copy t.mem q t.mem buffer (min size (blockLength t buffer)) } buffer = .ok s') :
    realloc fuel s buffer size = some (.ok (q, s')) := by
  have hold : min size (blockLength t buffer) =
      if size < blockLength t buffer then size else blockLength t buffer := by
    split <;> omega
  rw [hold] at hf
  rw [realloc, if_neg (by rw [hready]; decide), hm]
  simp only [Option.map_some, Except.bind, if_neg hq, if_neg hbuffer]
  unfold blockLength at hf
  rw [hf]
  rfl

/-- `_malloc` returns a block, and `_realloc` moves another one there. -/
theorem HeapHolds.moves {s t : HeapState} {live : List (Nat × Nat)} {b : Nat × Nat}
    {fuel size q : Nat} (ht : HeapHolds (s, live)) (hb : b ∈ live) (hsize : 0 < size)
    (hs : NoOverflow size) (hm : UnedKernel.Memory.malloc fuel s size = some (.ok (q, t))) :
    ∃ s', realloc fuel s b.1 size = some (.ok (q, s')) ∧ Moved s s' live b size q := by
  obtain ⟨segs, hinv, hlive, hnodup⟩ := id ht
  obtain ⟨x, hx, hxf, hxb, hpos, hle⟩ := hlive b hb
  obtain ⟨segs₁, hinv₁, hkeeps, y, hy, hyf, hqy, hyl, hynew⟩ := hinv.malloc hs hsize hm
  simp only at hinv₁ hqy
  have hbytes : ∀ a, Payload segs a → t.mem a = s.mem a := fun a ha => hinv.malloc_payload hs hsize hm ha
  have hx₁ := hkeeps x hx hxf
  have hxlen : 0 < x.length := by omega
  have hold : blockLength t b.1 = x.length := by rw [hxb, hinv₁.blockLength_eq hx₁ hxlen]
  -- the copy stays in the payload of `y`
  obtain ⟨n, hn⟩ : ∃ n, min size (blockLength t b.1) = n := ⟨_, rfl⟩
  obtain ⟨t', ht'⟩ : ∃ t', ({ t with mem := copy t.mem q t.mem b.1 n } : HeapState) = t' := ⟨_, rfl⟩
  have hcopied : t'.mem = copy t.mem q t.mem b.1 n := by rw [← ht']
  have hinv₂ : HeapInv t' segs₁ := by
    rw [← ht']
    refine hinv₁.frame fun a ha => copy_apply_out t.mem t.mem ?_
    have hout := ha y hy hyf
    unfold Seg.top at hout
    omega
  obtain ⟨s', hfree⟩ := hinv₂.free_ok hx₁ hxf hxlen
  obtain ⟨segs', hfreed⟩ := hinv₂.frees hx₁ hxlen hfree
  have hxy : y ≠ x := fun heq => hynew x hx hxf (by rw [heq])
  have hrealloc : realloc fuel s b.1 size = some (.ok (q, s')) := by
    refine realloc_moves hinv.ready hm (by omega) (by omega) ?_
    rw [hn, ht', hxb]
    exact hfree
  have hlen : blockLength s b.1 = x.length := by rw [hxb, hinv.blockLength_eq hx hxlen]
  have hsafe : HeapHolds (s', (q, size) :: live.erase b) := by
    have hstep := ht.step _ _ (.realloc hb hs hrealloc)
    rwa [if_neg (by omega)] at hstep
  have hy' := hfreed.releases.used hyf hy hxy
  refine ⟨s', hrealloc, ?_, ?_, fun i hi => ?_, fun hused => ?_, fun c hc => ?_, hsafe.safe⟩
  · exact hfreed.inv.inUse_iff.mpr ⟨y, hy', hyf, hqy.symm⟩
  · rw [hqy, hfreed.inv.blockLength_eq hy' (by omega)]
    exact hyl
  · rw [hinv₂.free_payload hx₁ hxlen hfree hy hyf hxy (by omega) (by unfold Seg.top; omega),
      hcopied, copy_apply_in t.mem t.mem (by omega) (by omega), Nat.add_sub_cancel_left]
    exact hbytes _ ⟨x, hx, hxf, by omega, by unfold Seg.top; omega⟩
  · obtain ⟨w, hw, hwf, hwb⟩ := hfreed.inv.inUse_iff.mp hused
    have hw₁ := hfreed.releases.used_of_mem hwf hw
    obtain rfl : w = x := hinv₁.below.addr_inj hw₁ hx₁ (by omega)
    exact hfreed.releases.not_mem hwf hinv₁.below hw
  · obtain ⟨hne, hcl⟩ := (hnodup.of_map Prod.fst).mem_erase_iff.mp hc
    obtain ⟨z, hz, hzf, hzc, hzpos, hzle⟩ := hlive c hcl
    have hzx : z ≠ x := fun heq => hne (eq_of_addr hnodup hcl hb (by rw [hzc, hxb, heq]))
    have hz₁ := hkeeps z hz hzf
    have hz' := hfreed.releases.used hzf hz₁ hzx
    have hzlen : 0 < z.length := by omega
    have hclen : blockLength s c.1 = z.length := by rw [hzc, hinv.blockLength_eq hz hzlen]
    refine ⟨hfreed.inv.inUse_iff.mpr ⟨z, hz', hzf, hzc.symm⟩, ?_, fun i hi => ?_⟩
    · rw [hclen, hzc, hfreed.inv.blockLength_eq hz' hzlen]
    · have hzy : q + n ≤ c.1 + i ∨ c.1 + i < q := by
        rcases hinv₁.below.apart hz₁ hy with heq | hzy | hyz
        · exact absurd (congrArg Seg.addr heq) (hynew z hz hzf)
        · unfold Seg.top at hzy
          omega
        · unfold Seg.top at hyz
          omega
      rw [hinv₂.free_payload hx₁ hxlen hfree hz₁ hzf hzx (by omega) (by unfold Seg.top; omega),
        hcopied, copy_apply_out t.mem t.mem hzy.symm]
      exact hbytes _ ⟨z, hz, hzf, by omega, by unfold Seg.top; omega⟩

/-- In every run, `_realloc` of a block the clients hold moves it, unless the heap comes
down to address 0; of no bytes it returns null and leaves the heap as it is. -/
theorem realloc_preserves {s₀ s : HeapState} {heapEnd stackEnd : Nat} {user : Bool}
    {live : List (Nat × Nat)} {b : Nat × Nat} (hpage : heapEnd % PAGESIZE = 0)
    (hlow : PAGESIZE < heapEnd) (hhigh : heapEnd < 18446744073709551616)
    (hrun : Reaches (HeapStep NoOverflow) (initHeap s₀ heapEnd stackEnd user, []) (s, live))
    (hb : b ∈ live) :
    (InUse s b.1 ∧ ∀ fuel, realloc (fuel + 1) s b.1 0 = some (.ok (0, s))) ∧
    ∀ size, 0 < size → NoOverflow size → ∃ enough, ∀ fuel, enough ≤ fuel →
      (∃ q s', realloc fuel s b.1 size = some (.ok (q, s')) ∧ q ≠ 0 ∧ Moved s s' live b size q) ∨
      realloc fuel s b.1 size = some (.error ⟨"Failed to expand heap"⟩) ∧
        s.cheap.heapEnd ≤ 2 * expandLength (roundSize size) := by
  have hholds := HeapHolds.reached hpage hlow hhigh hrun
  obtain ⟨segs, hinv, hlive, -⟩ := id hholds
  have hready : ¬ s.cheap.ready = false := by
    rw [show s.cheap.ready = true from hinv.ready]
    decide
  refine ⟨⟨?_, fun fuel => ?_⟩, fun size hsize hs => ?_⟩
  · obtain ⟨x, hx, hf, haddr, -⟩ := hlive b hb
    exact hinv.inUse_iff.mpr ⟨x, hx, hf, haddr.symm⟩
  · rw [realloc, if_neg hready, malloc, if_neg hready, if_pos rfl]
    rfl
  · refine ⟨segs.length + 5, fun fuel hfuel => ?_⟩
    rcases (hinv.malloc_ends hs hsize hfuel).2 with ⟨q, t, hm, hq⟩ | ⟨hzero, hend⟩
    · obtain ⟨s', hrealloc, hmoved⟩ := hholds.moves hb hsize hs hm
      exact .inl ⟨q, s', hrealloc, hq, hmoved⟩
    · refine .inr ⟨?_, hend⟩
      rw [ComesToZero] at hzero
      rw [realloc, if_neg hready, hzero]
      rfl

/-- A block of the kernel heap. -/
theorem kernelHeap_block : ∃ p s, malloc 4 kernelHeap 100 = some (.ok (p, s)) ∧ p ≠ 0 ∧
    s.cheap.heapEnd = 0xffffffff6fffe000 ∧ s.cheap.mainSegment = 0xffffffff6fffefd0 := by
  have hview : ((malloc 4 kernelHeap 100).bind fun r => r.toOption.map fun x =>
      x.1 != 0 && x.2.cheap.heapEnd == 0xffffffff6fffe000 &&
        x.2.cheap.mainSegment == 0xffffffff6fffefd0) = some true := by decide +kernel
  simp only [Option.bind_eq_some_iff, Option.map_eq_some_iff, Bool.and_eq_true, bne_iff_ne,
    beq_iff_eq] at hview
  obtain ⟨r, hr, ⟨p, s⟩, hx, ⟨hp, hend⟩, hmain⟩ := hview
  cases r with
  | error e => cases hx
  | ok x =>
    obtain rfl := Option.some.inj hx
    exact ⟨p, s, hr, hp, hend, hmain⟩

theorem kernelHeap_block_reaches {p : Nat} {s : HeapState}
    (hm : malloc 4 kernelHeap 100 = some (.ok (p, s))) (hp : p ≠ 0) :
    Reaches (HeapStep NoOverflow) (kernelHeap, []) (s, [(p, 100)]) := by
  have hstep : HeapStep NoOverflow (kernelHeap, []) _ := HeapStep.malloc (by unfold NoOverflow; decide) hm
  rw [if_neg hp] at hstep
  exact .single hstep

theorem realloc_preserves_kernelHeap : ∃ p s, malloc 4 kernelHeap 100 = some (.ok (p, s)) ∧
    InUse s p ∧ ∃ enough, ∀ fuel, enough ≤ fuel →
      (∃ q s', realloc fuel s p 5000 = some (.ok (q, s')) ∧ q ≠ 0 ∧
        Moved s s' [(p, 100)] (p, 100) 5000 q) ∨
      realloc fuel s p 5000 = some (.error ⟨"Failed to expand heap"⟩) ∧
        s.cheap.heapEnd ≤ 2 * expandLength (roundSize 5000) := by
  obtain ⟨p, s, hm, hp, -⟩ := kernelHeap_block
  obtain ⟨⟨hused, -⟩, hmoves⟩ := realloc_preserves (by decide) (by decide) (by decide)
    (kernelHeap_block_reaches hm hp) (List.mem_singleton_self (p, 100))
  exact ⟨p, s, hm, hused, hmoves 5000 (by decide) (by unfold NoOverflow; decide)⟩

/-- The largest size that does not wrap comes down to address 0. -/
theorem not_realloc_preserves : ¬ ∀ (s₀ s : HeapState) (heapEnd stackEnd : Nat) (user : Bool)
    (live : List (Nat × Nat)) (b : Nat × Nat) (size : Nat), heapEnd % PAGESIZE = 0 →
    PAGESIZE < heapEnd → heapEnd < 18446744073709551616 →
    Reaches (HeapStep NoOverflow) (initHeap s₀ heapEnd stackEnd user, []) (s, live) → b ∈ live →
    0 < size → NoOverflow size → ∃ fuel q s', realloc fuel s b.1 size = some (.ok (q, s')) ∧
      q ≠ 0 ∧ Moved s s' live b size q := by
  intro hall
  obtain ⟨p, s, hm, hp, hend, hmain⟩ := kernelHeap_block
  have hrun := kernelHeap_block_reaches hm hp
  have hs : NoOverflow 18446744073709547472 := by unfold NoOverflow; decide
  obtain ⟨fuel, q, s', hrealloc, hq, -⟩ := hall _ s 0xffffffff6ffff000 0xffffffff7ffff000 false
    [(p, 100)] (p, 100) 18446744073709547472 (by decide) (by decide) (by decide) hrun
    (List.mem_singleton_self _) (by decide) hs
  obtain ⟨segs, hinv, -⟩ := HeapHolds.reached (by decide) (by decide) (by decide) hrun
  simp only at hinv
  obtain ⟨t, hmalloc, -⟩ := realloc_eq hinv.ready hrealloc
  have hround : roundSize 18446744073709547472 = 18446744073709547472 := by decide
  rcases hinv.malloc_cases hs (by decide) hmalloc with ⟨x, hx, hfit, -⟩ | ⟨k, t', -, -, hexp, -⟩
  · have hlow := hinv.le_addr hx
    have hhigh := hinv.top_le hx
    unfold Seg.Fits at hfit
    unfold Seg.top at hhigh
    rw [hround] at hfit
    omega
  · rw [hround, (expandHeap_ends hs hinv.page hinv.pos hinv.heapEnd_lt).2 (by rw [hend]; decide)] at hexp
    cases hexp

end UnedKernel.Memory
