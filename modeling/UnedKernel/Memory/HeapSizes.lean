import UnedKernel.Memory.HeapRuns

/-! # The sizes of the blocks

`_malloc` rounds a size up to 16 and `_calloc` multiplies two, both modulo 2 ^ 64. A
block has the size asked for as long as neither the sizes nor their products wrap. -/

namespace UnedKernel.Memory
open ByteMem Word Run HeapInv

/-- No block is smaller than asked for, for the sizes that satisfy `ok`, and those of
`_calloc` hold zeros. -/
structure AllocatesEnough (ok : Nat → Prop) (s : HeapState) : Prop where
  malloc : ∀ fuel size p (s' : HeapState), 0 < size → size < 18446744073709551616 → ok size →
    malloc fuel s size = some (.ok (p, s')) → p ≠ 0 → size ≤ blockLength s' p
  calloc : ∀ fuel num size p (s' : HeapState), num < 18446744073709551616 →
    size < 18446744073709551616 → ok (num * size) →
    calloc fuel s num size = some (.ok (p, s')) → p ≠ 0 →
    num * size ≤ blockLength s' p ∧ ∀ i, i < num * size → s'.mem (p + i) = 0

variable {s s' : HeapState} {live : List (Nat × Nat)} {fuel size num p : Nat}

theorem malloc_length (ht : HeapHolds (s, live)) (hs : NoOverflow size)
    (h : malloc fuel s size = some (.ok (p, s'))) (hp : p ≠ 0) :
    size ≤ blockLength s' p ∧ 48 ≤ p ∧ p < 18446744073709551616 := by
  have hnew := ht.malloc hs h
  rw [if_neg hp] at hnew
  obtain ⟨segs', hinv', hlive', -⟩ := hnew
  obtain ⟨y, hy, -, haddr, hpos, hle⟩ := hlive' (p, size) List.mem_cons_self
  simp only at haddr hpos hle hinv'
  rw [haddr, hinv'.blockLength_eq hy (Nat.lt_of_lt_of_le hpos hle)]
  have hmain := hinv'.top
  have htop := hinv'.top_le hy
  unfold Seg.top at htop
  exact ⟨hle, by omega, by omega⟩

/-- What `_malloc` gives is a pointer of 64 bits to a block that no client holds. -/
theorem malloc_fresh (ht : HeapHolds (s, live)) (hs : NoOverflow size) (hpos : 0 < size)
    (h : malloc fuel s size = some (.ok (p, s'))) :
    p ≠ 0 ∧ p < 18446744073709551616 ∧ p ∉ live.map Prod.fst := by
  obtain ⟨segs, hinv, hlive, -⟩ := id ht
  obtain ⟨segs', -, hk, z, hz, -, haddr, -, hne⟩ := hinv.malloc hs hpos h
  simp only at haddr
  have hp : p ≠ 0 := by omega
  exact ⟨hp, (malloc_length ht hs h hp).2.2, not_mem_of_fresh hlive haddr hne⟩

theorem calloc_eq (hready : s.cheap.ready = true) (hs : num * size < 18446744073709551616)
    (h : calloc fuel s num size = some (.ok (p, s'))) :
    ∃ t : HeapState, malloc fuel s (num * size) = some (.ok (p, t)) ∧
      s' = { t with mem := fill t.mem p (num * size) 0 } := by
  rw [calloc, if_neg (by rw [hready]; decide), u64_of_lt hs] at h
  obtain ⟨r, hr, hmap⟩ := Option.map_eq_some_iff.mp h
  cases r with
  | error e => cases hmap
  | ok q =>
    obtain ⟨rfl, rfl⟩ := Prod.mk.inj (Except.ok.inj hmap)
    exact ⟨q.2, hr, rfl⟩

/-- The zeros of `_calloc` do not touch the header of the block. -/
theorem blockLength_fill {t : HeapState} {n : Nat} (hp : 48 ≤ p) (hlt : p < 18446744073709551616) :
    blockLength { t with mem := fill t.mem p n 0 } p = blockLength t p := by
  have hheader : getHeapSegmentHeader p = p - 48 := sub64_of_le hp hlt
  have hsame : header (fill t.mem p n 0) (p - 48) = header t.mem (p - 48) :=
    header_fill (.inl (by omega))
  rw [blockLength, blockLength, hheader, length_of_header hsame]
  rfl

theorem HeapHolds.allocatesEnough (ht : HeapHolds (s, live)) : AllocatesEnough NoOverflow s where
  malloc fuel size p s' hpos hword hs h hp := (malloc_length ht hs h hp).1
  calloc fuel num size p s' hnum hsize hs h hp := by
    obtain ⟨segs, hinv, -⟩ := id ht
    obtain ⟨t, hm, rfl⟩ := calloc_eq hinv.ready (by unfold NoOverflow at hs; omega) h
    obtain ⟨hle, hlow, hlt⟩ := malloc_length ht hs hm hp
    refine ⟨(blockLength_fill hlow hlt).symm ▸ hle, fun i hi => ?_⟩
    exact fill_apply_in _ (Nat.le_add_right p i) (by omega)

/-- A call of `_calloc` is one of `_malloc` and a write of the client to the new block. -/
theorem calloc_reaches (ht : HeapHolds (s, live)) (hs : NoOverflow (num * size))
    (h : calloc fuel s num size = some (.ok (p, s'))) (hp : p ≠ 0) :
    Reaches (HeapStep NoOverflow) (s, live) (s', (p, num * size) :: live) := by
  obtain ⟨segs, hinv, -⟩ := id ht
  obtain ⟨t, hm, rfl⟩ := calloc_eq hinv.ready (by unfold NoOverflow at hs; omega) h
  obtain ⟨hle, -, -⟩ := malloc_length ht hs hm hp
  have hstep : HeapStep NoOverflow (s, live) (t, (p, num * size) :: live) := by
    have hmalloc : HeapStep NoOverflow (s, live)
        (t, if p = 0 then live else (p, num * size) :: live) := .malloc hs hm
    rwa [if_neg hp] at hmalloc
  refine .tail (.single hstep) (.write fun a ha => fill_apply_out _ ?_)
  have hblock := ha (p, num * size) List.mem_cons_self
  simp only at hblock
  omega

/-- In every run whose sizes, with a header and rounded up to pages, fit below 2 ^ 64, no
block is smaller than asked for, also where the size is a product that fits. -/
theorem heap_allocates_enough {s₀ s : HeapState} {heapEnd stackEnd : Nat} {user : Bool}
    {live : List (Nat × Nat)} (hpage : heapEnd % PAGESIZE = 0) (hlow : PAGESIZE < heapEnd)
    (hhigh : heapEnd < 18446744073709551616)
    (hrun : Reaches (HeapStep NoOverflow) (initHeap s₀ heapEnd stackEnd user, []) (s, live)) :
    AllocatesEnough NoOverflow s :=
  (HeapHolds.reached hpage hlow hhigh hrun).allocatesEnough

theorem heap_allocates_enough_kernelHeap : AllocatesEnough NoOverflow kernelHeap :=
  heap_allocates_enough (by decide) (by decide) (by decide) .refl

/-- The largest size is rounded up to 0, and splits a free segment. -/
theorem kernelHeap_largest : ∃ p s, malloc 4 kernelHeap 18446744073709551615 = some (.ok (p, s)) ∧
    p ≠ 0 ∧ blockLength s p = 0 := by
  have hview : ((malloc 4 kernelHeap 18446744073709551615).bind fun r => r.toOption.map fun x =>
      x.1 != 0 && blockLength x.2 x.1 == 0) = some true := by decide +kernel
  simp only [Option.bind_eq_some_iff, Option.map_eq_some_iff, Bool.and_eq_true, bne_iff_ne,
    beq_iff_eq] at hview
  obtain ⟨r, hr, ⟨p, s⟩, hx, hp, hlen⟩ := hview
  cases r with
  | error e => cases hx
  | ok x =>
    obtain rfl := Option.some.inj hx
    exact ⟨p, s, hr, hp, hlen⟩

/-- The block of that request is empty. -/
theorem not_heap_allocates_enough : ¬ ∀ (s₀ s : HeapState) (heapEnd stackEnd : Nat) (user : Bool)
    (live : List (Nat × Nat)), heapEnd % PAGESIZE = 0 → PAGESIZE < heapEnd →
    heapEnd < 18446744073709551616 →
    Reaches (HeapStep fun size => size < 18446744073709551616)
      (initHeap s₀ heapEnd stackEnd user, []) (s, live) → AllocatesEnough (fun _ => True) s := by
  intro hall
  obtain ⟨p, s, h, hp, hlen⟩ := kernelHeap_largest
  have henough := (hall _ kernelHeap 0xffffffff6ffff000 0xffffffff7ffff000 false _ (by decide)
    (by decide) (by decide) .refl).malloc 4 _ p s (by decide) (by decide) trivial h hp
  rw [hlen] at henough
  exact absurd henough (by decide)

end UnedKernel.Memory
