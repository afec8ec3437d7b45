import UnedKernel.Memory.HeapRuns

/-! # The free segments of the heap are coalesced

No call leaves two free segments in a row. A segment in use is the main one or
the block of a client, so once all blocks are freed one free segment is left. -/

namespace UnedKernel.Memory
open ByteMem Word Run HeapInv

/-- The segments in use are the main one and the blocks of the clients. -/
def UsedByClients (s : HeapState) (segs : List Seg) (live : List (Nat × Nat)) : Prop :=
  ∀ x ∈ segs, x.free = false → x.addr = s.cheap.mainSegment ∨ ∃ b ∈ live, b.1 = x.addr + 48

section steps

variable {s s' : HeapState} {segs segs' : List Seg} {live : List (Nat × Nat)}

theorem UsedByClients.expanded {len : Nat} (hu : UsedByClients s segs live)
    (h : Expanded s s' segs segs' len) : UsedByClients s' segs' live := by
  intro x hx hf
  rw [h.mainSegment]
  exact hu x ((h.grows.used_iff hf).mp hx) hf

theorem UsedByClients.served {p size : Nat} {y : Seg} (hu : UsedByClients s segs live)
    (h : Served s (p, s') segs segs' size y) : UsedByClients s' segs' ((p, size) :: live) := by
  intro x hx hf
  have hmain : s'.cheap.mainSegment = s.cheap.mainSegment := h.mainSegment
  rw [hmain]
  rcases (h.takes.used_iff hf).mp hx with hold | hnew
  · rcases hu x hold hf with hm | ⟨b, hb, haddr⟩
    · exact .inl hm
    · exact .inr ⟨b, List.mem_cons_of_mem _ hb, haddr⟩
  · exact .inr ⟨(p, size), List.mem_cons_self .., by rw [hnew]; exact h.address⟩

theorem UsedByClients.freed {b : Nat × Nat} {x : Seg} (hu : UsedByClients s segs live)
    (hinv : HeapInv s segs) (hx : x ∈ segs) (hf : x.free = false) (haddr : b.1 = x.addr + 48)
    (h : Freed s s' segs segs' x) : UsedByClients s' segs' (live.erase b) := by
  intro z hz hzf
  have hold := h.releases.used_of_mem hzf hz
  rw [h.mainSegment]
  rcases hu z hold hzf with hm | ⟨c, hc, hcaddr⟩
  · exact .inl hm
  · refine .inr ⟨c, (List.mem_erase_of_ne ?_).mpr hc, hcaddr⟩
    intro heq
    rw [heq, haddr] at hcaddr
    have hzx := hinv.below.addr_inj hold hx (by omega)
    rw [hzx] at hz
    exact h.releases.not_mem hf hinv.below hz

end steps

theorem kept_coalesced : Kept fun s segs live => Coalesced segs ∧ UsedByClients s segs live where
  expanded := fun _ hP h => ⟨h.grows.coalesced hP.1, hP.2.expanded h⟩
  served := fun _ hP h => ⟨h.takes.coalesced h.used hP.1, hP.2.served h⟩
  freed := fun hinv hP _ _ hx hf haddr h =>
    ⟨h.releases.coalesced hP.1, hP.2.freed hinv hx hf haddr h⟩
  written := fun hP => hP

/-! ## What the memory shows -/

/-- The list of the segments in memory, from `mainSegment` to `lastSegment`. -/
structure HeapList (s : HeapState) (headers : List Nat) : Prop where
  head : headers.head? = some s.cheap.mainSegment
  last : headers.getLast? = some s.cheap.lastSegment
  linked : DoublyLinked s.mem 0 headers
  nonzero : ∀ a ∈ headers, a ≠ 0

theorem HeapInv.heapList {s : HeapState} {segs : List Seg} (h : HeapInv s segs) :
    HeapList s (segs.map Seg.addr) := by
  have hne : segs ≠ [] := by
    intro hnil
    rw [hnil] at h
    cases h.head
  refine ⟨?_, ?_, h.chain.doublyLinked, fun a ha => ?_⟩
  · rw [List.head?_map, h.head]
    rfl
  · rw [getLast?_addr hne 0, h.bottom 0, h.lastSegment]
  · obtain ⟨x, hx, rfl⟩ := List.mem_map.mp ha
    have hpos := h.pos
    have hle := h.le_addr hx
    omega

/-- The links leave no choice. -/
theorem DoublyLinked.unique {m : Bytes} {l k : Nat} {xs ys : List Nat} (hxs : DoublyLinked m l xs)
    (hys : DoublyLinked m k ys) (hx : ∀ a ∈ xs, a ≠ 0) (hy : ∀ a ∈ ys, a ≠ 0)
    (hhead : xs.headD 0 = ys.headD 0) : xs = ys := by
  induction xs generalizing l k ys with
  | nil =>
    cases ys with
    | nil => rfl
    | cons b ys => exact absurd hhead.symm (hy b (List.mem_cons_self ..))
  | cons a xs ih =>
    cases ys with
    | nil => exact absurd hhead (hx a (List.mem_cons_self ..))
    | cons b ys =>
      obtain rfl : a = b := hhead
      obtain ⟨-, hnext, hxs⟩ := hxs
      obtain ⟨-, hnext', hys⟩ := hys
      rw [ih hxs hys (fun c hc => hx c (List.mem_cons_of_mem _ hc))
        (fun c hc => hy c (List.mem_cons_of_mem _ hc)) (hnext.symm.trans hnext')]

theorem HeapList.unique {s : HeapState} {xs ys : List Nat} (hxs : HeapList s xs)
    (hys : HeapList s ys) : xs = ys := by
  refine hxs.linked.unique hys.linked hxs.nonzero hys.nonzero ?_
  have hhead := hxs.head.trans hys.head.symm
  rw [List.headD_eq_head?_getD, List.headD_eq_head?_getD, hhead]

/-- No two segments of the list that are next to each other are free. -/
def CoalescedHeaders (m : Bytes) (headers : List Nat) : Prop :=
  headers.IsChain fun a b => ¬ (Segment.free.get m a ≠ 0 ∧ Segment.free.get m b ≠ 0)

theorem Chain.free_iff {m : Bytes} {l n : Nat} {segs : List Seg} (h : Chain m l n segs) {x : Seg}
    (hx : x ∈ segs) : Segment.free.get m x.addr ≠ 0 ↔ x.free = true := by
  induction segs generalizing l with
  | nil => cases hx
  | cons y rest ih =>
    rcases List.mem_cons.mp hx with rfl | hx
    · rw [free_of_header h.1]
      cases hf : x.free <;> simp [Seg.header, hf]
    · exact ih h.2 hx

theorem Coalesced.headers {m : Bytes} {l n : Nat} {segs : List Seg} (hc : Coalesced segs)
    (h : Chain m l n segs) : CoalescedHeaders m (segs.map Seg.addr) := by
  refine (List.isChain_map _).mpr (List.IsChain.imp_of_mem_imp (fun x y hx hy hxy => ?_) hc)
  rw [h.free_iff hx, h.free_iff hy]
  exact hxy

/-- Without blocks the list is the main segment and a free one. -/
theorem HeapInv.eq_pair {s : HeapState} {segs : List Seg} (h : HeapInv s segs) (hc : Coalesced segs)
    (hu : UsedByClients s segs []) :
    ∃ z, segs = [⟨s.cheap.mainSegment, 0, false⟩, z] ∧ z.free = true := by
  have hnodup := h.below.nodup
  obtain ⟨x, rest, rfl⟩ : ∃ x rest, segs = x :: rest :=
    List.exists_cons_of_ne_nil fun hnil => by rw [hnil] at h; cases h.head
  have hx : x = ⟨s.cheap.mainSegment, 0, false⟩ := Option.some.inj h.head
  have hfree : ∀ y ∈ rest, y.free = true := by
    intro y hy
    by_contra hused
    rcases hu y (List.mem_cons_of_mem _ hy) (by simpa using hused) with hmain | ⟨b, hb, -⟩
    · have heq := h.below.addr_inj (List.mem_cons_of_mem _ hy) (List.mem_cons_self ..)
        (hmain.trans (by rw [hx]))
      rw [heq] at hy
      exact (List.nodup_cons.mp hnodup).1 hy
    · cases hb
  cases rest with
  | nil =>
    have hend := h.bottom 0
    have hgrown := h.grown
    rw [hx] at hend
    exact absurd hend (Nat.ne_of_gt hgrown)
  | cons y rest =>
    cases rest with
    | nil => exact ⟨y, by rw [hx], hfree y (List.mem_cons_self ..)⟩
    | cons z rest =>
      obtain ⟨-, hbelow⟩ := coalesced_cons_iff.mp (coalesced_cons_iff.mp hc).1
      have hz := hbelow (hfree y (List.mem_cons_self ..)) z rfl
      rw [hfree z (by simp)] at hz
      cases hz

/-- In every run the list that the memory holds is coalesced; without blocks it is the main
segment and a free one. -/
theorem heap_coalesced {s₀ s : HeapState} {heapEnd stackEnd : Nat} {user : Bool}
    {live : List (Nat × Nat)} (hpage : heapEnd % PAGESIZE = 0) (hlow : PAGESIZE < heapEnd)
    (hhigh : heapEnd < 18446744073709551616)
    (hrun : Reaches (HeapStep NoOverflow) (initHeap s₀ heapEnd stackEnd user, []) (s, live)) :
    ∃ headers, HeapList s headers ∧ CoalescedHeaders s.mem headers ∧
      (live = [] → ∃ a, headers = [s.cheap.mainSegment, a] ∧ Segment.free.get s.mem a ≠ 0) := by
  obtain ⟨init, hinit⟩ : ∃ init, initHeap s₀ heapEnd stackEnd user = init := ⟨_, rfl⟩
  have hshape := initHeap_inv hpage hlow hhigh hinit
  rw [hinit] at hrun
  have hholds : HeapHoldsWith (fun s segs live => Coalesced segs ∧ UsedByClients s segs live)
      (init, []) := by
    refine ⟨_, hshape, fun b hb => (nomatch hb), List.nodup_nil, ?_, ?_⟩
    · exact coalesced_cons_iff.mpr ⟨coalesced_cons_iff.mpr ⟨.nil, fun _ n hn => by cases hn⟩,
        fun hf => by cases hf⟩
    · intro x hx hf
      rcases List.mem_cons.mp hx with hmain | hx
      · rw [hmain]
        exact .inl (congrArg Seg.addr (Option.some.inj hshape.head))
      · rw [List.mem_singleton.mp hx] at hf
        cases hf
  obtain ⟨segs, hinv, -, -, hc, hu⟩ :=
    invariant _ (HeapHoldsWith.step kept_coalesced) hholds hrun
  refine ⟨segs.map Seg.addr, hinv.heapList, hc.headers hinv.chain, ?_⟩
  intro hlive
  subst hlive
  obtain ⟨z, rfl, hz⟩ := hinv.eq_pair hc hu
  exact ⟨z.addr, rfl, (hinv.chain.free_iff (by simp)).mpr hz⟩

/-- A block is taken from the kernel heap and freed. -/
theorem kernelHeap_malloc_free : ∃ p s t, malloc 4 kernelHeap 100 = some (.ok (p, s)) ∧ p ≠ 0 ∧
    heapFree s p = .ok t := by
  have hview : ((malloc 4 kernelHeap 100).bind fun r => r.toOption.bind fun x =>
      (heapFree x.2 x.1).toOption.map fun _ => decide (x.1 ≠ 0)) = some true := by
    decide +kernel
  simp only [Option.bind_eq_some_iff, Option.map_eq_some_iff, decide_eq_true_eq] at hview
  obtain ⟨r, hr, ⟨p, s⟩, hx, t, ht, hp⟩ := hview
  cases r with
  | error e => cases hx
  | ok x =>
    obtain rfl := Option.some.inj hx
    cases hfree : heapFree s p with
    | error e =>
      simp only [hfree] at ht
      cases ht
    | ok t => exact ⟨p, s, t, hr, hp, hfree⟩

theorem heap_coalesced_kernelHeap : ∃ p s t, malloc 4 kernelHeap 100 = some (.ok (p, s)) ∧
    heapFree s p = .ok t ∧ ∃ a, HeapList t [t.cheap.mainSegment, a] ∧
    Segment.free.get t.mem a ≠ 0 := by
  obtain ⟨p, s, t, hm, hp, hf⟩ := kernelHeap_malloc_free
  have hfirst : HeapStep NoOverflow (kernelHeap, []) (s, [(p, 100)]) := by
    have hstep : HeapStep NoOverflow (kernelHeap, []) _ := HeapStep.malloc (by unfold NoOverflow; decide) hm
    rwa [if_neg hp] at hstep
  have hsecond : HeapStep NoOverflow (s, [(p, 100)]) (t, [(p, 100)].erase (p, 100)) :=
    .free (List.mem_singleton_self _) hf
  rw [List.erase_cons_head] at hsecond
  obtain ⟨headers, hlist, -, hempty⟩ := heap_coalesced (by decide) (by decide) (by decide)
    ((Relation.ReflTransGen.single hfirst).tail hsecond)
  obtain ⟨a, ha, hfree⟩ := hempty rfl
  exact ⟨p, s, t, hm, hf, a, ha ▸ hlist, hfree⟩

end UnedKernel.Memory
