import UnedKernel.Memory.HeapSafety

/-! # Runs of the heap

Calls of `_malloc`, `_free` and `_realloc`, and writes of the clients to the
blocks they hold, in any order. -/

namespace UnedKernel.Memory
open ByteMem Word Run HeapInv

/-- The heap, and the blocks its clients hold: their address and the size asked for. -/
abbrev HeapConfig := HeapState × List (Nat × Nat)

/-- The length of the block at `p`. -/
def blockLength (s : HeapState) (p : Nat) : Nat :=
  Segment.length.get s.mem (getHeapSegmentHeader p)

/-- The calls of the heap with sizes that satisfy `ok`, and the writes of its clients. -/
inductive HeapStep (ok : Nat → Prop) : HeapConfig → HeapConfig → Prop
  | malloc {s s' : HeapState} {live : List (Nat × Nat)} {fuel size p : Nat} (hok : ok size)
      (h : malloc fuel s size = some (.ok (p, s'))) :
      HeapStep ok (s, live) (s', if p = 0 then live else (p, size) :: live)
  | free {s s' : HeapState} {live : List (Nat × Nat)} {b : Nat × Nat} (hb : b ∈ live)
      (h : heapFree s b.1 = .ok s') : HeapStep ok (s, live) (s', live.erase b)
  | realloc {s s' : HeapState} {live : List (Nat × Nat)} {b : Nat × Nat} {fuel size p : Nat}
      (hb : b ∈ live) (hok : ok size) (h : realloc fuel s b.1 size = some (.ok (p, s'))) :
      HeapStep ok (s, live) (s', if p = 0 then live else (p, size) :: live.erase b)
  | reallocNull {s s' : HeapState} {live : List (Nat × Nat)} {fuel size p : Nat} (hok : ok size)
      (h : realloc fuel s 0 size = some (.ok (p, s'))) :
      HeapStep ok (s, live) (s', if p = 0 then live else (p, size) :: live)
  | write {s : HeapState} {live : List (Nat × Nat)} {m : Bytes}
      (h : ∀ a, (∀ b ∈ live, ¬ (b.1 ≤ a ∧ a < b.1 + blockLength s b.1)) → m a = s.mem a) :
      HeapStep ok (s, live) ({ s with mem := m }, live)

/-- Following `next` from the first address visits the others and ends; `last` leads back. -/
def DoublyLinked (m : Bytes) : Nat → List Nat → Prop
  | _, [] => True
  | l, a :: rest => Segment.last.get m a = l ∧ Segment.next.get m a = rest.headD 0 ∧
      DoublyLinked m a rest

/-- What the clients rely on. -/
def HeapSafe (t : HeapConfig) : Prop :=
  ∃ headers : List Nat,
    headers.head? = some t.1.cheap.mainSegment ∧ headers.getLast? = some t.1.cheap.lastSegment ∧
    DoublyLinked t.1.mem 0 headers ∧ headers.Pairwise (fun a b => b < a) ∧
    (∀ a ∈ headers, Segment.signature.get t.1.mem a = HEAP_SIGNATURE) ∧
    (∀ b ∈ t.2, b.1 % 16 = 0 ∧ b.2 ≤ blockLength t.1 b.1 ∧
      (∀ a ∈ headers, Apart b.1 (blockLength t.1 b.1) a sizeofHeader) ∧
      ∀ x, b.1 ≤ x → x < b.1 + blockLength t.1 b.1 →
        t.1.cheap.heapEnd ≤ x ∧ ∃ perms, (x / PAGESIZE * PAGESIZE, perms) ∈ t.1.pages) ∧
    t.2.Pairwise fun b c => Apart b.1 (blockLength t.1 b.1) c.1 (blockLength t.1 c.1)

/-- The block is the payload of a segment in use. -/
def HoldsBlock (segs : List Seg) (b : Nat × Nat) : Prop :=
  ∃ x ∈ segs, x.free = false ∧ b.1 = x.addr + 48 ∧ 0 < b.2 ∧ b.2 ≤ x.length

/-- The invariant of the runs: every block is a segment in use, and no two are the same. -/
def HeapHolds (t : HeapConfig) : Prop :=
  ∃ segs, HeapInv t.1 segs ∧ (∀ b ∈ t.2, HoldsBlock segs b) ∧ (t.2.map Prod.fst).Nodup

/-! ## Writes -/

namespace HeapInv

variable {s s' : HeapState} {segs : List Seg}

/-- A memory that differs inside segments in use only holds the same segments. -/
theorem frame (h : HeapInv s segs) {m : Bytes}
    (hm : ∀ a, (∀ x ∈ segs, x.free = false → ¬ (x.addr + 48 ≤ a ∧ a < x.top)) → m a = s.mem a) :
    HeapInv { s with mem := m } segs := by
  refine ⟨h.ready, h.head, h.bottom, h.lastSegment, h.grown, h.chain.congr fun x hx => ?_, h.below,
    h.aligned, h.top, h.page, h.pos, h.pages⟩
  refine header_congr fun a ha ha' => hm a fun y hy _ hin => ?_
  rcases h.below.apart hx hy with rfl | hxy | hxy
  · omega
  · unfold Seg.top at hxy; omega
  · omega

theorem blockLength_eq (h : HeapInv s segs) {x : Seg} (hx : x ∈ segs) (hpos : 0 < x.length) :
    blockLength s (x.addr + 48) = x.length := by
  obtain ⟨pre, q, post, rfl⟩ := h.before hx (.inr hpos)
  have htop := h.top
  have hxtop := h.top_le hx
  unfold Seg.top at hxtop
  have hheader : getHeapSegmentHeader (x.addr + 48) = x.addr := by
    rw [getHeapSegmentHeader, sub64_of_le (by unfold sizeofHeader; omega) (by omega)]
    exact Nat.add_sub_cancel ..
  rw [blockLength, hheader]
  exact length_of_header h.neighbours.2.1

end HeapInv

/-! ## What a step preserves -/

theorem HoldsBlock.mono {segs segs' : List Seg} (hk : Keeps segs segs') {b : Nat × Nat}
    (h : HoldsBlock segs b) : HoldsBlock segs' b := by
  obtain ⟨x, hx, hf, hrest⟩ := h
  exact ⟨x, hk x hx hf, hf, hrest⟩

/-- A block taken from a segment that was not in use is new. -/
theorem not_mem_of_fresh {segs : List Seg} {live : List (Nat × Nat)} {z : Seg} {p : Nat}
    (hlive : ∀ b ∈ live, HoldsBlock segs b) (hp : p = z.addr + 48)
    (hne : ∀ x ∈ segs, x.free = false → x.addr ≠ z.addr) : p ∉ live.map Prod.fst := by
  rintro hmem
  obtain ⟨b, hb, rfl⟩ := List.mem_map.mp hmem
  obtain ⟨x, hx, hf, haddr, _⟩ := hlive b hb
  exact hne x hx hf (by omega)

/-- Two blocks of a configuration in one segment are the same. -/
theorem eq_of_addr {live : List (Nat × Nat)} (h : (live.map Prod.fst).Nodup) {b c : Nat × Nat}
    (hb : b ∈ live) (hc : c ∈ live) (ha : b.1 = c.1) : b = c :=
  List.inj_on_of_nodup_map h hb hc ha

/-- The blocks other than `b` stay when only the segment of `b` may go. -/
theorem holdsBlock_erase {segs segs' : List Seg} {live : List (Nat × Nat)} {b c : Nat × Nat}
    {x : Seg} (hlive : ∀ b ∈ live, HoldsBlock segs b) (hnodup : (live.map Prod.fst).Nodup)
    (hb : b ∈ live) (haddr : b.1 = x.addr + 48)
    (hk : ∀ y ∈ segs, y.free = false → y ≠ x → y ∈ segs') (hc : c ∈ live.erase b) :
    HoldsBlock segs' c := by
  have hcl := (hnodup.of_map Prod.fst).mem_erase_iff.mp hc
  obtain ⟨y, hy, hyf, hya, hrest⟩ := hlive c hcl.2
  refine ⟨y, hk y hy hyf ?_, hyf, hya, hrest⟩
  rintro rfl
  exact hcl.1 (eq_of_addr hnodup hcl.2 hb (hya.trans haddr.symm))

/-- `_realloc` of no buffer is `_malloc`. -/
theorem realloc_null {s s' : HeapState} {fuel size p : Nat} (hready : s.cheap.ready = true)
    (h : realloc fuel s 0 size = some (.ok (p, s'))) : malloc fuel s size = some (.ok (p, s')) := by
  obtain ⟨t, hm, ⟨-, rfl⟩ | ⟨-, hne, -⟩⟩ := realloc_eq hready h
  · exact hm
  · exact absurd rfl hne

/-- What a predicate on the segments and the blocks has to survive. -/
structure Kept (P : HeapState → List Seg → List (Nat × Nat) → Prop) : Prop where
  expanded : ∀ {s s' segs segs' live len}, HeapInv s segs → P s segs live →
    Expanded s s' segs segs' len → P s' segs' live
  served : ∀ {s s' segs segs' live p size y}, HeapInv s segs → P s segs live →
    Served s (p, s') segs segs' size y → P s' segs' ((p, size) :: live)
  freed : ∀ {s s' segs segs' live b x}, HeapInv s segs → P s segs live → (live.map Prod.fst).Nodup →
    b ∈ live → x ∈ segs → x.free = false → b.1 = x.addr + 48 → Freed s s' segs segs' x →
    P s' segs' (live.erase b)
  written : ∀ {s segs live m}, P s segs live → P { s with mem := m } segs live

/-- The invariant of the runs, with a predicate. -/
def HeapHoldsWith (P : HeapState → List Seg → List (Nat × Nat) → Prop) (t : HeapConfig) : Prop :=
  ∃ segs, HeapInv t.1 segs ∧ (∀ b ∈ t.2, HoldsBlock segs b) ∧ (t.2.map Prod.fst).Nodup ∧ P t.1 segs t.2

namespace HeapHoldsWith

variable {P : HeapState → List Seg → List (Nat × Nat) → Prop} {s s' : HeapState}
  {live : List (Nat × Nat)} {b : Nat × Nat} {fuel size p : Nat}

theorem holds {t : HeapConfig} (ht : HeapHoldsWith P t) : HeapHolds t := by
  obtain ⟨segs, hinv, hlive, hnodup, -⟩ := ht
  exact ⟨segs, hinv, hlive, hnodup⟩

theorem expands (hP : Kept P) {t t' : HeapState × List Seg} (h : Expands t t') (ht : HeapInv t.1 t.2)
    (hPt : P t.1 t.2 live) : HeapInv t'.1 t'.2 ∧ P t'.1 t'.2 live := by
  induction h with
  | refl => exact ⟨ht, hPt⟩
  | tail _ hstep ih =>
    obtain ⟨len, hexp⟩ := hstep
    exact ⟨hexp.inv, hP.expanded ih.1 ih.2 hexp⟩

theorem malloc (hP : Kept P) (ht : HeapHoldsWith P (s, live)) (hs : NoOverflow size)
    (h : malloc fuel s size = some (.ok (p, s'))) :
    HeapHoldsWith P (s', if p = 0 then live else (p, size) :: live) := by
  obtain ⟨segs, hinv, hlive, hnodup, hPs⟩ := ht
  by_cases hsize : size = 0
  · subst hsize
    obtain ⟨rfl, rfl⟩ := Prod.mk.inj (malloc_zero hinv.ready h)
    exact ⟨segs, hinv, hlive, hnodup, hPs⟩
  · obtain ⟨s₁, segs₁, segs', y, hexp, -, hserved⟩ := hinv.serves hs (by omega) h
    obtain ⟨hinv₁, hPs₁⟩ := expands hP hexp hinv hPs
    obtain ⟨hk, z, hz, hzf, hp, hzl, hne⟩ := (hinv₁.allocated hserved).of_keeps hexp.keeps
    simp only at hp
    rw [if_neg (by omega)]
    refine ⟨segs', hserved.inv, fun b hb => ?_, ?_, hP.served hinv₁ hPs₁ hserved⟩
    · rcases List.mem_cons.mp hb with rfl | hb
      · exact ⟨z, hz, hzf, hp, by show 0 < size; omega, hzl⟩
      · exact (hlive b hb).mono hk
    · exact List.nodup_cons.mpr ⟨not_mem_of_fresh hlive hp hne, hnodup⟩

theorem free (hP : Kept P) (ht : HeapHoldsWith P (s, live)) (hb : b ∈ live)
    (h : heapFree s b.1 = .ok s') : HeapHoldsWith P (s', live.erase b) := by
  obtain ⟨segs, hinv, hlive, hnodup, hPs⟩ := ht
  obtain ⟨x, hx, hf, haddr, hpos, hle⟩ := hlive b hb
  rw [haddr] at h
  obtain ⟨segs', hfreed⟩ := hinv.frees hx (by omega) h
  exact ⟨segs', hfreed.inv, fun c hc => holdsBlock_erase hlive hnodup hb haddr
    (fun y hy hyf hne => hfreed.releases.used hyf hy hne) hc,
    hnodup.sublist (List.erase_sublist.map _), hP.freed hinv hPs hnodup hb hx hf haddr hfreed⟩

theorem write {m : Bytes} (hP : Kept P) (ht : HeapHoldsWith P (s, live))
    (h : ∀ a, (∀ b ∈ live, ¬ (b.1 ≤ a ∧ a < b.1 + blockLength s b.1)) → m a = s.mem a) :
    HeapHoldsWith P ({ s with mem := m }, live) := by
  obtain ⟨segs, hinv, hlive, hnodup, hPs⟩ := ht
  refine ⟨segs, hinv.frame fun a ha => h a fun b hb hin => ?_, hlive, hnodup, hP.written hPs⟩
  obtain ⟨x, hx, hf, haddr, hpos, hle⟩ := hlive b hb
  rw [haddr, hinv.blockLength_eq hx (by omega)] at hin
  exact ha x hx hf (by unfold Seg.top; omega)

/-- `_realloc` is a `_malloc`, a copy into the new block and a `_free`. -/
theorem realloc (hP : Kept P) (ht : HeapHoldsWith P (s, live)) (hb : b ∈ live) (hs : NoOverflow size)
    (h : realloc fuel s b.1 size = some (.ok (p, s'))) :
    HeapHoldsWith P (s', if p = 0 then live else (p, size) :: live.erase b) := by
  obtain ⟨segs, hinv, hlive, -, -⟩ := id ht
  obtain ⟨x, hx, hf, haddr, hpos, hle⟩ := hlive b hb
  obtain ⟨t, hm, ⟨hnull, rfl⟩ | ⟨hp, -, old, hold, hfree⟩⟩ := realloc_eq hinv.ready h
  · have hnew := malloc hP ht hs hm
    have hp : p = 0 := hnull.resolve_right (by omega)
    rw [if_pos hp] at hnew ⊢
    exact hnew
  · have hnew := malloc hP ht hs hm
    rw [if_neg hp] at hnew ⊢
    -- the copy stays inside the new block
    have hcopied := write (m := copy t.mem p t.mem b.1 old) hP hnew fun a ha => by
      refine copy_apply_out _ _ ?_
      have hblock := ha (p, size) (List.mem_cons_self ..)
      obtain ⟨segs', hinv', hlive', -⟩ := id hnew
      obtain ⟨z, hz, -, hza, hzpos, hzl⟩ := hlive' (p, size) (List.mem_cons_self ..)
      simp only at hza hzpos hzl hblock hinv'
      rw [hza, hinv'.blockLength_eq hz (by omega)] at hblock
      omega
    have hfreed := free hP hcopied (List.mem_cons_of_mem _ hb) hfree
    obtain ⟨-, -, -, hnodup, -⟩ := hnew
    have hne : (p, size) ≠ b := by
      intro heq
      subst heq
      exact (List.nodup_cons.mp hnodup).1 (List.mem_map_of_mem hb)
    rw [List.erase_cons_tail (by simpa using hne)] at hfreed
    exact hfreed

theorem step (hP : Kept P) (t t' : HeapConfig) (ht : HeapHoldsWith P t) (h : HeapStep NoOverflow t t') :
    HeapHoldsWith P t' := by
  cases h with
  | malloc hok h => exact ht.malloc hP hok h
  | free hb h => exact ht.free hP hb h
  | realloc hb hok h => exact ht.realloc hP hb hok h
  | reallocNull hok h =>
    obtain ⟨segs, hinv, hrest⟩ := ht
    exact malloc hP ⟨segs, hinv, hrest⟩ hok (realloc_null hinv.ready h)
  | write h => exact ht.write hP h

end HeapHoldsWith

/-! ## The invariant alone -/

theorem kept_true : Kept fun _ _ _ => True :=
  ⟨fun _ _ _ => trivial, fun _ _ _ => trivial, fun _ _ _ _ _ _ _ _ => trivial, fun _ => trivial⟩

theorem HeapHolds.withTrue {t : HeapConfig} (ht : HeapHolds t) : HeapHoldsWith (fun _ _ _ => True) t := by
  obtain ⟨segs, hinv, hlive, hnodup⟩ := ht
  exact ⟨segs, hinv, hlive, hnodup, trivial⟩

theorem HeapHolds.malloc {s s' : HeapState} {live : List (Nat × Nat)} {fuel size p : Nat}
    (ht : HeapHolds (s, live)) (hs : NoOverflow size)
    (h : malloc fuel s size = some (.ok (p, s'))) :
    HeapHolds (s', if p = 0 then live else (p, size) :: live) :=
  (ht.withTrue.malloc kept_true hs h).holds

theorem HeapHolds.free {s s' : HeapState} {live : List (Nat × Nat)} {b : Nat × Nat}
    (ht : HeapHolds (s, live)) (hb : b ∈ live) (h : heapFree s b.1 = .ok s') :
    HeapHolds (s', live.erase b) :=
  (ht.withTrue.free kept_true hb h).holds

theorem HeapHolds.write {s : HeapState} {live : List (Nat × Nat)} {m : Bytes}
    (ht : HeapHolds (s, live))
    (h : ∀ a, (∀ b ∈ live, ¬ (b.1 ≤ a ∧ a < b.1 + blockLength s b.1)) → m a = s.mem a) :
    HeapHolds ({ s with mem := m }, live) :=
  (ht.withTrue.write kept_true h).holds

theorem HeapHolds.step (t t' : HeapConfig) (ht : HeapHolds t) (h : HeapStep NoOverflow t t') :
    HeapHolds t' :=
  (ht.withTrue.step kept_true t t' h).holds

/-! ## The invariant makes the heap safe -/

theorem Chain.doublyLinked {m : Bytes} {l : Nat} {segs : List Seg} (h : Chain m l 0 segs) :
    DoublyLinked m l (segs.map Seg.addr) := by
  induction segs generalizing l with
  | nil => trivial
  | cons x rest ih =>
    refine ⟨last_of_header h.1, ?_, ih h.2⟩
    rw [next_of_header h.1]
    cases rest <;> rfl

theorem Chain.signature {m : Bytes} {l n : Nat} {segs : List Seg} (h : Chain m l n segs) {x : Seg}
    (hx : x ∈ segs) : Segment.signature.get m x.addr = HEAP_SIGNATURE := by
  induction segs generalizing l with
  | nil => cases hx
  | cons y rest ih =>
    rcases List.mem_cons.mp hx with rfl | hx
    · exact signature_of_header h.1
    · exact ih h.2 hx

theorem getLast?_addr {segs : List Seg} (h : segs ≠ []) (k : Nat) :
    (segs.map Seg.addr).getLast? = some (lastAddr k segs) := by
  obtain ⟨init, x, rfl⟩ := (List.eq_nil_or_concat' segs).resolve_left h
  rw [lastAddr_append, List.map_append]
  simp

theorem HeapHolds.safe {t : HeapConfig} (ht : HeapHolds t) : HeapSafe t := by
  obtain ⟨segs, hinv, hlive, hnodup⟩ := ht
  have hne : segs ≠ [] := by
    rintro rfl
    cases hinv.head
  have hblock : ∀ b ∈ t.2, ∃ x ∈ segs, x.free = false ∧ b.1 = x.addr + 48 ∧ b.2 ≤ x.length ∧
      blockLength t.1 b.1 = x.length := fun b hb => by
    obtain ⟨x, hx, hf, haddr, hpos, hle⟩ := hlive b hb
    exact ⟨x, hx, hf, haddr, hle, by rw [haddr, hinv.blockLength_eq hx (by omega)]⟩
  refine ⟨segs.map Seg.addr, ?_, ?_, hinv.chain.doublyLinked, ?_, ?_, ?_, ?_⟩
  · rw [List.head?_map, hinv.head]
    rfl
  · rw [getLast?_addr hne 0, hinv.bottom 0, hinv.lastSegment]
  · refine List.pairwise_map.mpr (hinv.below.imp fun hxy => ?_)
    unfold Seg.top at hxy
    omega
  · intro a ha
    obtain ⟨x, hx, rfl⟩ := List.mem_map.mp ha
    exact hinv.chain.signature hx
  · intro b hb
    obtain ⟨x, hx, hf, haddr, hle, hlen⟩ := hblock b hb
    have hal := hinv.aligned x hx
    rw [hlen, haddr]
    refine ⟨by omega, hle, fun a ha => ?_, fun y h1 h2 => ?_⟩
    · obtain ⟨y, hy, rfl⟩ := List.mem_map.mp ha
      unfold Apart sizeofHeader
      rcases hinv.below.apart hx hy with rfl | hxy | hxy
      · right; omega
      · left; unfold Seg.top at hxy; omega
      · right; unfold Seg.top at hxy; omega
    · have hend := hinv.le_addr hx
      have htop := hinv.top_le hx
      have hpage := hinv.page
      unfold Seg.top at htop
      exact ⟨by omega, hinv.pages _ (by unfold PAGESIZE; omega) (by unfold PAGESIZE; omega)
        (by unfold PAGESIZE; omega)⟩
  · have hp : t.2.Pairwise fun b c => b.1 ≠ c.1 := List.pairwise_map.mp hnodup
    refine hp.imp_of_mem fun {b c} hb hc hbc => ?_
    obtain ⟨x, hx, _, hxa, _, hxl⟩ := hblock b hb
    obtain ⟨y, hy, _, hya, _, hyl⟩ := hblock c hc
    rw [hxl, hyl, hxa, hya]
    unfold Apart
    rcases hinv.below.apart hx hy with rfl | hxy | hxy
    · omega
    · left; unfold Seg.top at hxy; omega
    · right; unfold Seg.top at hxy; omega

/-! ## Runs from `_initHeap` -/

/-- `_initHeap` makes the main segment and one free segment below it. -/
theorem initHeap_inv {s₀ s : HeapState} {heapEnd stackEnd : Nat} {user : Bool}
    (hpage : heapEnd % PAGESIZE = 0) (hlow : PAGESIZE < heapEnd)
    (hhigh : heapEnd < 18446744073709551616) (h : initHeap s₀ heapEnd stackEnd user = s) :
    HeapInv s [⟨heapEnd - 48, 0, false⟩, ⟨heapEnd - 4096, 4000, true⟩] := by
  unfold PAGESIZE at hpage hlow
  obtain ⟨e, he⟩ : ∃ e, heapEnd - 4096 = e := ⟨_, rfl⟩
  have hsub : sub64 heapEnd PAGESIZE = e := by
    rw [← he]
    exact sub64_of_le (by unfold PAGESIZE; omega) hhigh
  obtain ⟨p, hp⟩ : ∃ p, heapEnd - 48 = p := ⟨_, rfl⟩
  have hmain : u64 (e + (PAGESIZE - sizeofHeader)) = p := by
    unfold PAGESIZE sizeofHeader
    rw [u64_of_lt (by omega)]
    omega
  have hnext : u64 (sub64 p PAGESIZE + sizeofHeader) = e := by
    unfold PAGESIZE sizeofHeader
    rw [sub64_of_le (by omega) (by omega), u64_of_lt (by omega)]
    omega
  rw [hp, he]
  unfold initHeap at h
  simp only [hsub, hmain, hnext, HeapState.requestCurrentPageAt] at h
  subst h
  refine ⟨rfl, rfl, fun _ => rfl, rfl, by show e < p; omega, ⟨?_, ?_, trivial⟩, ?_, ?_, ?_, ?_, ?_, ?_⟩
  · show header _ p = ⟨0, 0, e, 0, HEAP_SIGNATURE⟩
    have hap : p + 48 ≤ e ∨ e + 48 ≤ p := .inr (by omega)
    rw [header_setSignature_apart hap, header_setNext_apart hap, header_setLast_apart hap,
      header_setLength_apart hap, header_setIsStack_apart hap, header_setFree_apart hap,
      header_setNext (by omega), header_setSignature, header_setLast (by omega),
      header_setIsStack, header_setFree, header_setLength (by omega)]
  · show header _ e = ⟨1, 4000, 0, p, HEAP_SIGNATURE⟩
    rw [header_setSignature, header_setNext (by omega), header_setLast (by omega),
      header_setLength (by decide), header_setIsStack, header_setFree]
    rfl
  · simp [Below, Seg.top]; omega
  · simp; omega
  · show p + 48 ≤ _; omega
  · show e % 4096 = 0; omega
  · show 0 < e; omega
  · intro a h1 h2 h3
    change e ≤ a at h2
    change a < p + 48 at h3
    obtain rfl : a = e := by omega
    exact ⟨_, List.mem_cons_of_mem _ (List.mem_cons_self ..)⟩

/-- The invariant holds in every run. -/
theorem HeapHolds.reached {s₀ : HeapState} {heapEnd stackEnd : Nat} {user : Bool} {t : HeapConfig}
    (hpage : heapEnd % PAGESIZE = 0) (hlow : PAGESIZE < heapEnd)
    (hhigh : heapEnd < 18446744073709551616)
    (hrun : Reaches (HeapStep NoOverflow) (initHeap s₀ heapEnd stackEnd user, []) t) :
    HeapHolds t := by
  have hinit : HeapHolds (initHeap s₀ heapEnd stackEnd user, []) := by
    refine ⟨_, initHeap_inv hpage hlow hhigh rfl, ?_, List.nodup_nil⟩
    intro b hb
    cases hb
  exact invariant HeapHolds HeapHolds.step hinit hrun

/-- In every run whose sizes, with a header and rounded up to pages, fit below
2 ^ 64, the heap is safe. -/
theorem heap_safe {s₀ s : HeapState} {heapEnd stackEnd : Nat} {user : Bool}
    {live : List (Nat × Nat)} (hpage : heapEnd % PAGESIZE = 0) (hlow : PAGESIZE < heapEnd)
    (hhigh : heapEnd < 18446744073709551616)
    (hrun : Reaches (HeapStep NoOverflow) (initHeap s₀ heapEnd stackEnd user, []) (s, live)) :
    HeapSafe (s, live) :=
  (HeapHolds.reached hpage hlow hhigh hrun).safe

/-- The kernel heap of `init_heap`, in a memory of zeros. -/
def kernelHeap : HeapState :=
  initHeap ⟨⟨0, 0, 0, 0, 0, 0, 0, false, false⟩, fun _ => 0, []⟩ 0xffffffff6ffff000
    0xffffffff7ffff000 false

/-- The first request takes the only segment; the second one wraps in `expand_heap`. -/
theorem kernelHeap_run : ∃ p s q t, malloc 4 kernelHeap 4000 = some (.ok (p, s)) ∧
    malloc 4 s 18446744073709547519 = some (.ok (q, t)) ∧ q = 0xffffffff6ffff000 ∧
    0 < blockLength t q ∧ t.pages = [(0xffffffff7fffe000, 1), (0xffffffff6fffe000, 1)] := by
  have hview : ((malloc 4 kernelHeap 4000).bind fun r => r.toOption.bind fun x =>
      (malloc 4 x.2 18446744073709547519).bind fun r => r.toOption.map fun y =>
        y.1 == 0xffffffff6ffff000 && decide (0 < blockLength y.2 y.1) &&
          y.2.pages == [(0xffffffff7fffe000, 1), (0xffffffff6fffe000, 1)]) = some true := by
    decide +kernel
  simp only [Option.bind_eq_some_iff, Option.map_eq_some_iff, Bool.and_eq_true, beq_iff_eq,
    decide_eq_true_eq, and_assoc] at hview
  obtain ⟨r, hr, ⟨p, s⟩, hx, r', hr', ⟨q, t⟩, hy, h1, h2, h3⟩ := hview
  cases r with
  | error e => cases hx
  | ok x =>
    cases r' with
    | error e => cases hy
    | ok y =>
      obtain rfl := Option.some.inj hx
      obtain rfl := Option.some.inj hy
      exact ⟨p, s, q, t, hr, hr', h1, h2, h3⟩

theorem heap_safe_kernelHeap : ∃ p s, malloc 4 kernelHeap 4000 = some (.ok (p, s)) ∧
    HeapSafe (s, if p = 0 then [] else [(p, 4000)]) := by
  obtain ⟨p, s, _, _, h, _⟩ := kernelHeap_run
  exact ⟨p, s, h, heap_safe (by decide) (by decide) (by decide)
    (Relation.ReflTransGen.single (.malloc (by unfold NoOverflow; decide) h))⟩

/-- A request of 2 ^ 64 - 0x1001 bytes gets a block that no page is mapped for. -/
theorem heap_not_safe : ¬ ∀ (s₀ s : HeapState) (heapEnd stackEnd : Nat) (user : Bool)
    (live : List (Nat × Nat)), heapEnd % PAGESIZE = 0 → PAGESIZE < heapEnd →
    heapEnd < 18446744073709551616 →
    Reaches (HeapStep fun size => size + 4096 < 18446744073709551616)
      (initHeap s₀ heapEnd stackEnd user, []) (s, live) → HeapSafe (s, live) := by
  intro hall
  obtain ⟨p, s, q, t, hfirst, hsecond, rfl, hlen, hpages⟩ := kernelHeap_run
  have hsafe := hall _ t 0xffffffff6ffff000 0xffffffff7ffff000 false _ (by decide) (by decide)
    (by decide) (.tail (.single (.malloc (by decide) hfirst)) (.malloc (by decide) hsecond))
  obtain ⟨_, _, _, _, _, _, hblocks, _⟩ := hsafe
  obtain ⟨_, _, _, hmapped⟩ := hblocks (0xffffffff6ffff000, 18446744073709547519) (by simp)
  obtain ⟨_, perms, hmem⟩ := hmapped 0xffffffff6ffff000 (le_refl _) (by
    show _ < 0xffffffff6ffff000 + _
    omega)
  rw [hpages] at hmem
  have hpage : 0xffffffff6ffff000 / PAGESIZE * PAGESIZE = 0xffffffff6ffff000 := by decide
  simp [hpage] at hmem

end UnedKernel.Memory
