import UnedKernel.Memory.HeapList

/-! # The headers that the operations of the heap change

For each operation on a memory: the headers it writes, and that every header
above and below those is as before. -/

namespace UnedKernel.Memory
open ByteMem Word

/-- `splitSegment` puts a header inside the segment at `a`, whose neighbour above is at `p`. -/
theorem splitSegment_header {s s' : HeapState} {a p n size L nx free : Nat}
    (hx : header s.mem a = ⟨free, L, nx, p, HEAP_SIGNATURE⟩) (hsize : size + 48 < L)
    (htop : a + 48 + L ≤ p) (hp : p + 48 ≤ 18446744073709551616)
    (h : splitSegment s a size = .ok (n, s')) :
    n = a + L - size ∧ s'.pages = s.pages ∧
    s'.cheap = { s.cheap with lastSegment := if nx = 0 then a else s.cheap.lastSegment } ∧
    header s'.mem p = { header s.mem p with next := n } ∧
    header s'.mem n = ⟨1, size, a, p, HEAP_SIGNATURE⟩ ∧
    header s'.mem a = ⟨free, L - (size + 48), nx, n, HEAP_SIGNATURE⟩ ∧
    ∀ b, b + 48 ≤ a ∨ p + 48 ≤ b → header s'.mem b = header s.mem b := by
  have hlen : Segment.length.get s.mem a = L := length_of_header hx
  have hsig : Segment.signature.get s.mem a = HEAP_SIGNATURE := signature_of_header hx
  have hadd : u64 (size + sizeofHeader) = size + 48 := u64_of_lt (by unfold sizeofHeader; omega)
  unfold splitSegment at h
  extract_lets m new m1 m2 m3 m4 m5 m6 m7 lastSegment m8 m9 m10 at h
  rw [if_neg (by rw [hlen, hadd]; omega), if_neg (not_not.mpr hsig)] at h
  simp only [Except.ok.injEq, Prod.mk.injEq] at h
  obtain ⟨rfl, rfl⟩ := h
  have hnew : new = a + L - size := by
    show sub64 (u64 (a + Segment.length.get s.mem a)) size = _
    rw [hlen, u64_of_lt (by omega), sub64_of_le (by omega) (by omega)]
  clear_value new
  subst hnew
  -- the new header is written apart from the two old ones
  have hold : ∀ b, b + 48 ≤ a + L - size ∨ a + L - size + 48 ≤ b → header m7 b = header s.mem b := by
    intro b hb
    simp only [m7, m6, m5, m4, m3, m2, m1, m]
    rw [header_setLast_apart hb, header_setSignature_apart hb, header_setNext_apart hb,
      header_setIsStack_apart hb, header_setLength_apart hb, header_setFree_apart hb,
      header_fill hb]
  have h6 : Segment.last.get m6 a = p := by
    have : header m6 a = header s.mem a := by
      have hb : a + 48 ≤ a + L - size ∨ a + L - size + 48 ≤ a := .inl (by omega)
      simp only [m6, m5, m4, m3, m2, m1, m]
      rw [header_setSignature_apart hb, header_setNext_apart hb,
        header_setIsStack_apart hb, header_setLength_apart hb, header_setFree_apart hb,
        header_fill hb]
    exact last_of_header (this.trans hx)
  have h7n : header m7 (a + L - size) = ⟨1, size, a, p, HEAP_SIGNATURE⟩ := by
    simp only [m7, h6]
    simp only [m6, m5, m4, m3, m2]
    rw [header_setLast (by omega), header_setSignature, header_setNext (by omega),
      header_setIsStack, header_setLength (by omega), header_setFree]
  have h7a : header m7 a = ⟨free, L, nx, p, HEAP_SIGNATURE⟩ := (hold a (.inl (by omega))).trans hx
  have h8 : m8 = Segment.next.set m7 p (a + L - size) := by
    have h7 : Segment.last.get m7 a = p := last_of_header h7a
    simp only [m8, h7]
    exact if_pos (by omega)
  have h9 : ∀ b, b + 48 ≤ a ∨ a + 48 ≤ b → header m9 b = header m8 b := fun b hb =>
    header_setLast_apart hb
  have h8a : header m8 a = ⟨free, L, nx, p, HEAP_SIGNATURE⟩ := by
    rw [h8, header_setNext_apart (.inl (by omega)), h7a]
  have h9a : header m9 a = ⟨free, L, nx, a + L - size, HEAP_SIGNATURE⟩ := by
    simp only [m9]
    rw [header_setLast (by omega), h8a]
  have h10 : ∀ b, b + 48 ≤ a ∨ a + 48 ≤ b → header m10 b = header m8 b := fun b hb =>
    (header_setLength_apart hb).trans (h9 b hb)
  have hlast : lastSegment = if nx = 0 then a else s.cheap.lastSegment := by
    have h7 : Segment.next.get m7 a = nx := next_of_header h7a
    simp only [lastSegment, h7]
  have h9l : Segment.length.get m9 a = L := length_of_header h9a
  refine ⟨rfl, rfl, by rw [hlast], ?_, ?_, ?_, fun b hb => ?_⟩
  · rw [h10 p (.inr (by omega)), h8, header_setNext (by omega), hold p (.inr (by omega))]
  · rw [h10 _ (.inr (by omega)), h8, header_setNext_apart (.inl (by omega)), h7n]
  · simp only [m10, h9l]
    rw [hadd, sub64_of_le (by omega) (by omega), header_setLength (by omega), h9a]
  · rw [h10 b (by omega), h8, header_setNext_apart (by omega), hold b (by omega)]

/-- `MergeThisToNext` gives the segment at `a` to the one at `n` below it. -/
theorem mergeThisToNext_header {m : Bytes} {a n p L Ln nn ln free fn : Nat}
    (hx : header m a = ⟨free, L, n, p, HEAP_SIGNATURE⟩)
    (hn : header m n = ⟨fn, Ln, nn, ln, HEAP_SIGNATURE⟩)
    (hna : n + 48 + Ln ≤ a) (htop : a + 48 + L ≤ p) (hp : p + 48 ≤ 18446744073709551616) :
    header (mergeThisToNext m a) n = ⟨fn, Ln + (L + 48), nn, p, HEAP_SIGNATURE⟩ ∧
    header (mergeThisToNext m a) p = { header m p with next := n } ∧
    ∀ b, b + 48 ≤ n ∨ p + 48 ≤ b → header (mergeThisToNext m a) b = header m b := by
  unfold mergeThisToNext
  extract_lets next m1 m2 m3
  have hnext : next = n := next_of_header hx
  clear_value next
  subst hnext
  have hlen : u64 (Segment.length.get m next + (Segment.length.get m a + sizeofHeader)) =
      Ln + (L + 48) := by
    rw [length_of_header hn, length_of_header hx]
    exact u64_of_lt (by show Ln + (L + 48) < _; omega)
  have h1 : m1 = Segment.length.set m next (Ln + (L + 48)) := by simp only [m1, hlen]
  have h1a : header m1 a = ⟨free, L, next, p, HEAP_SIGNATURE⟩ := by
    rw [h1, header_setLength_apart (.inr (by omega)), hx]
  have h2 : m2 = Segment.last.set m1 next p := by simp only [m2, last_of_header h1a]
  have h2a : header m2 a = ⟨free, L, next, p, HEAP_SIGNATURE⟩ := by
    rw [h2, header_setLast_apart (.inr (by omega)), h1a]
  have h3 : m3 = Segment.next.set m2 p next := by simp only [m3, last_of_header h2a]
  refine ⟨?_, ?_, fun b hb => ?_⟩
  · rw [header_fill (.inl (by omega)), h3, header_setNext_apart (.inl (by omega)), h2,
      header_setLast (by omega), h1, header_setLength (by omega), hn]
  · rw [header_fill (.inr (by unfold sizeofHeader; omega)), h3, header_setNext (by omega), h2,
      header_setLast_apart (.inr (by omega)), h1, header_setLength_apart (.inr (by omega))]
  · rw [header_fill (by unfold sizeofHeader; omega), h3, header_setNext_apart (by omega), h2,
      header_setLast_apart (by omega), h1, header_setLength_apart (by omega)]

/-- `MergeLastToThis` gives the segment at `p` to the one at `a` below it. -/
theorem mergeLastToThis_header {m : Bytes} {a n p pp L Lp np free fp : Nat}
    (hx : header m a = ⟨free, L, n, p, HEAP_SIGNATURE⟩)
    (hl : header m p = ⟨fp, Lp, np, pp, HEAP_SIGNATURE⟩)
    (hap : a + 48 + L ≤ p) (htop : p + 48 + Lp ≤ pp) (hpp : pp + 48 ≤ 18446744073709551616) :
    header (mergeLastToThis m a) a = ⟨free, L + (Lp + 48), n, pp, HEAP_SIGNATURE⟩ ∧
    header (mergeLastToThis m a) pp = { header m pp with next := a } ∧
    ∀ b, b + 48 ≤ a ∨ pp + 48 ≤ b → header (mergeLastToThis m a) b = header m b := by
  unfold mergeLastToThis
  extract_lets last m1 m2 m3
  have hlast : last = p := last_of_header hx
  clear_value last
  subst hlast
  have hlen : u64 (Segment.length.get m a + (Segment.length.get m last + sizeofHeader)) =
      L + (Lp + 48) := by
    rw [length_of_header hl, length_of_header hx]
    exact u64_of_lt (by show L + (Lp + 48) < _; omega)
  have h1 : m1 = Segment.length.set m a (L + (Lp + 48)) := by simp only [m1, hlen]
  have h1l : header m1 last = ⟨fp, Lp, np, pp, HEAP_SIGNATURE⟩ := by
    rw [h1, header_setLength_apart (.inr (by omega)), hl]
  have h2 : m2 = Segment.last.set m1 a pp := by simp only [m2, last_of_header h1l]
  have h2a : header m2 a = ⟨free, L + (Lp + 48), n, pp, HEAP_SIGNATURE⟩ := by
    rw [h2, header_setLast (by omega), h1, header_setLength (by omega), hx]
  have h3 : m3 = Segment.next.set m2 pp a := by simp only [m3, last_of_header h2a]
  refine ⟨?_, ?_, fun b hb => ?_⟩
  · rw [header_fill (.inl (by omega)), h3, header_setNext_apart (.inl (by omega)), h2a]
  · rw [header_fill (.inr (by unfold sizeofHeader; omega)), h3, header_setNext (by omega), h2,
      header_setLast_apart (.inr (by omega)), h1, header_setLength_apart (.inr (by omega))]
  · rw [header_fill (by unfold sizeofHeader; omega), h3, header_setNext_apart (by omega), h2,
      header_setLast_apart (by omega), h1, header_setLength_apart (by omega)]

theorem expandPages_ok {perms n : Nat} {s s' : HeapState} (hpage : s.cheap.heapEnd % 4096 = 0)
    (hpos : 0 < s.cheap.heapEnd) (hlt : s.cheap.heapEnd < 18446744073709551616)
    (h : expandPages perms n s = .ok s') :
    ∃ e, e + 4096 * n = s.cheap.heapEnd ∧ 0 < e ∧ s'.mem = s.mem ∧
    s'.cheap = { s.cheap with heapEnd := e } ∧ (∀ q ∈ s.pages, q ∈ s'.pages) ∧
    ∀ a, a % 4096 = 0 → e ≤ a → a < s.cheap.heapEnd → ∃ perms, (a, perms) ∈ s'.pages := by
  induction n generalizing s with
  | zero =>
    obtain rfl := Except.ok.inj h
    exact ⟨s.cheap.heapEnd, rfl, hpos, rfl, rfl, fun q hq => hq, fun a _ h1 h2 => by omega⟩
  | succ n ih =>
    obtain ⟨e, he⟩ : ∃ e, sub64 s.cheap.heapEnd PAGESIZE = e := ⟨_, rfl⟩
    have hsub : e = s.cheap.heapEnd - 4096 := by
      rw [← he]
      exact sub64_of_le (by unfold PAGESIZE; omega) hlt
    unfold expandPages at h
    simp only [he] at h
    split at h
    · cases h
    rename_i hne
    obtain ⟨e', he', hpos', hm, hc, hold, hnew⟩ := ih (by simp only; omega) (by simp only; omega)
      (by simp only; omega) h
    simp only [HeapState.requestCurrentPageAt] at he' hm hc hold hnew
    refine ⟨e', by omega, hpos', hm, hc, fun q hq => hold q (List.mem_cons_of_mem _ hq),
      fun a h1 h2 h3 => ?_⟩
    by_cases ha : a = e
    · exact ⟨perms, ha ▸ hold _ (List.mem_cons_self ..)⟩
    · exact hnew a h1 h2 (by omega)

/-- The requests whose expansion does not wrap: their header and the rounding to
pages fit below 2 ^ 64. -/
def NoOverflow (size : Nat) : Prop := size + 4144 ≤ 18446744073709551616

theorem roundSize_spec {size : Nat} (hs : NoOverflow size) :
    roundSize size % 16 = 0 ∧ size ≤ roundSize size ∧ NoOverflow (roundSize size) := by
  unfold NoOverflow at *
  unfold roundSize
  split
  · rw [u64_of_lt (by omega)]
    omega
  · omega

theorem expandLength_spec {size : Nat} (hs : NoOverflow size) :
    expandLength size % 4096 = 0 ∧ size + 48 ≤ expandLength size ∧
      expandLength size < size + 48 + 4096 := by
  have hadd : u64 (size + sizeofHeader) = size + 48 :=
    u64_of_lt (by unfold NoOverflow at hs; unfold sizeofHeader; omega)
  simp only [expandLength, hadd]
  unfold NoOverflow at hs
  unfold PAGESIZE
  split
  · rw [u64_of_lt (by omega)]
    omega
  · omega

/-- The segment at `k` takes over the free segment at `e` above it. -/
theorem swallowSegment_header {m : Bytes} {k e p n L free len : Nat}
    (hx : header m e = ⟨free, L, n, p, HEAP_SIGNATURE⟩) (hke : k + len = e) (hlen : 48 ≤ len)
    (htop : e + 48 + L ≤ p) (hp : p + 48 ≤ 18446744073709551616) :
    header (swallowSegment m k e len) k = ⟨1, L + len - 48, 0, p, HEAP_SIGNATURE⟩ ∧
    header (swallowSegment m k e len) p = { header m p with next := k } ∧
    ∀ b, p + 48 ≤ b → header (swallowSegment m k e len) b = header m b := by
  unfold swallowSegment
  extract_lets size m1 m2 m3 m4 m5 m6
  have hsize : sub64 size sizeofHeader = L + len - 48 := by
    have : size = L + len := by
      simp only [size]
      rw [length_of_header hx]
      exact u64_of_lt (by show L + len < _; omega)
    rw [this]
    exact sub64_of_le (by show 48 ≤ _; omega) (by omega)
  have hold : ∀ b, k + 48 ≤ b → header m4 b = header m b := fun b hb => by
    simp only [m4, m3, m2, m1]
    rw [header_setSignature_apart (.inr hb), header_setIsStack_apart (.inr hb),
      header_setFree_apart (.inr hb), header_setLength_apart (.inr hb)]
  have h5 : m5 = Segment.last.set m4 k p := by
    simp only [m5, last_of_header ((hold e (by omega)).trans hx)]
  have h5k : header m5 k = { header m k with
      free := 1, length := L + len - 48, last := p, signature := HEAP_SIGNATURE } := by
    rw [h5, header_setLast (by omega)]
    simp only [m4, m3, m2, m1]
    rw [header_setSignature, header_setIsStack, header_setFree, hsize, header_setLength (by omega)]
  have h6 : m6 = Segment.next.set m5 p k := by simp only [m6, last_of_header h5k]
  refine ⟨?_, ?_, fun b hb => ?_⟩
  · rw [header_setNext (by omega), h6, header_setNext_apart (.inl (by omega)), h5k]
  · rw [header_setNext_apart (.inr (by omega)), h6, header_setNext (by omega), h5,
      header_setLast_apart (.inr (by omega)), hold p (by omega)]
  · rw [header_setNext_apart (.inr (by omega)), h6, header_setNext_apart (.inr hb), h5,
      header_setLast_apart (.inr (by omega)), hold b (by omega)]

/-- The segment at `k` is linked below the one at `e`. -/
theorem appendSegment_header {m : Bytes} {k e len : Nat} (hke : k + len = e) (hlen : 48 ≤ len)
    (he : e < 18446744073709551616) :
    header (appendSegment m k e len) k = ⟨1, len - 48, 0, e, HEAP_SIGNATURE⟩ ∧
    header (appendSegment m k e len) e = { header m e with next := k } ∧
    ∀ b, e + 48 ≤ b → header (appendSegment m k e len) b = header m b := by
  unfold appendSegment
  extract_lets m1 m2 m3 m4 m5 m6
  rw [if_pos (by omega)]
  have hsize : sub64 len sizeofHeader = len - 48 :=
    sub64_of_le (by show 48 ≤ _; omega) (by omega)
  have hold : ∀ b, k + 48 ≤ b → header m6 b = header m b := fun b hb => by
    simp only [m6, m5, m4, m3, m2, m1]
    rw [header_setNext_apart (.inr hb), header_setLast_apart (.inr hb),
      header_setSignature_apart (.inr hb), header_setIsStack_apart (.inr hb),
      header_setFree_apart (.inr hb), header_setLength_apart (.inr hb)]
  refine ⟨?_, ?_, fun b hb => ?_⟩
  · rw [header_setNext_apart (.inl (by omega))]
    simp only [m6, m5, m4, m3, m2, m1]
    rw [header_setNext (by omega), header_setLast (by omega), header_setSignature,
      header_setIsStack, header_setFree, hsize, header_setLength (by omega)]
  · rw [header_setNext (by omega), hold e (by omega)]
  · rw [header_setNext_apart (.inr hb), hold b (by omega)]

/-- `expand_heap` below a lowest segment at `e`, which it swallows when it is free. -/
theorem expandHeap_header {s s' : HeapState} {size e p L free : Nat} (hs : NoOverflow size)
    (he : s.cheap.heapEnd = e) (hl : s.cheap.lastSegment = e) (hpage : e % 4096 = 0) (hpos : 0 < e)
    (hx : header s.mem e = ⟨free, L, 0, p, HEAP_SIGNATURE⟩)
    (htop : e + 48 + L ≤ p) (hp : p + 48 ≤ 18446744073709551616)
    (h : expandHeap s size = .ok s') :
    expandLength size < e ∧
    s'.cheap.heapEnd = e - expandLength size ∧ s'.cheap.lastSegment = e - expandLength size ∧
    s'.cheap.mainSegment = s.cheap.mainSegment ∧ s'.cheap.ready = s.cheap.ready ∧
    (∀ q ∈ s.pages, q ∈ s'.pages) ∧
    (∀ a, a % 4096 = 0 → e - expandLength size ≤ a → a < e → ∃ perms, (a, perms) ∈ s'.pages) ∧
    if free ≠ 0 then
      header s'.mem (e - expandLength size) =
        ⟨1, L + expandLength size - 48, 0, p, HEAP_SIGNATURE⟩ ∧
      header s'.mem p = { header s.mem p with next := e - expandLength size } ∧
      ∀ b, p + 48 ≤ b → header s'.mem b = header s.mem b
    else
      header s'.mem (e - expandLength size) = ⟨1, expandLength size - 48, 0, e, HEAP_SIGNATURE⟩ ∧
      header s'.mem e = { header s.mem e with next := e - expandLength size } ∧
      ∀ b, e + 48 ≤ b → header s'.mem b = header s.mem b := by
  obtain ⟨hmod, hle, hlt⟩ := expandLength_spec hs
  unfold NoOverflow at hs
  unfold expandHeap at h
  extract_lets len pages at h
  have hlen : len = expandLength size := rfl
  clear_value len
  subst hlen
  have hpages : 4096 * pages = expandLength size := by
    simp only [pages]
    rw [if_neg (by unfold PAGESIZE; omega)]
    unfold PAGESIZE
    omega
  clear_value pages
  cases hexp : expandPages (heapPerms (!s.cheap.isKernel)) pages s with
  | error err => rw [hexp] at h; cases h
  | ok t =>
    rw [hexp] at h
    obtain ⟨k, hk, hkpos, hmem, hcheap, hold, hnew⟩ := expandPages_ok (by rw [he]; exact hpage)
      (by rw [he]; exact hpos) (by rw [he]; omega) hexp
    rw [he] at hk hnew
    have hke : e - expandLength size = k := by omega
    have ht : t.cheap.lastSegment = e := by rw [hcheap]; exact hl
    have hend : t.cheap.heapEnd = k := by rw [hcheap]
    have hmain : t.cheap.mainSegment = s.cheap.mainSegment := by rw [hcheap]
    have hready : t.cheap.ready = s.cheap.ready := by rw [hcheap]
    rw [← hmem] at hx ⊢
    have hcond : (e ≠ 0 ∧ Segment.free.get t.mem e ≠ 0 ∧ Segment.last.get t.mem e ≠ 0) ↔
        free ≠ 0 := by
      rw [free_of_header hx, last_of_header hx]
      exact ⟨fun h => h.2.1, fun h => ⟨by omega, h, by show p ≠ 0; omega⟩⟩
    simp only [Except.map, Except.ok.injEq, ht, hend, hcond] at h
    subst h
    rw [hke]
    refine ⟨by omega, rfl, rfl, hmain, hready, hold, hnew, ?_⟩
    by_cases hf : free ≠ 0
    · simp only [if_pos hf]
      exact swallowSegment_header hx (by omega) (by omega) htop hp
    · simp only [if_neg hf]
      exact appendSegment_header (by omega) (by omega) (by omega)

end UnedKernel.Memory
