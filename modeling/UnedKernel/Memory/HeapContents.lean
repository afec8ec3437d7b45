import UnedKernel.Memory.HeapCoalesced
import UnedKernel.Memory.HeapGrowth

/-! # The contents of the blocks

The heap writes headers only, of segments of its list or inside free ones. So `_malloc`
and `_free` leave the payloads of the segments in use as they are, and `_realloc` moves
the bytes of one block to another. -/

namespace UnedKernel.Memory
open ByteMem Word Run

/-! ## The bytes that are written -/

/-- Byte `x` is outside the header at `a`. -/
def OffHeader (a x : Nat) : Prop := x < a ∨ a + 48 ≤ x

section writes

variable {m m' : Bytes} {f : Field} {a v x : Nat}

theorem set_outside (hf : f.Within 48) (h : OffHeader a x) : f.set m a v x = m x :=
  store_apply_out m (by unfold Field.Within at hf; unfold OffHeader at h; omega)

theorem fill_outside (h : OffHeader a x) : fill m a sizeofHeader 0 x = m x :=
  fill_apply_out m h

/-- `splitSegment` writes the headers of the segment, of the part it cuts off and of the
segment above. -/
theorem splitSegment_outside {s s' : HeapState} {a p n size L nx free : Nat}
    (hx : header s.mem a = ⟨free, L, nx, p, HEAP_SIGNATURE⟩) (hsize : size + 48 < L)
    (htop : a + 48 + L ≤ p) (hp : p + 48 ≤ 18446744073709551616)
    (h : splitSegment s a size = .ok (n, s')) (ha : OffHeader a x) (hn : OffHeader n x)
    (hpx : OffHeader p x) : s'.mem x = s.mem x := by
  have hlen : Segment.length.get s.mem a = L := length_of_header hx
  have hsig : Segment.signature.get s.mem a = HEAP_SIGNATURE := signature_of_header hx
  have hadd : u64 (size + sizeofHeader) = size + 48 := u64_of_lt (by unfold sizeofHeader; omega)
  unfold splitSegment at h
  extract_lets m new m1 m2 m3 m4 m5 m6 m7 lastSegment m8 m9 m10 at h
  rw [if_neg (by rw [hlen, hadd]; omega), if_neg (not_not.mpr hsig)] at h
  simp only [Except.ok.injEq, Prod.mk.injEq] at h
  obtain ⟨rfl, rfl⟩ := h
  have hnew : new = a + L - size := by
    show sub64 (u64 (a + Segment.length.get s.mem a)) size = _
    rw [hlen, u64_of_lt (by omega), sub64_of_le (by omega) (by omega)]
  clear_value new
  subst hnew
  have hb : a + 48 ≤ a + L - size ∨ a + L - size + 48 ≤ a := .inl (by omega)
  have h7 : Segment.last.get m7 a = p := by
    have hold : header m7 a = header s.mem a := by
      simp only [m7, m6, m5, m4, m3, m2, m1, m]
      rw [header_setLast_apart hb, header_setSignature_apart hb, header_setNext_apart hb,
        header_setIsStack_apart hb, header_setLength_apart hb, header_setFree_apart hb,
        header_fill hb]
    exact last_of_header (hold.trans hx)
  have hm7 : m7 x = s.mem x := by
    simp only [m7, m6, m5, m4, m3, m2, m1, m]
    rw [set_outside (by decide) hn, set_outside (by decide) hn, set_outside (by decide) hn,
      set_outside (by decide) hn, set_outside (by decide) hn, set_outside (by decide) hn,
      fill_outside hn]
  have hm8 : m8 x = m7 x := by
    simp only [m8, h7]
    split
    · exact set_outside (by decide) hpx
    · rfl
  show m10 x = s.mem x
  simp only [m10, m9]
  rw [set_outside (by decide) ha, set_outside (by decide) ha, hm8, hm7]

theorem mergeThisToNext_outside {n p L Ln nn ln free fn : Nat}
    (hx : header m a = ⟨free, L, n, p, HEAP_SIGNATURE⟩)
    (hn : header m n = ⟨fn, Ln, nn, ln, HEAP_SIGNATURE⟩) (hna : n + 48 + Ln ≤ a)
    (h : mergeThisToNext m a = m') (ha : OffHeader a x) (hnx : OffHeader n x) (hpx : OffHeader p x) :
    m' x = m x := by
  unfold mergeThisToNext at h
  extract_lets next m1 m2 m3 at h
  have hnext : next = n := next_of_header hx
  clear_value next
  subst hnext
  have h2 : Segment.last.get m2 a = p := by
    have hold : header m2 a = header m a := by
      simp only [m2, m1]
      rw [header_setLast_apart (.inr (by omega)), header_setLength_apart (.inr (by omega))]
    exact last_of_header (hold.trans hx)
  rw [← h, fill_outside ha]
  simp only [m3, h2]
  rw [set_outside (by decide) hpx]
  simp only [m2, m1]
  rw [set_outside (by decide) hnx, set_outside (by decide) hnx]

theorem mergeLastToThis_outside {n p pp L Lp np free fp : Nat}
    (hx : header m a = ⟨free, L, n, p, HEAP_SIGNATURE⟩)
    (hl : header m p = ⟨fp, Lp, np, pp, HEAP_SIGNATURE⟩)
    (hap : a + 48 + L ≤ p) (hpp : pp < 18446744073709551616) (h : mergeLastToThis m a = m')
    (ha : OffHeader a x) (hpx : OffHeader p x) (hppx : OffHeader pp x) : m' x = m x := by
  unfold mergeLastToThis at h
  extract_lets last m1 m2 m3 at h
  have hlast : last = p := last_of_header hx
  clear_value last
  subst hlast
  have h1 : Segment.last.get m1 last = pp := by
    have hold : header m1 last = header m last := by
      simp only [m1]
      rw [header_setLength_apart (.inr (by omega))]
    exact last_of_header (hold.trans hl)
  have h2 : Segment.last.get m2 a = pp := by
    simp only [m2, h1]
    exact (Field.get_set_same m1 pp).trans (Nat.mod_eq_of_lt hpp)
  rw [← h, fill_outside hpx]
  simp only [m3, h2]
  rw [set_outside (by decide) hppx]
  simp only [m2, m1]
  rw [set_outside (by decide) ha, set_outside (by decide) ha]

theorem swallowSegment_outside {k e p n L free len : Nat}
    (hx : header m e = ⟨free, L, n, p, HEAP_SIGNATURE⟩) (hke : k + 48 ≤ e)
    (hp : p < 18446744073709551616) (h : swallowSegment m k e len = m') (hk : OffHeader k x)
    (hpx : OffHeader p x) : m' x = m x := by
  unfold swallowSegment at h
  extract_lets size m1 m2 m3 m4 m5 m6 at h
  have h4 : Segment.last.get m4 e = p := by
    have hold : header m4 e = header m e := by
      simp only [m4, m3, m2, m1]
      rw [header_setSignature_apart (.inr hke), header_setIsStack_apart (.inr hke),
        header_setFree_apart (.inr hke), header_setLength_apart (.inr hke)]
    exact last_of_header (hold.trans hx)
  have h5 : Segment.last.get m5 k = p := by
    simp only [m5, h4]
    exact (Field.get_set_same m4 p).trans (Nat.mod_eq_of_lt hp)
  rw [← h, set_outside (by decide) hk]
  simp only [m6, h5]
  rw [set_outside (by decide) hpx]
  simp only [m5, m4, m3, m2, m1]
  rw [set_outside (by decide) hk, set_outside (by decide) hk, set_outside (by decide) hk,
    set_outside (by decide) hk, set_outside (by decide) hk]

theorem appendSegment_outside {k e len : Nat} (h : appendSegment m k e len = m')
    (hk : OffHeader k x) (he : OffHeader e x) : m' x = m x := by
  unfold appendSegment at h
  extract_lets m1 m2 m3 m4 m5 m6 at h
  have h6 : m6 x = m x := by
    simp only [m6, m5, m4, m3, m2, m1]
    rw [set_outside (by decide) hk, set_outside (by decide) hk, set_outside (by decide) hk,
      set_outside (by decide) hk, set_outside (by decide) hk, set_outside (by decide) hk]
  rw [← h, ← h6]
  split
  · exact set_outside (by decide) he
  · rfl

/-- `expand_heap` writes the new header, and that of the lowest segment or of the one above it. -/
theorem expandHeap_outside {s s' : HeapState} {size e p L free : Nat} (hs : NoOverflow size)
    (he : s.cheap.heapEnd = e) (hl : s.cheap.lastSegment = e) (hpage : e % 4096 = 0) (hpos : 0 < e)
    (hlt : e < 18446744073709551616) (hx : header s.mem e = ⟨free, L, 0, p, HEAP_SIGNATURE⟩)
    (hp : p < 18446744073709551616) (h : expandHeap s size = .ok s') (hex : e ≤ x)
    (hee : OffHeader e x) (hpx : OffHeader p x) : s'.mem x = s.mem x := by
  obtain ⟨hmod, hle, -⟩ := expandLength_spec hs
  unfold expandHeap at h
  extract_lets len pages at h
  have hlen : len = expandLength size := rfl
  clear_value len
  subst hlen
  have hpages : 4096 * pages = expandLength size := by
    simp only [pages]
    rw [if_neg (by unfold PAGESIZE; omega)]
    unfold PAGESIZE
    omega
  clear_value pages
  cases hexp : expandPages (heapPerms (!s.cheap.isKernel)) pages s with
  | error err => rw [hexp] at h; cases h
  | ok t =>
    rw [hexp] at h
    obtain ⟨k, hk, -, hmem, hcheap, -⟩ := expandPages_ok (by rw [he]; exact hpage)
      (by rw [he]; exact hpos) (by rw [he]; exact hlt) hexp
    have ht : t.cheap.lastSegment = e := by rw [hcheap]; exact hl
    have hend : t.cheap.heapEnd = k := by rw [hcheap]
    have hkx : OffHeader k x := .inr (by omega)
    rw [← hmem] at hx ⊢
    simp only [Except.map, Except.ok.injEq, ht, hend] at h
    rw [← h]
    split
    · exact swallowSegment_outside hx (by omega) hp rfl hkx hpx
    · exact appendSegment_outside rfl hkx hee

end writes

/-! ## The payloads that are kept -/

/-- Byte `a` belongs to the payload of a segment in use. -/
def Payload (segs : List Seg) (a : Nat) : Prop :=
  ∃ y ∈ segs, y.free = false ∧ y.addr + 48 ≤ a ∧ a < y.top

section payload

variable {segs segs' : List Seg} {a : Nat} {z : Seg}

theorem Payload.mono (hk : Keeps segs segs') (h : Payload segs a) : Payload segs' a := by
  obtain ⟨y, hy, hf, hin⟩ := h
  exact ⟨y, hk y hy hf, hf, hin⟩

/-- No header of the list is in a payload. -/
theorem Payload.outside (h : Payload segs a) (hb : Below segs) (hz : z ∈ segs) : OffHeader z.addr a := by
  obtain ⟨y, hy, hf, hlow, hhigh⟩ := h
  unfold OffHeader
  rcases hb.apart hy hz with rfl | hyz | hzy
  · exact .inr hlow
  · exact .inl (by omega)
  · unfold Seg.top at hzy
    exact .inr (by omega)

/-- No free segment is. -/
theorem Payload.outside_free (h : Payload segs a) (hb : Below segs) (hz : z ∈ segs)
    (hfree : z.free = true) : a < z.addr ∨ z.top ≤ a := by
  obtain ⟨y, hy, hf, hlow, hhigh⟩ := h
  rcases hb.apart hy hz with rfl | hyz | hzy
  · rw [hfree] at hf
    cases hf
  · exact .inl (by omega)
  · exact .inr (by omega)

end payload

namespace HeapInv

variable {s s' : HeapState} {segs : List Seg} {a size : Nat}

theorem payload_le (h : HeapInv s segs) (ha : Payload segs a) :
    s.cheap.heapEnd ≤ a ∧ a < s.cheap.mainSegment + 48 := by
  obtain ⟨y, hy, -, hlow, hhigh⟩ := ha
  have hle := h.le_addr hy
  have htop := h.top_le hy
  omega

theorem allocate_payload (h : HeapInv s segs) {x : Seg} {r : Nat × HeapState} (hx : x ∈ segs)
    (hfit : x.Fits size) (hr : allocateIn s x.addr size = .ok r) (ha : Payload segs a) :
    r.2.mem a = s.mem a := by
  obtain ⟨hfree, hlen⟩ := hfit
  have hout := ha.outside_free h.below hx hfree
  have hxa := ha.outside h.below hx
  have hxtop := h.top_le hx
  have hxend := h.le_addr hx
  have hpos := h.pos
  have htop := h.top
  unfold Seg.top at hxtop hout
  obtain ⟨pre, q, post, rfl⟩ := h.before hx (.inl hfree)
  obtain ⟨-, hxh, hxq, hq64, -⟩ := h.neighbours
  have hqa : OffHeader q.addr a := ha.outside h.below (by simp)
  have hxlen : Segment.length.get s.mem x.addr = x.length := length_of_header hxh
  have hadd : u64 (size + sizeofHeader) = size + 48 :=
    u64_of_lt (by show size + 48 < _; omega)
  rw [allocateIn, hxlen, hadd] at hr
  by_cases hgt : x.length > size + 48
  · rw [if_pos hgt] at hr
    cases hs : splitSegment s x.addr size with
    | error e => rw [hs] at hr; cases hr
    | ok t =>
      rw [hs] at hr
      obtain ⟨n, t⟩ := t
      rw [Seg.header, hfree] at hxh
      obtain ⟨hn, -⟩ := splitSegment_header hxh hgt hxq hq64 hs
      have hna : OffHeader n a := by
        unfold OffHeader
        omega
      have hsplit := splitSegment_outside hxh hgt hxq hq64 hs hxa hna hqa
      obtain ⟨-, hmem, -⟩ := takeSegment_eq (Except.ok.inj hr)
      rw [hmem, ← hsplit]
      exact set_outside (by decide) hna
  · rw [if_neg hgt] at hr
    obtain ⟨-, hmem, -⟩ := takeSegment_eq (Except.ok.inj hr)
    rw [hmem]
    exact set_outside (by decide) hxa

theorem expand_payload (h : HeapInv s segs) (hs : NoOverflow size) (hr : expandHeap s size = .ok s')
    (ha : Payload segs a) : s'.mem a = s.mem a := by
  obtain ⟨hlow, -⟩ := h.payload_le ha
  obtain ⟨init, x, rfl⟩ := (List.eq_nil_or_concat' segs).resolve_left fun hnil => by
    have hhead := h.head
    rw [hnil] at hhead
    cases hhead
  have hxend : x.addr = s.cheap.heapEnd := by
    rw [← h.bottom 0, lastAddr_append]
    rfl
  obtain ⟨pre, q, rfl⟩ := (List.eq_nil_or_concat' init).resolve_left fun hnil => by
    have hgrown := h.grown
    rw [hnil] at h
    obtain rfl := Option.some.inj h.head
    simp only at hxend
    omega
  rw [List.append_assoc, List.singleton_append] at h ha
  obtain ⟨-, hxh, hxq, hq64, -⟩ := h.neighbours
  unfold Seg.top at hxq
  exact expandHeap_outside hs hxend.symm (h.lastSegment.trans hxend.symm) (by rw [hxend]; exact h.page)
    (by rw [hxend]; exact h.pos) (by omega) hxh (by omega) hr (by omega)
    (ha.outside h.below (by simp)) (ha.outside h.below (by simp))

/-- `_malloc` keeps the payloads of the segments in use. -/
theorem malloc_payload (h : HeapInv s segs) {fuel : Nat} {r : Nat × HeapState} (hs : NoOverflow size)
    (hpos : 0 < size) (hr : UnedKernel.Memory.malloc fuel s size = some (.ok r))
    (ha : Payload segs a) : r.2.mem a = s.mem a := by
  induction fuel generalizing s segs size with
  | zero => cases hr
  | succ fuel ih =>
    obtain ⟨hround, hle, hs'⟩ := roundSize_spec hs
    rcases h.malloc_cases hs hpos hr with ⟨x, hx, hfit, hal⟩ | ⟨k, t, hk, -, hexp, hrest⟩
    · exact h.allocate_payload hx hfit hal ha
    · obtain rfl : fuel = k := Nat.succ.inj hk
      obtain ⟨segs₁, hexpanded⟩ := h.expand hs' hround hexp
      have hkeeps : Keeps segs segs₁ := fun x hx hf => (hexpanded.grows.used_iff hf).mpr hx
      rw [ih hexpanded.inv hs' (by omega) hrest (ha.mono hkeeps)]
      exact h.expand_payload hs' hexp ha

theorem mergeNext_payload {m : Bytes} {pre post : List Seg} {q x n : Seg}
    (h : HeapInv s (pre ++ q :: x :: n :: post)) (hm : mergeThisToNext s.mem x.addr = m)
    (ha : Payload (pre ++ q :: x :: n :: post) a) : m a = s.mem a := by
  obtain ⟨-, hxh, -⟩ := h.neighbours
  have h' : HeapInv s ((pre ++ [q]) ++ x :: n :: post) := by simpa using h
  obtain ⟨-, hnh, hnx, -⟩ := h'.neighbours
  exact mergeThisToNext_outside hxh hnh hnx hm (ha.outside h.below (by simp))
    (ha.outside h.below (by simp)) (ha.outside h.below (by simp))

theorem mergeLast_payload {m : Bytes} {pre post : List Seg} {q p x : Seg}
    (h : HeapInv s (pre ++ q :: p :: x :: post)) (hm : mergeLastToThis s.mem x.addr = m)
    (ha : Payload (pre ++ q :: p :: x :: post) a) : m a = s.mem a := by
  obtain ⟨-, hph, -, hq64, -⟩ := h.neighbours
  have h' : HeapInv s ((pre ++ [q]) ++ p :: x :: post) := by simpa using h
  obtain ⟨-, hxh, hxp, -⟩ := h'.neighbours
  exact mergeLastToThis_outside hxh hph hxp (by omega) hm (ha.outside h.below (by simp))
    (ha.outside h.below (by simp)) (ha.outside h.below (by simp))

/-- The merges of `_free` do, too. -/
theorem merge_payload {m : Bytes} {pre post : List Seg} {q x : Seg}
    (h : HeapInv s (pre ++ q :: x :: post)) (hfree : x.free = true)
    (hm : mergeAround s.mem x.addr = m) (ha : Payload (pre ++ q :: x :: post) a) :
    m a = s.mem a := by
  obtain ⟨-, hqh, hxh, -⟩ := chain_append.mp h.chain
  have hn : Segment.next.get s.mem x.addr = firstAddr 0 post := next_of_header hxh
  have hl : Segment.last.get s.mem x.addr = q.addr := last_of_header hxh
  have hq : Segment.free.get s.mem q.addr ≠ 0 → q.free = true := fun hne => by
    rw [free_of_header hqh] at hne
    exact Bool.toNat_eq_one.mp (by have := Bool.toNat_le q.free; change q.free.toNat ≠ 0 at hne; omega)
  have habove : q.free = true → ∃ pre' p, pre = pre' ++ [p] := fun hqf => by
    rcases List.eq_nil_or_concat' pre with rfl | ⟨pre', p, rfl⟩
    · rw [Option.some.inj h.head] at hqf
      cases hqf
    · exact ⟨pre', p, rfl⟩
  have hbelow : firstAddr 0 post ≠ 0 → ∃ n rest, post = n :: rest := fun hne => by
    cases post with
    | nil => exact absurd rfl hne
    | cons n rest => exact ⟨n, rest, rfl⟩
  unfold mergeAround at hm
  extract_lets next last at hm
  rw [show next = firstAddr 0 post from hn, show last = q.addr from hl] at hm
  split at hm
  · rename_i hc
    obtain ⟨pre', p, rfl⟩ := habove (hq hc.2.2.2)
    obtain ⟨n, rest, rfl⟩ := hbelow hc.1
    have h' : HeapInv s (pre' ++ p :: q :: x :: n :: rest) := by simpa using h
    have ha' : Payload (pre' ++ p :: q :: x :: n :: rest) a := by simpa using ha
    rw [mergeLastAndThisToNext] at hm
    obtain ⟨m', hm'⟩ : ∃ m', mergeLastToThis s.mem x.addr = m' := ⟨_, rfl⟩
    have hinv := h'.mergeLast
    rw [hm'] at hm hinv
    have hkeeps : Keeps (pre' ++ p :: q :: x :: n :: rest)
        (pre' ++ p :: ⟨x.addr, x.length + q.bytes, x.free⟩ :: n :: rest) := fun y hy hyf => by
      have hne : y ≠ q := fun heq => by rw [heq, hq hc.2.2.2] at hyf; cases hyf
      have hne' : y ≠ x := fun heq => by rw [heq, hfree] at hyf; cases hyf
      simp only [List.mem_append, List.mem_cons, hne, hne', false_or] at hy ⊢
      exact hy.imp_right fun hy => hy.imp_right .inr
    rw [hinv.mergeNext_payload hm (ha'.mono hkeeps)]
    exact h'.mergeLast_payload hm' ha'
  split at hm
  · rename_i hc
    obtain ⟨pre', p, rfl⟩ := habove (hq hc.2)
    exact @mergeLast_payload s a m pre' post p q x (by simpa using h) hm (by simpa using ha)
  split at hm
  · rename_i hc
    obtain ⟨n, rest, rfl⟩ := hbelow hc.1
    exact h.mergeNext_payload hm ha
  · rw [← hm]

/-- `_free` of a segment keeps the payloads of the others. -/
theorem free_payload (h : HeapInv s segs) {x y : Seg} (hx : x ∈ segs) (hpos : 0 < x.length)
    (hr : heapFree s (x.addr + 48) = .ok s') (hy : y ∈ segs) (hf : y.free = false) (hne : y ≠ x)
    (hlow : y.addr + 48 ≤ a) (hhigh : a < y.top) : s'.mem a = s.mem a := by
  have hxa := Payload.outside ⟨y, hy, hf, hlow, hhigh⟩ h.below hx
  obtain ⟨pre, q, post, rfl⟩ := h.before hx (.inr hpos)
  have htop := h.top
  have hxtop := h.top_le hx
  unfold Seg.top at hxtop
  obtain ⟨hmem, -⟩ := heapFree_ok h.ready (by omega) hr
  have hmark : Segment.free.set s.mem x.addr 1 a = s.mem a := set_outside (by decide) hxa
  rw [← hmark]
  refine h.mark.merge_payload rfl hmem.symm ⟨y, ?_, hf, hlow, hhigh⟩
  simp only [List.mem_append, List.mem_cons, hne, false_or] at hy ⊢
  exact hy.imp_right fun hy => hy.imp_right .inr

end HeapInv
end UnedKernel.Memory
