import UnedKernel.Memory.PagesSafety

/-! # The memory that the allocator starts with

`init_memory` takes the pages between the ends of the biggest usable chunk, both
rounded up. The last page reaches past a chunk that does not end at a page. -/

namespace UnedKernel.Memory
open ByteMem Bitmap Word

/-- `memory->bitfield`: behind the header, whose size is taken to be that of a pointer. -/
def bitfieldAddress (first : Nat) : Nat := alignAddr (u64 (first + 8))

/-- Address `a` lies in one of the pages reserved at the end of `init_memory`. -/
def InUsedSpace (m : SystemMemory) (a : Nat) : Prop :=
  m.firstAvailablePageAddr ≤ a ∧ (a - m.firstAvailablePageAddr) / PAGESIZE < usedSpace m

/-- The allocator offers memory of the chunk only, and keeps its own data out of it. -/
structure OffersChunk (chunk : ChunkData) (m : SystemMemory) : Prop where
  pages : ∀ a, a % PAGESIZE = 0 → m.firstAvailablePageAddr ≤ a → a < m.lastAvailablePageAddress →
    chunk.addr ≤ a ∧ a + PAGESIZE ≤ chunk.addr + chunk.size
  header : ∀ a, m.firstAvailablePageAddr ≤ a →
    a < m.firstAvailablePageAddr + sizeofSystemMemory → InUsedSpace m a
  bitmap : ∀ a, bitfieldAddress m.firstAvailablePageAddr ≤ a →
    a < bitfieldAddress m.firstAvailablePageAddr + bitfieldEntries m.totalAvailablePages →
    InUsedSpace m a
  fits : usedSpace m ≤ m.totalAvailablePages
  reserved : ∀ i, i < usedSpace m → m.pageBit i = true
  free : ∀ i, usedSpace m ≤ i → i < m.totalAvailablePages → m.pageBit i = false

/-- The chunk ends at a page, or so high that its end rounds up to address 0. -/
def EndsAtPage (chunk : ChunkData) : Prop :=
  (chunk.addr + chunk.size) % PAGESIZE = 0 ∨
    18446744073709547520 < chunk.addr + chunk.size ∧ 0 < chunk.addr

namespace SystemMemory

/-- Clear pages of the range can be reserved. -/
theorem reservePagesFrom_succeeds {m : SystemMemory} {i n : Nat}
    (hrange : i + n ≤ 4503599627370496) (htotal : i + n ≤ m.totalAvailablePages + 1)
    (hclear : ∀ x, i ≤ x → x < i + n → m.pageBit x = false) :
    ∃ m', reservePagesFrom 0 i n m = .ok m' ∧
      m'.lastAvailablePageAddress = m.lastAvailablePageAddress := by
  induction n generalizing i m with
  | zero => exact ⟨m, rfl, rfl⟩
  | succ n ih =>
    have haddr : addrToPage (u64 (0 + i <<< 12)) = i := by
      rw [Nat.zero_add]
      exact addrToPage_shift (by omega)
    have hin : addrToPage (u64 (0 + i <<< 12)) ≤ m.totalAvailablePages := by
      rw [haddr]
      omega
    have hbit : m.pageBit (addrToPage (u64 (0 + i <<< 12))) = false := by
      rw [haddr]
      exact hclear i (Nat.le_refl i) (by omega)
    obtain ⟨m₁, hm₁⟩ : ∃ m₁, m.reservePage (u64 (0 + i <<< 12)) = .ok m₁ :=
      ⟨_, takePage_clear _ _ m _ hin hbit⟩
    obtain ⟨-, -, heq⟩ := takePage_ok hm₁
    rw [haddr] at heq
    have htotal₁ : m₁.totalAvailablePages = m.totalAvailablePages := by rw [heq]
    have hlast₁ : m₁.lastAvailablePageAddress = m.lastAvailablePageAddress := by rw [heq]
    have hclear₁ : ∀ x, i + 1 ≤ x → x < i + 1 + n → m₁.pageBit x = false := by
      intro x hx hx'
      rw [heq, pageBit_mk, bit_setBit_of_ne _ (by omega)]
      exact hclear x (by omega) (by omega)
    obtain ⟨m', hm', hlast⟩ := ih (by omega) (by omega) hclear₁
    rw [reservePagesFrom, hm₁]
    exact ⟨m', hm', hlast.trans hlast₁⟩

end SystemMemory

/-! ## The sizes -/

/-- The end of the chunk rounded up, which may be the end of the address space. -/
theorem alignAddr_end {x : Nat} (h : x ≤ 18446744073709551616) :
    ∃ top, top % 4096 = 0 ∧ x ≤ top ∧ top < x + 4096 ∧ top ≤ 18446744073709551616 ∧
      alignAddr (u64 x) = u64 top := by
  refine ⟨(x + 4095) / 4096 * 4096, by omega, by omega, by omega, by omega, ?_⟩
  unfold alignAddr u64 PAGESIZE
  split <;> omega

theorem sub64_end {top first : Nat} (htop : top ≤ 18446744073709551616) (hle : first ≤ top)
    (hspan : top - first < 18446744073709551616) : sub64 (u64 top) first = top - first := by
  unfold sub64 u64
  omega

theorem bitfieldEntries_le (n : Nat) : 8 * bitfieldEntries n ≤ n + 7 := by
  unfold bitfieldEntries
  rw [Nat.shiftRight_eq_div_pow]
  split <;> omega

variable {memoryMap : List MemmapEntry} {ram : Bytes} {chunk : ChunkData}
  {first last pages top : Nat}

/-- What `init_memory` leaves, for the sizes that it computes. -/
theorem initMemory_leaves (hchunk : memoryMap.foldl initMemoryCb ⟨0, 0⟩ = chunk)
    (hfirst : alignAddr chunk.addr = first)
    (hlast : alignAddr (u64 (chunk.addr + chunk.size)) = last)
    (hpages : sub64 last first / 4096 = pages)
    (hsize : bitfieldEntries pages + 12360 ≤ chunk.size) (hsmall : pages < 4503599627370496)
    (hfits : (bitfieldEntries pages + 12360) / 4096 ≤ pages) :
    ∃ s, initMemory memoryMap ram = .ok s ∧ s.memory.totalAvailablePages = pages ∧
      s.memory.firstAvailablePageAddr = first ∧ s.memory.lastAvailablePageAddress = last ∧
      ∀ i, i < pages → s.memory.pageBit i = decide (i < usedSpace s.memory) := by
  have hshift : sub64 last first >>> 12 = pages := by rw [Nat.shiftRight_eq_div_pow, ← hpages]
  have hcover := bitfieldEntries_cover pages
  unfold initMemory
  simp only [hchunk, hfirst, hlast, hshift, overhead_eq]
  have husedEq : (bitfieldEntries pages + 12360) >>> 12 = (bitfieldEntries pages + 12360) / 4096 :=
    Nat.shiftRight_eq_div_pow _ 12
  rw [if_neg (Nat.not_lt.mpr hsize), husedEq, SystemMemory.reservePages_zero]
  have hclear : ∀ i, i < pages →
      bit (fill (fill ram 0 100 0x55) 0 (bitfieldEntries pages) 0) i = false :=
    fun i hi => bit_fill_zero _ (by omega)
  obtain ⟨m, hm⟩ : ∃ m : SystemMemory, m = ⟨pages, first, last,
    memoryMap.foldl getTotalMemoryCb 0, memoryMap.foldl getTotalMemoryCb 0 >>> 12,
    fill (fill ram 0 100 0x55) 0 (bitfieldEntries pages) 0, sub64 last first, 0, 0⟩ := ⟨_, rfl⟩
  have hbits : ∀ i, i < pages → m.pageBit i = false := fun i hi => hm ▸ hclear i hi
  have htotal : m.totalAvailablePages = pages := by rw [hm]
  rw [← hm]
  obtain ⟨m', hm', hlast'⟩ := SystemMemory.reservePagesFrom_succeeds (m := m) (i := 0)
    (n := (bitfieldEntries pages + 12360) / 4096) (by omega) (by omega)
    fun x _ hx => hbits x (by omega)
  obtain ⟨htotal', hfirst', hbits'⟩ := SystemMemory.reservePagesFrom_ok (by omega) hm'
  rw [hm']
  have hused : usedSpace m' = (bitfieldEntries pages + 12360) / 4096 := by
    rw [usedSpace_eq, htotal', htotal]
  refine ⟨_, rfl, htotal'.trans htotal, hfirst'.trans (by rw [hm]), hlast'.trans (by rw [hm]),
    fun i hi => ?_⟩
  rw [hbits', hbits i hi, hused]
  simp

/-- The allocator's own data fits into the pages that it reserves. -/
theorem inUsedSpace {m : SystemMemory} {a : Nat}
    (hmod : m.firstAvailablePageAddr % 4096 = 0) (hge : m.firstAvailablePageAddr ≤ a)
    (hlt : a < m.firstAvailablePageAddr + 4096 + bitfieldEntries m.totalAvailablePages) :
    InUsedSpace m a := by
  refine ⟨hge, ?_⟩
  rw [usedSpace_eq]
  unfold PAGESIZE
  omega

theorem bitfieldAddress_eq (hmod : first % 4096 = 0) (hlt : first < 18446744073709547520) :
    bitfieldAddress first = first + 4096 := by
  unfold bitfieldAddress alignAddr u64 PAGESIZE
  split <;> omega

/-- The size check, as the code makes it. -/
theorem initMemory_check (hchunk : memoryMap.foldl initMemoryCb ⟨0, 0⟩ = chunk)
    (hfirst : alignAddr chunk.addr = first)
    (hlast : alignAddr (u64 (chunk.addr + chunk.size)) = last)
    (hpages : sub64 last first / 4096 = pages)
    (hcheck : initMemory memoryMap ram ≠
      .error ⟨"init_memory: not enough memory for memory bitfield"⟩) :
    bitfieldEntries pages + 12360 ≤ chunk.size := by
  by_contra hsmall
  refine hcheck ?_
  have hshift : sub64 last first >>> 12 = pages := by rw [Nat.shiftRight_eq_div_pow, ← hpages]
  unfold initMemory
  simp only [hchunk, hfirst, hlast, hshift, overhead_eq]
  exact if_pos (Nat.not_le.mp hsmall)

theorem initMemory_pages {s : PageAllocator}
    (hchunk : memoryMap.foldl initMemoryCb ⟨0, 0⟩ = chunk)
    (hfirst : alignAddr chunk.addr = first)
    (hlast : alignAddr (u64 (chunk.addr + chunk.size)) = last)
    (hpages : sub64 last first / 4096 = pages) (hsmall : pages < 4503599627370496)
    (h : initMemory memoryMap ram = .ok s) : s.memory.totalAvailablePages = pages := by
  have hshift : sub64 last first >>> 12 = pages := by rw [Nat.shiftRight_eq_div_pow, ← hpages]
  have hle := bitfieldEntries_le pages
  have husedEq : (bitfieldEntries pages + 12360) >>> 12 = (bitfieldEntries pages + 12360) / 4096 :=
    Nat.shiftRight_eq_div_pow _ 12
  unfold initMemory at h
  simp only [hchunk, hfirst, hlast, hshift, overhead_eq, husedEq] at h
  split at h
  · cases h
  · rw [SystemMemory.reservePages_zero] at h
    cases hm : SystemMemory.reservePagesFrom 0 0 ((bitfieldEntries pages + 12360) / 4096) _ with
    | error e =>
      rw [hm] at h
      cases h
    | ok m =>
      rw [hm] at h
      cases h
      exact (SystemMemory.reservePagesFrom_ok (by omega) hm).1

/-- On a chunk that passes the size check and does not go round the end of the address
space, `init_memory` offers the memory of the chunk exactly when the chunk ends at a page. -/
theorem initMemory_offers_iff (hchunk : memoryMap.foldl initMemoryCb ⟨0, 0⟩ = chunk)
    (hword : chunk.size < 18446744073709551616)
    (hwrap : chunk.addr + chunk.size ≤ 18446744073709551616)
    (hcheck : initMemory memoryMap ram ≠
      .error ⟨"init_memory: not enough memory for memory bitfield"⟩) :
    (∃ s, initMemory memoryMap ram = .ok s ∧ OffersChunk chunk s.memory) ↔ EndsAtPage chunk := by
  obtain ⟨first, hfirst⟩ : ∃ first, alignAddr chunk.addr = first := ⟨_, rfl⟩
  obtain ⟨last, hlast⟩ : ∃ last, alignAddr (u64 (chunk.addr + chunk.size)) = last := ⟨_, rfl⟩
  obtain ⟨pages, hpages⟩ : ∃ pages, sub64 last first / 4096 = pages := ⟨_, rfl⟩
  have hsize := initMemory_check hchunk hfirst hlast hpages hcheck
  obtain ⟨top, htopMod, htopGe, htopLt, htopLe, htop⟩ := alignAddr_end hwrap
  have hfirstMod := alignAddr_mod chunk.addr
  obtain ⟨hfirstGe, hfirstLt, -⟩ := alignAddr_bounds (x := chunk.addr) (by omega)
  rw [hfirst] at hfirstMod hfirstGe hfirstLt
  have hlastTop : last = u64 top := hlast.symm.trans htop
  have hentries := bitfieldEntries_le pages
  rw [EndsAtPage]
  unfold PAGESIZE
  by_cases hwhole : first = 0 ∧ top = 18446744073709551616
  · -- the chunk is the whole address space, and its pages count as none
    have hnone : pages = 0 := by
      rw [← hpages, hlastTop, hwhole.1, hwhole.2]
      decide
    refine iff_of_false ?_ (by omega)
    intro ⟨s, hs, hoffers⟩
    have htotal := initMemory_pages hchunk hfirst hlast hpages (by omega) hs
    have hused := usedSpace_pos s.memory
    have hfits := hoffers.fits
    omega
  · have hspan : sub64 last first = top - first := by
      rw [hlastTop]
      exact sub64_end htopLe (by omega) (by omega)
    rw [hspan] at hpages
    obtain ⟨s, hs, htotal, hfirstAvail, hlastAvail, hbits⟩ := @initMemory_leaves memoryMap ram chunk first last
      pages hchunk hfirst hlast (by rw [hspan, hpages]) hsize (by omega) (by omega)
    have hbitmap : bitfieldAddress first = first + 4096 := bitfieldAddress_eq hfirstMod (by omega)
    constructor
    · intro ⟨s', hs', hoffers⟩
      obtain rfl : s = s' := Except.ok.inj (hs.symm.trans hs')
      by_contra hend
      have hbelow : top < 18446744073709551616 := by omega
      rw [u64_of_lt hbelow] at hlastTop
      have hpage := hoffers.pages (top - 4096) (by unfold PAGESIZE; omega) (by omega) (by omega)
      unfold PAGESIZE at hpage
      omega
    · intro hend
      refine ⟨s, hs, ⟨?_, ?_, ?_, ?_, ?_, ?_⟩⟩
      · intro a hmod hge hlt
        unfold PAGESIZE at hmod ⊢
        rw [hlastAvail, hlastTop] at hlt
        unfold u64 at hlt
        omega
      · intro a hge hlt
        refine inUsedSpace (by omega) hge ?_
        unfold sizeofSystemMemory at hlt
        omega
      · intro a hge hlt
        rw [hfirstAvail, hbitmap] at hge hlt
        exact inUsedSpace (by omega) (by omega) (by omega)
      · rw [usedSpace_eq, htotal]
        omega
      · intro i hi
        rw [hbits i (by rw [usedSpace_eq, htotal] at hi; omega)]
        exact decide_eq_true hi
      · intro i hi hlt
        rw [hbits i (htotal ▸ hlt)]
        exact decide_eq_false (Nat.not_lt.mpr hi)

/-- A chunk of whole pages. -/
theorem initMemory_offers_iff_smallMap : ∃ s, initMemory smallMap (fun _ => 0) = .ok s ∧
    OffersChunk ⟨0x100000, 0x4000⟩ s.memory := by
  refine (@initMemory_offers_iff smallMap (fun _ => 0) ⟨0x100000, 0x4000⟩ rfl (by decide)
    (by decide) ?_).mpr (.inl rfl)
  intro hcheck
  have hok : (initMemory smallMap (fun _ => 0)).toBool = true := by decide
  rw [hcheck] at hok
  cases hok

/-- A chunk that ends one byte behind a page. -/
theorem not_initMemory_offers : ¬ ∀ (memoryMap : List MemmapEntry) (ram : Bytes) (chunk : ChunkData),
    memoryMap.foldl initMemoryCb ⟨0, 0⟩ = chunk → chunk.size < 18446744073709551616 →
    chunk.addr + chunk.size ≤ 18446744073709551616 →
    initMemory memoryMap ram ≠ .error ⟨"init_memory: not enough memory for memory bitfield"⟩ →
    ∃ s, initMemory memoryMap ram = .ok s ∧ OffersChunk chunk s.memory := by
  intro hall
  obtain ⟨memoryMap, hmap⟩ : ∃ memoryMap : List MemmapEntry,
    memoryMap = [⟨0x100000, 0x4001, MEMMAP_USABLE⟩] := ⟨_, rfl⟩
  have hends : (initMemory memoryMap (fun _ => 0)).toOption.map
      (fun s => (s.memory.firstAvailablePageAddr, s.memory.lastAvailablePageAddress)) =
      some (0x100000, 0x105000) := by
    rw [hmap]
    decide +kernel
  have hcheck : initMemory memoryMap (fun _ => 0) ≠
      .error ⟨"init_memory: not enough memory for memory bitfield"⟩ := by
    intro heq
    rw [heq] at hends
    cases hends
  obtain ⟨s, hs, hoffers⟩ := hall memoryMap (fun _ => 0) ⟨0x100000, 0x4001⟩ (hmap ▸ rfl) (by decide)
    (by decide) hcheck
  rw [hs] at hends
  obtain ⟨hfirst, hlast⟩ := Prod.mk.inj (Option.some.inj hends)
  have hpage := (hoffers.pages 0x104000 rfl (by rw [hfirst]; simp) (by rw [hlast]; simp)).2
  exact absurd hpage (by decide)

end UnedKernel.Memory
