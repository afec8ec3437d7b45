import UnedKernel.Lib.Run
import UnedKernel.Memory.Pages

/-! # Safety of the physical page allocator

The bit of index `total_available_pages` stands for no page, but the scan of
`request_page` tests it before it tests the bound. Every run in which it is
never reached while clear hands out pages of the chunk only, each at most once. -/

namespace UnedKernel.Memory
open ByteMem Bitmap Word Run

/-! ## The page operations -/

theorem shift_eq (i : Nat) : i <<< 12 = i * 4096 := Nat.shiftLeft_eq i 12

theorem addrToPage_shift {i : Nat} (h : i < 4503599627370496) :
    addrToPage (u64 (i <<< 12)) = i := by
  have hlt : i * 4096 < 18446744073709551616 := by omega
  rw [shift_eq, u64_of_lt hlt, addrToPage, Nat.shiftRight_eq_div_pow]
  exact Nat.mul_div_cancel i (by decide)

namespace SystemMemory

@[simp] theorem pageBit_mk (a b c d e : Nat) (f : Bytes) (g h i x : Nat) :
    (SystemMemory.mk a b c d e f g h i).pageBit x = bit f x := rfl

/-- What a page that could be taken was, and what taking it does. -/
theorem takePage_ok {already : Panic} {account : SystemMemory → SystemMemory}
    {m m' : SystemMemory} {address : Nat} (h : takePage already account m address = .ok m') :
    addrToPage address ≤ m.totalAvailablePages ∧ m.pageBit (addrToPage address) = false ∧
      m' = account { m with bitfield := setBit m.bitfield (addrToPage address) } := by
  by_cases hb : addrToPage address ≤ m.totalAvailablePages
  · have hb' : ¬ addrToPage address > m.totalAvailablePages := by omega
    cases hp : m.pageBit (addrToPage address) with
    | true => simp [takePage, getPageBit, hb', hp, bind, Except.bind, throw, throwThe,
        MonadExceptOf.throw] at h
    | false =>
      simp [takePage, getPageBit, setPageBit, hb', hp, bind, Except.bind, pure, Except.pure] at h
      exact ⟨hb, rfl, h.symm⟩
  · simp [takePage, getPageBit, Nat.lt_of_not_le hb, bind, Except.bind] at h

theorem takePage_clear (already : Panic) (account : SystemMemory → SystemMemory)
    (m : SystemMemory) (address : Nat) (hb : addrToPage address ≤ m.totalAvailablePages)
    (hp : m.pageBit (addrToPage address) = false) : takePage already account m address =
      .ok (account { m with bitfield := setBit m.bitfield (addrToPage address) }) := by
  have hb' : ¬ addrToPage address > m.totalAvailablePages := by omega
  simp [takePage, getPageBit, setPageBit, hb', hp, bind, Except.bind, pure, Except.pure]

theorem givePage_ok {notTaken : Panic} {account : SystemMemory → SystemMemory}
    {m m' : SystemMemory} {address : Nat} (h : givePage notTaken account m address = .ok m') :
    addrToPage address ≤ m.totalAvailablePages ∧ m.pageBit (addrToPage address) = true ∧
      m' = account { m with bitfield := clearBit m.bitfield (addrToPage address) } := by
  by_cases hb : addrToPage address ≤ m.totalAvailablePages
  · have hb' : ¬ addrToPage address > m.totalAvailablePages := by omega
    cases hp : m.pageBit (addrToPage address) with
    | false => simp [givePage, getPageBit, hb', hp, bind, Except.bind, throw, throwThe,
        MonadExceptOf.throw] at h
    | true =>
      simp [givePage, getPageBit, clearPageBit, hb', hp, bind, Except.bind, pure,
        Except.pure] at h
      exact ⟨hb, rfl, h.symm⟩
  · simp [givePage, getPageBit, Nat.lt_of_not_le hb, bind, Except.bind] at h

theorem givePage_set (notTaken : Panic) (account : SystemMemory → SystemMemory)
    (m : SystemMemory) (address : Nat) (hb : ¬ addrToPage address > m.totalAvailablePages)
    (hp : m.pageBit (addrToPage address) = true) : givePage notTaken account m address =
      .ok (account { m with bitfield := clearBit m.bitfield (addrToPage address) }) := by
  simp [givePage, getPageBit, clearPageBit, hb, hp, bind, Except.bind, pure, Except.pure]

/-! ## The scan -/

theorem wrapCursor_of_lt {m : SystemMemory} {x : Nat} (h : x < m.totalAvailablePages) :
    m.wrapCursor x = x := if_neg (by omega)

theorem wrapCursor_of_ge {m : SystemMemory} {x : Nat} (h : m.totalAvailablePages ≤ x) :
    m.wrapCursor x = 0 := if_pos h

/-- The cursor advanced after the wrap does not pass the bound. -/
theorem wrapCursor_succ_le {m : SystemMemory} (x : Nat) (hn : 1 ≤ m.totalAvailablePages) :
    u64 (m.wrapCursor x + 1) ≤ m.totalAvailablePages := by
  unfold wrapCursor u64
  split <;> omega

/-- The scan stops at a clear bit, and never past the bound. -/
theorem requestPageScan_ok {m : SystemMemory} {first fuel x r : Nat}
    (hx : x ≤ m.totalAvailablePages) (hn : 1 ≤ m.totalAvailablePages)
    (h : m.requestPageScan first fuel x = some (.ok r)) :
    m.pageBit r = false ∧ r ≤ m.totalAvailablePages := by
  induction fuel generalizing x with
  | zero => simp [requestPageScan] at h
  | succ fuel ih =>
    simp only [requestPageScan] at h
    split at h
    · split at h
      · simp at h
      · exact ih (wrapCursor_succ_le x hn) h
    · rename_i hbit
      simp only [Option.some.injEq, Except.ok.injEq] at h
      subst h
      exact ⟨by simpa using hbit, hx⟩

/-- A clear page ahead of the cursor is not passed over. -/
theorem requestPageScan_ahead {m : SystemMemory} {first fuel x i : Nat}
    {r : Except Panic Nat} (hi : m.pageBit i = false) (hxi : x ≤ i)
    (hin : i < m.totalAvailablePages) (hn : m.totalAvailablePages < 18446744073709551616)
    (hfirst : first < x ∨ i < first)
    (h : m.requestPageScan first fuel x = some r) : ∃ y, r = .ok y ∧ y ≤ i := by
  induction fuel generalizing x with
  | zero => simp [requestPageScan] at h
  | succ fuel ih =>
    simp only [requestPageScan] at h
    split at h
    · rename_i hbit
      have hne : x ≠ i := by rintro rfl; simp [hi] at hbit
      rw [wrapCursor_of_lt (by omega), if_neg (by omega), u64_of_lt (by omega)] at h
      exact ih (by omega) (by omega) h
    · simp only [Option.some.injEq] at h
      exact ⟨x, h.symm, hxi⟩

/-- A scan that started after page `first` panics only when it has seen every
page but page 0. -/
theorem requestPageScan_error {m : SystemMemory} {first fuel x : Nat} {e : Panic}
    (hx : x ≤ m.totalAvailablePages) (hn : 1 ≤ m.totalAvailablePages)
    (hn' : m.totalAvailablePages < 18446744073709551615)
    (hfirst : first < m.totalAvailablePages)
    (h : m.requestPageScan first fuel x = some (.error e)) :
    (x ≤ first → ∀ i, x ≤ i → i ≤ first → m.pageBit i = true) ∧
    (first < x → (∀ i, x ≤ i → i < m.totalAvailablePages → m.pageBit i = true) ∧
      ∀ i, 1 ≤ i → i ≤ first → m.pageBit i = true) := by
  induction fuel generalizing x with
  | zero => simp [requestPageScan] at h
  | succ fuel ih =>
    simp only [requestPageScan] at h
    split at h
    · rename_i hbit
      by_cases hwrap : x ≥ m.totalAvailablePages
      · -- the cursor goes back to 0, and the scan on from page 1
        rw [wrapCursor_of_ge hwrap] at h
        refine ⟨fun hle => by omega, fun _ => ⟨fun i hi hi' => by omega, fun i hi hi' => ?_⟩⟩
        rw [if_neg (by omega), u64_of_lt (by omega)] at h
        exact (ih (by omega) h).1 (by omega) i (by omega) hi'
      · rw [wrapCursor_of_lt (by omega)] at h
        split at h
        · rename_i heq
          refine ⟨fun _ i hi hi' => ?_, fun hlt => by omega⟩
          rw [show i = x by omega]; exact hbit
        · rw [u64_of_lt (by omega)] at h
          have hrest := ih (x := x + 1) (by omega) h
          constructor
          · intro hle i hi hi'
            by_cases hix : i = x
            · rw [hix]; exact hbit
            · exact hrest.1 (by omega) i (by omega) hi'
          · intro hlt
            refine ⟨fun i hi hi' => ?_, (hrest.2 (by omega)).2⟩
            by_cases hix : i = x
            · rw [hix]; exact hbit
            · exact (hrest.2 (by omega)).1 i (by omega) hi'
    · simp at h

/-- With the cursor at 0 the remembered start is the largest word, and the
scan never panics: it runs for ever once every bit is set. -/
theorem requestPageScan_no_error {m : SystemMemory} {first fuel x : Nat} {e : Panic}
    (hx : x ≤ m.totalAvailablePages) (hn : 1 ≤ m.totalAvailablePages)
    (hfirst : m.totalAvailablePages < first)
    (h : m.requestPageScan first fuel x = some (.error e)) : False := by
  induction fuel generalizing x with
  | zero => simp [requestPageScan] at h
  | succ fuel ih =>
    simp only [requestPageScan] at h
    split at h
    · split at h
      · rename_i heq
        unfold wrapCursor at heq
        split at heq <;> omega
      · exact ih (wrapCursor_succ_le x hn) h
    · simp at h

/-! ## Reserving the bottom pages -/

theorem reservePagesFrom_ok {m m' : SystemMemory} {i n : Nat}
    (hrange : i + n ≤ 4503599627370496)
    (h : reservePagesFrom 0 i n m = .ok m') :
    m'.totalAvailablePages = m.totalAvailablePages ∧
    m'.firstAvailablePageAddr = m.firstAvailablePageAddr ∧
    ∀ x, m'.pageBit x = (decide (i ≤ x ∧ x < i + n) || m.pageBit x) := by
  induction n generalizing i m with
  | zero =>
    simp only [reservePagesFrom, Except.ok.injEq] at h
    subst h
    exact ⟨rfl, rfl, fun x => by simp⟩
  | succ n ih =>
    simp only [reservePagesFrom, bind, Except.bind] at h
    split at h
    · simp at h
    · rename_i m1 hm1
      obtain ⟨-, -, rfl⟩ := takePage_ok hm1
      obtain ⟨ht, hf, hb⟩ := ih (by omega) h
      refine ⟨ht, hf, fun x => ?_⟩
      have haddr : addrToPage (u64 (0 + i <<< 12)) = i := by
        rw [Nat.zero_add]
        exact addrToPage_shift (by omega)
      rw [hb x, haddr]
      show (_ || bit (setBit m.bitfield i) x) = _
      rw [bit_setBit, ← Bool.or_assoc]
      congr 1
      rw [← Bool.decide_or]
      exact decide_eq_decide.mpr (by omega)

theorem reservePages_zero (m : SystemMemory) (n : Nat) :
    m.reservePages 0 n = reservePagesFrom 0 0 n m := by
  rw [reservePages, if_neg (by omega)]

end SystemMemory

/-! ## The invariant -/

/-- Bit `i` of the chunk is set when page `i` is reserved or live, and every
live page is one of the chunk's own unreserved pages. -/
structure Consistent (s : PageAllocator) (live : List Nat) : Prop where
  aligned : s.memory.firstAvailablePageAddr % PAGESIZE = 0
  range : s.memory.firstAvailablePageAddr + s.memory.totalAvailablePages * PAGESIZE ≤
    18446744073709551616
  small : s.memory.totalAvailablePages < 4503599627370496
  nonempty : 1 ≤ usedSpace s.memory
  reserved : usedSpace s.memory ≤ s.memory.totalAvailablePages
  cursor : s.lastRequested ≤ s.memory.totalAvailablePages
  bits : ∀ i, i < s.memory.totalAvailablePages → (s.memory.pageBit i = true ↔
    i < usedSpace s.memory ∨ s.memory.firstAvailablePageAddr + i * PAGESIZE ∈ live)
  pages : ∀ p ∈ live, ∃ i, usedSpace s.memory ≤ i ∧ i < s.memory.totalAvailablePages ∧
    p = s.memory.firstAvailablePageAddr + i * PAGESIZE
  nodup : live.Nodup

theorem usedSpace_pos (m : SystemMemory) : 1 ≤ usedSpace m := by
  unfold usedSpace sizeofSystemMemory
  rw [Nat.shiftRight_eq_div_pow]
  omega

/-- The usable entries of the memory map end below the last page of the 64-bit
address space. -/
def NoWrap (memoryMap : List MemmapEntry) : Prop :=
  ∀ e ∈ memoryMap, e.type = MEMMAP_USABLE → e.base + e.length ≤ 18446744073709547520

theorem initMemoryCb_fold {memoryMap : List MemmapEntry} (chunk : ChunkData)
    (hw : NoWrap memoryMap) (hc : chunk.addr + chunk.size ≤ 18446744073709547520) :
    (memoryMap.foldl initMemoryCb chunk).addr + (memoryMap.foldl initMemoryCb chunk).size ≤
      18446744073709547520 := by
  induction memoryMap generalizing chunk with
  | nil => exact hc
  | cons e rest ih =>
    refine ih _ (fun e he => hw e (List.mem_cons_of_mem _ he)) ?_
    unfold initMemoryCb
    split
    · rename_i he
      exact hw e List.mem_cons_self he.1
    · exact hc

theorem alignAddr_mod (x : Nat) : alignAddr x % 4096 = 0 := by
  unfold alignAddr PAGESIZE
  split <;> omega

theorem alignAddr_bounds {x : Nat} (h : x ≤ 18446744073709547520) :
    x ≤ alignAddr x ∧ alignAddr x < x + 4096 ∧ alignAddr x < 18446744073709551616 := by
  unfold alignAddr u64 PAGESIZE
  split <;> omega

theorem bit_fill_zero (b : Bytes) {n i : Nat} (h : i < 8 * n) : bit (fill b 0 n 0) i = false := by
  have hi : i / 8 < 0 + n := by omega
  rw [bit, fill_apply_in b (Nat.zero_le _) hi]
  simp

theorem bitfieldEntries_cover (n : Nat) : n ≤ 8 * bitfieldEntries n := by
  unfold bitfieldEntries
  rw [Nat.shiftRight_eq_div_pow]
  split <;> omega

/-- The sizes `init_memory` computes: the chunk spans `pages` pages from `first`
on, and `used` of them hold its own data. -/
theorem initMemory_sizes {addr size first last entries : Nat}
    (hchunk : addr + size ≤ 18446744073709547520) (hfirst : alignAddr addr = first)
    (hlast : alignAddr (addr + size) = last) (hsize : ¬ size < entries + 12360) :
    (entries + 12360) / 4096 ≤ sub64 last first / 4096 ∧
      sub64 last first / 4096 < 4503599627370496 ∧
      first + sub64 last first / 4096 * 4096 ≤ 18446744073709551616 := by
  have hf0 := alignAddr_mod addr
  have hl0 := alignAddr_mod (addr + size)
  have hf := alignAddr_bounds (x := addr) (by omega)
  have hl := alignAddr_bounds hchunk
  rw [hfirst] at hf0 hf
  rw [hlast] at hl0 hl
  rw [sub64_of_le (by omega) (by omega)]
  omega

/-- The bytes that the allocator's own data takes besides the bitmap. -/
theorem overhead_eq (entries : Nat) :
    entries + sizeofSystemMemory + 3 <<< 12 = entries + 12360 := by
  have hthree : (3 <<< 12 : Nat) = 12288 := by decide
  unfold sizeofSystemMemory
  omega

theorem usedSpace_eq (m : SystemMemory) :
    usedSpace m = (bitfieldEntries m.totalAvailablePages + 12360) / 4096 := by
  rw [usedSpace, overhead_eq, Nat.shiftRight_eq_div_pow]

/-- What `init_memory` leaves satisfies the invariant, with no page live. -/
theorem initMemory_consistent {memoryMap : List MemmapEntry} {ram : Bytes} {s : PageAllocator}
    (hw : NoWrap memoryMap) (h : initMemory memoryMap ram = .ok s) : Consistent s [] := by
  have hchunk := initMemoryCb_fold ⟨0, 0⟩ hw (by simp)
  unfold initMemory at h
  simp only at h
  split at h
  · simp at h
  rename_i hsize
  generalize memoryMap.foldl initMemoryCb ⟨0, 0⟩ = chunk at h hchunk hsize
  rw [u64_of_lt (by omega)] at h hsize
  rw [overhead_eq] at h hsize
  have hf0 := alignAddr_mod chunk.addr
  generalize hfirst : alignAddr chunk.addr = first at h hsize hf0
  generalize hlast : alignAddr (chunk.addr + chunk.size) = last at h hsize
  obtain ⟨hused, hsmall, hrange⟩ := initMemory_sizes hchunk hfirst hlast hsize
  have hpages : sub64 last first >>> 12 = sub64 last first / 4096 :=
    Nat.shiftRight_eq_div_pow _ 12
  rw [hpages] at h hused
  generalize sub64 last first / 4096 = pages at h hused hsmall hrange
  have hcover := bitfieldEntries_cover pages
  cases hm : SystemMemory.reservePages _ 0
      ((bitfieldEntries pages + 12360) >>> 12) with
  | error e => rw [hm] at h; simp [Except.map] at h
  | ok m =>
    rw [hm] at h
    simp only [Except.map, Except.ok.injEq] at h
    subst h
    rw [SystemMemory.reservePages_zero] at hm
    obtain ⟨ht, hfm, hbits⟩ := SystemMemory.reservePagesFrom_ok (by
      rw [Nat.shiftRight_eq_div_pow]; omega) hm
    simp only at ht hfm
    have hus : usedSpace m = (bitfieldEntries pages + 12360) / 4096 := by rw [usedSpace_eq, ht]
    refine ⟨?_, ?_, ?_, usedSpace_pos _, ?_, Nat.zero_le _, ?_, ?_, List.nodup_nil⟩
    · rw [hfm]; exact hf0
    · simp only [hfm, ht]; exact hrange
    · simp only [ht]; exact hsmall
    · rw [hus, ht]; exact hused
    · intro i hi
      simp only [ht] at hi
      have hz : bit (fill (fill ram 0 100 0x55) 0 (bitfieldEntries pages) 0) i = false :=
        bit_fill_zero _ (by omega)
      simp only [usedSpace_eq, ht, hbits i, SystemMemory.pageBit_mk, hz]
      rw [Nat.shiftRight_eq_div_pow]
      simp
    · simp

/-! ## Runs -/

/-- The allocator and the addresses that are live: returned by `request_page`
and not freed since. -/
abbrev AllocatorState := PageAllocator × List Nat

/-- A call of `request_page` that returns, or of `free_page` on a live page. -/
inductive Step : AllocatorState → AllocatorState → Prop
  | request {s s' live p} (h : s.RequestPageReturns (.ok (p, s'))) : Step (s, live) (s', p :: live)
  | free {s s' live p} (hp : p ∈ live) (h : s.freePage p = .ok s') :
      Step (s, live) (s', live.erase p)

/-- The scan from the cursor does not come to the bit of index
`total_available_pages` while that bit is clear. -/
def ScanBounded (s : PageAllocator) : Prop :=
  s.memory.pageBit s.memory.totalAvailablePages = true ∨
    ∃ i, s.lastRequested ≤ i ∧ i < s.memory.totalAvailablePages ∧ s.memory.pageBit i = false

/-- A step whose request, if it is one, starts from a state with `ScanBounded`. -/
inductive BoundedStep : AllocatorState → AllocatorState → Prop
  | request {s s' live p} (hb : ScanBounded s) (h : s.RequestPageReturns (.ok (p, s'))) :
      BoundedStep (s, live) (s', p :: live)
  | free {s s' live p} (hp : p ∈ live) (h : s.freePage p = .ok s') :
      BoundedStep (s, live) (s', live.erase p)

/-- What the next `request_page` owes: an aligned page of the chunk, neither
reserved nor live; and a panic only when every page is reserved or live. -/
def RequestSafe (s : PageAllocator) (live : List Nat) : Prop :=
  (∀ p s', s.RequestPageReturns (.ok (p, s')) →
    p % PAGESIZE = 0 ∧
    s.memory.firstAvailablePageAddr ≤ p ∧
    p < s.memory.firstAvailablePageAddr + s.memory.totalAvailablePages * PAGESIZE ∧
    s.memory.firstAvailablePageAddr + usedSpace s.memory * PAGESIZE ≤ p ∧
    p ∉ live) ∧
  (∀ e, s.RequestPageReturns (.error e) → ∀ i, i < s.memory.totalAvailablePages →
    i < usedSpace s.memory ∨ s.memory.firstAvailablePageAddr + i * PAGESIZE ∈ live)

/-- The state after page `x` has been locked by a request. -/
def requested (s : PageAllocator) (x : Nat) : PageAllocator :=
  { memory :=
      { s.memory with
        bitfield := setBit s.memory.bitfield x
        freeMemory := sub64 s.memory.freeMemory PAGESIZE
        lockedMemory := u64 (s.memory.lockedMemory + PAGESIZE) }
    lastRequested := x
    statisticsRequested := u64 (s.statisticsRequested + 1) }

/-- A request ends as its scan ends: with the page of the clear bit found, or
with the panic of the scan. -/
theorem requestPage_cases {s : PageAllocator} {live : List Nat} (hc : Consistent s live)
    {fuel : Nat} {r : Except Panic (Nat × PageAllocator)} (h : s.requestPage fuel = some r) :
    (∃ x, s.memory.requestPageScan (sub64 s.lastRequested 1) fuel s.lastRequested = some (.ok x) ∧
      s.memory.pageBit x = false ∧ x ≤ s.memory.totalAvailablePages ∧
      r = .ok (u64 (s.memory.firstAvailablePageAddr + x * PAGESIZE), requested s x)) ∨
    ∃ e, s.memory.requestPageScan (sub64 s.lastRequested 1) fuel s.lastRequested =
      some (.error e) ∧ r = .error e := by
  have hn : 1 ≤ s.memory.totalAvailablePages := le_trans hc.nonempty hc.reserved
  have hsmall := hc.small
  unfold PageAllocator.requestPage at h
  cases hscan : s.memory.requestPageScan (sub64 s.lastRequested 1) fuel s.lastRequested with
  | none => rw [hscan] at h; simp at h
  | some out =>
    rw [hscan, Option.map_some, Option.some.injEq] at h
    cases out with
    | error e => exact .inr ⟨e, rfl, by rw [← h]; rfl⟩
    | ok x =>
      obtain ⟨hbit, hx⟩ := SystemMemory.requestPageScan_ok hc.cursor hn hscan
      refine .inl ⟨x, rfl, hbit, hx, ?_⟩
      have haddr : addrToPage (u64 (x <<< 12)) = x := addrToPage_shift (by omega)
      have hlock := SystemMemory.takePage_clear ⟨"Page already locked!"⟩ (fun m : SystemMemory =>
          { m with
            freeMemory := sub64 m.freeMemory PAGESIZE
            lockedMemory := u64 (m.lockedMemory + PAGESIZE) }) s.memory (u64 (x <<< 12))
        (by rw [haddr]; exact hx) (by rw [haddr]; exact hbit)
      rw [haddr] at hlock
      rw [← h]
      simp only [bind, Except.bind, SystemMemory.lockPage, hlock, SystemMemory.pageBit_mk,
        bit_setBit_self, Bool.true_eq_false, if_false]
      rw [shift_eq]
      rfl

/-- The page a request returns is never taken: it is no live page, and no
reserved one. -/
theorem fresh_of_clear {s : PageAllocator} {live : List Nat} (hc : Consistent s live) {x : Nat}
    (hx : x < s.memory.totalAvailablePages) (hbit : s.memory.pageBit x = false) :
    usedSpace s.memory ≤ x ∧ s.memory.firstAvailablePageAddr + x * PAGESIZE ∉ live := by
  have hiff := hc.bits x hx
  rw [hbit] at hiff
  have hnot := mt hiff.mpr (by simp)
  exact ⟨by omega, fun hm => hnot (.inr hm)⟩

theorem pageAddr_lt {s : PageAllocator} {live : List Nat} (hc : Consistent s live) {x : Nat}
    (hx : x < s.memory.totalAvailablePages) :
    u64 (s.memory.firstAvailablePageAddr + x * PAGESIZE) =
      s.memory.firstAvailablePageAddr + x * PAGESIZE := by
  have hrange := hc.range
  exact u64_of_lt (by unfold PAGESIZE at *; omega)

/-- In a bounded state the clear bit that a request finds is that of a page. -/
theorem scan_lt {s : PageAllocator} {live : List Nat} (hc : Consistent s live)
    (hb : ScanBounded s) {fuel x : Nat}
    (h : s.memory.requestPageScan (sub64 s.lastRequested 1) fuel s.lastRequested = some (.ok x))
    (hbit : s.memory.pageBit x = false) (hx : x ≤ s.memory.totalAvailablePages) :
    x < s.memory.totalAvailablePages := by
  rcases hb with hset | ⟨i, hi, hin, hclear⟩
  · refine lt_of_le_of_ne hx ?_
    rintro rfl
    simp [hset] at hbit
  · have hsmall := hc.small
    obtain ⟨y, hy, hyi⟩ := SystemMemory.requestPageScan_ahead hclear hi hin (by omega)
      (by unfold sub64 u64; omega) h
    cases hy
    omega

/-- A scan that panics has seen every page set. -/
theorem scan_error_full {s : PageAllocator} {live : List Nat} (hc : Consistent s live)
    {fuel : Nat} {e : Panic} (h : s.memory.requestPageScan (sub64 s.lastRequested 1) fuel
      s.lastRequested = some (.error e)) (i : Nat) (hi : i < s.memory.totalAvailablePages) :
    s.memory.pageBit i = true := by
  have hsmall := hc.small
  have hcur := hc.cursor
  have hn : 1 ≤ s.memory.totalAvailablePages := le_trans hc.nonempty hc.reserved
  by_cases hzero : s.lastRequested = 0
  · exact (SystemMemory.requestPageScan_no_error hc.cursor hn
      (by rw [hzero]; unfold sub64 u64; omega) h).elim
  · rw [sub64_of_le (by omega) (by omega)] at h
    obtain ⟨hup, hlow⟩ := (SystemMemory.requestPageScan_error hc.cursor hn (by omega)
      (by omega) h).2 (by omega)
    by_cases hpage : i = 0
    · -- page 0 holds `struct system_memory`: it is among the reserved ones
      exact (hc.bits i hi).mpr (.inl (by have := hc.nonempty; omega))
    · by_cases hlt : i < s.lastRequested
      · exact hlow i (by omega) (by omega)
      · exact hup i (by omega) hi

/-- The next request is safe exactly when its scan is bounded. -/
theorem requestSafe_iff {s : PageAllocator} {live : List Nat} (hc : Consistent s live) :
    RequestSafe s live ↔ ScanBounded s := by
  have hn : 1 ≤ s.memory.totalAvailablePages := le_trans hc.nonempty hc.reserved
  have hsmall := hc.small
  have hcur := hc.cursor
  constructor
  · intro hsafe
    by_contra hb
    simp only [ScanBounded, not_or, not_exists, not_and, Bool.not_eq_true, Bool.not_eq_false]
      at hb
    -- every page from the cursor on is set, so the scan walks up to the bound
    have hwalk : ∀ d x, x + d = s.memory.totalAvailablePages → s.lastRequested ≤ x →
        s.memory.requestPageScan (sub64 s.lastRequested 1) (d + 1) x =
          some (.ok s.memory.totalAvailablePages) := by
      intro d
      induction d with
      | zero =>
        intro x hx _
        rw [Nat.add_zero] at hx
        subst hx
        simp [SystemMemory.requestPageScan, hb.1]
      | succ d ih =>
        intro x hx hge
        have hset := hb.2 x hge (by omega)
        have hne : ¬ x = sub64 s.lastRequested 1 := by unfold sub64 u64; omega
        rw [SystemMemory.requestPageScan, if_pos hset,
          SystemMemory.wrapCursor_of_lt (by omega), if_neg hne, u64_of_lt (by omega)]
        exact ih (x + 1) (by omega) (by omega)
    have hscan := hwalk (s.memory.totalAvailablePages - s.lastRequested) s.lastRequested
      (by omega) le_rfl
    have hret : ∃ r, s.requestPage (s.memory.totalAvailablePages - s.lastRequested + 1) = some r := by
      simp [PageAllocator.requestPage, hscan]
    obtain ⟨r, hr⟩ := hret
    rcases requestPage_cases hc hr with ⟨x, hx, _, _, rfl⟩ | ⟨e, he, _⟩
    · rw [hscan] at hx
      cases hx
      obtain ⟨_, hlow, hhigh, _⟩ := hsafe.1 _ _ ⟨_, hr⟩
      have hrange := hc.range
      have hal := hc.aligned
      unfold u64 PAGESIZE at *
      omega
    · rw [hscan] at he; simp at he
  · intro hb
    constructor
    · rintro p s' ⟨fuel, h⟩
      rcases requestPage_cases hc h with ⟨x, hscan, hbit, hx, hr⟩ | ⟨e, _, hr⟩
      · have hlt := scan_lt hc hb hscan hbit hx
        obtain ⟨hused, hfresh⟩ := fresh_of_clear hc hlt hbit
        rw [pageAddr_lt hc hlt] at hr
        simp only [Except.ok.injEq, Prod.mk.injEq] at hr
        have hal := hc.aligned
        rw [hr.1]
        exact ⟨by unfold PAGESIZE at *; omega, by omega, by unfold PAGESIZE; omega,
          by unfold PAGESIZE; omega, hfresh⟩
      · cases hr
    · rintro e ⟨fuel, h⟩ i hi
      rcases requestPage_cases hc h with ⟨x, _, _, _, hr⟩ | ⟨e', hscan, _⟩
      · cases hr
      · exact (hc.bits i hi).mp (scan_error_full hc hscan i hi)

/-! ## What a step preserves -/

theorem Consistent.request {s s' : PageAllocator} {live : List Nat} {p : Nat}
    (hc : Consistent s live) (hb : ScanBounded s) (h : s.RequestPageReturns (.ok (p, s'))) :
    Consistent s' (p :: live) := by
  obtain ⟨fuel, h⟩ := h
  rcases requestPage_cases hc h with ⟨x, hscan, hbit, hx, hr⟩ | ⟨e, _, hr⟩
  · have hlt := scan_lt hc hb hscan hbit hx
    obtain ⟨hused, hfresh⟩ := fresh_of_clear hc hlt hbit
    rw [pageAddr_lt hc hlt] at hr
    simp only [Except.ok.injEq, Prod.mk.injEq] at hr
    obtain ⟨rfl, rfl⟩ := hr
    refine ⟨hc.aligned, hc.range, hc.small, hc.nonempty, hc.reserved, hx, ?_, ?_, ?_⟩
    · intro i hi
      show bit (setBit s.memory.bitfield x) i = true ↔ i < usedSpace s.memory ∨ _
      rw [bit_setBit, List.mem_cons]
      have hold := hc.bits i hi
      by_cases hix : i = x
      · subst hix; simp [requested]
      · have hne : s.memory.firstAvailablePageAddr + i * PAGESIZE ≠
            s.memory.firstAvailablePageAddr + x * PAGESIZE := by unfold PAGESIZE; omega
        simpa [hix, requested, hne, SystemMemory.pageBit] using hold
    · intro p hp
      rcases List.mem_cons.mp hp with rfl | hp
      · exact ⟨x, hused, hlt, rfl⟩
      · exact hc.pages p hp
    · exact List.nodup_cons.mpr ⟨hfresh, hc.nodup⟩
  · cases hr

/-- Freeing a live page clears its bit, and nothing else of the bitmap. -/
theorem freePage_ok {s s' : PageAllocator} {live : List Nat} (hc : Consistent s live) {i : Nat}
    (hi : i < s.memory.totalAvailablePages)
    (h : s.freePage (s.memory.firstAvailablePageAddr + i * PAGESIZE) = .ok s') :
    s'.memory.totalAvailablePages = s.memory.totalAvailablePages ∧
    s'.memory.firstAvailablePageAddr = s.memory.firstAvailablePageAddr ∧
    s'.lastRequested = s.lastRequested ∧
    s'.memory.bitfield = clearBit s.memory.bitfield i := by
  have hrange := hc.range
  have hsub : sub64 (s.memory.firstAvailablePageAddr + i * PAGESIZE)
      s.memory.firstAvailablePageAddr = i * PAGESIZE := by
    rw [sub64_of_le (by omega) (by unfold PAGESIZE at *; omega)]
    omega
  have haddr : addrToPage (i * PAGESIZE) = i := by
    rw [addrToPage, Nat.shiftRight_eq_div_pow]
    exact Nat.mul_div_cancel i (by decide)
  simp only [PageAllocator.freePage, hsub, bind, Except.bind] at h
  rw [if_neg (by omega)] at h
  split at h
  · simp [throw, throwThe, MonadExceptOf.throw] at h
  · split at h
    · simp at h
    · rename_i m hm
      split at h
      · simp [throw, throwThe, MonadExceptOf.throw] at h
      · obtain ⟨-, -, rfl⟩ := SystemMemory.givePage_ok hm
        simp only [pure, Except.pure, Except.ok.injEq] at h
        subst h
        exact ⟨rfl, rfl, rfl, by rw [haddr]⟩

theorem Consistent.free {s s' : PageAllocator} {live : List Nat} {p : Nat}
    (hc : Consistent s live) (hp : p ∈ live) (h : s.freePage p = .ok s') :
    Consistent s' (live.erase p) := by
  obtain ⟨i, hused, hi, rfl⟩ := hc.pages p hp
  obtain ⟨ht, hf, hl, hbits⟩ := freePage_ok hc hi h
  have hus : usedSpace s'.memory = usedSpace s.memory := by rw [usedSpace_eq, usedSpace_eq, ht]
  refine ⟨by rw [hf]; exact hc.aligned, by rw [hf, ht]; exact hc.range,
    by rw [ht]; exact hc.small, usedSpace_pos _, by rw [hus, ht]; exact hc.reserved,
    by rw [hl, ht]; exact hc.cursor, ?_, ?_, hc.nodup.erase _⟩
  · intro j hj
    rw [ht] at hj
    have hold := hc.bits j hj
    rw [SystemMemory.pageBit, hbits, bit_clearBit, hus, hf, hc.nodup.mem_erase_iff]
    by_cases hji : j = i
    · subst hji
      simp only [decide_true, Bool.not_true, Bool.false_and, Bool.false_eq_true, ne_eq,
        not_true_eq_false, false_and, or_false, false_iff]
      omega
    · have hne : s.memory.firstAvailablePageAddr + j * PAGESIZE ≠
          s.memory.firstAvailablePageAddr + i * PAGESIZE := by unfold PAGESIZE; omega
      simpa [hji, hne, SystemMemory.pageBit] using hold
  · intro q hq
    rw [hus, ht, hf]
    exact hc.pages q (List.mem_of_mem_erase hq)

theorem Consistent.step (t t' : AllocatorState) (hc : Consistent t.1 t.2)
    (h : BoundedStep t t') : Consistent t'.1 t'.2 := by
  cases h with
  | request hb h => exact hc.request hb h
  | free hp h => exact hc.free hp h

/-! ## Runs of the allocator -/

/-- In every run from `init_memory` whose requests all start from a bounded
scan, the next request is safe exactly when its own scan is bounded. -/
theorem requestPage_safe_iff_scanBounded {memoryMap : List MemmapEntry} {ram : Bytes}
    {s₀ s : PageAllocator} {live : List Nat} (hw : NoWrap memoryMap)
    (hinit : initMemory memoryMap ram = .ok s₀) (hrun : Reaches BoundedStep (s₀, []) (s, live)) :
    RequestSafe s live ↔ ScanBounded s :=
  requestSafe_iff (invariant (fun t : AllocatorState => Consistent t.1 t.2)
    Consistent.step (initMemory_consistent hw hinit) hrun)

/-- Sixteen kilobytes of usable memory at 1 MiB: four pages, three of them reserved. -/
def smallMap : List MemmapEntry := [⟨0x100000, 0x4000, MEMMAP_USABLE⟩]

theorem smallMap_noWrap : NoWrap smallMap := by
  simp [NoWrap, smallMap]

/-- What `smallMap` leads to: the first request takes page 3, the last one, and
leaves the bit of index 4 clear. -/
theorem smallMap_run : ∃ s₀ s p, initMemory smallMap (fun _ => 0) = .ok s₀ ∧
    s₀.memory.pageBit 3 = false ∧ s₀.lastRequested = 0 ∧ s₀.memory.totalAvailablePages = 4 ∧
    s₀.requestPage 4 = some (.ok (p, s)) ∧ s.memory.totalAvailablePages = 4 ∧
    s.lastRequested = 3 ∧ s.memory.pageBit 3 = true ∧ s.memory.pageBit 4 = false := by
  cases hinit : initMemory smallMap (fun _ => 0) with
  | error e =>
    have : (initMemory smallMap (fun _ => 0)).toBool = true := by decide
    rw [hinit] at this
    cases this
  | ok s₀ =>
    have hview : (initMemory smallMap (fun _ => 0)).toOption.bind (fun s₀ =>
        (s₀.requestPage 4).bind fun r => r.toOption.map fun q =>
          !s₀.memory.pageBit 3 && s₀.lastRequested == 0 &&
            s₀.memory.totalAvailablePages == 4 && q.2.memory.totalAvailablePages == 4 &&
            q.2.lastRequested == 3 && q.2.memory.pageBit 3 && !q.2.memory.pageBit 4) =
        some true := by decide +kernel
    rw [hinit] at hview
    simp only [Except.toOption, Option.bind_some, Option.bind_eq_some_iff, Option.map_eq_some_iff,
      Bool.and_eq_true, Bool.not_eq_true', beq_iff_eq, and_assoc] at hview
    obtain ⟨r, hr, ⟨p, s⟩, hrs, h1, h2, h3, h4, h5, h6, h7⟩ := hview
    cases r with
    | error e => cases hrs
    | ok q =>
      simp only [Option.some.injEq] at hrs
      subst hrs
      exact ⟨s₀, s, p, rfl, h1, h2, h3, hr, h4, h5, h6, h7⟩

theorem requestPage_safe_iff_scanBounded_smallMap : ∃ s₀ s p,
    initMemory smallMap (fun _ => 0) = .ok s₀ ∧ s₀.RequestPageReturns (.ok (p, s)) ∧
    (RequestSafe s [p] ↔ ScanBounded s) := by
  obtain ⟨s₀, s, p, hinit, hclear, hcur, htot, hreq, _⟩ := smallMap_run
  refine ⟨s₀, s, p, hinit, ⟨4, hreq⟩, ?_⟩
  have hb : ScanBounded s₀ := .inr ⟨3, by omega, by omega, hclear⟩
  exact requestPage_safe_iff_scanBounded smallMap_noWrap hinit
    (Relation.ReflTransGen.single (.request hb ⟨4, hreq⟩))

/-- The second request of that run returns the page after the chunk. -/
theorem requestPage_not_safe : ¬ ∀ (memoryMap : List MemmapEntry) (ram : Bytes)
    (s₀ s : PageAllocator) (live : List Nat), NoWrap memoryMap →
    initMemory memoryMap ram = .ok s₀ → Reaches Step (s₀, []) (s, live) →
    RequestSafe s live := by
  intro hall
  obtain ⟨s₀, s, p, hinit, hclear, hcur, htot, hreq, htot', hcur', hset, hbound⟩ := smallMap_run
  have hb : ScanBounded s₀ := .inr ⟨3, by omega, by omega, hclear⟩
  have hc := (initMemory_consistent smallMap_noWrap hinit).request hb ⟨4, hreq⟩
  have hsafe := hall _ _ _ _ _ smallMap_noWrap hinit
    (Relation.ReflTransGen.single (.request ⟨4, hreq⟩))
  rcases (requestSafe_iff hc).mp hsafe with h | ⟨i, hi, hi', h⟩
  · rw [htot', hbound] at h
    cases h
  · obtain rfl : i = 3 := by omega
    rw [hset] at h
    cases h

end UnedKernel.Memory
