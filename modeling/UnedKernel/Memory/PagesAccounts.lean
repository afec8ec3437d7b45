import UnedKernel.Memory.PagesInit

/-! # The accounts of physical memory

`free_memory`, `reserved_memory` and `locked_memory` count the pages that are free,
reserved and locked. `unlock_page` moves its two counters the way `lock_page` does, so
the accounts are exact as long as no page is unlocked, and none is returned by the
operation for the other kind. -/

namespace UnedKernel.Memory
open ByteMem Bitmap Word Run

/-- What a page is in use for, by the last operation on it. -/
inductive PageUse where
  | free
  | reserved
  | locked
  deriving DecidableEq

/-! ## Counting the pages in use -/

/-- How many of the first `n` pages are in a use. -/
def pagesIn (uses : Nat → PageUse) (use : PageUse) (n : Nat) : Nat :=
  Nat.count (fun i => uses i = use) n

variable {uses : Nat → PageUse} {use old new : PageUse} {n x : Nat}

theorem pagesIn_succ : pagesIn uses use (n + 1) =
    pagesIn uses use n + if uses n = use then 1 else 0 := Nat.count_succ ..

theorem pagesIn_update_of_le (hx : n ≤ x) :
    pagesIn (Function.update uses x new) use n = pagesIn uses use n := by
  induction n with
  | zero => rfl
  | succ n ih =>
    rw [pagesIn_succ, pagesIn_succ, ih (by omega), Function.update_of_ne (by omega)]

/-- A page that changes its use is counted in the new one. -/
theorem pagesIn_update (hx : x < n) : pagesIn (Function.update uses x new) use n +
    (if uses x = use then 1 else 0) = pagesIn uses use n + if new = use then 1 else 0 := by
  induction n with
  | zero => omega
  | succ n ih =>
    rw [pagesIn_succ, pagesIn_succ]
    by_cases hxn : x = n
    · subst hxn
      rw [pagesIn_update_of_le (Nat.le_refl x), Function.update_self]
      omega
    · have := ih (by omega)
      rw [Function.update_of_ne (Ne.symm hxn)]
      omega

theorem pagesIn_const : pagesIn (fun _ => old) use n = if old = use then n else 0 := by
  unfold pagesIn
  split
  · exact Nat.count_of_forall fun _ _ => ‹_›
  · exact Nat.count_iff_forall_not.mpr fun _ _ => ‹_›

theorem pagesIn_le : pagesIn uses use n ≤ n := Nat.count_le ..

/-! ## Exact accounts -/

/-- The bits of the available pages that are clear are those of the free pages. -/
def BitsOf (m : SystemMemory) (uses : Nat → PageUse) : Prop :=
  ∀ i, i < m.totalAvailablePages → (m.pageBit i = false ↔ uses i = .free)

/-- `free_memory` is the size of the pages whose bits are clear, and the other two counters
those of the pages in their use. -/
structure ExactAccounts (m : SystemMemory) (uses : Nat → PageUse) : Prop where
  bits : BitsOf m uses
  free : m.freeMemory = PAGESIZE * clearCount m.bitfield m.totalAvailablePages
  reserved : m.reservedMemory = PAGESIZE * pagesIn uses .reserved m.totalAvailablePages
  locked : m.lockedMemory = PAGESIZE * pagesIn uses .locked m.totalAvailablePages

theorem BitsOf.clearCount_eq {m : SystemMemory} (hbits : BitsOf m uses) :
    clearCount m.bitfield m.totalAvailablePages = pagesIn uses .free m.totalAvailablePages := by
  unfold BitsOf at hbits
  generalize m.totalAvailablePages = n at hbits
  induction n with
  | zero => rfl
  | succ n ih =>
    rw [clearCount_succ, pagesIn_succ, ih fun i hi => hbits i (by omega)]
    have hlast : bit m.bitfield n = false ↔ uses n = .free := hbits n (by omega)
    by_cases hclear : uses n = .free
    · rw [if_pos hclear, if_pos (hlast.mpr hclear)]
    · rw [if_neg hclear, if_neg fun hbit => hclear (hlast.mp hbit)]

theorem ExactAccounts.free_eq {m : SystemMemory} (h : ExactAccounts m uses) :
    m.freeMemory = PAGESIZE * pagesIn uses .free m.totalAvailablePages := by
  rw [h.free, h.bits.clearCount_eq]

/-- The operations on single pages. -/
inductive PageOp where
  | reserve
  | unreserve
  | lock
  | unlock

namespace PageOp

def one : PageOp → SystemMemory → Nat → Except Panic SystemMemory
  | reserve => SystemMemory.reservePage
  | unreserve => SystemMemory.unreservePage
  | lock => SystemMemory.lockPage
  | unlock => SystemMemory.unlockPage

def many : PageOp → SystemMemory → Nat → Nat → Except Panic SystemMemory
  | reserve => SystemMemory.reservePages
  | unreserve => SystemMemory.unreservePages
  | lock => SystemMemory.lockPages
  | unlock => SystemMemory.unlockPages

/-- The use that the operation puts a page to. -/
def leaves : PageOp → PageUse
  | reserve => .reserved
  | lock => .locked
  | unreserve => .free
  | unlock => .free

/-- A page of the chunk, reserved before it is unreserved, and not unlocked. -/
def Sound (op : PageOp) (m : SystemMemory) (uses : Nat → PageUse) (x : Nat) : Prop :=
  x < m.totalAvailablePages ∧
    match op with
    | reserve => True
    | lock => True
    | unreserve => uses x = .reserved
    | unlock => False

/-- The counter that the operation takes from. -/
def source (op : PageOp) (m : SystemMemory) : Nat :=
  match op with
  | unreserve => m.reservedMemory
  | _ => m.freeMemory

end PageOp

/-! ## One operation -/

theorem sub64_page {k : Nat} (h : k < 4503599627370496) :
    sub64 (PAGESIZE * (k + 1)) PAGESIZE = PAGESIZE * k := by
  unfold sub64 u64 PAGESIZE
  omega

theorem u64_page {k : Nat} (h : k + 1 < 4503599627370496) :
    u64 (PAGESIZE * k + PAGESIZE) = PAGESIZE * (k + 1) := by
  unfold u64 PAGESIZE
  omega

namespace SystemMemory

variable {m m' : SystemMemory} {address : Nat}

theorem reservePage_ok (h : m.reservePage address = .ok m') :
    m.pageBit (addrToPage address) = false ∧ m'.totalAvailablePages = m.totalAvailablePages ∧
      m'.bitfield = setBit m.bitfield (addrToPage address) ∧
      m'.freeMemory = sub64 m.freeMemory PAGESIZE ∧
      m'.reservedMemory = u64 (m.reservedMemory + PAGESIZE) ∧ m'.lockedMemory = m.lockedMemory := by
  obtain ⟨-, hclear, rfl⟩ := takePage_ok h
  exact ⟨hclear, rfl, rfl, rfl, rfl, rfl⟩

theorem lockPage_ok (h : m.lockPage address = .ok m') :
    m.pageBit (addrToPage address) = false ∧ m'.totalAvailablePages = m.totalAvailablePages ∧
      m'.bitfield = setBit m.bitfield (addrToPage address) ∧
      m'.freeMemory = sub64 m.freeMemory PAGESIZE ∧
      m'.reservedMemory = m.reservedMemory ∧ m'.lockedMemory = u64 (m.lockedMemory + PAGESIZE) := by
  obtain ⟨-, hclear, rfl⟩ := takePage_ok h
  exact ⟨hclear, rfl, rfl, rfl, rfl, rfl⟩

theorem unreservePage_ok (h : m.unreservePage address = .ok m') :
    m'.totalAvailablePages = m.totalAvailablePages ∧
      m'.bitfield = clearBit m.bitfield (addrToPage address) ∧
      m'.freeMemory = u64 (m.freeMemory + PAGESIZE) ∧
      m'.reservedMemory = sub64 m.reservedMemory PAGESIZE ∧ m'.lockedMemory = m.lockedMemory := by
  obtain ⟨-, -, rfl⟩ := givePage_ok h
  exact ⟨rfl, rfl, rfl, rfl, rfl⟩

end SystemMemory

namespace ExactAccounts

variable {m m' : SystemMemory} {op : PageOp} {address : Nat}

/-- The bits after a page is taken. -/
theorem bits_taken (hbits : BitsOf m uses) (hlt : m'.totalAvailablePages = m.totalAvailablePages)
    (hb : m'.bitfield = setBit m.bitfield x) (hnew : new ≠ .free) :
    BitsOf m' (Function.update uses x new) := by
  intro i hi
  rw [SystemMemory.pageBit, hb]
  by_cases hix : i = x
  · subst hix
    simp [hnew]
  · rw [bit_setBit_of_ne _ hix, Function.update_of_ne hix]
    exact hbits i (hlt ▸ hi)

/-- The bits after a page is given back. -/
theorem bits_given (hbits : BitsOf m uses) (hlt : m'.totalAvailablePages = m.totalAvailablePages)
    (hb : m'.bitfield = clearBit m.bitfield x) : BitsOf m' (Function.update uses x .free) := by
  intro i hi
  rw [SystemMemory.pageBit, hb]
  by_cases hix : i = x
  · subst hix
    simp
  · rw [bit_clearBit_of_ne _ hix, Function.update_of_ne hix]
    exact hbits i (hlt ▸ hi)

/-- A sound operation keeps the accounts exact, and takes no more from a counter than it holds. -/
theorem one (h : ExactAccounts m uses) (hsmall : m.totalAvailablePages < 4503599627370496)
    (hsound : op.Sound m uses (addrToPage address)) (hone : op.one m address = .ok m') :
    ExactAccounts m' (Function.update uses (addrToPage address) op.leaves) ∧
      m'.totalAvailablePages = m.totalAvailablePages ∧
      op.source m = op.source m' + PAGESIZE := by
  obtain ⟨hlt, huse⟩ := hsound
  obtain ⟨x, hx⟩ : ∃ x, addrToPage address = x := ⟨_, rfl⟩
  rw [hx] at hlt huse ⊢
  have hcount : ∀ use, pagesIn (Function.update uses x op.leaves) use m.totalAvailablePages +
      (if uses x = use then 1 else 0) =
      pagesIn uses use m.totalAvailablePages + if op.leaves = use then 1 else 0 :=
    fun _ => pagesIn_update hlt
  have hle : ∀ use, pagesIn uses use m.totalAvailablePages ≤ m.totalAvailablePages :=
    fun _ => pagesIn_le
  have hle' : ∀ use, pagesIn (Function.update uses x op.leaves) use m.totalAvailablePages ≤
      m.totalAvailablePages := fun _ => pagesIn_le
  obtain ⟨uses', huses'⟩ : ∃ uses', Function.update uses x op.leaves = uses' := ⟨_, rfl⟩
  rw [huses'] at hcount hle' ⊢
  have hfree := hcount .free
  have hreserved := hcount .reserved
  have hlocked := hcount .locked
  have hfreeLe := hle .free
  have hreservedLe := hle' .reserved
  have hlockedLe := hle' .locked
  cases op with
  | reserve =>
    obtain ⟨hclear, htotal, hbitfield, hfree', hreserved', hlocked'⟩ :=
      SystemMemory.reservePage_ok hone
    rw [hx] at hclear hbitfield
    simp only [(h.bits x hlt).mp hclear, PageOp.leaves, if_true, reduceCtorEq, if_false,
      Nat.add_zero] at hfree hreserved hlocked
    rw [h.free_eq, ← hfree, sub64_page (by omega)] at hfree'
    rw [h.reserved, u64_page (by omega), ← hreserved] at hreserved'
    rw [h.locked, ← hlocked] at hlocked'
    have hbits := bits_taken h.bits htotal hbitfield (show PageUse.reserved ≠ .free by decide)
    rw [show Function.update uses x .reserved = uses' from huses'] at hbits
    rw [← htotal] at hfree' hreserved' hlocked'
    refine ⟨⟨hbits, by rw [hfree', hbits.clearCount_eq], hreserved', hlocked'⟩, htotal, ?_⟩
    show m.freeMemory = m'.freeMemory + PAGESIZE
    rw [hfree', h.free_eq, ← hfree, htotal, Nat.mul_add, Nat.mul_one]
  | lock =>
    obtain ⟨hclear, htotal, hbitfield, hfree', hreserved', hlocked'⟩ :=
      SystemMemory.lockPage_ok hone
    rw [hx] at hclear hbitfield
    simp only [(h.bits x hlt).mp hclear, PageOp.leaves, if_true, reduceCtorEq, if_false,
      Nat.add_zero] at hfree hreserved hlocked
    rw [h.free_eq, ← hfree, sub64_page (by omega)] at hfree'
    rw [h.locked, u64_page (by omega), ← hlocked] at hlocked'
    rw [h.reserved, ← hreserved] at hreserved'
    have hbits := bits_taken h.bits htotal hbitfield (show PageUse.locked ≠ .free by decide)
    rw [show Function.update uses x .locked = uses' from huses'] at hbits
    rw [← htotal] at hfree' hreserved' hlocked'
    refine ⟨⟨hbits, by rw [hfree', hbits.clearCount_eq], hreserved', hlocked'⟩, htotal, ?_⟩
    show m.freeMemory = m'.freeMemory + PAGESIZE
    rw [hfree', h.free_eq, ← hfree, htotal, Nat.mul_add, Nat.mul_one]
  | unreserve =>
    obtain ⟨htotal, hbitfield, hfree', hreserved', hlocked'⟩ := SystemMemory.unreservePage_ok hone
    rw [hx] at hbitfield
    simp only [show uses x = .reserved from huse, PageOp.leaves, if_true, reduceCtorEq, if_false,
      Nat.add_zero] at hfree hreserved hlocked
    have hfreeLe' : pagesIn uses' .free m.totalAvailablePages ≤ m.totalAvailablePages :=
      hle' .free
    have hreservedLe' : pagesIn uses .reserved m.totalAvailablePages ≤ m.totalAvailablePages :=
      hle .reserved
    rw [h.free_eq, u64_page (by omega), ← hfree] at hfree'
    rw [h.reserved, ← hreserved, sub64_page (by omega)] at hreserved'
    rw [h.locked, ← hlocked] at hlocked'
    have hbits := bits_given h.bits htotal hbitfield
    rw [show Function.update uses x .free = uses' from huses'] at hbits
    rw [← htotal] at hfree' hreserved' hlocked'
    refine ⟨⟨hbits, by rw [hfree', hbits.clearCount_eq], hreserved', hlocked'⟩, htotal, ?_⟩
    show m.reservedMemory = m'.reservedMemory + PAGESIZE
    rw [hreserved', h.reserved, ← hreserved, htotal, Nat.mul_add, Nat.mul_one]
  | unlock => exact huse.elim

end ExactAccounts

/-! ## Loops over pages -/

/-- The page of turn `i` of a loop from an address on. -/
def pageAt (address i : Nat) : Nat := addrToPage (u64 (address + i <<< 12))

/-- The pages that a loop of `n` turns from turn `i` on comes to. -/
def pagesFrom (address i n : Nat) : List Nat := (List.range' i n).map (pageAt address)

/-- Pages put to a use one after the other. -/
def putPages (uses : Nat → PageUse) (use : PageUse) (pages : List Nat) : Nat → PageUse :=
  pages.foldl (fun uses x => Function.update uses x use) uses

theorem pageAt_ne {address i j : Nat} (hij : i < j) (hclose : j < i + 4503599627370496) :
    pageAt address i ≠ pageAt address j := by
  unfold pageAt addrToPage u64
  rw [shift_eq, shift_eq, Nat.shiftRight_eq_div_pow, Nat.shiftRight_eq_div_pow]
  omega

/-- A loop that stays on fewer pages than there are addresses does not come round. -/
theorem turns_lt {address total n : Nat} (hsmall : total < 4503599627370496)
    (hall : ∀ j, j < n → pageAt address j < total) : n < 4503599627370496 := by
  by_contra hn
  -- the turn that comes to page `total`
  have hpage : pageAt address ((total + 4503599627370496 - address % 18446744073709551616 / 4096) %
      4503599627370496) = total := by
    unfold pageAt addrToPage u64
    rw [shift_eq, Nat.shiftRight_eq_div_pow]
    omega
  have hlt := hall ((total + 4503599627370496 - address % 18446744073709551616 / 4096) %
    4503599627370496) (by omega)
  omega

namespace SystemMemory

theorem reservePagesFrom_eq (m : SystemMemory) (address i n : Nat) :
    reservePagesFrom address i n m = eachPageFrom reservePage address i n m := by
  induction n generalizing i m with
  | zero => rfl
  | succ n ih =>
    rw [reservePagesFrom, eachPageFrom]
    simp only [ih]

end SystemMemory

/-- An operation on several pages is a loop of the one on a single page. -/
theorem PageOp.many_ok {op : PageOp} {m m' : SystemMemory} {address n : Nat}
    (h : op.many m address n = .ok m') :
    SystemMemory.eachPageFrom op.one address 0 n m = .ok m' := by
  cases op with
  | reserve =>
    have hreserve : m.reservePages address n = .ok m' := h
    rw [SystemMemory.reservePages] at hreserve
    split at hreserve
    · cases hreserve
    · rwa [SystemMemory.reservePagesFrom_eq] at hreserve
  | unreserve => exact h
  | lock => exact h
  | unlock => exact h

namespace ExactAccounts

variable {m m' : SystemMemory} {op : PageOp} {address i : Nat}

theorem eachPageFrom (h : ExactAccounts m uses) (hsmall : m.totalAvailablePages < 4503599627370496)
    (hn : n ≤ 4503599627370496)
    (hsound : ∀ j, i ≤ j → j < i + n → op.Sound m uses (pageAt address j))
    (hloop : SystemMemory.eachPageFrom op.one address i n m = .ok m') :
    ExactAccounts m' (putPages uses op.leaves (pagesFrom address i n)) ∧
      m'.totalAvailablePages = m.totalAvailablePages ∧
      op.source m = op.source m' + n * PAGESIZE := by
  induction n generalizing i m uses with
  | zero =>
    cases hloop
    exact ⟨h, rfl, by rw [Nat.zero_mul, Nat.add_zero]⟩
  | succ n ih =>
    rw [SystemMemory.eachPageFrom] at hloop
    cases hone : op.one m (u64 (address + i <<< 12)) with
    | error e =>
      rw [hone] at hloop
      cases hloop
    | ok m₁ =>
      rw [hone] at hloop
      obtain ⟨h₁, htotal₁, hsource₁⟩ := h.one hsmall (hsound i (Nat.le_refl i) (by omega)) hone
      have hsound₁ : ∀ j, i + 1 ≤ j → j < i + 1 + n →
          op.Sound m₁ (Function.update uses (pageAt address i) op.leaves) (pageAt address j) := by
        intro j hj hj'
        obtain ⟨hlt, huse⟩ := hsound j (by omega) (by omega)
        refine ⟨htotal₁ ▸ hlt, ?_⟩
        have hne : pageAt address j ≠ pageAt address i := (pageAt_ne (by omega) (by omega)).symm
        cases op with
        | reserve => trivial
        | lock => trivial
        | unreserve => exact (Function.update_of_ne hne _ _).trans huse
        | unlock => exact huse
      obtain ⟨h', htotal', hsource'⟩ := ih h₁ (htotal₁ ▸ hsmall) (by omega) hsound₁ hloop
      refine ⟨h', htotal'.trans htotal₁, ?_⟩
      rw [hsource₁, hsource', Nat.add_mul, Nat.one_mul, Nat.add_assoc]

/-- A loop of sound operations. -/
theorem many (h : ExactAccounts m uses) (hsmall : m.totalAvailablePages < 4503599627370496)
    (hsound : ∀ j, j < n → op.Sound m uses (pageAt address j))
    (hmany : op.many m address n = .ok m') :
    ExactAccounts m' (putPages uses op.leaves (pagesFrom address 0 n)) ∧
      m'.totalAvailablePages = m.totalAvailablePages ∧
      op.source m = op.source m' + n * PAGESIZE := by
  have hn := turns_lt hsmall fun j hj => (hsound j hj).1
  exact h.eachPageFrom hsmall (Nat.le_of_lt hn) (fun j _ hj => hsound j (by omega))
    (PageOp.many_ok hmany)

end ExactAccounts
/-! ## After `init_memory` -/

/-- The entries of the memory map are made of 64-bit words. -/
def WordEntries (memoryMap : List MemmapEntry) : Prop :=
  ∀ e ∈ memoryMap, e.base < 18446744073709551616 ∧ e.length < 18446744073709551616

theorem initMemoryCb_words {memoryMap : List MemmapEntry} {chunk : ChunkData}
    (hwords : WordEntries memoryMap)
    (hchunk : chunk.addr < 18446744073709551616 ∧ chunk.size < 18446744073709551616) :
    (memoryMap.foldl initMemoryCb chunk).addr < 18446744073709551616 ∧
      (memoryMap.foldl initMemoryCb chunk).size < 18446744073709551616 := by
  induction memoryMap generalizing chunk with
  | nil => exact hchunk
  | cons e rest ih =>
    refine ih (fun e he => hwords e (List.mem_cons_of_mem _ he)) ?_
    rw [initMemoryCb]
    split
    · exact hwords e List.mem_cons_self
    · exact hchunk

theorem alignAddr_u64 (x : Nat) : alignAddr (u64 x) = u64 ((x + 4095) / 4096 * 4096) := by
  unfold alignAddr u64 PAGESIZE
  split <;> omega

/-- A loop that ends has come to pages that pass the bounds check. -/
theorem reservePagesFrom_le {m m' : SystemMemory} {address i : Nat}
    (h : SystemMemory.reservePagesFrom address i n m = .ok m') (j : Nat) (hj : i ≤ j)
    (hj' : j < i + n) : pageAt address j ≤ m.totalAvailablePages := by
  induction n generalizing i m with
  | zero => omega
  | succ n ih =>
    rw [SystemMemory.reservePagesFrom] at h
    cases hone : m.reservePage (u64 (address + i <<< 12)) with
    | error e =>
      rw [hone] at h
      cases h
    | ok m₁ =>
      rw [hone] at h
      obtain ⟨hle, -, -⟩ := SystemMemory.takePage_ok hone
      by_cases hij : i = j
      · exact hij ▸ hle
      · have htotal := (SystemMemory.reservePage_ok hone).2.1
        exact htotal ▸ ih h (by omega) (by omega)

/-- The reserved pages fit, whatever the chunk. -/
theorem used_fits {addr size entries : Nat} {m m' : SystemMemory}
    (haddr : addr < 18446744073709551616) (hsize : size < 18446744073709551616)
    (hcheck : ¬ size < entries + 12360)
    (htotal : m.totalAvailablePages = sub64 (alignAddr (u64 (addr + size))) (alignAddr addr) / 4096)
    (h : SystemMemory.reservePagesFrom 0 0 ((entries + 12360) / 4096) m = .ok m') :
    (entries + 12360) / 4096 ≤ m.totalAvailablePages := by
  have hfirst : alignAddr addr = u64 ((addr + 4095) / 4096 * 4096) := by
    rw [← alignAddr_u64, u64_of_lt haddr]
  rw [hfirst, alignAddr_u64] at htotal
  have hpage : pageAt 0 1 = 1 := by decide
  have hsecond := reservePagesFrom_le h 1 (by omega) (by omega)
  unfold sub64 u64 at htotal
  omega

/-- What the pages are in use for after `init_memory`. -/
def initialUses (m : SystemMemory) : Nat → PageUse :=
  putPages (fun _ => .free) .reserved (pagesFrom 0 0 (usedSpace m))

/-- What the pages were put to, and the cursor, bounded. -/
structure Accounted (s : PageAllocator) (uses : Nat → PageUse) : Prop where
  exact : ExactAccounts s.memory uses
  small : s.memory.totalAvailablePages < 4503599627370496
  nonempty : 1 ≤ s.memory.totalAvailablePages
  cursor : s.lastRequested ≤ s.memory.totalAvailablePages

theorem Accounted.init {memoryMap : List MemmapEntry} {ram : Bytes} {s : PageAllocator}
    (hwords : WordEntries memoryMap) (h : initMemory memoryMap ram = .ok s) :
    Accounted s (initialUses s.memory) := by
  obtain ⟨haddr, hsize⟩ := @initMemoryCb_words memoryMap ⟨0, 0⟩ hwords (by simp)
  unfold initMemory at h
  simp only at h
  generalize memoryMap.foldl initMemoryCb ⟨0, 0⟩ = chunk at h haddr hsize
  obtain ⟨first, hfirst⟩ : ∃ first, alignAddr chunk.addr = first := ⟨_, rfl⟩
  obtain ⟨last, hlast⟩ : ∃ last, alignAddr (u64 (chunk.addr + chunk.size)) = last := ⟨_, rfl⟩
  have hpages : sub64 last first >>> 12 = sub64 last first / 4096 :=
    Nat.shiftRight_eq_div_pow _ 12
  rw [hfirst, hlast, hpages, overhead_eq] at h
  split at h
  · cases h
  rename_i hcheck
  obtain ⟨pages, hpagesEq⟩ : ∃ pages, sub64 last first / 4096 = pages := ⟨_, rfl⟩
  rw [hpagesEq] at h hcheck
  obtain ⟨m, hm⟩ : ∃ m : SystemMemory, m = ⟨pages, first, last,
    memoryMap.foldl getTotalMemoryCb 0, memoryMap.foldl getTotalMemoryCb 0 >>> 12,
    fill (fill ram 0 100 0x55) 0 (bitfieldEntries pages) 0, sub64 last first, 0, 0⟩ := ⟨_, rfl⟩
  have hsmall : pages < 4503599627370496 := by
    have hword := u64_lt (last + (18446744073709551616 - first))
    rw [← hpagesEq, sub64]
    omega
  have hcover := bitfieldEntries_cover pages
  have htotal : m.totalAvailablePages = pages := by rw [hm]
  have hbits : BitsOf m fun _ => .free := by
    intro i hi
    have hclear : m.pageBit i = false := hm ▸ bit_fill_zero _ (by omega)
    exact iff_of_true hclear rfl
  have hspan : sub64 last first = PAGESIZE * pages := by
    have hfirstMod := alignAddr_mod chunk.addr
    have hlastMod := alignAddr_mod (u64 (chunk.addr + chunk.size))
    rw [hfirst] at hfirstMod
    rw [hlast] at hlastMod
    rw [← hpagesEq]
    unfold sub64 u64 PAGESIZE
    omega
  have hexact : ExactAccounts m fun _ => .free := by
    refine ⟨hbits, ?_, ?_, ?_⟩
    · rw [hbits.clearCount_eq, htotal, pagesIn_const, if_pos rfl, ← hspan, hm]
    · rw [pagesIn_const, if_neg (by decide), Nat.mul_zero, hm]
    · rw [pagesIn_const, if_neg (by decide), Nat.mul_zero, hm]
  rw [← hm] at h
  cases hreserve : m.reservePages 0 ((bitfieldEntries pages + 12360) >>> 12) with
  | error e =>
    rw [hreserve] at h
    cases h
  | ok m' =>
    rw [hreserve] at h
    cases h
    have husedEq : (bitfieldEntries pages + 12360) >>> 12 =
        (bitfieldEntries pages + 12360) / 4096 := Nat.shiftRight_eq_div_pow _ 12
    rw [husedEq] at hreserve
    have hfits : (bitfieldEntries pages + 12360) / 4096 ≤ m.totalAvailablePages := by
      refine used_fits haddr hsize hcheck ?_ (m.reservePages_zero _ ▸ hreserve)
      rw [htotal, ← hpagesEq, hlast, hfirst]
    have hmany : PageOp.reserve.many m 0 ((bitfieldEntries pages + 12360) / 4096) = .ok m' := hreserve
    obtain ⟨hexact', htotal', -⟩ := hexact.many (htotal ▸ hsmall) (fun j hj => by
      refine ⟨?_, trivial⟩
      have hpage : pageAt 0 j = j := by
        rw [pageAt, Nat.zero_add]
        exact addrToPage_shift (by omega)
      omega) hmany
    have hused : usedSpace m' = (bitfieldEntries pages + 12360) / 4096 := by
      rw [usedSpace_eq, htotal', htotal]
    refine ⟨?_, htotal'.trans htotal ▸ hsmall, ?_, Nat.zero_le _⟩
    · show ExactAccounts m' (initialUses m')
      rw [initialUses, hused]
      exact hexact'
    · show 1 ≤ m'.totalAvailablePages
      rw [htotal']
      omega

/-! ## Runs -/

inductive MemoryCall where
  | requestPage
  | freePage (addr : Nat)
  | one (op : PageOp) (address : Nat)
  | many (op : PageOp) (address pages : Nat)

/-- The allocator, and what its pages are in use for. -/
abbrev AccountConfig := PageAllocator × (Nat → PageUse)

namespace MemoryCall

/-- The call returns. -/
def Returns (c : AccountConfig) (call : MemoryCall) (c' : AccountConfig) : Prop :=
  match call with
  | requestPage => (∃ p, c.1.RequestPageReturns (.ok (p, c'.1))) ∧
      c'.2 = Function.update c.2 c'.1.lastRequested .locked
  | freePage addr => c.1.freePage addr = .ok c'.1 ∧ c'.2 = Function.update c.2
      (addrToPage (sub64 addr c.1.memory.firstAvailablePageAddr)) .free
  | one op address => ∃ m, op.one c.1.memory address = .ok m ∧
      c' = ({ c.1 with memory := m }, Function.update c.2 (addrToPage address) op.leaves)
  | many op address pages => ∃ m, op.many c.1.memory address pages = .ok m ∧
      c' = ({ c.1 with memory := m }, putPages c.2 op.leaves (pagesFrom address 0 pages))

/-- The call takes pages of the chunk, or unreserves reserved ones. -/
def Sound (c : AccountConfig) : MemoryCall → Prop
  | requestPage => ScanBounded c.1
  | freePage _ => False
  | one op address => op.Sound c.1.memory c.2 (addrToPage address)
  | many op address pages => ∀ i, i < pages → op.Sound c.1.memory c.2 (pageAt address i)

/-- The counter that the call takes from holds what it takes. -/
def Covered (m : SystemMemory) : MemoryCall → Prop
  | requestPage => PAGESIZE ≤ m.freeMemory
  | freePage _ => PAGESIZE ≤ m.freeMemory
  | one op _ => PAGESIZE ≤ op.source m
  | many op _ pages => pages * PAGESIZE ≤ op.source m

end MemoryCall

/-- A call that returns, of the calls that satisfy `ok`. -/
def AccountStep (ok : AccountConfig → MemoryCall → Prop) (c c' : AccountConfig) : Prop :=
  ∃ call, ok c call ∧ call.Returns c c'

namespace Accounted

variable {s s' : PageAllocator} {c c' : AccountConfig} {call : MemoryCall} {p : Nat}

/-- A request locks the page that its cursor stops at. -/
theorem request_locks (h : Accounted s uses) (hret : s.RequestPageReturns (.ok (p, s'))) :
    s'.lastRequested ≤ s.memory.totalAvailablePages ∧
      s.memory.pageBit s'.lastRequested = false ∧
      s.memory.lockPage (u64 (s'.lastRequested <<< 12)) = .ok s'.memory ∧
      (ScanBounded s → s'.lastRequested < s.memory.totalAvailablePages) := by
  obtain ⟨fuel, hfuel⟩ := hret
  have hsmall := h.small
  rw [PageAllocator.requestPage, Option.map_eq_some_iff] at hfuel
  obtain ⟨r, hscan, hr⟩ := hfuel
  cases r with
  | error e => cases hr
  | ok x =>
    simp only [bind, Except.bind] at hr
    cases hlock : s.memory.lockPage (u64 (x <<< 12)) with
    | error e =>
      rw [hlock] at hr
      cases hr
    | ok m =>
      rw [hlock] at hr
      simp only at hr
      split at hr
      · cases hr
      · cases hr
        obtain ⟨hclear, hle⟩ := SystemMemory.requestPageScan_ok h.cursor h.nonempty hscan
        refine ⟨hle, hclear, hlock, fun hbounded => ?_⟩
        rcases hbounded with hset | ⟨i, hi, hin, hfree⟩
        · refine lt_of_le_of_ne hle fun heq => ?_
          rw [show x = s.memory.totalAvailablePages from heq, hset] at hclear
          cases hclear
        · obtain ⟨y, hy, hyi⟩ := SystemMemory.requestPageScan_ahead hfree hi hin (by omega)
            (by unfold sub64 u64; omega) hscan
          cases hy
          exact Nat.lt_of_le_of_lt hyi hin

/-- A sound call that returns keeps the accounts, and takes from no counter more than it holds. -/
theorem step (h : Accounted c.1 c.2) (hsound : call.Sound c) (hret : call.Returns c c') :
    Accounted c'.1 c'.2 ∧ call.Covered c.1.memory := by
  cases call with
  | requestPage =>
    obtain ⟨⟨p, hret⟩, huses⟩ := hret
    obtain ⟨hle, -, hlock, hlt⟩ := h.request_locks hret
    have hpage : addrToPage (u64 (c'.1.lastRequested <<< 12)) = c'.1.lastRequested :=
      addrToPage_shift (Nat.lt_of_le_of_lt hle h.small)
    have hsound' : PageOp.lock.Sound c.1.memory c.2 (addrToPage (u64 (c'.1.lastRequested <<< 12))) :=
      hpage.symm ▸ ⟨hlt hsound, trivial⟩
    obtain ⟨hexact, htotal, hsource⟩ := h.exact.one h.small hsound' hlock
    rw [hpage] at hexact
    refine ⟨⟨huses ▸ hexact, htotal ▸ h.small, htotal ▸ h.nonempty, htotal ▸ hle⟩, ?_⟩
    exact Nat.le_of_add_left_le (Nat.le_of_eq hsource.symm)
  | freePage addr => exact hsound.elim
  | one op address =>
    obtain ⟨m, hm, rfl⟩ := hret
    obtain ⟨hexact, htotal, hsource⟩ := h.exact.one h.small hsound hm
    refine ⟨⟨hexact, htotal ▸ h.small, htotal ▸ h.nonempty, htotal ▸ h.cursor⟩, ?_⟩
    exact Nat.le_of_add_left_le (Nat.le_of_eq hsource.symm)
  | many op address pages =>
    obtain ⟨m, hm, rfl⟩ := hret
    obtain ⟨hexact, htotal, hsource⟩ := h.exact.many h.small hsound hm
    refine ⟨⟨hexact, htotal ▸ h.small, htotal ▸ h.nonempty, htotal ▸ h.cursor⟩, ?_⟩
    exact Nat.le_of_add_left_le (Nat.le_of_eq hsource.symm)

end Accounted

/-- From `init_memory` on, as long as the calls take pages of the chunk, unreserve reserved
ones and unlock none, the accounts are exact, and no counter goes below zero. -/
theorem accounts_exact {memoryMap : List MemmapEntry} {ram : Bytes} {s : PageAllocator}
    {c : AccountConfig} (hwords : WordEntries memoryMap) (hinit : initMemory memoryMap ram = .ok s)
    (hrun : Reaches (AccountStep fun c call => call.Sound c) (s, initialUses s.memory) c) :
    ExactAccounts c.1.memory c.2 ∧
      ∀ (call : MemoryCall) (c' : AccountConfig), call.Sound c → call.Returns c c' →
        call.Covered c.1.memory := by
  have h : Accounted c.1 c.2 := Run.invariant (fun c : AccountConfig => Accounted c.1 c.2)
    (fun _ _ hc ⟨_, hsound, hret⟩ => (hc.step hsound hret).1) (Accounted.init hwords hinit) hrun
  exact ⟨h.exact, fun call c' hsound hret => (h.step hsound hret).2⟩

theorem smallMap_words : WordEntries smallMap := by
  intro e he
  obtain rfl := List.mem_singleton.mp he
  decide

/-- The last page of `smallMap` locked and unlocked again. -/
theorem smallMap_unlock : ∃ s m m', initMemory smallMap (fun _ => 0) = .ok s ∧
    s.memory.lockPage 0x3000 = .ok m ∧ m.unlockPage 0x3000 = .ok m' ∧
    s.memory.totalAvailablePages = 4 ∧ m'.totalAvailablePages = 4 ∧
    m'.freeMemory = 18446744073709547520 := by
  have hview : (initMemory smallMap (fun _ => 0)).toOption.bind (fun s =>
      (s.memory.lockPage 0x3000).toOption.bind fun m => (m.unlockPage 0x3000).toOption.map fun m' =>
        (s.memory.totalAvailablePages, m'.totalAvailablePages, m'.freeMemory)) =
      some (4, 4, 18446744073709547520) := by decide +kernel
  simp only [Option.bind_eq_some_iff, Option.map_eq_some_iff, Prod.mk.injEq] at hview
  obtain ⟨s, hs, m, hm, m', hm', htotal, htotal', hfree⟩ := hview
  have hok : ∀ {α : Type} {e : Except Panic α} {x : α}, e.toOption = some x → e = .ok x := by
    intro α e x h
    cases e with
    | error p => cases h
    | ok y => exact congrArg Except.ok (Option.some.inj h)
  exact ⟨s, m, m', hok hs, hok hm, hok hm', htotal, htotal', hfree⟩

/-- With the last page of `smallMap` locked the accounts are exact. -/
theorem accounts_exact_smallMap : ∃ s m, initMemory smallMap (fun _ => 0) = .ok s ∧
    s.memory.lockPage 0x3000 = .ok m ∧
    ExactAccounts m (Function.update (initialUses s.memory) 3 .locked) := by
  obtain ⟨s, m, -, hs, hm, -, htotal, -⟩ := smallMap_unlock
  have hpage : addrToPage 0x3000 = 3 := by decide
  have hsound : (MemoryCall.one .lock 0x3000).Sound (s, initialUses s.memory) :=
    ⟨by rw [hpage, htotal]; decide, trivial⟩
  exact ⟨s, m, hs, hm, (accounts_exact smallMap_words hs
    (Relation.ReflTransGen.single ⟨.one .lock 0x3000, hsound, m, hm, rfl⟩)).1⟩

/-- Once it is unlocked, `free_memory` has gone below zero. -/
theorem not_accounts_exact : ¬ ∀ (memoryMap : List MemmapEntry) (ram : Bytes) (s : PageAllocator)
    (c : AccountConfig), WordEntries memoryMap → initMemory memoryMap ram = .ok s →
    Reaches (AccountStep fun _ _ => True) (s, initialUses s.memory) c →
    ExactAccounts c.1.memory c.2 := by
  intro hall
  obtain ⟨s, m, m', hs, hm, hm', -, htotal, hfree⟩ := smallMap_unlock
  have hexact := hall _ _ s _ smallMap_words hs
    (.tail (.single ⟨.one .lock 0x3000, trivial, m, hm, rfl⟩)
      ⟨.one .unlock 0x3000, trivial, m', hm', rfl⟩)
  have hcount := clearCount_le m'.bitfield m'.totalAvailablePages
  have hfree' := hexact.free
  simp only [htotal, hfree] at hcount hfree'
  unfold PAGESIZE at hfree'
  omega

end UnedKernel.Memory
