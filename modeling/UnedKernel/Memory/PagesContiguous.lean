import UnedKernel.Memory.PagesSafety

/-! # Contiguous pages

`request_contiguous_pages` looks for a clear bit the way `request_page` does, locks the
pages from there on, and returns the page before the cursor it started with. So it returns
the pages that it locked only where its scan goes all the way round to that page. -/

namespace UnedKernel.Memory
open ByteMem Bitmap Word

namespace SystemMemory

/-- The bits from `lo` to `hi` are all `b`. -/
def Marked (m : SystemMemory) (b : Bool) (lo hi : Nat) : Prop :=
  ∀ j, lo ≤ j → j < hi → m.pageBit j = b

/-! ## Where the scan ends -/

/-- Page `f` is the first clear one, from cursor `c` to the end and from page 1 on. -/
def Found (m : SystemMemory) (c f : Nat) : Prop :=
  m.pageBit f = false ∧
    (f = c ∨ (c < f ∧ f ≤ m.totalAvailablePages ∧ m.Marked true c f) ∨
      (1 ≤ f ∧ f < c ∧ f ≤ m.totalAvailablePages ∧ m.pageBit c = true ∧
        m.Marked true c (m.totalAvailablePages + 1) ∧ m.Marked true 1 f))

/-- The scan comes back to the page before cursor `c`, and has seen no clear bit. -/
def Full (m : SystemMemory) (c : Nat) : Prop :=
  1 ≤ c ∧ c ≤ m.totalAvailablePages ∧ m.Marked true 1 (m.totalAvailablePages + 1)

/-- The scan does not come back to the page before cursor `c`, and there is no clear bit. -/
def Endless (m : SystemMemory) (c : Nat) : Prop :=
  (c = 0 ∨ m.totalAvailablePages < c) ∧ m.pageBit c = true ∧
    m.Marked true 1 (m.totalAvailablePages + 1)

section scan

variable {m : SystemMemory} {first fuel c d f x : Nat}

theorem Marked.mono {b : Bool} {lo hi lo' hi' : Nat} (h : m.Marked b lo hi) (hlo : lo ≤ lo')
    (hhi : hi' ≤ hi) : m.Marked b lo' hi' := fun j hj hj' => h j (by omega) (by omega)

/-- The first clear bit of a range. -/
theorem marked_or_first (m : SystemMemory) (lo hi : Nat) : m.Marked true lo hi ∨
    ∃ f, lo ≤ f ∧ f < hi ∧ m.pageBit f = false ∧ m.Marked true lo f := by
  induction hi with
  | zero => exact .inl fun j _ hj => by omega
  | succ hi ih =>
    rcases ih with hset | ⟨f, hlo, hhi, hclear, hset⟩
    · cases hbit : m.pageBit hi with
      | false =>
        by_cases hlo : lo ≤ hi
        · exact .inr ⟨hi, hlo, Nat.lt_succ_self hi, hbit, hset⟩
        · exact .inl fun j hj hj' => by omega
      | true =>
        refine .inl fun j hj hj' => ?_
        by_cases heq : j = hi
        · rw [heq]
          exact hbit
        · exact hset j hj (by omega)
    · exact .inr ⟨f, hlo, by omega, hclear, hset⟩

theorem requestPageScan_unique {fuel' : Nat} {r r' : Except Panic Nat}
    (h : m.requestPageScan first fuel x = some r) (h' : m.requestPageScan first fuel' x = some r') :
    r = r' := by
  induction fuel generalizing fuel' x with
  | zero => cases h
  | succ fuel ih =>
    cases fuel' with
    | zero => cases h'
    | succ fuel' =>
      rw [requestPageScan] at h h'
      by_cases hbit : m.pageBit x = true
      · rw [if_pos hbit] at h h'
        by_cases hwrap : m.wrapCursor x = first
        · rw [if_pos hwrap] at h h'
          exact Option.some.inj (h.symm.trans h')
        · rw [if_neg hwrap] at h h'
          exact ih h h'
      · rw [if_neg hbit] at h h'
        exact Option.some.inj (h.symm.trans h')

/-- The scan passes bits that are set, up to the bound. -/
theorem requestPageScan_walk (hset : m.Marked true x (x + d)) (hd : x + d ≤ m.totalAvailablePages)
    (hn : m.totalAvailablePages < 18446744073709551616) (hfirst : first < x ∨ x + d ≤ first) :
    m.requestPageScan first (fuel + d) x = m.requestPageScan first fuel (x + d) := by
  induction d generalizing x with
  | zero => rfl
  | succ d ih =>
    rw [← Nat.add_assoc, requestPageScan, if_pos (hset x (le_refl x) (by omega)),
      wrapCursor_of_lt (by omega), if_neg (by omega), u64_of_lt (by omega),
      ih (hset.mono (by omega) (by omega)) (by omega) (by omega), Nat.add_assoc, Nat.add_comm 1 d]

/-- From the bound it goes on with page 1. -/
theorem requestPageScan_wrap (hset : m.pageBit x = true) (hx : m.totalAvailablePages ≤ x)
    (hfirst : first ≠ 0) :
    m.requestPageScan first (fuel + 1) x = m.requestPageScan first fuel 1 := by
  rw [requestPageScan, if_pos hset, wrapCursor_of_ge hx, if_neg hfirst.symm]
  rfl

theorem requestPageScan_clear (hclear : m.pageBit x = false) :
    m.requestPageScan first (fuel + 1) x = some (.ok x) := by
  rw [requestPageScan, if_neg (by rw [hclear]; decide)]

variable (hone : 1 ≤ m.totalAvailablePages) (hn : m.totalAvailablePages < 4503599627370495)
  (hc : c < 18446744073709551616)
include hone hn hc

theorem Found.scan (h : m.Found c f) :
    ∃ fuel, m.requestPageScan (sub64 c 1) fuel c = some (.ok f) := by
  obtain ⟨hclear, rfl | ⟨hlt, hle, hset⟩ | ⟨hpos, hlt, hle, hbit, hset, hset'⟩⟩ := h
  · exact ⟨1, requestPageScan_clear hclear⟩
  · obtain ⟨d, rfl⟩ := Nat.exists_eq_add_of_le (Nat.le_of_lt hlt)
    refine ⟨0 + 1 + d, ?_⟩
    rw [requestPageScan_walk hset hle (by omega) (by unfold sub64 u64; omega)]
    exact requestPageScan_clear hclear
  · have hfirst : sub64 c 1 = c - 1 := sub64_of_le (by omega) hc
    obtain ⟨d, rfl⟩ := Nat.exists_eq_add_of_le hpos
    -- round the end, the scan goes on from page 1
    have hlow : m.requestPageScan (c - 1) (0 + 1 + d) 1 = some (.ok (1 + d)) := by
      rw [requestPageScan_walk hset' hle (by omega) (by omega)]
      exact requestPageScan_clear hclear
    rw [hfirst]
    by_cases hin : c ≤ m.totalAvailablePages
    · obtain ⟨e, he⟩ := Nat.exists_eq_add_of_le hin
      refine ⟨0 + 1 + d + 1 + e, ?_⟩
      rw [requestPageScan_walk (hset.mono (le_refl c) (by omega)) (by omega) (by omega) (by omega),
        ← he, requestPageScan_wrap (hset _ hin (Nat.lt_succ_self _)) (le_refl _) (by omega)]
      exact hlow
    · refine ⟨0 + 1 + d + 1, ?_⟩
      rw [requestPageScan_wrap hbit (by omega) (by omega)]
      exact hlow

theorem Full.scan (h : m.Full c) : ∃ fuel,
    m.requestPageScan (sub64 c 1) fuel c = some (.error ⟨"No free pages available!"⟩) := by
  obtain ⟨hpos, hle, hset⟩ := h
  have hfirst : sub64 c 1 = c - 1 := sub64_of_le hpos hc
  obtain ⟨e, he⟩ := Nat.exists_eq_add_of_le hle
  have hend := hset m.totalAvailablePages hone (Nat.lt_succ_self _)
  rw [hfirst]
  by_cases hc1 : c = 1
  · refine ⟨0 + 1 + e, ?_⟩
    rw [requestPageScan_walk (hset.mono hpos (by omega)) (by omega) (by omega) (by omega), ← he,
      requestPageScan, if_pos hend, wrapCursor_of_ge (le_refl _), if_pos (by omega)]
  · obtain ⟨d, rfl⟩ := Nat.exists_eq_add_of_le (show 2 ≤ c by omega)
    refine ⟨0 + 1 + d + 1 + e, ?_⟩
    rw [requestPageScan_walk (hset.mono hpos (by omega)) (by omega) (by omega) (by omega), ← he,
      requestPageScan_wrap hend (le_refl _) (by omega),
      requestPageScan_walk (hset.mono (le_refl 1) (by omega)) (by omega) (by omega) (by omega),
      requestPageScan, if_pos (hset _ (by omega) (by omega)), wrapCursor_of_lt (by omega),
      if_pos (by omega)]

theorem Endless.scan (h : m.Endless c) (fuel : Nat) :
    m.requestPageScan (sub64 c 1) fuel c = none := by
  obtain ⟨hout, hbit, hset⟩ := h
  have hfirst : m.totalAvailablePages ≤ sub64 c 1 := by
    unfold sub64 u64
    omega
  -- every bit that the scan tests is set, and the cursor is never put to the page before `c`
  have hgo : ∀ fuel x, m.pageBit x = true → m.requestPageScan (sub64 c 1) fuel x = none := by
    intro fuel
    induction fuel with
    | zero => exact fun x _ => rfl
    | succ fuel ih =>
      intro x hx
      have hwrap : m.wrapCursor x < m.totalAvailablePages := by
        unfold wrapCursor
        split <;> omega
      rw [requestPageScan, if_pos hx, if_neg (by omega), u64_of_lt (by omega)]
      exact ih _ (hset _ (by omega) (by omega))
  exact hgo fuel c hbit

omit hone hn hc in
/-- The scan ends at a clear bit, comes back to where it started, or goes on for ever. -/
theorem found_or_full (m : SystemMemory) (c : Nat) :
    (∃ f, m.Found c f) ∨ m.Full c ∨ m.Endless c := by
  rcases m.marked_or_first c (m.totalAvailablePages + 1) with hup | ⟨f, hlo, hhi, hclear, hset⟩
  · cases hbit : m.pageBit c with
    | false => exact .inl ⟨c, hbit, .inl rfl⟩
    | true =>
      rcases m.marked_or_first 1 (m.totalAvailablePages + 1) with hall | ⟨f, hlo, hhi, hclear, hset⟩
      · by_cases hc : 1 ≤ c ∧ c ≤ m.totalAvailablePages
        · exact .inr (.inl ⟨hc.1, hc.2, hall⟩)
        · exact .inr (.inr ⟨by omega, hbit, hall⟩)
      · refine .inl ⟨f, hclear, .inr (.inr ⟨hlo, ?_, by omega, hbit, hup, hset⟩)⟩
        by_contra hge
        rw [hup f (by omega) hhi] at hclear
        cases hclear
  · refine .inl ⟨f, hclear, ?_⟩
    by_cases heq : f = c
    · exact .inl heq
    · exact .inr (.inl ⟨by omega, by omega, hset⟩)

end scan

/-! ## The pages that are locked -/

/-- The page of a cursor: its address keeps 52 bits of it. -/
theorem addrToPage_cursor (x : Nat) : addrToPage (u64 (x <<< 12)) = x % 4503599627370496 := by
  rw [addrToPage, shift_eq, Nat.shiftRight_eq_div_pow]
  unfold u64
  omega

section loops

variable {m m' : SystemMemory} {n f lr i b : Nat}

/-- The loop of `request_contiguous_pages` returns: every bit it came to was clear. -/
theorem lockContiguous_ok (hn : m.totalAvailablePages < 4503599627370495)
    (hf : f < 18446744073709551616) (h : lockContiguous n m f = .ok (m', lr)) :
    m'.totalAvailablePages = m.totalAvailablePages ∧
    m'.firstAvailablePageAddr = m.firstAvailablePageAddr ∧
    (0 < n → f % 4503599627370496 + n ≤ m.totalAvailablePages + 1) ∧
    m.Marked false f (f + n) ∧
    m.Marked false (f % 4503599627370496) (f % 4503599627370496 + n) ∧
    ∀ x, m'.pageBit x =
      (decide (f % 4503599627370496 ≤ x ∧ x < f % 4503599627370496 + n) || m.pageBit x) := by
  induction n generalizing m f with
  | zero =>
    obtain ⟨rfl, -⟩ := Prod.mk.inj (Except.ok.inj h)
    refine ⟨rfl, rfl, fun hn => by omega, fun j hj hj' => by omega, fun j hj hj' => by omega, fun x => ?_⟩
    have hnot : ¬ (f % 4503599627370496 ≤ x ∧ x < f % 4503599627370496 + 0) := by omega
    rw [decide_eq_false hnot, Bool.false_or]
  | succ n ih =>
    rw [lockContiguous] at h
    split at h
    · cases h
    rename_i hbit
    cases hlock : m.lockPage (u64 (f <<< 12)) with
    | error e =>
      rw [hlock] at h
      cases h
    | ok m₁ =>
      rw [hlock] at h
      change lockContiguous n m₁ (u64 (f + 1)) = .ok (m', lr) at h
      obtain ⟨hle, hclear, hm₁⟩ := takePage_ok hlock
      rw [addrToPage_cursor] at hle hclear hm₁
      have htotal : m₁.totalAvailablePages = m.totalAvailablePages := by rw [hm₁]
      have hfirst : m₁.firstAvailablePageAddr = m.firstAvailablePageAddr := by rw [hm₁]
      have hset : ∀ x, m₁.pageBit x = (decide (x = f % 4503599627370496) || m.pageBit x) := fun x => by
        rw [hm₁]
        exact bit_setBit _ _ x
      have hnext : u64 (f + 1) = f + 1 := u64_of_lt (by omega)
      have hpage : (f + 1) % 4503599627370496 = f % 4503599627370496 + 1 := by omega
      rw [hnext] at h
      obtain ⟨ht, hfa, hfit, hrun, hrun', hbits⟩ := ih (by omega) (by omega) h
      rw [hpage] at hfit hrun' hbits
      have hold : ∀ x, m₁.pageBit x = false → m.pageBit x = false := fun x hx => by
        rw [hset, Bool.or_eq_false_iff] at hx
        exact hx.2
      refine ⟨ht.trans htotal, hfa.trans hfirst, fun _ => ?_, fun j hj hj' => ?_, fun j hj hj' => ?_,
        fun x => ?_⟩
      · rcases Nat.eq_zero_or_pos n with hzero | hpos
        · omega
        · have hle' := hfit hpos
          omega
      · by_cases hj0 : j = f
        · rw [hj0]
          exact Bool.eq_false_of_not_eq_true hbit
        · exact hold j (hrun j (by omega) (by omega))
      · by_cases hj0 : j = f % 4503599627370496
        · rw [hj0]
          exact hclear
        · exact hold j (hrun' j (by omega) (by omega))
      · rw [hbits, hset, ← Bool.or_assoc, ← Bool.decide_or]
        congr 1
        exact decide_eq_decide.mpr (by omega)

/-- It does when every bit it comes to is clear. -/
theorem lockContiguous_total (hn : m.totalAvailablePages < 4503599627370495)
    (hf : f < 18446744073709551616)
    (hfit : f % 4503599627370496 + n ≤ m.totalAvailablePages + 1) (hclear : m.Marked false f (f + n))
    (hclear' : m.Marked false (f % 4503599627370496) (f % 4503599627370496 + n)) :
    ∃ m' lr, lockContiguous n m f = .ok (m', lr) := by
  induction n generalizing m f with
  | zero => exact ⟨m, f, rfl⟩
  | succ n ih =>
    obtain ⟨m₁, hm₁⟩ : ∃ m₁, m.lockPage (u64 (f <<< 12)) = .ok m₁ :=
      ⟨_, takePage_clear _ _ m _ (by rw [addrToPage_cursor]; omega)
        (by rw [addrToPage_cursor]; exact hclear' _ (le_refl _) (by omega))⟩
    obtain ⟨-, -, heq⟩ := takePage_ok hm₁
    rw [addrToPage_cursor] at heq
    have htotal : m₁.totalAvailablePages = m.totalAvailablePages := by rw [heq]
    have hset : ∀ x, x ≠ f % 4503599627370496 → m₁.pageBit x = m.pageBit x := fun x hx => by
      rw [heq]
      exact bit_setBit_of_ne _ hx
    have hnext : u64 (f + 1) = f + 1 := u64_of_lt (by omega)
    have hpage : (f + 1) % 4503599627370496 = f % 4503599627370496 + 1 := by omega
    obtain ⟨m', lr, hrest⟩ := @ih m₁ (f + 1) (by omega) (by omega) (by omega)
      (fun j hj hj' => by rw [hset j (by omega)]; exact hclear j (by omega) (by omega))
      (fun j hj hj' => by rw [hset j (by omega)]; exact hclear' j (by omega) (by omega))
    refine ⟨m', lr, ?_⟩
    rw [lockContiguous, if_neg (by rw [hclear f (le_refl f) (by omega)]; decide), hm₁, ← hrest]
    exact congrArg (lockContiguous n m₁) hnext

/-- The loop of `free_contiguous_pages` clears the bits of the pages it is given. -/
theorem unlockContiguous_set (hn : m.totalAvailablePages < 4503599627370495)
    (hfit : b + i + n ≤ m.totalAvailablePages + 1) (hset : m.Marked true (b + i) (b + i + n)) :
    ∃ m', unlockContiguous (b * 4096) i n m = .ok m' ∧
      ∀ x, m'.pageBit x = (!decide (b + i ≤ x ∧ x < b + i + n) && m.pageBit x) := by
  induction n generalizing m i with
  | zero =>
    refine ⟨m, rfl, fun x => ?_⟩
    have hnot : ¬ (b + i ≤ x ∧ x < b + i + 0) := by omega
    rw [decide_eq_false hnot]
    rfl
  | succ n ih =>
    have hindex : u64 ((b * 4096) >>> 12 + i) = b + i := by
      rw [Nat.shiftRight_eq_div_pow]
      exact (u64_of_lt (by omega)).trans (by omega)
    have haddr : addrToPage (u64 (b * 4096 + i <<< 12)) = b + i := by
      rw [shift_eq, ← Nat.add_mul, ← shift_eq]
      exact addrToPage_shift (by omega)
    have hbit := hset (b + i) (le_refl _) (by omega)
    obtain ⟨m₁, hm₁, heq⟩ : ∃ m₁, m.unlockPage (u64 (b * 4096 + i <<< 12)) = .ok m₁ ∧
        m₁.totalAvailablePages = m.totalAvailablePages ∧
        ∀ x, m₁.pageBit x = (!decide (x = b + i) && m.pageBit x) := by
      have hle : ¬ addrToPage (u64 (b * 4096 + i <<< 12)) > m.totalAvailablePages := by
        rw [haddr]
        omega
      have hbit' : m.pageBit (addrToPage (u64 (b * 4096 + i <<< 12))) = true := by rwa [haddr]
      refine ⟨_, givePage_set _ _ m _ hle hbit', rfl, fun x => ?_⟩
      rw [haddr]
      exact bit_clearBit _ _ x
    obtain ⟨htotal, hbits⟩ := heq
    obtain ⟨m', hm', hbits'⟩ := @ih m₁ (i + 1) (by omega) (by omega) fun j hj hj' => by
      have hj0 : j ≠ b + i := by omega
      rw [hbits, decide_eq_false hj0]
      exact hset j (by omega) (by omega)
    refine ⟨m', ?_, fun x => ?_⟩
    · rw [unlockContiguous, hindex, if_neg (by rw [hbit]; decide), hm₁, ← hm']
      rfl
    · rw [hbits', hbits, ← Bool.and_assoc]
      congr 1
      rw [← Bool.not_or, ← Bool.decide_or]
      exact congrArg _ (decide_eq_decide.mpr (by omega))

/-- `free_contiguous_pages` of `n` pages from page `b` on. -/
theorem freeContiguousPages_set (hn : m.totalAvailablePages < 4503599627370495)
    (hrange : m.firstAvailablePageAddr + m.totalAvailablePages * PAGESIZE ≤ 18446744073709551616)
    (hpos : 0 < n) (hfit : b + n ≤ m.totalAvailablePages) (hset : m.Marked true b (b + n)) :
    ∃ m', m.freeContiguousPages (m.firstAvailablePageAddr + b * 4096) n = .ok m' ∧
      ∀ x, m'.pageBit x = (!decide (b ≤ x ∧ x < b + n) && m.pageBit x) := by
  obtain ⟨m', hm', hbits⟩ := @unlockContiguous_set m n 0 b hn (by omega) hset
  simp only [Nat.add_zero] at hbits
  refine ⟨m', ?_, hbits⟩
  have hsub : sub64 (m.firstAvailablePageAddr + b * 4096) m.firstAvailablePageAddr = b * 4096 := by
    rw [sub64_of_le (by omega) (by unfold PAGESIZE at hrange; omega), Nat.add_sub_cancel_left]
  have hpage : (b * 4096) >>> 12 = b := by
    rw [Nat.shiftRight_eq_div_pow]
    exact Nat.mul_div_cancel b (by decide)
  have hlast : ¬ m'.pageBit b = true := by
    rw [hbits, decide_eq_true (show b ≤ b ∧ b < b + n by omega)]
    simp
  rw [freeContiguousPages]
  simp only [hsub, if_neg (show ¬ m.firstAvailablePageAddr + b * 4096 < m.firstAvailablePageAddr by omega),
    bind, Except.bind, pure, Except.pure, hm', hpage, if_neg hlast]

end loops

end SystemMemory

/-! ## What a call does -/

open SystemMemory

/-- The sizes of a machine: the page after the last one has an address, too. -/
structure ContiguousAllocator.Sized (s : ContiguousAllocator) : Prop where
  nonempty : 1 ≤ s.memory.totalAvailablePages
  small : s.memory.totalAvailablePages < 4503599627370495
  range : s.memory.firstAvailablePageAddr + s.memory.totalAvailablePages * PAGESIZE ≤
    18446744073709551616
  cursor : s.lastRequested < 18446744073709551616

namespace ContiguousAllocator

variable {s s' : ContiguousAllocator} {num p f : Nat} {r : Except Panic (Nat × ContiguousAllocator)}

theorem returns_found (hs : s.Sized) (hf : s.memory.Found s.lastRequested f) :
    s.Returns num r ↔ r = (lockContiguous num s.memory f).map fun t =>
      (u64 (t.1.firstAvailablePageAddr + (sub64 s.lastRequested 1) <<< 12),
        ⟨t.1, t.2, u64 (s.statisticsRequested + num)⟩) := by
  obtain ⟨fuel, hscan⟩ := hf.scan hs.nonempty hs.small hs.cursor
  constructor
  · intro ⟨fuel', h⟩
    obtain ⟨out, hout, hr⟩ := Option.map_eq_some_iff.mp h
    obtain rfl := requestPageScan_unique hscan hout
    rw [← hr]
    cases hlock : lockContiguous num s.memory f with
    | error e =>
      simp only [bind, Except.bind, hlock]
      rfl
    | ok t =>
      simp only [bind, Except.bind, hlock]
      rfl
  · intro hr
    refine ⟨fuel, ?_⟩
    rw [requestContiguousPages]
    simp only [hscan, Option.map_some, hr, bind, Except.bind]
    cases lockContiguous num s.memory f <;> rfl

theorem returns_locked (hs : s.Sized) (hf : s.memory.Found s.lastRequested f) {m' : SystemMemory}
    {lr : Nat} (hlock : lockContiguous num s.memory f = .ok (m', lr)) : s.Returns num r ↔
      r = .ok (u64 (m'.firstAvailablePageAddr + (sub64 s.lastRequested 1) <<< 12),
        ⟨m', lr, u64 (s.statisticsRequested + num)⟩) := by
  rw [returns_found hs hf, hlock]
  rfl

theorem returns_blocked (hs : s.Sized) (hf : s.memory.Found s.lastRequested f) {e : Panic}
    (hlock : lockContiguous num s.memory f = .error e) : s.Returns num r ↔ r = .error e := by
  rw [returns_found hs hf, hlock]
  rfl

theorem returns_full (hs : s.Sized) (hf : s.memory.Full s.lastRequested) :
    s.Returns num r ↔ r = .error ⟨"No free pages available!"⟩ := by
  obtain ⟨fuel, hscan⟩ := hf.scan hs.nonempty hs.small hs.cursor
  constructor
  · intro ⟨fuel', h⟩
    obtain ⟨out, hout, hr⟩ := Option.map_eq_some_iff.mp h
    obtain rfl := requestPageScan_unique hscan hout
    exact hr.symm
  · intro hr
    refine ⟨fuel, ?_⟩
    rw [requestContiguousPages]
    simp only [hscan, Option.map_some, hr, bind, Except.bind]

theorem not_returns_endless (hs : s.Sized) (hf : s.memory.Endless s.lastRequested) :
    ¬ s.Returns num r := by
  intro ⟨fuel, h⟩
  obtain ⟨out, hout, -⟩ := Option.map_eq_some_iff.mp h
  rw [hf.scan hs.nonempty hs.small hs.cursor] at hout
  cases hout

end ContiguousAllocator

/-! ## The run that a call owes -/

/-- There are `num` clear pages in a row. -/
def HasRun (m : SystemMemory) (num : Nat) : Prop :=
  ∃ i, i + num ≤ m.totalAvailablePages ∧ m.Marked false i (i + num)

/-- A call has locked the `num` pages from page `i` on, and freeing them undoes it. -/
structure RunLocked (s s' : ContiguousAllocator) (num i : Nat) : Prop where
  inside : i + num ≤ s.memory.totalAvailablePages
  before : s.memory.Marked false i (i + num)
  after : s'.memory.Marked true i (i + num)
  others : ∀ j, j < i ∨ i + num ≤ j → s'.memory.pageBit j = s.memory.pageBit j
  restored : ∃ m, s'.memory.freeContiguousPages
    (s.memory.firstAvailablePageAddr + i * PAGESIZE) num = .ok m ∧
      ∀ j, m.pageBit j = s.memory.pageBit j

/-- A call returns the pages that it has locked, and panics only if there is no such run. -/
def ContiguousSafe (s : ContiguousAllocator) (num : Nat) : Prop :=
  (∀ p s', s.Returns num (.ok (p, s')) →
    ∃ i, p = s.memory.firstAvailablePageAddr + i * PAGESIZE ∧ RunLocked s s' num i) ∧
  ∀ e, s.Returns num (.error e) → ¬ HasRun s.memory num

/-- The scan goes round to the page before the cursor, and `num` pages are clear there. -/
def OnlyBehind (m : SystemMemory) (c num : Nat) : Prop :=
  ∃ i, i = (c - 1) % 4503599627370496 ∧ 1 ≤ i ∧ i + num ≤ m.totalAvailablePages ∧
    m.Marked false i (i + num) ∧ m.Marked true 1 i ∧ m.pageBit c = true ∧
    m.Marked true c (m.totalAvailablePages + 1)

/-- The last `num` bits are clear, that of index `total_available_pages` among them, and the
scan comes to them first. -/
def EndsPast (m : SystemMemory) (c num : Nat) : Prop :=
  num ≤ m.totalAvailablePages + 1 ∧
  m.Marked false (m.totalAvailablePages + 1 - num) (m.totalAvailablePages + 1) ∧
    ((c ≤ m.totalAvailablePages + 1 - num ∧ m.Marked true c (m.totalAvailablePages + 1 - num)) ∨
      (m.totalAvailablePages < c ∧ m.pageBit c = true ∧ num ≤ m.totalAvailablePages ∧
        m.Marked true 1 (m.totalAvailablePages + 1 - num)) ∨
      (m.totalAvailablePages < c ∧ c % 4503599627370496 = m.totalAvailablePages + 1 - num ∧
        m.Marked false c (c + num)))

section run

variable {s : ContiguousAllocator} {m' : SystemMemory} {num f i lr stat : Nat}

theorem address_eq_iff (hs : s.Sized) (hi : i < s.memory.totalAvailablePages) :
    u64 (s.memory.firstAvailablePageAddr + (sub64 s.lastRequested 1) <<< 12) =
      s.memory.firstAvailablePageAddr + i * PAGESIZE ↔
    sub64 s.lastRequested 1 % 4503599627370496 = i := by
  have hrange := hs.range
  rw [shift_eq]
  generalize sub64 s.lastRequested 1 = x
  unfold u64 PAGESIZE at *
  omega

theorem sub64_one_mod {c : Nat} (hc : c < 18446744073709551616) :
    sub64 c 1 % 4503599627370496 =
      if c = 0 then 4503599627370495 else (c - 1) % 4503599627370496 := by
  unfold sub64 u64
  split <;> omega

/-- The pages that are locked are those from the page of the clear bit on. -/
theorem runLocked_iff (hs : s.Sized) (hpos : 1 ≤ num) (hf : f < 18446744073709551616)
    (hlock : lockContiguous num s.memory f = .ok (m', lr)) :
    RunLocked s ⟨m', lr, stat⟩ num i ↔
      i = f % 4503599627370496 ∧ i + num ≤ s.memory.totalAvailablePages := by
  obtain ⟨htotal, hfirst, -, -, hclear, hbits⟩ := lockContiguous_ok hs.small hf hlock
  generalize f % 4503599627370496 = d at hclear hbits ⊢
  have hset : ∀ x, d ≤ x → x < d + num → m'.pageBit x = true := fun x hlo hhi => by
    rw [hbits, decide_eq_true ⟨hlo, hhi⟩, Bool.true_or]
  have hsame : ∀ x, ¬ (d ≤ x ∧ x < d + num) → m'.pageBit x = s.memory.pageBit x := fun x hx => by
    rw [hbits, decide_eq_false hx, Bool.false_or]
  constructor
  · intro h
    refine ⟨?_, h.inside⟩
    -- page `d` and page `i` have both changed
    have hd : ¬ (d < i ∨ i + num ≤ d) := fun hout => by
      have heq := h.others d hout
      change m'.pageBit d = _ at heq
      rw [hset d (le_refl d) (by omega), hclear d (le_refl d) (by omega)] at heq
      cases heq
    have hi : d ≤ i ∧ i < d + num := by
      by_contra hout
      have hafter := h.after i (le_refl i) (by omega)
      change m'.pageBit i = true at hafter
      rw [hsame i hout, h.before i (le_refl i) (by omega)] at hafter
      cases hafter
    omega
  · intro ⟨hid, hin⟩
    subst hid
    obtain ⟨m, hm, hmbits⟩ := freeContiguousPages_set (by rw [htotal]; exact hs.small)
      (by rw [htotal, hfirst]; exact hs.range) hpos (by rw [htotal]; exact hin)
      fun x hlo hhi => hset x hlo hhi
    refine ⟨hin, hclear, fun x hlo hhi => hset x hlo hhi, fun j hj => hsame j (by omega), m, ?_, ?_⟩
    · rw [← hfirst]
      exact hm
    · intro j
      rw [hmbits]
      by_cases hj : i ≤ j ∧ j < i + num
      · rw [decide_eq_true hj, hclear j hj.1 hj.2]
        rfl
      · rw [decide_eq_false hj, hsame j hj]
        rfl

/-- What the lock loop needs. -/
def Lockable (m : SystemMemory) (f num : Nat) : Prop :=
  f % 4503599627370496 + num ≤ m.totalAvailablePages + 1 ∧ m.Marked false f (f + num) ∧
    m.Marked false (f % 4503599627370496) (f % 4503599627370496 + num)

theorem found_lt (hs : s.Sized) (hf : s.memory.Found s.lastRequested f) : f < 18446744073709551616 := by
  have hcursor := hs.cursor
  have hsmall := hs.small
  obtain ⟨-, rfl | ⟨-, hle, -⟩ | ⟨-, -, hle, -⟩⟩ := hf
  · exact hcursor
  · omega
  · omega

theorem found_unique (hs : s.Sized) {f' : Nat} (hf : s.memory.Found s.lastRequested f)
    (hf' : s.memory.Found s.lastRequested f') : f = f' := by
  obtain ⟨fuel, hscan⟩ := hf.scan hs.nonempty hs.small hs.cursor
  obtain ⟨fuel', hscan'⟩ := hf'.scan hs.nonempty hs.small hs.cursor
  exact Except.ok.inj (requestPageScan_unique hscan hscan')

theorem not_found_full (hs : s.Sized) (hf : s.memory.Found s.lastRequested f) :
    ¬ s.memory.Full s.lastRequested := by
  intro hfull
  obtain ⟨fuel, hscan⟩ := hf.scan hs.nonempty hs.small hs.cursor
  obtain ⟨fuel', hscan'⟩ := hfull.scan hs.nonempty hs.small hs.cursor
  cases requestPageScan_unique hscan hscan'

/-- The page before the cursor is found by a scan round the end. -/
theorem OnlyBehind.found (hpos : 1 ≤ num)
    (h : OnlyBehind s.memory s.lastRequested num) :
    s.memory.Found s.lastRequested ((s.lastRequested - 1) % 4503599627370496) := by
  obtain ⟨i, rfl, hi, hin, hclear, hset, hbit, hup⟩ := h
  exact ⟨hclear _ (le_refl _) (by omega), .inr (.inr ⟨hi, by omega, by omega, hbit, hup, hset⟩)⟩

/-- The scan comes to the last pages, and they can be locked. -/
theorem EndsPast.found (hs : s.Sized) (hpos : 1 ≤ num)
    (h : EndsPast s.memory s.lastRequested num) :
    ∃ f, s.memory.Found s.lastRequested f ∧ Lockable s.memory f num := by
  obtain ⟨hnum, hlast, hscan⟩ := h
  have hsmall := hs.small
  have hone := hs.nonempty
  obtain ⟨g, hg⟩ : ∃ g, s.memory.totalAvailablePages + 1 - num = g := ⟨_, rfl⟩
  rw [hg] at hlast hscan
  have hlock : Lockable s.memory g num := by
    have hpage : g % 4503599627370496 = g := Nat.mod_eq_of_lt (by omega)
    unfold Lockable
    rw [hpage]
    exact ⟨by omega, hlast.mono (le_refl g) (by omega), hlast.mono (le_refl g) (by omega)⟩
  have hclear := hlast g (le_refl g) (by omega)
  rcases hscan with ⟨hle, hset⟩ | ⟨hlt, hbit, hle, hset⟩ | ⟨hlt, hpage, hrun⟩
  · refine ⟨g, ⟨hclear, ?_⟩, hlock⟩
    by_cases heq : g = s.lastRequested
    · exact .inl heq
    · exact .inr (.inl ⟨by omega, by omega, hset⟩)
  · exact ⟨g, ⟨hclear, .inr (.inr ⟨by omega, by omega, by omega, hbit, fun j _ _ => by omega, hset⟩)⟩, hlock⟩
  · refine ⟨s.lastRequested, ⟨hrun _ (le_refl _) (by omega), .inl rfl⟩, ?_⟩
    unfold Lockable
    rw [hpage]
    exact ⟨by omega, hrun, hlast.mono (le_refl g) (by omega)⟩

/-- Where there is no run, the pages that a call locks are the last ones. -/
theorem endsPast_of_lockable (hs : s.Sized)
    (hf : s.memory.Found s.lastRequested f) (hlock : Lockable s.memory f num)
    (hrun : ¬ HasRun s.memory num) : EndsPast s.memory s.lastRequested num := by
  obtain ⟨hfit, hclear, hclear'⟩ := hlock
  have hsmall := hs.small
  have hend : s.memory.totalAvailablePages + 1 - num = f % 4503599627370496 := by
    by_contra hne
    exact hrun ⟨_, by omega, hclear'⟩
  refine ⟨by omega, ?_, ?_⟩
  · rw [hend]
    exact hclear'.mono (le_refl _) (by omega)
  rw [hend]
  obtain ⟨-, heq | ⟨hlt, hle, hset⟩ | ⟨hlow, hlt, hle, hbit, hup, hset⟩⟩ := hf
  · rw [← heq]
    by_cases hin : f ≤ s.memory.totalAvailablePages
    · have hpage : f % 4503599627370496 = f := Nat.mod_eq_of_lt (by omega)
      rw [hpage]
      exact .inl ⟨le_refl f, fun j hj hj' => by omega⟩
    · exact .inr (.inr ⟨by omega, rfl, hclear⟩)
  · have hpage : f % 4503599627370496 = f := Nat.mod_eq_of_lt (by omega)
    rw [hpage]
    exact .inl ⟨by omega, hset⟩
  · have hpage : f % 4503599627370496 = f := Nat.mod_eq_of_lt (by omega)
    rw [hpage] at hend hclear' ⊢
    have hcursor : s.memory.totalAvailablePages < s.lastRequested := by
      by_contra hin
      have htrue := hup s.memory.totalAvailablePages (by omega) (by omega)
      rw [hclear' s.memory.totalAvailablePages hle (by omega)] at htrue
      cases htrue
    exact .inr (.inl ⟨hcursor, hbit, by omega, hset⟩)

/-- A call that returns the pages it has locked has gone round to the page before the cursor. -/
theorem onlyBehind_of_locked (hs : s.Sized) (hpos : 1 ≤ num)
    (hf : s.memory.Found s.lastRequested f) (hlock : Lockable s.memory f num)
    (hpage : sub64 s.lastRequested 1 % 4503599627370496 = f % 4503599627370496)
    (hin : f % 4503599627370496 + num ≤ s.memory.totalAvailablePages) :
    OnlyBehind s.memory s.lastRequested num := by
  have hsmall := hs.small
  rw [sub64_one_mod hs.cursor] at hpage
  obtain ⟨-, rfl | ⟨hlt, hle, hset⟩ | ⟨hlow, hlt, hle, hbit, hup, hset⟩⟩ := hf
  · split at hpage <;> omega
  · split at hpage <;> omega
  · have hfeq : f % 4503599627370496 = f := Nat.mod_eq_of_lt (by omega)
    rw [if_neg (by omega), hfeq] at hpage
    rw [hfeq] at hin
    exact ⟨f, hpage.symm, hlow, hin, hlock.2.1, hset, hbit, hup⟩

end run

/-- `request_contiguous_pages` returns the pages that it locks, and panics only without a run
of free pages, exactly where it finds them just before its cursor and nothing else, where
there is no run and it does not lock the bit past the end, or where it does not end. -/
theorem contiguousSafe_iff {s : ContiguousAllocator} {num : Nat} (hs : s.Sized) (hpos : 1 ≤ num) :
    ContiguousSafe s num ↔ OnlyBehind s.memory s.lastRequested num ∨
      (¬ HasRun s.memory num ∧ ¬ EndsPast s.memory s.lastRequested num) ∨
      s.memory.Endless s.lastRequested := by
  constructor
  · intro ⟨hok, herror⟩
    rcases s.memory.found_or_full s.lastRequested with ⟨f, hf⟩ | hfull | hendless
    · have hlt := found_lt hs hf
      cases hlock : lockContiguous num s.memory f with
      | ok t =>
        obtain ⟨m', lr⟩ := t
        obtain ⟨-, hfirst, hfit, hclear, hclear', -⟩ := lockContiguous_ok hs.small hlt hlock
        obtain ⟨i, hp, hlocked⟩ := hok _ _ ((ContiguousAllocator.returns_locked hs hf hlock).mpr rfl)
        obtain ⟨rfl, hin⟩ := (runLocked_iff hs hpos hlt hlock).mp hlocked
        rw [hfirst, address_eq_iff hs (by omega)] at hp
        exact .inl (onlyBehind_of_locked hs hpos hf ⟨hfit hpos, hclear, hclear'⟩ hp hin)
      | error e =>
        refine .inr (.inl ⟨herror e ((ContiguousAllocator.returns_blocked hs hf hlock).mpr rfl),
          fun hends => ?_⟩)
        obtain ⟨f', hf', hfit, hclear, hclear'⟩ := hends.found hs hpos
        obtain rfl := found_unique hs hf hf'
        obtain ⟨m', lr, hlock'⟩ := lockContiguous_total hs.small hlt hfit hclear hclear'
        rw [hlock] at hlock'
        cases hlock'
    · refine .inr (.inl ⟨herror _ ((ContiguousAllocator.returns_full hs hfull).mpr rfl), fun hends => ?_⟩)
      obtain ⟨f, hf, -⟩ := hends.found hs hpos
      exact not_found_full hs hf hfull
    · exact .inr (.inr hendless)
  · rintro (hbehind | ⟨hrun, hends⟩ | hendless)
    · have hf := hbehind.found hpos
      obtain ⟨i, hi, hi1, hin, hclear, -⟩ := hbehind
      rw [← hi] at hf
      have hsmall := hs.small
      have hpage : i % 4503599627370496 = i := Nat.mod_eq_of_lt (by omega)
      obtain ⟨m', lr, hlock⟩ := lockContiguous_total hs.small (found_lt hs hf)
        (by rw [hpage]; omega) hclear (by rw [hpage]; exact hclear)
      obtain ⟨-, hfirst, -⟩ := lockContiguous_ok hs.small (found_lt hs hf) hlock
      refine ⟨fun p s' h => ⟨i, ?_, ?_⟩, fun e h => ?_⟩
      · obtain ⟨hp, -⟩ := Prod.mk.inj
          (Except.ok.inj ((ContiguousAllocator.returns_locked hs hf hlock).mp h))
        rw [hp, hfirst, address_eq_iff hs (by omega), sub64_one_mod hs.cursor, if_neg (by omega), hi]
      · obtain ⟨-, hs'⟩ := Prod.mk.inj
          (Except.ok.inj ((ContiguousAllocator.returns_locked hs hf hlock).mp h))
        rw [hs']
        exact (runLocked_iff hs hpos (found_lt hs hf) hlock).mpr ⟨hpage.symm, hin⟩
      · cases (ContiguousAllocator.returns_locked hs hf hlock).mp h
    · refine ⟨fun p s' h => absurd ?_ hends, fun e _ => hrun⟩
      rcases s.memory.found_or_full s.lastRequested with ⟨f, hf⟩ | hfull | hendless
      · cases hlock : lockContiguous num s.memory f with
        | error e => cases (ContiguousAllocator.returns_blocked hs hf hlock).mp h
        | ok t =>
          obtain ⟨m', lr⟩ := t
          obtain ⟨-, -, hfit, hclear, hclear', -⟩ := lockContiguous_ok hs.small (found_lt hs hf) hlock
          exact endsPast_of_lockable hs hf ⟨hfit hpos, hclear, hclear'⟩ hrun
      · cases (ContiguousAllocator.returns_full hs hfull).mp h
      · exact absurd h (ContiguousAllocator.not_returns_endless hs hendless)
    · exact ⟨fun p s' h => absurd h (ContiguousAllocator.not_returns_endless hs hendless),
        fun e h => absurd h (ContiguousAllocator.not_returns_endless hs hendless)⟩

/-- What `init_memory` leaves of sixteen kilobytes at 1 MiB: four pages, three of them reserved. -/
def fourPages : ContiguousAllocator where
  memory :=
    { totalAvailablePages := 4
      firstAvailablePageAddr := 0x100000
      lastAvailablePageAddress := 0x104000
      totalMemory := 0x4000
      totalPages := 4
      bitfield := fun x => if x = 0 then 7 else 0
      freeMemory := 0x1000
      lockedMemory := 0
      reservedMemory := 0x3000 }
  lastRequested := 0
  statisticsRequested := 0

theorem fourPages_sized : fourPages.Sized :=
  ⟨by decide, by decide, by decide, by decide⟩

theorem contiguousSafe_iff_fourPages : ContiguousSafe fourPages 1 ↔
    OnlyBehind fourPages.memory 0 1 ∨ (¬ HasRun fourPages.memory 1 ∧ ¬ EndsPast fourPages.memory 0 1) ∨
      fourPages.memory.Endless 0 :=
  contiguousSafe_iff fourPages_sized (by decide)

/-- The first call locks page 3 and returns the page below the chunk. -/
theorem not_contiguousSafe : ¬ ∀ (s : ContiguousAllocator) (num : Nat), s.Sized → 1 ≤ num →
    ContiguousSafe s num := by
  intro hall
  have hview : ((fourPages.requestContiguousPages 4 1).bind fun r => r.toOption.map Prod.fst) =
      some 0xff000 := by decide +kernel
  simp only [Option.bind_eq_some_iff, Option.map_eq_some_iff] at hview
  obtain ⟨r, hr, ⟨p, s'⟩, hx, hp⟩ := hview
  cases r with
  | error e => cases hx
  | ok x =>
    obtain rfl := Option.some.inj hx
    obtain ⟨i, hi, -⟩ := (hall fourPages 1 fourPages_sized (by decide)).1 p s' ⟨4, hr⟩
    change p = 0xff000 at hp
    rw [hp] at hi
    change 0xff000 = 0x100000 + i * 4096 at hi
    omega

end UnedKernel.Memory
