import UnedKernel.Memory.HeapAccounts
import UnedKernel.Memory.HeapGrowth

/-! # The heap and the stacks

The heap grows down from `heapEnd`, and the stacks of the same `struct heap` grow down
from `stackEnd`, above it. `_initHeap` is told where the two windows start and does not
keep it, so that neither arena stops there. -/

namespace UnedKernel.Memory
open ByteMem Word Run

/-- The windows that `_initHeap` is called with: the stacks above the heap, and room for
a page in each. -/
structure Windows where
  heapStart : Nat
  heapEnd : Nat
  stackStart : Nat
  stackEnd : Nat
  heapPage : heapEnd % PAGESIZE = 0
  stackPage : stackEnd % PAGESIZE = 0
  notNull : PAGESIZE < heapEnd
  heap : heapStart + PAGESIZE ≤ heapEnd
  apart : heapEnd ≤ stackStart
  stack : stackStart + PAGESIZE ≤ stackEnd
  word : stackEnd < 18446744073709551616

/-- What `_stackalloc` returned for a length, and how many pages were mapped by then. -/
structure Stack where
  base : Nat
  length : Nat
  mapped : Nat

/-- The bytes of the pages of a stack. -/
def Stack.bytes (r : Stack) : Nat := stackPageCount r.length * PAGESIZE

/-- A heap with the blocks and the stacks of its clients, and the pages that each arena
has requested. -/
structure Arenas where
  heap : HeapState
  live : List (Nat × Nat)
  heapPages : List Nat
  stackPages : List Nat
  held : List Stack

/-- The pages that were requested after the first `n`. -/
def pagesSince (s : HeapState) (n : Nat) : List Nat :=
  (s.pages.take (s.pages.length - n)).map Prod.fst

/-- The heap after `_initHeap`. -/
def initArenas (w : Windows) (s : HeapState) (user : Bool) : Arenas where
  heap := initHeap s w.heapEnd w.stackEnd user
  live := []
  heapPages := [w.heapEnd - PAGESIZE]
  stackPages := [w.stackEnd - PAGESIZE]
  held := []

/-- The calls of the heap, those of `_stackalloc`, and the writes of the clients to the
stacks they hold. -/
inductive ArenaStep (okHeap okStack : HeapState → Nat → Prop) : Arenas → Arenas → Prop
  | heap {c : Arenas} {s' : HeapState} {live' : List (Nat × Nat)}
      (h : HeapStep (okHeap c.heap) (c.heap, c.live) (s', live')) :
      ArenaStep okHeap okStack c
        { c with
          heap := s'
          live := live'
          heapPages := pagesSince s' c.heap.pages.length ++ c.heapPages }
  | stackalloc {c : Arenas} {s' : HeapState} {length base : Nat} (hpos : 0 < length)
      (hok : okStack c.heap length) (h : stackalloc c.heap length = .ok (base, s')) :
      ArenaStep okHeap okStack c
        { c with
          heap := s'
          stackPages := pagesSince s' c.heap.pages.length ++ c.stackPages
          held := ⟨base, length, s'.pages.length⟩ :: c.held }
  | write {c : Arenas} {m : Bytes}
      (h : ∀ a, (∀ r ∈ c.held, ¬ (r.base ≤ a ∧ a < r.base + r.bytes)) → m a = c.heap.mem a) :
      ArenaStep okHeap okStack c { c with heap := { c.heap with mem := m } }

/-- Each arena is inside its window, and the stacks are apart, mapped, and each above a
page that is left alone from then on. -/
structure ArenasSafe (w : Windows) (c : Arenas) : Prop where
  heapPages : ∀ a ∈ c.heapPages, w.heapStart ≤ a ∧ a + PAGESIZE ≤ w.heapEnd
  stackPages : ∀ a ∈ c.stackPages, w.stackStart ≤ a ∧ a + PAGESIZE ≤ w.stackEnd ∧ a ∉ c.heapPages
  heldApart : c.held.Pairwise fun r t => Apart r.base r.bytes t.base t.bytes
  mapped : ∀ r ∈ c.held, r.length ≤ r.bytes ∧ ∀ a, r.base ≤ a → a < r.base + r.bytes →
    ∃ perms, (a / PAGESIZE * PAGESIZE, perms) ∈ c.heap.pages
  guard : ∀ r ∈ c.held, r.base - PAGESIZE ∉ pagesSince c.heap r.mapped

/-! ## When the arenas stay inside -/

/-- The length of the lowest segment after an expansion for the request. -/
def grownLength (s : HeapState) (size : Nat) : Nat :=
  (if Segment.free.get s.mem s.cheap.lastSegment ≠ 0 then
    Segment.length.get s.mem s.cheap.lastSegment
  else 0) + expandLength (roundSize size) - sizeofHeader

/-- A segment of the heap serves the request, or the window has room for the expansion,
and for a second one when the segment that the first one makes does not serve it. -/
def WithinHeap (w : Windows) (s : HeapState) (size : Nat) : Prop :=
  NoOverflow size ∧ (Finds s size ∨
    w.heapStart + expandLength (roundSize size) ≤ s.cheap.heapEnd ∧
      (grownLength s size = roundSize size ∨ roundSize size + sizeofHeader < grownLength s size ∨
        w.heapStart + 2 * expandLength (roundSize size) ≤ s.cheap.heapEnd))

/-- The window has room for the stack. -/
def WithinStack (w : Windows) (s : HeapState) (length : Nat) : Prop :=
  w.stackStart + stackPageCount length * PAGESIZE ≤ s.cheap.lastStack

/-! ## The pages since -/

theorem pagesSince_append {s s' : HeapState} {new : List (Nat × Nat)} {n : Nat}
    (h : s'.pages = new ++ s.pages) (hn : n ≤ s.pages.length) :
    pagesSince s' n = new.map Prod.fst ++ pagesSince s n := by
  have hlen : (new ++ s.pages).length - n = new.length + (s.pages.length - n) := by
    rw [List.length_append]
    omega
  rw [pagesSince, pagesSince, h, hlen, List.take_length_add_append, List.map_append]

theorem pagesSince_new {s s' : HeapState} {new : List (Nat × Nat)} (h : s'.pages = new ++ s.pages) :
    pagesSince s' s.pages.length = new.map Prod.fst := by
  rw [pagesSince_append h (Nat.le_refl _), pagesSince, Nat.sub_self]
  simp

/-! ## `_stackalloc` -/

theorem stackPages_eq {perms n : Nat} {s : HeapState} (hlow : 4096 * n < s.cheap.lastStack)
    (hlt : s.cheap.lastStack < 18446744073709551616) :
    stackPages perms n s = .ok
      { s with
        cheap := { s.cheap with lastStack := s.cheap.lastStack - 4096 * n }
        pages := (List.range n).map (fun i => (s.cheap.lastStack - 4096 * n + 4096 * i, perms)) ++
          s.pages } := by
  induction n generalizing s with
  | zero => rfl
  | succ n ih =>
    obtain ⟨e, he⟩ : ∃ e, sub64 s.cheap.lastStack PAGESIZE = e := ⟨_, rfl⟩
    have hsub : e = s.cheap.lastStack - 4096 := by
      rw [← he]
      exact sub64_of_le (by unfold PAGESIZE; omega) hlt
    have hbase : s.cheap.lastStack - 4096 * (n + 1) = e - 4096 * n := by omega
    have hlast : e - 4096 * n + 4096 * n = e := by omega
    unfold stackPages
    simp only [he]
    rw [if_neg (by omega), ih (by show 4096 * n < e; omega) (by show e < _; omega)]
    simp only [HeapState.requestCurrentPageAt, hbase, List.range_succ, List.map_append,
      List.map_cons, List.map_nil, hlast, List.append_assoc, List.singleton_append]

/-- A stack lies below the stacks before it, and above a page that is left alone. -/
theorem stackalloc_eq {s : HeapState} {length : Nat}
    (hlow : 4096 * stackPageCount length + 4096 ≤ s.cheap.lastStack)
    (hlt : s.cheap.lastStack < 18446744073709551616) :
    ∃ perms base lastStack, lastStack + 4096 = base ∧
      base + 4096 * stackPageCount length = s.cheap.lastStack ∧
      stackalloc s length = .ok (base,
        { s with
          cheap := { s.cheap with lastStack := lastStack }
          pages := (List.range (stackPageCount length)).map (fun i => (base + 4096 * i, perms)) ++
            s.pages }) := by
  have hgrow := @stackPages_eq (heapPerms (!s.cheap.isKernel)) (stackPageCount length) s (by omega) hlt
  have hguard : sub64 (s.cheap.lastStack - 4096 * stackPageCount length) PAGESIZE =
      s.cheap.lastStack - 4096 * stackPageCount length - 4096 :=
    sub64_of_le (by unfold PAGESIZE; omega) (by omega)
  refine ⟨heapPerms (!s.cheap.isKernel), s.cheap.lastStack - 4096 * stackPageCount length,
    s.cheap.lastStack - 4096 * stackPageCount length - 4096, by omega, by omega, ?_⟩
  simp only [stackalloc, hgrow, Except.map, hguard]

/-! ## What the heap requests -/

/-- The pages that the heap requests lie between its old end and its new one. -/
structure Lowers (s s' : HeapState) : Prop where
  pages : ∃ new, s'.pages = new ++ s.pages ∧
    ∀ q ∈ new, s'.cheap.heapEnd ≤ q.1 ∧ q.1 + 4096 ≤ s.cheap.heapEnd
  heapEnd : s'.cheap.heapEnd ≤ s.cheap.heapEnd
  lastStack : s'.cheap.lastStack = s.cheap.lastStack
  mainSegment : s'.cheap.mainSegment = s.cheap.mainSegment

namespace Lowers

variable {s s' s'' : HeapState}

theorem of_eq (hpages : s'.pages = s.pages) (hend : s'.cheap.heapEnd = s.cheap.heapEnd)
    (hlast : s'.cheap.lastStack = s.cheap.lastStack)
    (hmain : s'.cheap.mainSegment = s.cheap.mainSegment) : Lowers s s' := by
  refine ⟨⟨[], hpages, ?_⟩, Nat.le_of_eq hend, hlast, hmain⟩
  intro q hq
  cases hq

theorem of_same (h : SameExtent s s') : Lowers s s' :=
  of_eq h.pages h.heapEnd h.lastStack h.mainSegment

theorem trans (h : Lowers s s') (h' : Lowers s' s'') : Lowers s s'' := by
  obtain ⟨new, hnew, hin⟩ := h.pages
  obtain ⟨new', hnew', hin'⟩ := h'.pages
  have hend := h.heapEnd
  have hend' := h'.heapEnd
  refine ⟨⟨new' ++ new, by rw [hnew', hnew, List.append_assoc], fun q hq => ?_⟩, by omega,
    h'.lastStack.trans h.lastStack, h'.mainSegment.trans h.mainSegment⟩
  rcases List.mem_append.mp hq with hq | hq
  · have := hin' q hq
    omega
  · have := hin q hq
    omega

end Lowers

section Calls
variable {s s' : HeapState}

theorem expandPages_lowers {perms n : Nat} (hpage : s.cheap.heapEnd % 4096 = 0)
    (hpos : 0 < s.cheap.heapEnd) (hlt : s.cheap.heapEnd < 18446744073709551616)
    (h : expandPages perms n s = .ok s') : Lowers s s' := by
  induction n generalizing s with
  | zero =>
    cases h
    exact .of_eq rfl rfl rfl rfl
  | succ n ih =>
    obtain ⟨e, he⟩ : ∃ e, sub64 s.cheap.heapEnd PAGESIZE = e := ⟨_, rfl⟩
    have hsub : e = s.cheap.heapEnd - 4096 := by
      rw [← he]
      exact sub64_of_le (by unfold PAGESIZE; omega) hlt
    unfold expandPages at h
    simp only [he] at h
    split at h
    · cases h
    rename_i hne
    have hrest := ih (by show e % 4096 = 0; omega) (by show 0 < e; omega) (by show e < _; omega) h
    refine Lowers.trans ?_ hrest
    refine ⟨⟨[(e, perms)], rfl, fun q hq => ?_⟩, ?_, rfl, rfl⟩
    · obtain rfl := List.mem_singleton.mp hq
      exact ⟨Nat.le_refl e, by show e + 4096 ≤ s.cheap.heapEnd; omega⟩
    · show e ≤ s.cheap.heapEnd
      omega

theorem expandHeap_lowers {length : Nat} (hpage : s.cheap.heapEnd % 4096 = 0)
    (hpos : 0 < s.cheap.heapEnd) (hlt : s.cheap.heapEnd < 18446744073709551616)
    (h : expandHeap s length = .ok s') : Lowers s s' := by
  unfold expandHeap at h
  extract_lets len pages at h
  clear_value len pages
  cases hexp : expandPages (heapPerms (!s.cheap.isKernel)) pages s with
  | error e => rw [hexp] at h; cases h
  | ok t =>
    rw [hexp] at h
    rw [← Except.ok.inj h]
    exact (expandPages_lowers hpage hpos hlt hexp).trans (.of_eq rfl rfl rfl rfl)

end Calls

namespace HeapInv

variable {s s' t : HeapState} {segs segs' : List Seg} {fuel size p : Nat} {w : Windows}

theorem malloc_lowers (h : HeapInv s segs) (hs : NoOverflow size)
    (hm : Memory.malloc fuel s size = some (.ok (p, s'))) : Lowers s s' := by
  induction fuel generalizing s segs size with
  | zero => cases hm
  | succ fuel ih =>
    by_cases hsize : size = 0
    · subst hsize
      obtain ⟨-, rfl⟩ := Prod.mk.inj (malloc_zero h.ready hm)
      exact .of_eq rfl rfl rfl rfl
    obtain ⟨hround, -, hs'⟩ := roundSize_spec hs
    rcases h.malloc_cases hs (Nat.pos_of_ne_zero hsize) hm with ⟨x, -, -, hal⟩ | ⟨k, t, hk, -, hexp, hrest⟩
    · exact .of_same (allocateIn_same hal)
    · obtain rfl : fuel = k := Nat.succ.inj hk
      obtain ⟨segs₁, hexpanded⟩ := h.expand hs' hround hexp
      exact (expandHeap_lowers h.page h.pos h.heapEnd_lt hexp).trans (ih hexpanded.inv hs' hrest)

/-- An expansion makes a free segment of the length that the headers say. -/
theorem grows_length (h : HeapInv s segs) (hgrows : Grows (expandLength (roundSize size)) segs segs') :
    ∃ y ∈ segs', y.free = true ∧ y.length = grownLength s size := by
  have hlast : ∀ init x, segs = init ++ [x] → header s.mem s.cheap.lastSegment = x.header 0 (lastAddr 0 init) := by
    intro init x hsegs
    have hbottom := h.bottom 0
    have hchain := h.chain
    rw [hsegs, lastAddr_append] at hbottom
    rw [hsegs] at hchain
    rw [h.lastSegment, ← hbottom]
    exact (chain_append.mp hchain).2.1
  generalize hlen : expandLength (roundSize size) = len at hgrows
  cases hgrows with
  | @append init x hx =>
    have hx' := hlast init x rfl
    refine ⟨⟨x.addr - len, len - 48, true⟩, by simp, rfl, ?_⟩
    rw [grownLength, free_of_header hx', hlen]
    simp [Seg.header, hx]
  | @swallow init x hx =>
    have hx' := hlast init x rfl
    refine ⟨⟨x.addr - len, x.length + len - 48, true⟩, by simp, rfl, ?_⟩
    rw [grownLength, free_of_header hx', length_of_header hx', hlen]
    simp [Seg.header, hx]

/-- The request leaves the end of the heap in the window. -/
theorem malloc_within (h : HeapInv s segs) (hin : WithinHeap w s size)
    (hlow : w.heapStart ≤ s.cheap.heapEnd) (hm : Memory.malloc fuel s size = some (.ok (p, s'))) :
    w.heapStart ≤ s'.cheap.heapEnd := by
  obtain ⟨hs, hfinds | ⟨hone, hgrown⟩⟩ := hin
  · rw [(h.malloc_heapEnd_iff hs hm).mpr hfinds]
    exact hlow
  by_cases hsize : size = 0
  · rw [(h.malloc_heapEnd_iff hs hm).mpr (.inl hsize)]
    exact hlow
  obtain ⟨hround, hle, hs'⟩ := roundSize_spec hs
  have hagain := roundSize_roundSize hs
  have hpos' : 0 < roundSize size := by omega
  rcases h.malloc_cases hs (Nat.pos_of_ne_zero hsize) hm with
    ⟨x, hx, hfit, hal⟩ | ⟨k, t, -, -, hexp, hrest⟩
  · obtain ⟨segs', y, hserved⟩ := h.allocate hx hfit hround hal
    rw [hserved.heapEnd]
    exact hlow
  obtain ⟨segs₁, hexpanded⟩ := h.expand hs' hround hexp
  have hend := hexpanded.heapEnd
  have hcases := hexpanded.inv.malloc_cases hs' hpos' hrest
  rw [hagain] at hcases
  rcases hcases with ⟨x, hx, hfit, hal⟩ | ⟨k', u, -, hnone, hexp', hrest'⟩
  · obtain ⟨segs', y, hserved⟩ := hexpanded.inv.allocate hx hfit hround hal
    rw [hserved.heapEnd]
    omega
  -- the segment of the first expansion does not serve the request, so there is room for a second
  have htwo : w.heapStart + 2 * expandLength (roundSize size) ≤ s.cheap.heapEnd := by
    obtain ⟨y, hy, hyfree, hylen⟩ := h.grows_length hexpanded.grows
    have hyfit := hnone y hy
    unfold Seg.Fits at hyfit
    unfold sizeofHeader at hgrown
    rw [hylen] at hyfit
    rcases hgrown with hgrown | hgrown | hgrown
    · exact absurd ⟨hyfree, .inr hgrown⟩ hyfit
    · exact absurd ⟨hyfree, .inl hgrown⟩ hyfit
    · exact hgrown
  obtain ⟨segs₂, hexpanded'⟩ := hexpanded.inv.expand hs' hround hexp'
  have hend' := hexpanded'.heapEnd
  obtain ⟨-, hlen, -⟩ := expandLength_spec hs'
  obtain ⟨init, z, rfl, hfree, hlong⟩ := hexpanded.grows.last hlen
  have hfits := hexpanded'.grows.fits hfree hlong hexpanded.length
  have hfound : Finds u (roundSize size) := (hexpanded'.inv.finds_iff hs').mpr (.inr (by rwa [hagain]))
  rw [(hexpanded'.inv.malloc_heapEnd_iff hs' hrest').mpr hfound]
  omega

end HeapInv

/-! ## One step -/

theorem HeapStep.mono {ok ok' : Nat → Prop} {t t' : HeapConfig} (h : HeapStep ok t t')
    (hok : ∀ size, ok size → ok' size) : HeapStep ok' t t' := by
  cases h with
  | malloc hs h => exact .malloc (hok _ hs) h
  | free hb h => exact .free hb h
  | realloc hb hs h => exact .realloc hb (hok _ hs) h
  | reallocNull hs h => exact .reallocNull (hok _ hs) h
  | write h => exact .write h

/-- A step of the heap requests pages below the old end of the heap, inside its window. -/
theorem HeapStep.lowers {w : Windows} {t t' : HeapConfig} {segs : List Seg} (hinv : HeapInv t.1 segs)
    (hlow : w.heapStart ≤ t.1.cheap.heapEnd) (h : HeapStep (WithinHeap w t.1) t t') :
    Lowers t.1 t'.1 ∧ w.heapStart ≤ t'.1.cheap.heapEnd := by
  have hcall : ∀ {fuel size p} {u : HeapState}, WithinHeap w t.1 size →
      Memory.malloc fuel t.1 size = some (.ok (p, u)) → Lowers t.1 u ∧ w.heapStart ≤ u.cheap.heapEnd :=
    fun hin hm => ⟨hinv.malloc_lowers hin.1 hm, hinv.malloc_within hin hlow hm⟩
  cases h with
  | malloc hin hm => exact hcall hin hm
  | free _ hf =>
    have hfree := heapFree_same hf
    exact ⟨.of_same hfree, by rw [hfree.heapEnd]; exact hlow⟩
  | realloc _ hin hr =>
    obtain ⟨u, hm, ⟨-, rfl⟩ | ⟨-, -, old, -, hf⟩⟩ := realloc_eq hinv.ready hr
    · exact hcall hin hm
    · obtain ⟨hl, hu⟩ := hcall hin hm
      have hfree := heapFree_same hf
      refine ⟨hl.trans (Lowers.trans ?_ (.of_same hfree)), ?_⟩
      · exact .of_eq rfl rfl rfl rfl
      · rw [hfree.heapEnd]
        exact hu
  | reallocNull hin hr => exact hcall hin (realloc_null hinv.ready hr)
  | write _ => exact ⟨.of_eq rfl rfl rfl rfl, hlow⟩

/-! ## The invariant -/

/-- A stack lies above the next one and its own guard page, and is mapped. -/
structure StackHolds (s : HeapState) (r : Stack) : Prop where
  above : s.cheap.lastStack + 4096 ≤ r.base
  mapped : ∀ a, r.base ≤ a → a < r.base + r.bytes →
    ∃ perms, (a / PAGESIZE * PAGESIZE, perms) ∈ s.pages
  counted : r.mapped ≤ s.pages.length
  guard : r.base - PAGESIZE ∉ pagesSince s r.mapped

/-- The pages that are requested below the next stack leave the stack as it is. -/
theorem StackHolds.mono {s s' : HeapState} {r : Stack} {new : List (Nat × Nat)} (h : StackHolds s r)
    (hpages : s'.pages = new ++ s.pages) (hnew : ∀ q ∈ new, q.1 < s.cheap.lastStack)
    (hlast : s'.cheap.lastStack ≤ s.cheap.lastStack) : StackHolds s' r := by
  have habove := h.above
  refine ⟨by omega, fun a h1 h2 => ?_, ?_, ?_⟩
  · obtain ⟨perms, hmem⟩ := h.mapped a h1 h2
    exact ⟨perms, by rw [hpages]; exact List.mem_append_right _ hmem⟩
  · have := h.counted
    rw [hpages, List.length_append]
    omega
  · rw [pagesSince_append hpages h.counted]
    intro hmem
    rcases List.mem_append.mp hmem with hmem | hmem
    · obtain ⟨q, hq, hqa⟩ := List.mem_map.mp hmem
      have := hnew q hq
      unfold PAGESIZE at hqa
      omega
    · exact h.guard hmem

/-- The invariant of the runs. -/
structure ArenasHold (w : Windows) (c : Arenas) : Prop where
  holds : HeapHolds (c.heap, c.live)
  main : c.heap.cheap.mainSegment + 48 = w.heapEnd
  heapStart : w.heapStart ≤ c.heap.cheap.heapEnd
  heapPages : ∀ a ∈ c.heapPages, c.heap.cheap.heapEnd ≤ a ∧ a + PAGESIZE ≤ w.heapEnd
  stackStart : w.stackStart ≤ c.heap.cheap.lastStack + 4096
  stackEnd : c.heap.cheap.lastStack + 4096 ≤ w.stackEnd
  stackPage : c.heap.cheap.lastStack % 4096 = 0
  stackPages : ∀ a ∈ c.stackPages, w.stackStart ≤ a ∧ a + PAGESIZE ≤ w.stackEnd
  held : ∀ r ∈ c.held, StackHolds c.heap r
  heldApart : c.held.Pairwise fun r t => Apart r.base r.bytes t.base t.bytes

namespace ArenasHold

variable {w : Windows} {c : Arenas} {s' : HeapState}

theorem safe (h : ArenasHold w c) : ArenasSafe w c where
  heapPages a ha := by
    have hstart := h.heapStart
    obtain ⟨hlow, hhigh⟩ := h.heapPages a ha
    exact ⟨by omega, hhigh⟩
  stackPages a ha := by
    obtain ⟨hlow, hhigh⟩ := h.stackPages a ha
    refine ⟨hlow, hhigh, fun hmem => ?_⟩
    have hpage := (h.heapPages a hmem).2
    have hwindows := w.apart
    unfold PAGESIZE at hpage
    omega
  heldApart := h.heldApart
  mapped r hr := ⟨length_le_stackPageCount r.length, (h.held r hr).mapped⟩
  guard r hr := (h.held r hr).guard

/-- The heap is a page below the next stack. -/
theorem heapEnd_le (h : ArenasHold w c) : c.heap.cheap.heapEnd ≤ c.heap.cheap.lastStack := by
  obtain ⟨segs, hinv, -⟩ := h.holds
  have hgrown := hinv.grown
  have hpage := hinv.page
  have hmain := h.main
  have hstart := h.stackStart
  have hwindows := w.apart
  have haligned := w.heapPage
  simp only at hgrown hpage
  unfold PAGESIZE at haligned
  omega

theorem heap {live' : List (Nat × Nat)} (h : ArenasHold w c)
    (hstep : HeapStep (WithinHeap w c.heap) (c.heap, c.live) (s', live')) :
    ArenasHold w { c with
      heap := s'
      live := live'
      heapPages := pagesSince s' c.heap.pages.length ++ c.heapPages } := by
  have hbelow := h.heapEnd_le
  have hstart := h.heapStart
  obtain ⟨segs, hinv, -⟩ := id h.holds
  obtain ⟨hlowers, hstart'⟩ := hstep.lowers hinv hstart
  obtain ⟨new, hpages, hnew⟩ := hlowers.pages
  have hlast : s'.cheap.lastStack = c.heap.cheap.lastStack := hlowers.lastStack
  have hend : s'.cheap.heapEnd ≤ c.heap.cheap.heapEnd := hlowers.heapEnd
  have hmain : s'.cheap.mainSegment = c.heap.cheap.mainSegment := hlowers.mainSegment
  have hgrown := hinv.grown
  have hpage := hinv.page
  have hmain' := h.main
  simp only at hgrown hpage hpages hnew
  refine ⟨HeapHolds.step _ _ h.holds (hstep.mono fun _ hin => hin.1), ?_, hstart', fun a ha => ?_,
    ?_, ?_, ?_, h.stackPages, fun r hr => ?_, h.heldApart⟩
  · show s'.cheap.mainSegment + 48 = w.heapEnd
    rw [hmain]
    exact h.main
  · rw [pagesSince_new hpages] at ha
    show s'.cheap.heapEnd ≤ a ∧ _
    unfold PAGESIZE
    rcases List.mem_append.mp ha with ha | ha
    · obtain ⟨q, hq, rfl⟩ := List.mem_map.mp ha
      have hq' := hnew q hq
      omega
    · have hold := h.heapPages a ha
      unfold PAGESIZE at hold
      omega
  · show w.stackStart ≤ s'.cheap.lastStack + 4096
    rw [hlast]
    exact h.stackStart
  · show s'.cheap.lastStack + 4096 ≤ w.stackEnd
    rw [hlast]
    exact h.stackEnd
  · show s'.cheap.lastStack % 4096 = 0
    rw [hlast]
    exact h.stackPage
  · refine (h.held r hr).mono hpages (fun q hq => ?_) (Nat.le_of_eq hlast)
    have hq' := hnew q hq
    omega

theorem stackalloc {length base : Nat} (h : ArenasHold w c) (hin : WithinStack w c.heap length)
    (hcall : stackalloc c.heap length = .ok (base, s')) :
    ArenasHold w { c with
      heap := s'
      stackPages := pagesSince s' c.heap.pages.length ++ c.stackPages
      held := ⟨base, length, s'.pages.length⟩ :: c.held } := by
  have hstart := h.stackStart
  have hend := h.stackEnd
  have hpage := h.stackPage
  have hword := w.word
  have hnull := w.notNull
  have hapart := w.apart
  unfold WithinStack PAGESIZE at hin
  unfold PAGESIZE at hnull
  obtain ⟨perms, base', last, hlast, hbase, heq⟩ := @stackalloc_eq c.heap length (by omega) (by omega)
  rw [heq] at hcall
  obtain ⟨rfl, rfl⟩ := Prod.mk.inj (Except.ok.inj hcall)
  generalize hn : stackPageCount length = n at hin hbase
  have hnew : ∀ q ∈ (List.range n).map (fun i => (base' + 4096 * i, perms)),
      base' ≤ q.1 ∧ q.1 + 4096 ≤ c.heap.cheap.lastStack := by
    intro q hq
    obtain ⟨i, hi, rfl⟩ := List.mem_map.mp hq
    have := List.mem_range.mp hi
    show base' ≤ base' + 4096 * i ∧ base' + 4096 * i + 4096 ≤ _
    omega
  obtain ⟨segs, hinv, hlive⟩ := h.holds
  have hinv' : HeapInv { c.heap with
      cheap := { c.heap.cheap with lastStack := last }
      pages := (List.range n).map (fun i => (base' + 4096 * i, perms)) ++ c.heap.pages } segs := by
    refine ⟨hinv.ready, hinv.head, hinv.bottom, hinv.lastSegment, hinv.grown, hinv.chain, hinv.below,
      hinv.aligned, hinv.top, hinv.page, hinv.pos, fun a h1 h2 h3 => ?_⟩
    obtain ⟨p, hp⟩ := hinv.pages a h1 h2 h3
    exact ⟨p, List.mem_append_right _ hp⟩
  refine ⟨⟨segs, hinv', hlive⟩, h.main, h.heapStart, h.heapPages, ?_, ?_, ?_, fun a ha => ?_,
    fun r hr => ?_, ?_⟩
  · show w.stackStart ≤ last + 4096
    omega
  · show last + 4096 ≤ w.stackEnd
    omega
  · show last % 4096 = 0
    omega
  · rw [pagesSince_new rfl] at ha
    unfold PAGESIZE
    rcases List.mem_append.mp ha with ha | ha
    · obtain ⟨q, hq, rfl⟩ := List.mem_map.mp ha
      have := hnew q hq
      omega
    · have := h.stackPages a ha
      unfold PAGESIZE at this
      omega
  · rcases List.mem_cons.mp hr with rfl | hr
    · refine ⟨Nat.le_of_eq hlast, fun a h1 h2 => ⟨perms, List.mem_append_left _ ?_⟩, Nat.le_refl _,
        by simp [pagesSince]⟩
      change a < base' + stackPageCount length * PAGESIZE at h2
      unfold PAGESIZE at h2 ⊢
      change base' ≤ a at h1
      refine List.mem_map.mpr ⟨(a - base') / 4096, List.mem_range.mpr (by omega), ?_⟩
      rw [Prod.mk.injEq]
      exact ⟨by omega, rfl⟩
    · refine (h.held r hr).mono rfl (fun q hq => ?_) (by show last ≤ _; omega)
      have := hnew q hq
      omega
  · refine List.pairwise_cons.mpr ⟨fun r hr => ?_, h.heldApart⟩
    have := (h.held r hr).above
    refine .inl ?_
    show base' + stackPageCount length * PAGESIZE ≤ r.base
    unfold PAGESIZE
    omega

/-- The writes of the clients to their stacks miss the heap. -/
theorem write {m : Bytes} (h : ArenasHold w c)
    (hm : ∀ a, (∀ r ∈ c.held, ¬ (r.base ≤ a ∧ a < r.base + r.bytes)) → m a = c.heap.mem a) :
    ArenasHold w { c with heap := { c.heap with mem := m } } := by
  obtain ⟨segs, hinv, hlive⟩ := h.holds
  have hmain := h.main
  have hstart := h.stackStart
  have hapart := w.apart
  have hinv' : HeapInv { c.heap with mem := m } segs := by
    refine ⟨hinv.ready, hinv.head, hinv.bottom, hinv.lastSegment, hinv.grown,
      hinv.chain.congr fun x hx => ?_, hinv.below, hinv.aligned, hinv.top, hinv.page, hinv.pos, hinv.pages⟩
    refine header_congr fun a h1 h2 => hm a fun r hr hin => ?_
    have hx := hinv.top_le hx
    have habove := (h.held r hr).above
    unfold Seg.top at hx
    simp only at hx
    omega
  refine ⟨⟨segs, hinv', hlive⟩, hmain, h.heapStart, h.heapPages, hstart, h.stackEnd, h.stackPage,
    h.stackPages, fun r hr => ?_, h.heldApart⟩
  exact ⟨(h.held r hr).above, (h.held r hr).mapped, (h.held r hr).counted, (h.held r hr).guard⟩

/-- What one step preserves. -/
theorem step (c c' : Arenas) (h : ArenasHold w c)
    (hstep : ArenaStep (WithinHeap w) (WithinStack w) c c') : ArenasHold w c' := by
  cases hstep with
  | heap hcall => exact h.heap hcall
  | stackalloc _ hin hcall => exact h.stackalloc hin hcall
  | write hm => exact h.write hm

end ArenasHold

/-! ## Runs -/

theorem initHeap_lastStack {s₀ s : HeapState} {heapEnd stackEnd : Nat} {user : Bool}
    (h : initHeap s₀ heapEnd stackEnd user = s) : s.cheap.lastStack = sub64 stackEnd PAGESIZE := by
  subst h
  simp only [initHeap]

theorem initArenas_holds (w : Windows) (s : HeapState) (user : Bool) :
    ArenasHold w (initArenas w s user) := by
  have hheap := w.heap
  have hnull := w.notNull
  have hstack := w.stack
  have hpage := w.stackPage
  unfold PAGESIZE at hheap hnull hstack hpage
  have hlt : w.heapEnd < 18446744073709551616 := by
    have happart := w.apart
    have hword := w.word
    omega
  obtain ⟨t, ht⟩ : ∃ t, initHeap s w.heapEnd w.stackEnd user = t := ⟨_, rfl⟩
  have hinv := initHeap_inv w.heapPage w.notNull hlt ht
  have hlast := initHeap_lastStack ht
  rw [sub64_of_le (by unfold PAGESIZE; omega) w.word] at hlast
  have hmain : w.heapEnd - 48 = t.cheap.mainSegment := congrArg Seg.addr (Option.some.inj hinv.head)
  have hend : w.heapEnd - PAGESIZE = t.cheap.heapEnd := by
    have hbottom := hinv.bottom 0
    rw [lastAddr_cons, lastAddr_cons, lastAddr_nil] at hbottom
    exact hbottom
  have hholds : HeapHolds (t, []) := by
    rw [← ht]
    exact .reached w.heapPage w.notNull hlt .refl
  unfold initArenas
  rw [ht, hend, ← hlast]
  unfold PAGESIZE at hlast hend
  refine ⟨hholds, ?_, ?_, fun a ha => ?_, ?_, ?_, ?_, fun a ha => ?_, ?_, List.Pairwise.nil⟩
  · show t.cheap.mainSegment + 48 = w.heapEnd
    omega
  · show w.heapStart ≤ t.cheap.heapEnd
    omega
  · rw [List.mem_singleton.mp ha]
    unfold PAGESIZE
    exact ⟨Nat.le_refl _, by omega⟩
  · show w.stackStart ≤ t.cheap.lastStack + 4096
    omega
  · show t.cheap.lastStack + 4096 ≤ w.stackEnd
    omega
  · show t.cheap.lastStack % 4096 = 0
    omega
  · rw [List.mem_singleton.mp ha]
    unfold PAGESIZE
    omega
  · intro r hr
    cases hr

/-- In every run whose calls find room in the windows, each arena stays inside its own,
the stacks are apart and mapped, and no later call maps the page below one. -/
theorem arenas_safe {w : Windows} {s : HeapState} {user : Bool} {c : Arenas}
    (hrun : Reaches (ArenaStep (WithinHeap w) (WithinStack w)) (initArenas w s user) c) :
    ArenasSafe w c :=
  (invariant (ArenasHold w) ArenasHold.step (initArenas_holds w s user) hrun).safe

/-- The windows of `init_heap`. -/
def kernelWindows : Windows where
  heapStart := 0xffffffff60000000
  heapEnd := 0xffffffff6ffff000
  stackStart := 0xffffffff70000000
  stackEnd := 0xffffffff7ffff000
  heapPage := by decide
  stackPage := by decide
  notNull := by decide
  heap := by decide
  apart := by decide
  stack := by decide
  word := by decide

/-- The kernel heap of `init_heap` with its two windows, in a memory of zeros. -/
def kernelArenas : Arenas :=
  initArenas kernelWindows ⟨⟨0, 0, 0, 0, 0, 0, 0, false, false⟩, fun _ => 0, []⟩ false

theorem kernelArenas_lastStack : kernelArenas.heap.cheap.lastStack = 0xffffffff7fffe000 := by
  rw [kernelArenas, initArenas, initHeap_lastStack rfl]
  decide

/-- The arenas after the first stack of the kernel heap. -/
def kernelStack (length base : Nat) (s' : HeapState) : Arenas :=
  { kernelArenas with
    heap := s'
    stackPages := pagesSince s' kernelArenas.heap.pages.length ++ kernelArenas.stackPages
    held := [⟨base, length, s'.pages.length⟩] }

theorem arenas_safe_kernelArenas : ∃ base s', stackalloc kernelArenas.heap 4096 = .ok (base, s') ∧
    ArenasSafe kernelWindows (kernelStack 4096 base s') := by
  have hcount : stackPageCount 4096 = 1 := by decide
  have hlast := kernelArenas_lastStack
  obtain ⟨perms, base, last, -, -, hcall⟩ := @stackalloc_eq kernelArenas.heap 4096
    (by rw [hcount, hlast]; decide) (by rw [hlast]; decide)
  have hroom : WithinStack kernelWindows kernelArenas.heap 4096 := by
    rw [WithinStack, hcount, hlast]
    decide
  exact ⟨base, _, hcall, arenas_safe (.single (.stackalloc (by decide) hroom hcall))⟩

/-- A stack of 256 MiB in the kernel heap takes the page of the heap. -/
theorem not_arenas_safe : ¬ ∀ (w : Windows) (s : HeapState) (user : Bool) (c : Arenas),
    Reaches (ArenaStep (fun _ _ => True) fun _ _ => True) (initArenas w s user) c →
    ArenasSafe w c := by
  intro hall
  have hcount : stackPageCount 0x10000000 = 65536 := by decide
  have hlast := kernelArenas_lastStack
  obtain ⟨perms, base, last, -, hbase, hcall⟩ := @stackalloc_eq kernelArenas.heap 0x10000000
    (by rw [hcount, hlast]; decide) (by rw [hlast]; decide)
  rw [hcount, hlast] at hbase
  generalize hn : stackPageCount 0x10000000 = n at hcall
  have hsafe := hall kernelWindows _ false _ (.single (.stackalloc (by decide) trivial hcall))
  have hmem : base ∈ pagesSince { kernelArenas.heap with
      cheap := { kernelArenas.heap.cheap with lastStack := last }
      pages := (List.range n).map (fun i => (base + 4096 * i, perms)) ++ kernelArenas.heap.pages }
      kernelArenas.heap.pages.length := by
    rw [pagesSince_new rfl]
    refine List.mem_map.mpr ⟨(base, perms), List.mem_map.mpr ⟨0, List.mem_range.mpr ?_, rfl⟩, rfl⟩
    omega
  obtain ⟨hlow, -⟩ := hsafe.stackPages base (List.mem_append_left _ hmem)
  change 0xffffffff70000000 ≤ base at hlow
  omega

end UnedKernel.Memory
