import UnedKernel.Memory.HeapRuns
import UnedKernel.Memory.UserHeap

/-! # Safety of user heaps

What the calls on one user heap do to the page tables and to physical memory,
as long as the heap does not grow: `expand_heap` leaves the directory of the
task behind. -/

namespace UnedKernel.Memory
open ByteMem Word Run

/-! ## Requesting pages -/

/-- The next `n` pages are outside the trees of the directories, and no user page
of them is mapped there. -/
structure Supply (s : PagingState) (D : Nat → Prop) (n : Nat) : Prop where
  fresh : FreshFor s D n
  unmapped : ∀ j, j < n → ∀ d, D d → ∀ k, UserPage k → ∀ x, mappingOf s.mem d k = some x →
    x.frame ≠ s.frame (s.next + j)

theorem Supply.mono {s : PagingState} {D : Nat → Prop} {n k : Nat} (h : Supply s D n)
    (hk : k ≤ n) : Supply s D k :=
  ⟨h.fresh.mono hk, fun j hj => h.unmapped j (by omega)⟩

theorem mappingOf_frame_lt {t : Frames} {d n : Nat} {x : Mapping} (h : mappingOf t d n = some x) :
    x.frame < 268435456 := by
  obtain ⟨pt, -, -, rfl⟩ := mappingOf_some h
  exact BitField.field_lt _ 12 28

theorem virtualToPhysical_of_mapped {t : Frames} {d v : Nat} {x : Mapping}
    (h : mappingOf t d (pageNumber v) = some x) : virtualToPhysical t d v = x.frame <<< 12 := by
  rw [virtualToPhysical_eq, h]
  rfl

section requests

variable {s t : PagingState} {D : Nat → Prop} {d e v perms k : Nat}

/-- Mapping a frame that is mapped already uses up three pages at most. -/
theorem Supply.map {n frame : Nat} (h : Supply s D (k + 3))
    (hmap : Spaces.Mapped s t D d n frame perms)
    (hframe : ∀ j, j < k + 3 → frame ≠ s.frame (s.next + j)) : Supply t D k := by
  refine ⟨hmap.fresh k h.fresh, fun j hj e he i hi x hx => ?_⟩
  have hle := hmap.le
  have hbound := hmap.bound
  rw [PagingState.frame_congr hmap.supply,
    show t.next + j = s.next + (t.next - s.next + j) by omega]
  unfold UserPage at hi
  rw [hmap.mapping e he i (by omega)] at hx
  split at hx
  · cases hx
    exact hframe _ (by omega)
  · exact h.unmapped _ (by omega) e he i hi x hx

/-- Mapping a page of the kernel half uses up three pages at most. -/
theorem Supply.mapIn {n frame : Nat} (h : Supply s D (k + 3))
    (hmap : Spaces.MappedIn s t D d n frame perms) (hn : ¬ UserPage n) : Supply t D k := by
  refine ⟨hmap.fresh k h.fresh, fun j hj e he i hi x hx => ?_⟩
  have hle := hmap.le
  have hbound := hmap.bound
  have hlt : i < 68719476736 := by
    unfold UserPage at hi
    omega
  rw [PagingState.frame_congr hmap.supply,
    show t.next + j = s.next + (t.next - s.next + j) by omega]
  rw [hmap.old e he i hlt fun hin => absurd (hin ▸ hi) hn] at hx
  exact h.unmapped _ (by omega) e he i hi x hx

/-- The pages after those of a new directory. -/
theorem Supply.duplicate {father pml : Nat} (h : Supply s D (duplicatePages + k))
    (hadd : Spaces.DirectoryAdded s t D father pml) : Supply t (fun e => D e ∨ e = pml) k := by
  refine ⟨hadd.fresh k h.fresh, fun j hj e he i hi x hx => ?_⟩
  have hle := hadd.le
  have hbound := hadd.bound
  rw [PagingState.frame_congr hadd.supply,
    show t.next + j = s.next + (t.next - s.next + j) by omega]
  rcases he with he | rfl
  · rw [mappingOf_agree (hadd.same e he)] at hx
    exact h.unmapped _ (by omega) e he i hi x hx
  · -- the user half of the new directory is empty
    obtain ⟨pt, hw, -⟩ := mappingOf_some hx
    have hindex : i / 134217728 % 512 < 256 := by
      unfold UserPage at hi
      omega
    rw [walk_path, hadd.zero _ hindex, Entry.zero_child] at hw
    cases hw

/-- What `request_current_page_at` does on a page of the user half. -/
structure Requested (s t : PagingState) (D : Nat → Prop) (d n perms : Nat) : Prop where
  spaces : Spaces t.mem D
  supply : t.supply = s.supply
  lt : s.next < t.next
  bound : t.next ≤ s.next + 4
  same : ∀ e, D e → d ≠ e → Radix.AgreeOn Entry.child s.mem t.mem e 3
  mapping : ∀ e, D e → ∀ k, k < 68719476736 → mappingOf t.mem e k =
    if e = d ∧ k = n then some ⟨s.frame s.next, perms⟩ else mappingOf s.mem e k
  kernel : Spaces.KernelSame D s.mem t.mem

theorem FreshFor.request (h : FreshFor s D (k + 1)) : FreshFor { s with next := s.next + 1 } D k :=
  fun e he => (h e he).mono (Nat.le_of_eq (Nat.add_comm 1 k)) |>.advance (k := 1) rfl rfl
    fun _ _ => rfl

theorem Supply.request (h : Supply s D (k + 1)) : Supply { s with next := s.next + 1 } D k :=
  ⟨h.fresh.request, fun j hj e he i hi x hx => by
    have := h.unmapped (1 + j) (by omega) e he i hi x hx
    rwa [← Nat.add_assoc] at this⟩

/-- `request_current_page_at` maps the next page. -/
theorem requestCurrentPageAt_in (h : Spaces s.mem D) (hd : D d) (hfresh : FreshFor s D 4)
    (ht : requestCurrentPageAt s d v perms = .ok t) :
    mapMemoryHh { s with next := s.next + 1 } d v (s.supply s.next) perms = .ok t ∧
      Spaces.MappedIn { s with next := s.next + 1 } t D d (pageNumber v) (s.frame s.next)
        (perms % 16) := by
  have hp := (hfresh d hd).aligned 0 (by omega)
  have hsmall := (hfresh d hd).small 0 (by omega)
  rw [Nat.add_zero] at hp hsmall
  rw [requestCurrentPageAt] at ht
  split at ht
  · cases ht
  obtain ⟨-, -, -, -, -, -, -, -, hv, -⟩ := mapMemoryHh_inv ht
  obtain ⟨t', ht', hmap⟩ := Spaces.mapIn (s := { s with next := s.next + 1 }) perms h hd
    (FreshFor.request (k := 3) hfresh) hv hp hsmall
  rw [ht] at ht'
  obtain rfl := Except.ok.inj ht'
  exact ⟨ht, hmap⟩

theorem requestCurrentPageAt_spec (h : Spaces s.mem D) (hd : D d) (hsupply : Supply s D (k + 4))
    (huser : UserPage (pageNumber v)) (ht : requestCurrentPageAt s d v perms = .ok t) :
    Requested s t D d (pageNumber v) (perms % 16) ∧ Supply t D k := by
  obtain ⟨-, hin⟩ := requestCurrentPageAt_in h hd (hsupply.fresh.mono (by omega)) ht
  have hmap := hin.mapped (s := { s with next := s.next + 1 }) h hd huser
  have hle := hmap.le
  have hbound := hmap.bound
  refine ⟨⟨hmap.spaces, hmap.supply, hle, hbound, hmap.same, hmap.mapping, hmap.kernel⟩,
    (Supply.request (k := k + 3) hsupply).map hmap fun j hj => ?_⟩
  have hne := (hsupply.fresh d hd).frame_ne (j := 0) (k := 1 + j) (by omega) (by omega)
  rw [← Nat.add_assoc] at hne
  exact hne.symm

/-- What `map_memory` of a page of the current directory into another one does. -/
theorem mapAlso_spec {current : Nat} {x : Mapping} (h : Spaces s.mem D) (hc : D current)
    (hd : D d) (hne : current ≠ d) (hsupply : Supply s D (k + 3)) (hv : v % PAGESIZE = 0)
    (huser : UserPage (pageNumber v)) (hx : mappingOf s.mem current (pageNumber v) = some x)
    (ht : mapAlso s current d v perms = .ok t) :
    Spaces.Mapped s t D d (pageNumber v) x.frame (perms % 16) ∧ Supply t D k ∧
      (UserOpen s.mem d → UserOpen t.mem d) := by
  have hlt := mappingOf_frame_lt hx
  have hshift : x.frame <<< 12 = x.frame * 4096 := Nat.shiftLeft_eq _ _
  have hback : x.frame <<< 12 >>> 12 = x.frame := by
    rw [hshift, Nat.shiftRight_eq_div_pow]
    omega
  rw [mapAlso, if_pos hne, virtualToPhysical_of_mapped hx] at ht
  obtain ⟨t', ht', hmap⟩ := h.map (p := x.frame <<< 12) perms hd
    (hsupply.fresh.mono (by omega)) hv (by rw [hshift]; unfold PAGESIZE; omega)
    (by rw [hshift]; omega) huser
  rw [ht] at ht'
  obtain rfl := Except.ok.inj ht'
  rw [hback] at hmap
  refine ⟨hmap, hsupply.map hmap fun j hj => hsupply.unmapped j hj current hc _ huser x hx, ?_⟩
  exact fun hopen => mapMemoryHh_open hopen (h.wellFormed d hd)
    ((hsupply.fresh d hd).mono (by omega)) ht

end requests

/-! ## Heaps that show the same bytes -/

theorem HeapInv.transfer {s s' : HeapState} {segs : List Seg} (h : HeapInv s segs)
    (hready : s'.cheap.ready = s.cheap.ready)
    (hmain : s'.cheap.mainSegment = s.cheap.mainSegment)
    (hend : s'.cheap.heapEnd = s.cheap.heapEnd)
    (hls : s'.cheap.lastSegment = s.cheap.lastSegment) (hpages : ∀ p ∈ s.pages, p ∈ s'.pages)
    (hmem : ∀ p ∈ s.pages, ∀ o, o < PAGESIZE → s'.mem (p.1 + o) = s.mem (p.1 + o)) :
    HeapInv s' segs := by
  refine ⟨by rw [hready]; exact h.ready, by rw [hmain]; exact h.head, by rw [hend]; exact h.bottom,
    by rw [hls, hend]; exact h.lastSegment, by rw [hend, hmain]; exact h.grown,
    h.chain.congr fun x hx => ?_, h.below, h.aligned, by rw [hmain]; exact h.top,
    by rw [hend]; exact h.page, by rw [hend]; exact h.pos, fun a ha h1 h2 => ?_⟩
  · refine header_congr fun a ha ha' => ?_
    have hlow := h.le_addr hx
    have htop := h.top_le hx
    have hpage := h.page
    unfold Seg.top at htop
    obtain ⟨perms, hp⟩ := h.pages (a / 4096 * 4096) (by omega) (by omega) (by omega)
    have hbyte := hmem _ hp (a % 4096) (by unfold PAGESIZE; omega)
    rwa [show a / 4096 * 4096 + a % 4096 = a by omega] at hbyte
  · rw [hend] at h1
    rw [hmain] at h2
    obtain ⟨perms, hp⟩ := h.pages a ha h1 h2
    exact ⟨perms, hpages _ hp⟩

theorem HeapHolds.transfer {s s' : HeapState} {live : List (Nat × Nat)} (h : HeapHolds (s, live))
    (hcheap : s'.cheap = s.cheap) (hpages : s'.pages = s.pages)
    (hmem : ∀ p ∈ s.pages, ∀ o, o < PAGESIZE → s'.mem (p.1 + o) = s.mem (p.1 + o)) :
    HeapHolds (s', live) := by
  obtain ⟨segs, hinv, hlive, hnodup⟩ := h
  exact ⟨segs, hinv.transfer (by rw [hcheap]) (by rw [hcheap]) (by rw [hcheap]) (by rw [hcheap])
    (fun p hp => hpages ▸ hp) hmem, hlive, hnodup⟩

/-! ## Heaps through directories -/

/-- The pages of a heap are mapped through a directory, each to a frame of its own. -/
structure Owned (t : Frames) (d : Nat) (h : TaskHeap) : Prop where
  page : ∀ p ∈ h.pages, p.1 % PAGESIZE = 0 ∧ p.1 < USERLAND_END ∧
    ∃ f, mappingOf t d (pageNumber p.1) = some ⟨f, 3⟩
  distinct : ∀ p ∈ h.pages, ∀ q ∈ h.pages,
    virtualToPhysical t d p.1 = virtualToPhysical t d q.1 → p.1 = q.1

/-- Two directories map the pages of a heap to the same frames. -/
def SameFrames (t : Frames) (d e : Nat) (h : TaskHeap) : Prop :=
  ∀ p ∈ h.pages, mappingOf t d (pageNumber p.1) = mappingOf t e (pageNumber p.1)

section through

variable {t : Frames} {m : Machine} {d e : Nat} {h : TaskHeap}

theorem SameFrames.physical (hs : SameFrames t d e h) {p : Nat × Nat} (hp : p ∈ h.pages) :
    virtualToPhysical t d p.1 = virtualToPhysical t e p.1 := by
  rw [virtualToPhysical_eq, virtualToPhysical_eq, hs p hp]

theorem Owned.congr (ho : Owned t d h) (hs : SameFrames t d e h) : Owned t e h := by
  refine ⟨fun p hp => ?_, fun p hp q hq heq => ho.distinct p hp q hq ?_⟩
  · rw [← hs p hp]
    exact ho.page p hp
  · rw [hs.physical hp, hs.physical hq]
    exact heq

theorem Owned.of_pages {h' : TaskHeap} (ho : Owned t d h) (hpages : h'.pages = h.pages) :
    Owned t d h' := by
  refine ⟨?_, ?_⟩
  · rw [hpages]
    exact ho.page
  · rw [hpages]
    exact ho.distinct

theorem SameFrames.of_pages {h' : TaskHeap} (hs : SameFrames t d e h) (hpages : h'.pages = h.pages) :
    SameFrames t d e h' := by
  rw [SameFrames, hpages]
  exact hs

/-- Through directories with the same frames a heap shows the same bytes. -/
theorem view_sameFrames (ho : Owned m.paging.mem d h) (hs : SameFrames m.paging.mem d e h)
    {p : Nat × Nat} (hp : p ∈ h.pages) {o : Nat} (hlt : o < PAGESIZE) :
    m.view e (p.1 + o) = m.view d (p.1 + o) := by
  obtain ⟨hpage, -, -⟩ := ho.page p hp
  rw [Machine.view_add hpage hlt, Machine.view_add hpage hlt, hs.physical hp]

theorem heapHolds_sameFrames {live : List (Nat × Nat)} (ho : Owned m.paging.mem d h)
    (hs : SameFrames m.paging.mem d e h) (hh : HeapHolds (m.enter d h, live)) :
    HeapHolds (m.enter e h, live) :=
  hh.transfer rfl rfl fun _ hp _ hlt => view_sameFrames ho hs hp hlt

end through

/-! ## Calls on one heap -/

/-- What a call leaves that requests no page: the tables and the pages of the heap stay,
its segments are in order, and no byte of another page changes. -/
structure HeapCall (m : Machine) (current : Nat) (h : TaskHeap) (live : List (Nat × Nat))
    (m' : Machine) (h' : TaskHeap) : Prop where
  paging : m'.paging = m.paging
  pages : h'.pages = h.pages
  lastStack : h'.cheap.lastStack = h.cheap.lastStack
  isKernel : h'.cheap.isKernel = h.cheap.isKernel
  holds : HeapHolds (m'.enter current h', live)
  other : ∀ e v o, v % PAGESIZE = 0 → o < PAGESIZE →
    (∀ p ∈ h.pages, virtualToPhysical m.paging.mem current p.1 ≠
      virtualToPhysical m.paging.mem e v) → m'.view e (v + o) = m.view e (v + o)

/-- The search of `_malloc` does not end at the end of the list: no page is requested. -/
def NoExpansion (m : Machine) (current : Nat) (h : TaskHeap) (size : Nat) : Prop :=
  ∀ fuel, findSegment (m.view current) (roundSize size) fuel h.cheap.mainSegment ≠ some (.ok none)

namespace HeapCall

variable {m m' m'' : Machine} {current : Nat} {h h' h'' : TaskHeap} {live live' : List (Nat × Nat)}

theorem refl (hh : HeapHolds (m.enter current h, live)) : HeapCall m current h live m h :=
  ⟨rfl, rfl, rfl, rfl, hh, fun _ _ _ _ _ _ => rfl⟩

theorem trans (hc : HeapCall m current h live m' h') (hc' : HeapCall m' current h' live' m'' h'') :
    HeapCall m current h live' m'' h'' := by
  refine ⟨hc'.paging.trans hc.paging, hc'.pages.trans hc.pages, hc'.lastStack.trans hc.lastStack,
    hc'.isKernel.trans hc.isKernel, hc'.holds, fun e v o hv hlt hne => ?_⟩
  rw [hc'.other e v o hv hlt ?_, hc.other e v o hv hlt hne]
  rw [hc.pages, hc.paging]
  exact hne

/-- The functions of `heap.c` ran on the heap as the directory shows it. -/
theorem leave {s : HeapState} (ho : Owned m.paging.mem current h) (hpages : s.pages = h.pages)
    (hstack : s.cheap.lastStack = h.cheap.lastStack) (hkernel : s.cheap.isKernel = h.cheap.isKernel)
    (hh : HeapHolds (s, live)) :
    HeapCall m current h live (m.leave current s).2 (m.leave current s).1 := by
  refine ⟨rfl, hpages, hstack, hkernel, hh.transfer rfl rfl fun p hp o hlt => ?_,
    fun e v o hv hlt hne => Machine.view_leave_out hv hlt ?_⟩
  · refine Machine.view_leave_in (ho.page p (hpages ▸ hp)).1 hlt hp rfl fun q hq heq => ?_
    rw [hpages] at hp hq
    exact ho.distinct q hq p hp heq
  · rw [hpages]
    exact hne

theorem malloc {pml4 fuel size p : Nat} (ho : Owned m.paging.mem current h)
    (hh : HeapHolds (m.enter current h, live)) (hs : NoOverflow size)
    (hno : NoExpansion m current h size)
    (hr : Machine.malloc current pml4 fuel m h size = some (.ok (p, h', m'))) :
    HeapCall m current h (if p = 0 then live else (p, size) :: live) m' h' := by
  have hready : (m.enter current h).cheap.ready = true := by
    obtain ⟨segs, hinv, -⟩ := hh
    exact hinv.ready
  cases fuel with
  | zero => cases hr
  | succ fuel =>
    rw [Machine.malloc, if_neg (by rw [show h.cheap.ready = true from hready]; decide)] at hr
    by_cases hzero : size = 0
    · rw [if_pos hzero] at hr
      cases hr
      rw [if_pos rfl]
      exact refl hh
    rw [if_neg hzero] at hr
    have hfuel := hno fuel
    cases hfind : findSegment (m.view current) (roundSize size) fuel h.cheap.mainSegment with
    | none => rw [hfind] at hr; cases hr
    | some out =>
      rw [hfind] at hr hfuel
      cases out with
      | error e => cases hr
      | ok found =>
        cases found with
        | none => exact absurd rfl hfuel
        | some segment =>
          dsimp only at hr
          cases halloc : allocateIn (m.enter current h) segment (roundSize size) with
          | error e => rw [halloc] at hr; cases hr
          | ok r =>
            rw [halloc] at hr
            simp only [Except.map, Option.some.injEq, Except.ok.injEq, Prod.mk.injEq] at hr
            obtain ⟨hp, hleave⟩ := hr
            -- the same call on the heap that the directory shows
            have hcall : Memory.malloc (fuel + 1) (m.enter current h) size = some (.ok r) := by
              rw [Memory.malloc, if_neg (by rw [hready]; decide), if_neg hzero,
                show (m.enter current h).mem = m.view current from rfl,
                show (m.enter current h).cheap = h.cheap from rfl, hfind]
              simp only [halloc]
            obtain ⟨hpages, hstack, hkernel, -, -⟩ := allocateIn_same halloc
            have hholds := hh.malloc hs hcall
            rw [hp] at hholds
            obtain ⟨rfl, rfl⟩ := Prod.mk.inj hleave
            exact leave ho hpages hstack hkernel hholds

theorem free {b : Nat × Nat} (ho : Owned m.paging.mem current h)
    (hh : HeapHolds (m.enter current h, live)) (hb : b ∈ live)
    (hr : m.free current h b.1 = .ok (h', m')) : HeapCall m current h (live.erase b) m' h' := by
  rw [Machine.free] at hr
  cases hf : heapFree (m.enter current h) b.1 with
  | error e => rw [hf] at hr; cases hr
  | ok s =>
    rw [hf] at hr
    obtain ⟨rfl, rfl⟩ := Prod.mk.inj (Except.ok.inj hr)
    obtain ⟨hpages, hstack, hkernel, -, -⟩ := heapFree_same hf
    exact leave ho hpages hstack hkernel (hh.free hb hf)

/-- The end of `_realloc`, when the new block and the old one are held. -/
theorem moveBlock {b : Nat × Nat} {p size : Nat} (ho : Owned m.paging.mem current h)
    (hh : HeapHolds (m.enter current h, (p, size) :: live)) (hb : b ∈ live)
    (hr : m.moveBlock current h b.1 p size = .ok (h', m')) :
    HeapCall m current h ((p, size) :: live.erase b) m' h' := by
  rw [Machine.moveBlock] at hr
  generalize hold : (if size < Segment.length.get (m.enter current h).mem (getHeapSegmentHeader b.1)
    then size else Segment.length.get (m.enter current h).mem (getHeapSegmentHeader b.1)) = old at hr
  have hle : old ≤ size := by
    rw [← hold]
    split <;> omega
  -- the copy stays inside the new block
  have hlen : size ≤ blockLength (m.enter current h) p := by
    obtain ⟨segs, hinv, hlive, -⟩ := hh
    obtain ⟨x, hx, -, haddr, hpos, hxl⟩ := hlive (p, size) (List.mem_cons_self ..)
    simp only at haddr hpos hxl
    rw [haddr, hinv.blockLength_eq hx (by omega)]
    exact hxl
  have hcopy := hh.write (m := copy (m.enter current h).mem p (m.enter current h).mem b.1 old)
    fun a ha => copy_apply_out _ _ (by
      have := ha (p, size) (List.mem_cons_self ..)
      simp only at this
      omega)
  cases hf : heapFree { (m.enter current h) with
      mem := copy (m.enter current h).mem p (m.enter current h).mem b.1 old } b.1 with
  | error e => rw [hf] at hr; cases hr
  | ok s =>
    rw [hf] at hr
    obtain ⟨rfl, rfl⟩ := Prod.mk.inj (Except.ok.inj hr)
    obtain ⟨hpages, hstack, hkernel, -, -⟩ := heapFree_same hf
    have hfree := hcopy.free (List.mem_cons_of_mem _ hb) hf
    have hne : (p, size) ≠ b := by
      rintro rfl
      obtain ⟨-, -, -, hnodup⟩ := hh
      exact (List.nodup_cons.mp hnodup).1 (List.mem_map_of_mem hb)
    rw [List.erase_cons_tail (by simpa using hne)] at hfree
    exact leave ho hpages hstack hkernel hfree

theorem realloc {b : Nat × Nat} {pml4 fuel size p : Nat} (ho : Owned m.paging.mem current h)
    (hh : HeapHolds (m.enter current h, live)) (hb : b ∈ live) (hs : NoOverflow size)
    (hno : NoExpansion m current h size)
    (hr : Machine.realloc current pml4 fuel m h b.1 size = some (.ok (p, h', m'))) :
    HeapCall m current h (if p = 0 then live else (p, size) :: live.erase b) m' h' := by
  have hready : h.cheap.ready = true := by
    obtain ⟨segs, hinv, -⟩ := hh
    exact hinv.ready
  have hb0 : b.1 ≠ 0 := by
    obtain ⟨segs, hinv, hlive, -⟩ := hh
    obtain ⟨x, -, -, haddr, -⟩ := hlive b hb
    omega
  rw [Machine.realloc, if_neg (by rw [hready]; decide)] at hr
  cases hm : Machine.malloc current pml4 fuel m h size with
  | none => rw [hm] at hr; cases hr
  | some out =>
    rw [hm] at hr
    cases out with
    | error e => cases hr
    | ok r =>
      obtain ⟨q, h₁, m₁⟩ := r
      have hcall := malloc ho hh hs hno hm
      simp only [Option.map_some, Except.bind] at hr
      by_cases hq : q = 0
      · rw [if_pos hq] at hr hcall
        cases hr
        rw [if_pos rfl]
        exact hcall
      rw [if_neg hq, if_neg hb0] at hr
      rw [if_neg hq] at hcall
      cases hmove : m₁.moveBlock current h₁ b.1 q size with
      | error e => rw [hmove] at hr; cases hr
      | ok r =>
        rw [hmove] at hr
        simp only [Except.map, Option.some.injEq, Except.ok.injEq, Prod.mk.injEq] at hr
        obtain ⟨rfl, hpair⟩ := hr
        obtain rfl : r = (h', m') := hpair
        rw [if_neg hq]
        refine hcall.trans (moveBlock ?_ hcall.holds hb hmove)
        rw [hcall.paging]
        exact ho.of_pages hcall.pages

/-- `_realloc` of no buffer is `_malloc`. -/
theorem realloc_null {pml4 fuel size : Nat} {r : Nat × TaskHeap × Machine}
    (hready : h.cheap.ready = true)
    (hr : Machine.realloc current pml4 fuel m h 0 size = some (.ok r)) :
    (∃ r', Machine.malloc current pml4 fuel m h size = some (.ok r') ∧ r' = r) ∨
      ∃ h₁ m₁, Machine.malloc current pml4 fuel m h size = some (.ok (0, h₁, m₁)) ∧
        r = (0, h₁, m₁) := by
  rw [Machine.realloc, if_neg (by rw [hready]; decide)] at hr
  cases hm : Machine.malloc current pml4 fuel m h size with
  | none => rw [hm] at hr; cases hr
  | some out =>
    rw [hm] at hr
    cases out with
    | error e => cases hr
    | ok r' =>
      obtain ⟨q, h₁, m₁⟩ := r'
      simp only [Option.map_some, Except.bind, if_pos] at hr
      split at hr
      · rename_i hq
        cases hr
        exact .inr ⟨h₁, m₁, by rw [hq], rfl⟩
      · cases hr
        exact .inl ⟨_, rfl, rfl⟩

end HeapCall
end UnedKernel.Memory
