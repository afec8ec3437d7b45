import UnedKernel.Memory.UserHeapSafety

/-! # The pages of user heaps

`create_user_heap` and `_stackalloc` map each page in the current directory and
in that of the task, to one new frame. -/

namespace UnedKernel.Memory
open ByteMem Word Run

/-- The page where every user heap starts. -/
abbrev USER_HEAP_PAGE : Nat := 0x00007fff6fffe000

/-- The page where every user stack starts. -/
abbrev USER_STACK_PAGE : Nat := 0x00007fff7fffe000

theorem userHeapPage_user : UserPage (pageNumber USER_HEAP_PAGE) := by
  unfold UserPage
  decide

theorem userStackPage_user : UserPage (pageNumber USER_STACK_PAGE) := by
  unfold UserPage
  decide

/-- What `create_user_heap` does: two new frames, mapped in both directories. -/
structure Created (m m' : Machine) (D : Nat → Prop) (current pd : Nat) (h : TaskHeap)
    (f g : Nat) : Prop where
  spaces : Spaces m'.paging.mem D
  agree : ∀ e, D e → e ≠ current → e ≠ pd →
    Radix.AgreeOn Entry.child m.paging.mem m'.paging.mem e 3
  kernel : Spaces.KernelSame D m.paging.mem m'.paging.mem
  supply : m'.paging.supply = m.paging.supply
  le : m.paging.next ≤ m'.paging.next
  userOpen : UserOpen m.paging.mem pd → UserOpen m'.paging.mem pd
  ne : f ≠ g
  new : ∀ e, D e → ∀ k, UserPage k → ∀ x, mappingOf m.paging.mem e k = some x →
    x.frame ≠ f ∧ x.frame ≠ g
  mapping : ∀ e, D e → ∀ k, k < 68719476736 → mappingOf m'.paging.mem e k =
    if (e = current ∨ e = pd) ∧ k = pageNumber USER_HEAP_PAGE then some ⟨f, 3⟩
    else if (e = current ∨ e = pd) ∧ k = pageNumber USER_STACK_PAGE then some ⟨g, 3⟩
    else mappingOf m.paging.mem e k
  pages : h.pages = [(USER_STACK_PAGE, 3), (USER_HEAP_PAGE, 3)]
  lastStack : h.cheap.lastStack = USER_STACK_PAGE
  isKernel : h.cheap.isKernel = false
  holds : HeapHolds (m'.enter current h, [])
  other : ∀ e v o, v % PAGESIZE = 0 → o < PAGESIZE →
    (∀ p ∈ h.pages, virtualToPhysical m'.paging.mem current p.1 ≠
      virtualToPhysical m'.paging.mem e v) →
    m'.view e (v + o) = m.phys (virtualToPhysical m'.paging.mem e v + o)

theorem initHeap_same {s s' : HeapState} {heapEnd stackEnd : Nat} {user : Bool}
    (h : Memory.initHeap s heapEnd stackEnd user = s') :
    s'.pages = (sub64 stackEnd PAGESIZE, heapPerms user) ::
      (sub64 heapEnd PAGESIZE, heapPerms user) :: s.pages ∧
      s'.cheap.lastStack = sub64 stackEnd PAGESIZE ∧ s'.cheap.isKernel = !user := by
  subst h
  simp only [Memory.initHeap, HeapState.requestCurrentPageAt, and_self]

section create

variable {m m' : Machine} {D : Nat → Prop} {current pd k : Nat} {cheap : Heap} {h : TaskHeap}

/-- The steps of `create_user_heap` up to the headers. -/
theorem createUserHeap_steps (hc : m.createUserHeap current pd cheap = .ok (h, m')) :
    ∃ s₁ s₂ s₃ s₄,
      requestCurrentPageAt m.paging current USER_HEAP_PAGE 3 = .ok s₁ ∧
      requestCurrentPageAt s₁ current USER_STACK_PAGE 3 = .ok s₂ ∧
      mapAlso s₂ current pd USER_HEAP_PAGE 3 = .ok s₃ ∧
      mapAlso s₃ current pd USER_STACK_PAGE 3 = .ok s₄ ∧
      Machine.leave { m with paging := s₄ } current
        (Memory.initHeap (Machine.enter { m with paging := s₄ } current ⟨cheap, []⟩)
          0x00007fff6ffff000 0x00007fff7ffff000 true) = (h, m') := by
  have hheap : sub64 0x00007fff6ffff000 PAGESIZE = USER_HEAP_PAGE := by decide
  have hstack : sub64 0x00007fff7ffff000 PAGESIZE = USER_STACK_PAGE := by decide
  have hperms : heapPerms true = 3 := rfl
  rw [Machine.createUserHeap, Machine.initHeap, hheap, hstack, hperms] at hc
  cases h₁ : requestCurrentPageAt m.paging current USER_HEAP_PAGE 3 with
  | error e => rw [h₁] at hc; cases hc
  | ok s₁ =>
    rw [h₁] at hc
    cases h₂ : requestCurrentPageAt s₁ current USER_STACK_PAGE 3 with
    | error e => simp only [bind, Except.bind, h₂] at hc; cases hc
    | ok s₂ =>
      simp only [bind, Except.bind, h₂] at hc
      cases h₃ : mapAlso s₂ current pd USER_HEAP_PAGE 3 with
      | error e => rw [h₃] at hc; cases hc
      | ok s₃ =>
        rw [h₃] at hc
        simp only at hc
        cases h₄ : mapAlso s₃ current pd USER_STACK_PAGE 3 with
        | error e => rw [h₄] at hc; cases hc
        | ok s₄ =>
          rw [h₄] at hc
          exact ⟨s₁, s₂, s₃, s₄, rfl, h₂, h₃, h₄, Except.ok.inj hc⟩

theorem shiftLeft_injective {f g : Nat} (h : f <<< 12 = g <<< 12) : f = g := by
  rw [Nat.shiftLeft_eq, Nat.shiftLeft_eq] at h
  omega

/-- Two pages of a heap, mapped to two frames. -/
theorem owned_pair {t : Frames} {d f g : Nat} (hne : f ≠ g)
    (hpages : h.pages = [(USER_STACK_PAGE, 3), (USER_HEAP_PAGE, 3)])
    (hheap : mappingOf t d (pageNumber USER_HEAP_PAGE) = some ⟨f, 3⟩)
    (hstack : mappingOf t d (pageNumber USER_STACK_PAGE) = some ⟨g, 3⟩) : Owned t d h := by
  have hf := virtualToPhysical_of_mapped hheap
  have hg := virtualToPhysical_of_mapped hstack
  refine ⟨fun p hp => ?_, fun p hp q hq heq => ?_⟩
  · rw [hpages, List.mem_pair] at hp
    rcases hp with rfl | rfl
    · exact ⟨by decide, by decide, g, hstack⟩
    · exact ⟨by decide, by decide, f, hheap⟩
  · rw [hpages, List.mem_pair] at hp hq
    rcases hp with rfl | rfl
    · rcases hq with rfl | rfl
      · rfl
      · rw [hf, hg] at heq
        exact absurd (shiftLeft_injective heq).symm hne
    · rcases hq with rfl | rfl
      · rw [hf, hg] at heq
        exact absurd (shiftLeft_injective heq) hne
      · rfl

theorem createUserHeap_spec (hs : Spaces m.paging.mem D) (hK : D current) (hd : D pd)
    (hne : current ≠ pd) (hsupply : Supply m.paging D (k + 14))
    (hc : m.createUserHeap current pd cheap = .ok (h, m')) :
    (∃ f g, Created m m' D current pd h f g) ∧ Supply m'.paging D k := by
  obtain ⟨s₁, s₂, s₃, s₄, h₁, h₂, h₃, h₄, hleave⟩ := createUserHeap_steps hc
  have hhp : USER_HEAP_PAGE % PAGESIZE = 0 := by decide
  have hsp : USER_STACK_PAGE % PAGESIZE = 0 := by decide
  have hpages : pageNumber USER_STACK_PAGE ≠ pageNumber USER_HEAP_PAGE := by decide
  have hnum {n : Nat} (hn : UserPage n) : n < 68719476736 := by unfold UserPage at hn; omega
  obtain ⟨r₁, hsup₁⟩ := requestCurrentPageAt_spec (k := k + 10) hs hK hsupply
    userHeapPage_user h₁
  obtain ⟨r₂, hsup₂⟩ := requestCurrentPageAt_spec (k := k + 6) r₁.spaces hK hsup₁
    userStackPage_user h₂
  obtain ⟨f, hf⟩ : ∃ f, m.paging.frame m.paging.next = f := ⟨_, rfl⟩
  obtain ⟨g, hg⟩ : ∃ g, s₁.frame s₁.next = g := ⟨_, rfl⟩
  have hmap₁ := r₁.mapping
  have hmap₂ := r₂.mapping
  rw [hf] at hmap₁
  rw [hg] at hmap₂
  have hx₁ : mappingOf s₁.mem current (pageNumber USER_HEAP_PAGE) = some ⟨f, 3⟩ := by
    rw [hmap₁ current hK _ (hnum userHeapPage_user), if_pos ⟨rfl, rfl⟩]
  have hx₂ : mappingOf s₂.mem current (pageNumber USER_HEAP_PAGE) = some ⟨f, 3⟩ := by
    rw [hmap₂ current hK _ (hnum userHeapPage_user), if_neg (by tauto), hx₁]
  obtain ⟨r₃, hsup₃, hopen₃⟩ := mapAlso_spec (k := k + 3) r₂.spaces hK hd hne hsup₂ hhp
    userHeapPage_user hx₂ h₃
  have hy₃ : mappingOf s₃.mem current (pageNumber USER_STACK_PAGE) = some ⟨g, 3⟩ := by
    rw [r₃.mapping current hK _ (hnum userStackPage_user), if_neg (by tauto),
      hmap₂ current hK _ (hnum userStackPage_user), if_pos ⟨rfl, rfl⟩]
  obtain ⟨r₄, hsup₄, hopen₄⟩ := mapAlso_spec (k := k) r₃.spaces hK hd hne hsup₃ hsp
    userStackPage_user hy₃ h₄
  have hfg : f ≠ g := by
    have := hsup₁.unmapped 0 (by omega) current hK _ userHeapPage_user _ hx₁
    rwa [Nat.add_zero, hg] at this
  -- the two pages in both directories
  have hmapping : ∀ e, D e → ∀ n, n < 68719476736 → mappingOf s₄.mem e n =
      if (e = current ∨ e = pd) ∧ n = pageNumber USER_HEAP_PAGE then some ⟨f, 3⟩
      else if (e = current ∨ e = pd) ∧ n = pageNumber USER_STACK_PAGE then some ⟨g, 3⟩
      else mappingOf m.paging.mem e n := by
    intro e he n hn
    rw [r₄.mapping e he n hn, r₃.mapping e he n hn, hmap₂ e he n hn, hmap₁ e he n hn]
    by_cases heap : n = pageNumber USER_HEAP_PAGE
    · by_cases hepd : e = pd
      · rw [if_neg (by rintro ⟨-, hstack⟩; exact hpages (hstack.symm.trans heap)),
          if_pos ⟨hepd, heap⟩, if_pos ⟨.inr hepd, heap⟩]
      · by_cases hecur : e = current
        · rw [if_neg (by tauto), if_neg (by tauto),
            if_neg (by rintro ⟨-, hstack⟩; exact hpages (hstack.symm.trans heap)),
            if_pos ⟨hecur, heap⟩, if_pos ⟨.inl hecur, heap⟩]
        · rw [if_neg (by tauto), if_neg (by tauto), if_neg (by tauto), if_neg (by tauto),
            if_neg (by tauto), if_neg (by tauto)]
    · rw [if_neg (c := _ ∧ n = pageNumber USER_HEAP_PAGE) (by tauto),
        if_neg (c := (e = current ∨ e = pd) ∧ n = pageNumber USER_HEAP_PAGE) (by tauto)]
      by_cases stack : n = pageNumber USER_STACK_PAGE
      · by_cases hepd : e = pd
        · rw [if_pos ⟨hepd, stack⟩, if_pos ⟨.inr hepd, stack⟩]
        · by_cases hecur : e = current
          · rw [if_neg (by tauto), if_pos ⟨hecur, stack⟩, if_pos ⟨.inl hecur, stack⟩]
          · rw [if_neg (by tauto), if_neg (by tauto), if_neg (by tauto), if_neg (by tauto)]
      · rw [if_neg (by tauto), if_neg (by tauto), if_neg (by tauto), if_neg (by tauto)]
  have hle : m.paging.next ≤ s₄.next :=
    Nat.le_trans (Nat.le_trans (Nat.le_of_lt r₁.lt) (Nat.le_of_lt r₂.lt))
      (Nat.le_trans r₃.le r₄.le)
  obtain ⟨s, hsrun⟩ : ∃ s, Memory.initHeap (Machine.enter { m with paging := s₄ } current ⟨cheap, []⟩)
      0x00007fff6ffff000 0x00007fff7ffff000 true = s := ⟨_, rfl⟩
  rw [hsrun] at hleave
  have hinv := initHeap_inv (by decide) (by decide) (by decide) hsrun
  obtain ⟨hspages, hsstack, hskernel⟩ := initHeap_same hsrun
  have hholds : HeapHolds (s, []) := ⟨_, hinv, fun b hb => (nomatch hb), List.nodup_nil⟩
  have hpair : s.pages = [(USER_STACK_PAGE, 3), (USER_HEAP_PAGE, 3)] := hspages
  have howned : Owned s₄.mem current ⟨s.cheap, s.pages⟩ := by
    refine owned_pair hfg hpair ?_ ?_
    · rw [hmapping current hK _ (hnum userHeapPage_user), if_pos ⟨.inl rfl, rfl⟩]
    · rw [hmapping current hK _ (hnum userStackPage_user), if_neg (by tauto),
        if_pos ⟨.inl rfl, rfl⟩]
  have hcall := HeapCall.leave (m := { m with paging := s₄ }) (h := ⟨s.cheap, s.pages⟩) howned rfl rfl
    rfl hholds
  rw [hleave] at hcall
  have hpaging : m'.paging = s₄ := hcall.paging
  have hhpages : h.pages = s.pages := hcall.pages
  refine ⟨⟨f, g, ?_⟩, by rw [hpaging]; exact hsup₄⟩
  refine ⟨by rw [hpaging]; exact r₄.spaces, fun e he hec hep => ?_,
    by rw [hpaging]; exact ((r₁.kernel.trans r₂.kernel).trans r₃.kernel).trans r₄.kernel,
    by rw [hpaging, r₄.supply, r₃.supply, r₂.supply, r₁.supply], by rw [hpaging]; exact hle,
    fun hopen => ?_, hfg,
    fun e he n hn x hx => ⟨?_, ?_⟩, by rw [hpaging]; exact hmapping, hhpages.trans hpair,
    hcall.lastStack.trans hsstack, hcall.isKernel.trans hskernel, hcall.holds,
    fun e v o hv ho hout => ?_⟩
  · rw [hpaging]
    exact (((r₁.same e he hec.symm).trans (r₂.same e he hec.symm)).trans
      (r₃.same e he hep.symm)).trans (r₄.same e he hep.symm)
  · rw [hpaging]
    exact hopen₄ (hopen₃ ((hopen.agree (r₁.same pd hd hne)).agree (r₂.same pd hd hne)))
  · have := hsupply.unmapped 0 (by omega) e he n hn x hx
    rwa [Nat.add_zero, hf] at this
  · have hlt := r₁.lt
    have hbound := r₁.bound
    have := hsupply.unmapped (s₁.next - m.paging.next) (by omega) e he n hn x hx
    rwa [show m.paging.next + (s₁.next - m.paging.next) = s₁.next by omega,
      ← PagingState.frame_congr r₁.supply, hg] at this
  · rw [hpaging] at hout ⊢
    rw [hhpages] at hout
    rw [hcall.other e v o hv ho hout, Machine.view_add hv ho]

end create
/-! ## The stack -/

/-- One new frame at page `n` of both directories. -/
structure BothMapped (s t : PagingState) (D : Nat → Prop) (current pd n f : Nat) : Prop where
  spaces : Spaces t.mem D
  frame : s.frame s.next = f
  supply : t.supply = s.supply
  le : s.next ≤ t.next
  bound : t.next ≤ s.next + 7
  agree : ∀ e, D e → e ≠ current → e ≠ pd → Radix.AgreeOn Entry.child s.mem t.mem e 3
  kernel : Spaces.KernelSame D s.mem t.mem
  userOpen : UserOpen s.mem pd → UserOpen t.mem pd
  new : ∀ e, D e → ∀ k, UserPage k → ∀ x, mappingOf s.mem e k = some x → x.frame ≠ f
  mapping : ∀ e, D e → ∀ k, k < 68719476736 → mappingOf t.mem e k =
    if (e = current ∨ e = pd) ∧ k = n then some ⟨f, 3⟩ else mappingOf s.mem e k

theorem bothMapped {s s₁ s₂ : PagingState} {D : Nat → Prop} {current pd v k : Nat}
    (hs : Spaces s.mem D) (hK : D current) (hd : D pd) (hne : current ≠ pd)
    (hsupply : Supply s D (k + 7)) (hv : v % PAGESIZE = 0) (huser : UserPage (pageNumber v))
    (h₁ : requestCurrentPageAt s current v 3 = .ok s₁) (h₂ : mapAlso s₁ current pd v 3 = .ok s₂) :
    (∃ f, BothMapped s s₂ D current pd (pageNumber v) f) ∧ Supply s₂ D k := by
  have hn : pageNumber v < 68719476736 := pageNumber_lt v
  obtain ⟨r₁, hsup₁⟩ := requestCurrentPageAt_spec (k := k + 3) hs hK hsupply huser h₁
  obtain ⟨f, hf⟩ : ∃ f, s.frame s.next = f := ⟨_, rfl⟩
  have hmap₁ := r₁.mapping
  rw [hf] at hmap₁
  have hx : mappingOf s₁.mem current (pageNumber v) = some ⟨f, 3⟩ := by
    rw [hmap₁ current hK _ hn, if_pos ⟨rfl, rfl⟩]
  obtain ⟨r₂, hsup₂, hopen⟩ := mapAlso_spec (k := k) r₁.spaces hK hd hne hsup₁ hv huser hx h₂
  have hlt := r₁.lt
  have hbound₁ := r₁.bound
  have hle := r₂.le
  have hbound₂ := r₂.bound
  refine ⟨⟨f, r₂.spaces, hf, r₂.supply.trans r₁.supply, by omega, by omega,
    fun e he hec hep => (r₁.same e he hec.symm).trans
      (r₂.same e he hep.symm), r₁.kernel.trans r₂.kernel,
    fun ho => hopen (ho.agree (r₁.same pd hd hne)), fun e he i hi x hx => ?_,
    fun e he i hi => ?_⟩, hsup₂⟩
  · have := hsupply.unmapped 0 (by omega) e he i hi x hx
    rwa [Nat.add_zero, hf] at this
  · rw [r₂.mapping e he i hi, hmap₁ e he i hi]
    by_cases hi' : i = pageNumber v
    · by_cases hepd : e = pd
      · rw [if_pos ⟨hepd, hi'⟩, if_pos ⟨.inr hepd, hi'⟩]
      · by_cases hecur : e = current
        · rw [if_neg (by tauto), if_pos ⟨hecur, hi'⟩, if_pos ⟨.inl hecur, hi'⟩]
        · rw [if_neg (by tauto), if_neg (by tauto), if_neg (by tauto)]
    · rw [if_neg (by tauto), if_neg (by tauto), if_neg (by tauto)]

/-- The stack of a heap lies in the user half, above the page where the heap starts. -/
structure StackBelow (h : TaskHeap) : Prop where
  aligned : h.cheap.lastStack % PAGESIZE = 0
  high : h.cheap.lastStack < USERLAND_END
  below : ∀ p ∈ h.pages, p.1 = USER_HEAP_PAGE ∨ h.cheap.lastStack ≤ p.1

/-- `n` pages below the stack stay above the page where the heap starts. -/
def StackRoom (h : TaskHeap) (n : Nat) : Prop :=
  USER_HEAP_PAGE + (n + 1) * PAGESIZE ≤ h.cheap.lastStack

/-- What the loop of `_stackalloc` over `n` pages does. -/
structure StackGrown (m m' : Machine) (D : Nat → Prop) (current pd : Nat) (h h' : TaskHeap)
    (n : Nat) : Prop where
  spaces : Spaces m'.paging.mem D
  agree : ∀ e, D e → e ≠ current → e ≠ pd →
    Radix.AgreeOn Entry.child m.paging.mem m'.paging.mem e 3
  kernel : Spaces.KernelSame D m.paging.mem m'.paging.mem
  supply : m'.paging.supply = m.paging.supply
  le : m.paging.next ≤ m'.paging.next
  userOpen : UserOpen m.paging.mem pd → UserOpen m'.paging.mem pd
  phys : m'.phys = m.phys
  cheap : h'.cheap = { h.cheap with lastStack := h.cheap.lastStack - n * PAGESIZE }
  old : ∀ p ∈ h.pages, p ∈ h'.pages ∧ mappingOf m'.paging.mem current (pageNumber p.1) =
    mappingOf m.paging.mem current (pageNumber p.1)
  added : ∀ a, a % PAGESIZE = 0 → h'.cheap.lastStack ≤ a → a < h.cheap.lastStack →
    (a, 3) ∈ h'.pages
  owned : Owned m'.paging.mem current h'
  same : SameFrames m'.paging.mem current pd h'
  below : StackBelow h'
  new : ∀ p ∈ h'.pages, p ∈ h.pages ∨ ∃ j, j < 7 * n ∧
    virtualToPhysical m'.paging.mem current p.1 = m.paging.frame (m.paging.next + j) <<< 12

theorem stackPages_spec {m m' : Machine} {D : Nat → Prop} {current pd k n : Nat} {h h' : TaskHeap}
    (hs : Spaces m.paging.mem D) (hK : D current) (hd : D pd) (hne : current ≠ pd)
    (hsupply : Supply m.paging D (k + 7 * n)) (ho : Owned m.paging.mem current h)
    (hsame : SameFrames m.paging.mem current pd h) (hb : StackBelow h) (hroom : StackRoom h n)
    (hr : Machine.stackPages current pd 3 n m h = .ok (h', m')) :
    StackGrown m m' D current pd h h' n ∧ Supply m'.paging D k := by
  induction n generalizing m h with
  | zero =>
    cases hr
    refine ⟨⟨hs, fun e _ _ _ f _ => rfl, .refl _, rfl, le_refl _, id, rfl, ?_, fun p hp => ⟨hp, rfl⟩,
      fun a _ h1 h2 => ?_, ho, hsame, hb, fun p hp => .inl hp⟩, hsupply⟩
    · rw [Nat.zero_mul, Nat.sub_zero]
    · omega
  | succ n ih =>
    have hal := hb.aligned
    have hhigh := hb.high
    unfold StackRoom at hroom
    unfold PAGESIZE at hal hroom
    unfold USERLAND_END at hhigh
    obtain ⟨v, hv⟩ : ∃ v, h.cheap.lastStack - 4096 = v := ⟨_, rfl⟩
    have hsub : sub64 h.cheap.lastStack PAGESIZE = v := by
      rw [← hv]
      exact sub64_of_le (by unfold PAGESIZE; omega) (by omega)
    have hvend : v < USERLAND_END := by unfold USERLAND_END; omega
    have huser : UserPage (pageNumber v) := userPage_of_lt hvend
    have hvpage : v % PAGESIZE = 0 := by unfold PAGESIZE; omega
    rw [Machine.stackPages] at hr
    simp only [hsub] at hr
    cases h₁ : requestCurrentPageAt m.paging current v 3 with
    | error e => rw [h₁] at hr; cases hr
    | ok s₁ =>
      rw [h₁] at hr
      simp only [bind, Except.bind] at hr
      rw [if_neg (by omega)] at hr
      cases h₂ : mapAlso s₁ current pd v 3 with
      | error e => rw [h₂] at hr; cases hr
      | ok s₂ =>
        rw [h₂] at hr
        simp only at hr
        obtain ⟨⟨f, hboth⟩, hsup⟩ := bothMapped (k := k + 7 * n) hs hK hd hne
          (hsupply.mono (by omega)) hvpage huser h₁ h₂
        obtain ⟨g, hg⟩ : ∃ g : TaskHeap,
          g = ⟨{ h.cheap with lastStack := v }, (v, 3) :: h.pages⟩ := ⟨_, rfl⟩
        rw [← hg] at hr
        have hgpages : g.pages = (v, 3) :: h.pages := by rw [hg]
        have hgstack : g.cheap.lastStack = v := by rw [hg]
        -- a page of the heap is another page than the new one
        have hother : ∀ p ∈ h.pages, pageNumber p.1 ≠ pageNumber v := by
          intro p hp heq
          obtain ⟨hpal, hplt, -⟩ := ho.page p hp
          rw [pageNumber_of_lt hplt, pageNumber_of_lt hvend] at heq
          unfold PAGESIZE at hpal heq
          rcases hb.below p hp with hpe | hpl
          · rw [hpe] at heq
            omega
          · omega
        have hkeep : ∀ e, D e → ∀ p ∈ h.pages, mappingOf s₂.mem e (pageNumber p.1) =
            mappingOf m.paging.mem e (pageNumber p.1) := fun e he p hp => by
          rw [hboth.mapping e he _ (pageNumber_lt _), if_neg fun hc => hother p hp hc.2]
        have hnew : ∀ e, (e = current ∨ e = pd) → D e → mappingOf s₂.mem e (pageNumber v) =
            some ⟨f, 3⟩ := fun e he hDe => by
          rw [hboth.mapping e hDe _ (pageNumber_lt _), if_pos ⟨he, rfl⟩]
        have hphys := virtualToPhysical_of_mapped (hnew current (.inl rfl) hK)
        have hfresh : ∀ p ∈ h.pages, virtualToPhysical s₂.mem current p.1 ≠
            virtualToPhysical s₂.mem current v := by
          intro p hp heq
          obtain ⟨-, hplt, x, hx⟩ := ho.page p hp
          have hx' := hkeep current hK p hp
          rw [hx] at hx'
          rw [hphys, virtualToPhysical_of_mapped hx'] at heq
          exact hboth.new current hK _ (userPage_of_lt hplt) _ hx (shiftLeft_injective heq)
        have howned : Owned s₂.mem current g := by
          refine ⟨fun p hp => ?_, fun p hp q hq heq => ?_⟩
          · rw [hgpages] at hp
            rcases List.mem_cons.mp hp with rfl | hp
            · exact ⟨hvpage, hvend, f, hnew current (.inl rfl) hK⟩
            · rw [hkeep current hK p hp]
              exact ho.page p hp
          · rw [hgpages] at hp hq
            rcases List.mem_cons.mp hp with rfl | hp
            · rcases List.mem_cons.mp hq with rfl | hq
              · rfl
              · exact absurd heq.symm (hfresh q hq)
            · rcases List.mem_cons.mp hq with rfl | hq
              · exact absurd heq (hfresh p hp)
              · rw [virtualToPhysical_eq, virtualToPhysical_eq, hkeep current hK p hp,
                  hkeep current hK q hq, ← virtualToPhysical_eq, ← virtualToPhysical_eq] at heq
                exact ho.distinct p hp q hq heq
        have hsameg : SameFrames s₂.mem current pd g := by
          intro p hp
          rw [hgpages] at hp
          rcases List.mem_cons.mp hp with rfl | hp
          · rw [hnew current (.inl rfl) hK, hnew pd (.inr rfl) hd]
          · rw [hkeep current hK p hp, hkeep pd hd p hp]
            exact hsame p hp
        have hbg : StackBelow g := by
          refine ⟨by rw [hgstack]; exact hvpage, by rw [hgstack]; exact hvend, fun p hp => ?_⟩
          rw [hgpages] at hp
          rw [hgstack]
          rcases List.mem_cons.mp hp with rfl | hp
          · exact .inr (le_refl _)
          · exact (hb.below p hp).imp_right fun hle => by omega
        have hroomg : StackRoom g n := by
          unfold StackRoom PAGESIZE
          rw [hgstack]
          rw [Nat.succ_mul (n + 1)] at hroom
          generalize (n + 1) * 4096 = pages at hroom ⊢
          omega
        obtain ⟨hgrown, hsup'⟩ := ih (m := { m with paging := s₂ }) hboth.spaces hsup howned hsameg hbg
          hroomg hr
        have hcheap := hgrown.cheap
        refine ⟨⟨hgrown.spaces, fun e he hec hep => (hboth.agree e he hec hep).trans
          (hgrown.agree e he hec hep), hboth.kernel.trans hgrown.kernel,
          hgrown.supply.trans hboth.supply, hboth.le.trans hgrown.le,
          fun hopen => hgrown.userOpen (hboth.userOpen hopen), hgrown.phys, ?_, fun p hp => ?_, fun a ha h1 h2 => ?_, hgrown.owned, hgrown.same,
          hgrown.below, fun p hp => ?_⟩, hsup'⟩
        · have hlast : v - n * PAGESIZE = h.cheap.lastStack - (n + 1) * PAGESIZE := by
            unfold PAGESIZE
            omega
          rw [hcheap, hg, ← hlast]
        · obtain ⟨hin, hmap⟩ := hgrown.old p (by rw [hgpages]; exact List.mem_cons_of_mem _ hp)
          exact ⟨hin, hmap.trans (hkeep current hK p hp)⟩
        · unfold PAGESIZE at ha
          by_cases hav : a = v
          · rw [hav]
            exact (hgrown.old (v, 3) (by rw [hgpages]; exact List.mem_cons_self ..)).1
          · exact hgrown.added a (by unfold PAGESIZE; exact ha) h1 (by rw [hgstack]; omega)
        · rcases hgrown.new p hp with hpg | ⟨j, hj, hframe⟩
          · rw [hgpages] at hpg
            rcases List.mem_cons.mp hpg with rfl | hpg
            · obtain ⟨-, hmap⟩ := hgrown.old (v, 3) (by rw [hgpages]; exact List.mem_cons_self ..)
              refine .inr ⟨0, by omega, ?_⟩
              rw [virtualToPhysical_of_mapped (hmap.trans (hnew current (.inl rfl) hK)),
                Nat.add_zero, hboth.frame]
            · exact .inl hpg
          · have hle := hboth.le
            have hbound := hboth.bound
            refine .inr ⟨s₂.next - m.paging.next + j, by omega, ?_⟩
            rw [hframe, show m.paging.next + (s₂.next - m.paging.next + j) = s₂.next + j by omega]
            exact congrArg (· <<< 12) (congrFun (PagingState.frame_congr hboth.supply) _)

/-- The heaps differ in their pages and their stacks only. -/
structure SameSegments (h h' : TaskHeap) : Prop where
  ready : h'.cheap.ready = h.cheap.ready
  mainSegment : h'.cheap.mainSegment = h.cheap.mainSegment
  heapEnd : h'.cheap.heapEnd = h.cheap.heapEnd
  lastSegment : h'.cheap.lastSegment = h.cheap.lastSegment
  isKernel : h'.cheap.isKernel = h.cheap.isKernel

theorem stackalloc_spec {m m' : Machine} {D : Nat → Prop} {current pd k length p : Nat}
    {h h' : TaskHeap} (hs : Spaces m.paging.mem D) (hK : D current) (hd : D pd)
    (hne : current ≠ pd) (hsupply : Supply m.paging D (k + 7 * stackPageCount length))
    (ho : Owned m.paging.mem current h) (hsame : SameFrames m.paging.mem current pd h)
    (hb : StackBelow h) (hroom : StackRoom h (stackPageCount length))
    (hkernel : h.cheap.isKernel = false)
    (hr : m.stackalloc current pd h length = .ok (p, h', m')) :
    ∃ h₁, StackGrown m m' D current pd h h₁ (stackPageCount length) ∧ Supply m'.paging D k ∧
      p = h₁.cheap.lastStack ∧ p = h.cheap.lastStack - stackPageCount length * PAGESIZE ∧
      SameSegments h h' ∧ h'.pages = h₁.pages ∧ h'.cheap.lastStack = p - PAGESIZE := by
  rw [Machine.stackalloc, hkernel, show heapPerms (!false) = 3 from rfl,
    show length / PAGESIZE + (if length % PAGESIZE ≠ 0 then 1 else 0) = stackPageCount length from
      rfl] at hr
  cases hpages : Machine.stackPages current pd 3 (stackPageCount length) m h with
  | error e => simp only [hpages] at hr; cases hr
  | ok r =>
    simp only [hpages] at hr
    obtain ⟨h₁, m₁⟩ := r
    obtain ⟨hgrown, hsup⟩ := stackPages_spec (k := k) hs hK hd hne hsupply ho hsame hb hroom hpages
    have hlast := hgrown.cheap
    have hlow : PAGESIZE ≤ h₁.cheap.lastStack ∧ h₁.cheap.lastStack < 18446744073709551616 := by
      have hhigh := hb.high
      unfold StackRoom at hroom
      unfold USERLAND_END at hhigh
      rw [hlast]
      unfold PAGESIZE at hroom ⊢
      generalize stackPageCount length = n at hroom ⊢
      show 4096 ≤ h.cheap.lastStack - n * 4096 ∧ h.cheap.lastStack - n * 4096 < _
      omega
    have hsub := sub64_of_le hlow.1 hlow.2
    obtain ⟨guard, hguard⟩ : ∃ a, sub64 h₁.cheap.lastStack PAGESIZE = a := ⟨_, rfl⟩
    have hr' : (Except.ok (h₁.cheap.lastStack,
        { h₁ with cheap := { h₁.cheap with lastStack := sub64 h₁.cheap.lastStack PAGESIZE } }, m₁) :
          Except Panic _) = .ok (p, h', m') := hr
    rw [hguard] at hr'
    obtain ⟨hp, hrest⟩ := Prod.mk.inj (Except.ok.inj hr')
    obtain ⟨hheap, hmachine⟩ := Prod.mk.inj hrest
    rw [hmachine] at hgrown hsup
    refine ⟨h₁, hgrown, hsup, hp.symm, hp.symm.trans (congrArg Heap.lastStack hlast), ?_, ?_, ?_⟩
    · have hsegs : SameSegments h h₁ := by
        constructor <;> rw [hlast]
      rw [← hheap]
      exact ⟨hsegs.ready, hsegs.mainSegment, hsegs.heapEnd, hsegs.lastSegment, hsegs.isKernel⟩
    · rw [← hheap]
    · rw [← hheap, ← hp, ← hsub, hguard]

end UnedKernel.Memory
