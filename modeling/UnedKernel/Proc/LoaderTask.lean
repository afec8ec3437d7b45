import UnedKernel.Memory.UserHeapRuns
import UnedKernel.Proc.Loader

/-! # The address space of a new task

What the growth of the kernel and `create_task` do to the current directory and
to that of the new task. -/

namespace UnedKernel.Proc
open ByteMem Word Memory Radix

/-! ## The growth of the kernel -/

/-- Pages of the kernel half. -/
def KernelPages (vs : List Nat) : Prop := ∀ v ∈ vs, ¬ UserPage (pageNumber v)

/-- What the growth of the kernel by the pages `vs` does: they are mapped, and nothing else. -/
structure Grown (s t : PagingState) (D : Nat → Prop) (current : Nat) (vs : List Nat) : Prop where
  spaces : Spaces t.mem D
  shared : ∀ a b, D a → D b → a ≠ b → ∀ k, TableShared t.mem a b k ↔ TableShared s.mem a b k
  mapping : ∀ e, D e → ∀ k, k < 68719476736 → (∀ v ∈ vs, pageNumber v ≠ k) →
    mappingOf t.mem e k = mappingOf s.mem e k
  path : ∀ e, D e → ∀ k, (∀ v ∈ vs, pagePath k ≠ pagePath (pageNumber v)) →
    walk Entry.child t.mem e (pagePath k) = walk Entry.child s.mem e (pagePath k)
  mapped : ∀ v ∈ vs, walk Entry.child t.mem current (pagePath (pageNumber v)) ≠ none
  size : FrameSized s.mem → FrameSized t.mem
  userOpen : ∀ e, D e → UserOpen s.mem e → UserOpen t.mem e
  supply : t.supply = s.supply
  le : s.next ≤ t.next
  fresh : ∀ k, FreshFor s D (k + 4 * vs.length) → FreshFor t D k
  rest : ∀ k, Supply s D (k + 4 * vs.length) → Supply t D k

namespace Grown

variable {s t u : PagingState} {D : Nat → Prop} {current v : Nat} {vs : List Nat}

theorem nil (h : Spaces s.mem D) : Grown s s D current [] :=
  ⟨h, fun _ _ _ _ _ _ => Iff.rfl, fun _ _ _ _ _ => rfl, fun _ _ _ _ => rfl,
    fun _ hv => absurd hv List.not_mem_nil, id, fun _ _ => id, rfl,
    le_refl _, fun _ => id, fun _ => id⟩

theorem cons (h : Grown s t D current [v]) (hc : D current) (h' : Grown t u D current vs) : Grown s u D current (v :: vs) := by
  have hlen : ∀ k, k + 4 * (v :: vs).length = k + 4 * vs.length + 4 * [v].length := fun k => by
    simp only [List.length_cons, List.length_nil]
    omega
  refine ⟨h'.spaces, fun a b ha hb hab k => (h'.shared a b ha hb hab k).trans
    (h.shared a b ha hb hab k), fun e he k hk hne => ?_, fun e he k hne => ?_,
    fun w hw => ?_, fun hsize => h'.size (h.size hsize), fun e he hopen => h'.userOpen e he (h.userOpen e he hopen),
    h'.supply.trans h.supply, h.le.trans h'.le, fun k hk => h'.fresh k (h.fresh _ (hlen k ▸ hk)),
    fun k hk => h'.rest k (h.rest _ (hlen k ▸ hk))⟩
  · rw [h'.mapping e he k hk fun w hw => hne w (List.mem_cons_of_mem v hw),
      h.mapping e he k hk fun w hw => hne w (List.mem_singleton.mp hw ▸ List.mem_cons_self)]
  · rw [h'.path e he k fun w hw => hne w (List.mem_cons_of_mem v hw),
      h.path e he k fun w hw => hne w (List.mem_singleton.mp hw ▸ List.mem_cons_self)]
  · rcases List.mem_cons.mp hw with rfl | hw
    · by_cases hsame : ∃ x ∈ vs, pagePath (pageNumber w) = pagePath (pageNumber x)
      · obtain ⟨x, hx, heq⟩ := hsame
        rw [heq]
        exact h'.mapped x hx
      · rw [h'.path current hc _ fun x hx heq => hsame ⟨x, hx, heq⟩]
        exact h.mapped w List.mem_cons_self
    · exact h'.mapped w hw

/-- One page of the kernel half. -/
theorem single (h : Spaces s.mem D) (hc : D current) (hfresh : FreshFor s D 4)
    (hv : ¬ UserPage (pageNumber v)) {perms : Nat}
    (ht : requestCurrentPageAt s current v perms = .ok t) : Grown s t D current [v] := by
  obtain ⟨hmap, hin⟩ := requestCurrentPageAt_in h hc hfresh ht
  have hlen : ∀ k, k + 4 * [v].length = k + 3 + 1 := fun _ => rfl
  refine ⟨hin.spaces, hin.shared, fun e he k hk hne => hin.old e he k hk fun hkn =>
    absurd hkn.symm (hne v List.mem_cons_self), fun e he k hne => hin.path e he k
    (hne v List.mem_cons_self), fun w hw => ?_,
    fun hsize => mapMemoryHh_frameSized (s := { s with next := s.next + 1 }) hsize hmap,
    fun e he hopen => ?_, hin.supply, Nat.le_of_succ_le hin.le,
    fun k hk => hin.fresh k ?_, fun k hk => Supply.mapIn ?_ hin hv⟩
  · obtain ⟨pt, hpt, -⟩ := mappingOf_some (hin.new current hc (.inl rfl))
    rw [List.mem_singleton.mp hw, hpt]
    exact Option.some_ne_none pt
  · by_cases hce : current = e
    · subst hce
      exact mapMemoryHh_open (s := { s with next := s.next + 1 }) hopen (h.wellFormed current hc)
        ((FreshFor.request (k := 3) hfresh) current hc) hmap
    · exact hin.upper e he hce _ hopen
  · rw [hlen k] at hk
    exact hk.request
  · rw [hlen k] at hk
    exact hk.request

end Grown

theorem growKernel_spec {s t : PagingState} {D : Nat → Prop} {current : Nat} {vs : List Nat}
    (h : Spaces s.mem D) (hc : D current) (hfresh : FreshFor s D (4 * vs.length))
    (hvs : KernelPages vs) (ht : growKernel current vs s = .ok t) : Grown s t D current vs := by
  induction vs generalizing s with
  | nil =>
    cases ht
    exact .nil h
  | cons v vs ih =>
    rw [growKernel] at ht
    cases hr : requestCurrentPageAt s current v PAGE_WRITE_BIT with
    | error e => rw [hr] at ht; cases ht
    | ok u =>
      rw [hr] at ht
      have hlen : 4 * (v :: vs).length = 4 * vs.length + 4 * [v].length := by
        simp only [List.length_cons, List.length_nil]
        omega
      rw [hlen] at hfresh
      have hone := Grown.single h hc (hfresh.mono (Nat.le_add_left _ _))
        (hvs v List.mem_cons_self) hr
      exact hone.cons hc (ih hone.spaces (hone.fresh _ hfresh)
        (fun w hw => hvs w (List.mem_cons_of_mem v hw)) ht)

/-! ## A new task -/

/-- The pages that `create_task` requests at most. -/
def Growth.taskPages (g : Growth) : Nat :=
  4 * g.task.length + duplicatePages + 1 + 14 + 7 * stackPageCount USER_STACK_SIZE +
    4 * g.stack.length

/-- What `create_task` does: the task gets a directory with an open user half, which shares with
the current one the page tables of the kernel half. -/
structure TaskMade (m m' : Machine) (current pd : Nat) (g : Growth) : Prop where
  ne : current ≠ pd
  spaces : Spaces m'.paging.mem fun e => e = current ∨ e = pd
  userOpen : UserOpen m'.paging.mem pd
  tables : ∀ k, k < 68719476736 → (TableShared m'.paging.mem current pd k ↔ ¬ UserPage k ∧
    (walk Entry.child m.paging.mem current (pagePath k) ≠ none ∨
      ∃ v ∈ g.task, pagePath k = pagePath (pageNumber v)))
  mapping : ∀ k, k < 68719476736 → ¬ UserPage k → (∀ v ∈ g.task, pageNumber v ≠ k) →
    (∀ v ∈ g.stack, pageNumber v ≠ k) →
      mappingOf m'.paging.mem current k = mappingOf m.paging.mem current k
  supply : m'.paging.supply = m.paging.supply
  le : m.paging.next ≤ m'.paging.next
  rest : ∀ k, Supply m.paging (fun e => e = current) (k + g.taskPages) →
    Supply m'.paging (fun e => e = current ∨ e = pd) k

/-- The steps of `create_task`. -/
theorem createTask_steps {m m' : Machine} {current pd : Nat} {g : Growth} {cheap : Heap}
    (h : createTask m current g cheap = .ok (pd, m')) : ∃ s₁ s₂ s₅ h₃ m₃ p h₄ m₄,
    growKernel current g.task m.paging = .ok s₁ ∧
    duplicateCurrentKernelPml4 s₁ current = .ok (pd, s₂) ∧
    Machine.createUserHeap { m with paging := { s₂ with next := s₂.next + 1 } } current pd cheap =
      .ok (h₃, m₃) ∧
    m₃.stackalloc current pd h₃ USER_STACK_SIZE = .ok (p, h₄, m₄) ∧
    growKernel current g.stack m₄.paging = .ok s₅ ∧ m' = { m₄ with paging := s₅ } := by
  rw [createTask] at h
  cases h₁ : growKernel current g.task m.paging with
  | error e => rw [h₁] at h; cases h
  | ok s₁ =>
    simp only [bind, Except.bind, h₁] at h
    cases h₂ : duplicateCurrentKernelPml4 s₁ current with
    | error e => rw [h₂] at h; cases h
    | ok r =>
      obtain ⟨d, s₂⟩ := r
      rw [h₂] at h
      simp only at h
      cases h₃ : Machine.createUserHeap { m with paging := { s₂ with next := s₂.next + 1 } } current d
          cheap with
      | error e => rw [h₃] at h; cases h
      | ok r =>
        obtain ⟨heap, m₃⟩ := r
        rw [h₃] at h
        simp only at h
        cases h₄ : m₃.stackalloc current d heap USER_STACK_SIZE with
        | error e => rw [h₄] at h; cases h
        | ok r =>
          obtain ⟨p, heap', m₄⟩ := r
          rw [h₄] at h
          simp only at h
          cases h₅ : growKernel current g.stack m₄.paging with
          | error e => rw [h₅] at h; cases h
          | ok s₅ =>
            rw [h₅] at h
            obtain ⟨rfl, rfl⟩ := Prod.mk.inj (Except.ok.inj h)
            exact ⟨s₁, s₂, s₅, heap, m₃, p, heap', m₄, rfl, h₂, h₃, h₄, h₅, rfl⟩

theorem createTask_spec {m m' : Machine} {current pd : Nat} {g : Growth} {cheap : Heap}
    (hwf : WellFormed m.paging.mem current) (hsize : FrameSized m.paging.mem)
    (hsupply : Supply m.paging (fun e => e = current) g.taskPages) (htask : KernelPages g.task)
    (hstack : KernelPages g.stack) (h : createTask m current g cheap = .ok (pd, m')) :
    TaskMade m m' current pd g := by
  obtain ⟨s₁, s₂, s₅, heap, m₃, p, heap', m₄, h₁, h₂, h₃, h₄, h₅, rfl⟩ := createTask_steps h
  have hstackPages : stackPageCount USER_STACK_SIZE = 4 := by decide
  have hbudget : g.taskPages = 4 * g.stack.length + 7 * 4 + 14 + 1 + duplicatePages +
      4 * g.task.length := by
    unfold Growth.taskPages
    rw [hstackPages]
    omega
  -- the growth of the kernel, and the directory of the task
  have hgrown := growKernel_spec (.single hwf) rfl
    (hsupply.fresh.mono (by rw [hbudget]; exact Nat.le_add_left _ _)) htask h₁
  have hsup₁ : ∀ k, Supply m.paging (fun e => e = current) (k + g.taskPages) →
      Supply s₁ (fun e => e = current) (duplicatePages + (k + 4 * g.stack.length + 7 * 4 + 14 + 1)) :=
    fun k hk => hgrown.rest _ (hk.mono (by rw [hbudget]; omega))
  have hadded := hgrown.spaces.duplicate rfl (hgrown.size hsize)
    ((hsup₁ 0 (hsupply.mono (Nat.le_of_eq (Nat.zero_add _)))).fresh.mono (Nat.le_add_right _ _)) h₂
  have hne : current ≠ pd := fun heq => hadded.new heq.symm
  have hsup₂ : ∀ k, Supply m.paging (fun e => e = current) (k + g.taskPages) →
      Supply { s₂ with next := s₂.next + 1 } (fun e => e = current ∨ e = pd)
        (k + 4 * g.stack.length + 7 * 4 + 14) :=
    fun k hk => ((hsup₁ k hk).duplicate hadded).request
  have hopen : UserOpen s₂.mem pd := userOpen_of_zero hadded.zero
  -- its heap and its stack
  have hsup₃ : ∀ k, Supply m.paging (fun e => e = current) (k + g.taskPages) →
      Supply m₃.paging (fun e => e = current ∨ e = pd) (k + 4 * g.stack.length + 7 * 4) :=
    fun k hk => (createUserHeap_spec (m := { m with paging := { s₂ with next := s₂.next + 1 } })
      hadded.spaces (.inl rfl) (.inr rfl) hne (hsup₂ k hk) h₃).2
  have hzero := hsupply.mono (Nat.le_of_eq (Nat.zero_add _))
  obtain ⟨⟨f, f', hcreated⟩, -⟩ := createUserHeap_spec
    (m := { m with paging := { s₂ with next := s₂.next + 1 } })
    hadded.spaces (.inl rfl) (.inr rfl) hne (hsup₂ 0 hzero) h₃
  have hholds := hcreated.taskHolds (m := { m with paging := { s₂ with next := s₂.next + 1 } })
    (.inl rfl) (.inr rfl) hopen
  have hroom : StackRoom heap (stackPageCount USER_STACK_SIZE) := by
    rw [StackRoom, hcreated.lastStack]
    decide
  have hsup₄ : ∀ k, Supply m.paging (fun e => e = current) (k + g.taskPages) →
      Supply m₄.paging (fun e => e = current ∨ e = pd) (k + 4 * g.stack.length) := fun k hk => by
    have hk' := hsup₃ k hk
    rw [← hstackPages] at hk'
    obtain ⟨-, -, hrest, -⟩ := stackalloc_spec hcreated.spaces (.inl rfl) (.inr rfl) hne hk'
      hholds.owned hholds.same hholds.below hroom hcreated.isKernel h₄
    exact hrest
  have hsup₃' := hsup₃ 0 hzero
  rw [← hstackPages] at hsup₃'
  obtain ⟨heap₁, hstacks, -⟩ := stackalloc_spec hcreated.spaces (.inl rfl) (.inr rfl) hne hsup₃'
    hholds.owned hholds.same hholds.below hroom hcreated.isKernel h₄
  have hlast := growKernel_spec hstacks.spaces (.inl rfl)
    ((hsup₄ 0 hzero).fresh.mono (Nat.le_add_left _ _)) hstack h₅
  have hkernel : Spaces.KernelSame (fun e => e = current ∨ e = pd) s₂.mem m₄.paging.mem :=
    hcreated.kernel.trans hstacks.kernel
  refine ⟨hne, hlast.spaces, hlast.userOpen pd (.inr rfl) (hstacks.userOpen
    (hcreated.userOpen hopen)), fun k hk => ?_, fun k hk huser hk₁ hk₂ => ?_, ?_, ?_,
    fun k hk => hlast.rest k (hsup₄ k hk)⟩
  · rw [hlast.shared _ _ (.inl rfl) (.inr rfl) hne, hkernel.shared _ _ (.inl rfl) (.inr rfl) hne,
      hadded.tables k hk]
    refine and_congr_right fun _ => ?_
    by_cases hin : ∃ v ∈ g.task, pagePath k = pagePath (pageNumber v)
    · obtain ⟨v, hv, heq⟩ := hin
      refine iff_of_true ?_ (.inr ⟨v, hv, heq⟩)
      rw [heq]
      exact hgrown.mapped v hv
    · rw [hgrown.path current rfl k fun v hv heq => hin ⟨v, hv, heq⟩]
      exact (or_iff_left hin).symm
  · rw [hlast.mapping current (.inl rfl) k hk hk₂, hkernel.mapping current (.inl rfl) k hk huser,
      mappingOf_agree (hadded.same current rfl) k, hgrown.mapping current rfl k hk hk₁]
  · exact hlast.supply.trans (hstacks.supply.trans (hcreated.supply.trans
      (hadded.supply.trans hgrown.supply)))
  · exact Nat.le_trans hgrown.le (Nat.le_trans hadded.le (Nat.le_trans (Nat.le_succ _)
      (Nat.le_trans hcreated.le (Nat.le_trans hstacks.le hlast.le))))

end UnedKernel.Proc
