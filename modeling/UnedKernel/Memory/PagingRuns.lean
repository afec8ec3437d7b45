import UnedKernel.Memory.PagingRefinement

/-! # Runs over the page tables

Steps of the tables of one directory together with the abstract map, and the
invariant that the tables hold that map after every run. -/

namespace UnedKernel.Memory
open BitField Radix Word Run

/-- The page tables and the map they stand for. -/
abbrev TableState := PagingState × PageMap

/-- The calls of `map_memory_hh`, `unmap_current_memory` and `mprotect_hh` on
the directory `pml4`, each with the operation of the map. The ranges of
`mprotect_hh` are those that satisfy `range`. -/
inductive TableStep (range : Nat → Nat → Prop) (pml4 : Nat) : TableState → TableState → Prop
  | map {s t : PagingState} {A : PageMap} {v p flags : Nat}
      (hfresh : FreshPages s pml4 3) (hv : v % PAGESIZE = 0) (hp : p % PAGESIZE = 0)
      (hsmall : p < 1099511627776) (h : mapMemoryHh s pml4 v p flags = .ok t) :
      TableStep range pml4 (s, A) (t, A.map (pageNumber v) (p >>> 12) (flags % 16))
  | unmap {s : PagingState} {A : PageMap} (v : Nat) :
      TableStep range pml4 (s, A)
        ({ s with mem := unmapCurrentMemory s.mem pml4 v }, A.unmap (pageNumber v))
  | mprotect {s : PagingState} {A : PageMap} (a size permissions : Nat)
      (hrange : range a size) (hwrap : a + size + 4095 < 18446744073709551616)
      (hmapped : ∀ k, Meets a size k → A k ≠ none) :
      TableStep range pml4 (s, A)
        ({ s with mem := mprotectHh s.mem pml4 a size permissions },
          A.protect (Meets a size) (permissions % 16))

/-- The range is not empty, or starts where a page starts. -/
def NotInsidePage (a size : Nat) : Prop := 0 < size ∨ a % PAGESIZE = 0

/-- The tables answer as the map does, on every page. -/
def Refines (pml4 : Nat) (t : TableState) : Prop :=
  (∀ v, virtualToPhysical t.1.mem pml4 v = t.2.translate (pageNumber v)) ∧
  ∀ v x, t.2 (pageNumber v) = some x → getPagePermsHh t.1.mem pml4 v = x.perms

/-- The invariant of the runs: the tree is separated and holds the map. -/
def Holds (pml4 : Nat) (t : TableState) : Prop :=
  WellFormed t.1.mem pml4 ∧ ∀ k, k < 68719476736 → mappingOf t.1.mem pml4 k = t.2 k

theorem Holds.refines {pml4 : Nat} {t : TableState} (h : Holds pml4 t) : Refines pml4 t := by
  refine ⟨fun v => ?_, fun v x hx => ?_⟩
  · rw [virtualToPhysical_eq, h.2 _ (pageNumber_lt v)]
    rfl
  · exact getPagePermsHh_eq (by rw [h.2 _ (pageNumber_lt v), hx])

theorem Holds.step {pml4 : Nat} (s t : TableState) (hs : Holds pml4 s)
    (h : TableStep NotInsidePage pml4 s t) : Holds pml4 t := by
  obtain ⟨hwf, hmap⟩ := hs
  cases h with
  | map hfresh hv hp hsmall h =>
    rename_i s t A v p flags
    obtain ⟨t', ht', hwf', hspec⟩ := mapMemoryHh_spec flags hwf hfresh hv hp hsmall
    obtain rfl : t' = t := Except.ok.inj (ht'.symm.trans h)
    refine ⟨hwf', fun k hk => ?_⟩
    show _ = A.map (pageNumber v) (p >>> 12) (flags % 16) k
    rw [hspec k hk, PageMap.map, Function.update_apply]
    split
    · rfl
    · exact hmap k hk
  | unmap v =>
    rename_i s A
    obtain ⟨hwf', hspec⟩ := unmapCurrentMemory_spec v hwf
    refine ⟨hwf', fun k hk => ?_⟩
    show _ = A.unmap (pageNumber v) k
    rw [hspec k hk, PageMap.unmap, Function.update_apply]
    split
    · rfl
    · exact hmap k hk
  | mprotect a size permissions hsize hwrap hmapped =>
    rename_i s A
    have hlive : ∀ k, Meets a size k → mappingOf s.mem pml4 k ≠ none := by
      rintro k ⟨b, hb⟩
      have hk : k < 68719476736 := hb.2.2 ▸ pageNumber_lt b
      rw [hmap k hk]
      exact hmapped k ⟨b, hb⟩
    obtain ⟨hwf', hspec⟩ := mprotectHh_spec permissions hwf hwrap hsize hlive
    refine ⟨hwf', fun k hk => ?_⟩
    rw [hspec k hk]
    simp only [PageMap.protect, hmap k hk]

/-- From every separated tree, and in every run without an empty `mprotect_hh`
inside a page, the tables answer as the finite map does. -/
theorem pageTables_refine_map {pml4 : Nat} {s₀ s : PagingState} {A : PageMap}
    (hwf : WellFormed s₀.mem pml4)
    (hrun : Reaches (TableStep NotInsidePage pml4) (s₀, mappingOf s₀.mem pml4) (s, A)) :
    Refines pml4 (s, A) :=
  Holds.refines (invariant (Holds pml4) Holds.step ⟨hwf, fun _ _ => rfl⟩ hrun)

/-! ## A small directory -/

/-- Tables in the frames 1 to 4, each with one entry, that map page 0 to frame 5. -/
def smallTables : Frames := fun f i =>
  if 0 < f ∧ f < 5 ∧ i = 0 then ((0 : Entry).setPagePpn (f + 1)).setPresent 1 else 0

theorem smallTables_child {f i c : Nat} (h : Entry.child (smallTables f i) = some c) :
    i = 0 ∧ 0 < f ∧ f < 5 ∧ c = f + 1 := by
  unfold smallTables at h
  split at h
  · rename_i hf
    obtain ⟨hpos, hlt, rfl⟩ := hf
    have hppn : ∀ g, g < 5 → Entry.child (((0 : Entry).setPagePpn (g + 1)).setPresent 1) =
      some (g + 1) := by decide
    rw [hppn f hlt] at h
    exact ⟨rfl, hpos, hlt, (Option.some.inj h).symm⟩
  · rw [Entry.zero_child] at h; cases h

theorem smallTables_walk {p : List Nat} {r f : Nat}
    (h : walk Entry.child smallTables r p = some f) :
    p = List.replicate p.length 0 ∧ f = r + p.length ∧ (p ≠ [] → f < 6) := by
  induction p generalizing r with
  | nil => exact ⟨rfl, (Option.some.inj h).symm, fun h => absurd rfl h⟩
  | cons i p ih =>
    rw [walk_cons, Option.bind_eq_some_iff] at h
    obtain ⟨c, hc, hw⟩ := h
    obtain ⟨rfl, _, hlt, rfl⟩ := smallTables_child hc
    obtain ⟨hp, hf, hlt'⟩ := ih hw
    refine ⟨by rw [List.length_cons, List.replicate_succ, ← hp], ?_, fun _ => ?_⟩
    · rw [hf, List.length_cons]; omega
    · by_cases hnil : p = []
      · subst hnil; simp at hf; omega
      · exact hlt' hnil

theorem smallTables_wellFormed : WellFormed smallTables 1 := by
  intro p q f _ _ hp hq
  obtain ⟨hp, hfp, _⟩ := smallTables_walk hp
  obtain ⟨hq, hfq, _⟩ := smallTables_walk hq
  have hlen : p.length = q.length := by omega
  rw [hp, hq, hlen]

/-- The directory, with the pages from 0x10000 on for `request_page`. -/
def smallPaging : PagingState := { mem := smallTables, supply := fun k => (16 + k) * 4096, next := 0 }

theorem smallPaging_fresh {n : Nat} (hn : n ≤ 268435440) : FreshPages smallPaging 1 n := by
  refine ⟨fun k _ => ?_, fun k hk => ?_, fun j k hj hk => ?_, fun k hk p hp hw => ?_⟩
  · show (16 + (0 + k)) * 4096 % 4096 = 0
    omega
  · show (16 + (0 + k)) * 4096 < _
    omega
  · show (16 + (0 + j)) * 4096 ≠ (16 + (0 + k)) * 4096
    omega
  · obtain ⟨_, hf, _⟩ := smallTables_walk hw
    have hframe : smallPaging.supply (smallPaging.next + k) >>> 12 = 16 + (0 + k) := by
      rw [Nat.shiftRight_eq_div_pow]
      exact Nat.mul_div_cancel _ (by decide)
    omega

/-- Mapping page 3 of the small directory. -/
theorem pageTables_refine_map_small : ∃ t, mapMemoryHh smallPaging 1 12288 28672 5 = .ok t ∧
    Refines 1 (t, PageMap.map (mappingOf smallTables 1) (pageNumber 12288) (28672 >>> 12)
      (5 % 16)) := by
  obtain ⟨t, ht, _⟩ := mapMemoryHh_spec (s := smallPaging) (v := 12288) (p := 28672) 5
    smallTables_wellFormed (smallPaging_fresh (by decide)) rfl rfl (by decide)
  exact ⟨t, ht, @pageTables_refine_map 1 smallPaging _ _ smallTables_wellFormed
    (Relation.ReflTransGen.single (.map (smallPaging_fresh (by decide)) rfl rfl (by decide) ht))⟩

/-- `mprotect_hh(1, 0, 1)` makes page 0 writeable. -/
theorem pageTables_not_refine_map : ¬ ∀ (pml4 : Nat) (s₀ s : PagingState) (A : PageMap),
    WellFormed s₀.mem pml4 →
    Reaches (TableStep (fun _ _ => True) pml4) (s₀, mappingOf s₀.mem pml4) (s, A) → Refines pml4 (s, A) := by
  intro hall
  have hnone : ∀ k, ¬ Meets 1 0 k := fun k ⟨b, h1, h2, _⟩ => by omega
  have hrun := hall 1 smallPaging _ _ smallTables_wellFormed
    (Relation.ReflTransGen.single (.mprotect 1 0 1 trivial (by decide)
      fun k hk => absurd hk (hnone k)))
  have hold : mappingOf smallTables 1 (pageNumber 0) = some ⟨5, 0⟩ := by decide +kernel
  have hperms := hrun.2 0 ⟨5, 0⟩ ((if_neg (hnone _)).trans hold)
  have hnow : getPagePermsHh (mprotectHh smallTables 1 1 0 1) 1 0 = 1 := by decide +kernel
  change getPagePermsHh (mprotectHh smallTables 1 1 0 1) 1 0 = 0 at hperms
  rw [hnow] at hperms
  cases hperms

end UnedKernel.Memory
