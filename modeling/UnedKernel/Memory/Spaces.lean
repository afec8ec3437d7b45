import UnedKernel.Memory.Isolation

/-! # The directories of the kernel and of the user tasks

Directories that share page tables of the kernel half at most. Each of them
maps the pages of the user half on its own. -/

namespace UnedKernel.Memory
open BitField Radix Word

/-- Page `n` lies in the user half. -/
def UserPage (n : Nat) : Prop := n < 34359738368

theorem userPage_of_lt {v : Nat} (h : v < USERLAND_END) : UserPage (pageNumber v) := by
  unfold UserPage pageNumber
  unfold USERLAND_END at h
  omega

theorem pageNumber_of_lt {v : Nat} (h : v < USERLAND_END) : pageNumber v = v / PAGESIZE := by
  unfold pageNumber PAGESIZE
  unfold USERLAND_END at h
  exact Nat.mod_eq_of_lt (by omega)

/-- Separated directories that meet in page tables of the kernel half at most. -/
structure Spaces (m : Frames) (D : Nat → Prop) : Prop where
  wellFormed : ∀ d, D d → WellFormed m d
  meet : ∀ d e, D d → D e → d ≠ e → Meet Entry.child m d e 3
  kernel : ∀ d e, D d → D e → d ≠ e → ∀ n, TableShared m d e n → ¬ UserPage n

/-- The next `n` pages are fresh for every directory. -/
def FreshFor (s : PagingState) (D : Nat → Prop) (n : Nat) : Prop := ∀ d, D d → FreshPages s d n

theorem FreshPages.mono {s : PagingState} {d n k : Nat} (h : FreshPages s d n) (hk : k ≤ n) :
    FreshPages s d k :=
  ⟨fun j hj => h.aligned j (by omega), fun j hj => h.small j (by omega),
    fun i j hi hj => h.distinct i j hi (by omega), fun j hj => h.out j (by omega)⟩

theorem FreshFor.mono {s : PagingState} {D : Nat → Prop} {n k : Nat} (h : FreshFor s D n)
    (hk : k ≤ n) : FreshFor s D k := fun d hd => (h d hd).mono hk

/-- Pages stay fresh for a directory when some are taken and its tree stays. -/
theorem FreshPages.advance {s t : PagingState} {d n k : Nat} (h : FreshPages s d (k + n))
    (hsupply : t.supply = s.supply) (hnext : t.next = s.next + k)
    (hwalk : ∀ q, q.length ≤ 3 → walk Entry.child t.mem d q = walk Entry.child s.mem d q) :
    FreshPages t d n := by
  have hpage : ∀ j, t.supply (t.next + j) = s.supply (s.next + (k + j)) := fun j => by
    rw [hsupply, hnext, Nat.add_assoc]
  refine ⟨fun j hj => ?_, fun j hj => ?_, fun i j hi hj => ?_, fun j hj => ?_⟩
  · rw [hpage]
    exact h.aligned _ (by omega)
  · rw [hpage]
    exact h.small _ (by omega)
  · rw [hpage, hpage]
    exact h.distinct _ _ (by omega) (by omega)
  · intro q hq hw
    rw [hpage, hwalk q hq] at hw
    exact h.out _ (by omega) q hq hw

theorem enterTable_next (s : PagingState) (table i : Nat) :
    (enterTable s table i).2.supply = s.supply ∧ s.next ≤ (enterTable s table i).2.next ∧
      (enterTable s table i).2.next ≤ s.next + 1 := by
  unfold enterTable
  by_cases h : (s.mem table i).present = 0
  · simp only [if_pos h]
    exact ⟨trivial, Nat.le_succ _, le_refl _⟩
  · simp only [if_neg h]
    exact ⟨trivial, le_refl _, Nat.le_succ _⟩

/-- `map_memory_hh` requests three pages at most. -/
theorem mapMemoryHh_next {s t : PagingState} {d v p flags : Nat}
    (h : mapMemoryHh s d v p flags = .ok t) :
    t.supply = s.supply ∧ s.next ≤ t.next ∧ t.next ≤ s.next + 3 := by
  simp only [mapMemoryHh] at h
  split at h
  · cases h
  split at h
  · cases h
  obtain ⟨hs1, hl1, hu1⟩ := enterTable_next s d (addressToMap v).PDP_i
  generalize enterTable s d (addressToMap v).PDP_i = r1 at h hs1 hl1 hu1
  obtain ⟨hs2, hl2, hu2⟩ := enterTable_next r1.2 r1.1 (addressToMap v).PD_i
  generalize enterTable r1.2 r1.1 (addressToMap v).PD_i = r2 at h hs2 hl2 hu2
  obtain ⟨hs3, hl3, hu3⟩ := enterTable_next r2.2 r2.1 (addressToMap v).PT_i
  generalize enterTable r2.2 r2.1 (addressToMap v).PT_i = r3 at h hs3 hl3 hu3
  cases h
  exact ⟨(hs3.trans hs2).trans hs1, by show s.next ≤ r3.2.next; omega,
    by show r3.2.next ≤ s.next + 3; omega⟩

/-- The pages after those that `map_memory_hh` may take stay fresh for its directory. -/
theorem mapMemoryHh_fresh {s t : PagingState} {d v p flags n : Nat} (hwf : WellFormed s.mem d)
    (hfresh : FreshPages s d (n + 3)) (h : mapMemoryHh s d v p flags = .ok t) :
    FreshPages t d n := by
  have h1 := enterTable_entered hwf (walk_nil d) (by simp) hfresh (pageNumber v / 134217728 % 512)
  generalize hs1 : enterTable s d (pageNumber v / 134217728 % 512) = r1 at h1
  have h2 := enterTable_entered h1.wellFormed h1.reached (by simp) h1.fresh
    (pageNumber v / 262144 % 512)
  generalize hs2 : enterTable r1.2 r1.1 (pageNumber v / 262144 % 512) = r2 at h2
  have h3 := enterTable_entered h2.wellFormed h2.reached (by simp) h2.fresh
    (pageNumber v / 512 % 512)
  generalize hs3 : enterTable r2.2 r2.1 (pageNumber v / 512 % 512) = r3 at h3
  have hreach : walk Entry.child r3.2.mem d (pagePath (pageNumber v)) = some r3.1 := h3.reached
  simp only [mapMemoryHh, addressToMap_eq, hs1, hs2, hs3] at h
  split at h
  · cases h
  split at h
  · cases h
  cases h
  refine ⟨h3.fresh.aligned, h3.fresh.small, h3.fresh.distinct, fun k hk q hq hw => ?_⟩
  rw [walk_set_leaf h3.wellFormed hreach rfl hq] at hw
  exact h3.fresh.out k hk q hq hw

theorem enterTable_frameSized {s : PagingState} {table i : Nat} (h : FrameSized s.mem)
    (hi : i < 512) : FrameSized (enterTable s table i).2.mem := by
  intro f j hj
  unfold enterTable
  by_cases hpres : (s.mem table i).present = 0
  · simp only [if_pos hpres]
    rw [Store.set_of_ne _ (.inr (by omega))]
    by_cases hf : f = s.supply s.next >>> 12
    · rw [hf, Store.fill_same]
      exact Entry.zero_child
    · rw [Store.fill_of_ne _ _ hf]
      exact h f j hj
  · simp only [if_neg hpres]
    exact h f j hj

theorem mapMemoryHh_frameSized {s t : PagingState} {d v p flags : Nat} (hsize : FrameSized s.mem)
    (h : mapMemoryHh s d v p flags = .ok t) : FrameSized t.mem := by
  obtain ⟨r₁, r₂, r₃, e, hs1, hs2, hs3, rfl, -⟩ := mapMemoryHh_inv h
  have h1 : FrameSized r₁.2.mem := hs1 ▸ enterTable_frameSized hsize (Nat.mod_lt _ (by decide))
  have h2 : FrameSized r₂.2.mem := hs2 ▸ enterTable_frameSized h1 (Nat.mod_lt _ (by decide))
  have h3 : FrameSized r₃.2.mem := hs3 ▸ enterTable_frameSized h2 (Nat.mod_lt _ (by decide))
  intro f j hj
  have hlt : pageNumber v % 512 < 512 := Nat.mod_lt _ (by decide)
  show Entry.child (r₃.2.mem.set r₃.1 (pageNumber v % 512) e f j) = none
  rw [Store.set_of_ne _ (.inr (by omega))]
  exact h3 f j hj

namespace Spaces

variable {D : Nat → Prop} {d v p : Nat}

/-- One directory. -/
theorem single {m : Frames} (h : WellFormed m d) : Spaces m fun e => e = d := by
  refine ⟨?_, ?_, ?_⟩
  · rintro e rfl
    exact h
  · rintro a b rfl rfl hab
    exact absurd rfl hab
  · rintro a b rfl rfl hab
    exact absurd rfl hab

theorem twins {m : Frames} (h : Spaces m D) {a b : Nat} (ha : D a) (hb : D b) (hab : a ≠ b) :
    Twins m a b := ⟨h.wellFormed a ha, h.wellFormed b hb, h.meet a b ha hb hab⟩

/-- An operation on one page of directory `d` leaves the trees of the others as they are. -/
theorem of_onTwin {m m' : Frames} {n : Nat} (h : Spaces m D) (hwf : WellFormed m' d)
    (hon : ∀ e, D e → d ≠ e → OnTwin m m' d e n) :
    Spaces m' D ∧ ∀ a b, D a → D b → a ≠ b → ∀ k, TableShared m' a b k ↔ TableShared m a b k := by
  have hshared : ∀ a b, D a → D b → a ≠ b → ∀ k, TableShared m' a b k ↔ TableShared m a b k := by
    intro a b ha hb hab k
    by_cases hda : d = a
    · subst hda
      exact (hon b hb hab).shared k
    by_cases hdb : d = b
    · subst hdb
      exact ⟨fun hs => (((hon a ha hda).shared k).mp hs.symm).symm,
        fun hs => (((hon a ha hda).shared k).mpr hs.symm).symm⟩
    · rw [TableShared, TableShared, (hon a ha hda).walk _ (le_refl 3),
        (hon b hb hdb).walk _ (le_refl 3)]
  refine ⟨⟨fun e he => ?_, fun a b ha hb hab => ?_, fun a b ha hb hab k hs =>
    h.kernel a b ha hb hab k ((hshared a b ha hb hab k).mp hs)⟩, hshared⟩
  · by_cases hde : d = e
    · exact hde ▸ hwf
    · exact (hon e he hde).twins.right
  · by_cases hda : d = a
    · subst hda
      exact (hon b hb hab).twins.meet
    by_cases hdb : d = b
    · subst hdb
      exact (hon a ha hda).twins.meet.symm
    · exact (h.meet a b ha hb hab).congr (hon a ha hda).walk (hon b hb hdb).walk

/-- What `map_memory_hh` does: the directories that share the page table see it too. -/
structure MappedIn (s t : PagingState) (D : Nat → Prop) (d n frame perms : Nat) : Prop where
  spaces : Spaces t.mem D
  supply : t.supply = s.supply
  le : s.next ≤ t.next
  bound : t.next ≤ s.next + 3
  shared : ∀ a b, D a → D b → a ≠ b → ∀ k, TableShared t.mem a b k ↔ TableShared s.mem a b k
  upper : ∀ e, D e → d ≠ e → ∀ P, Upper Entry.child s.mem e 3 P → Upper Entry.child t.mem e 3 P
  same : ∀ e, D e → d ≠ e → ¬ TableShared s.mem d e n → AgreeOn Entry.child s.mem t.mem e 3
  new : ∀ e, D e → e = d ∨ TableShared s.mem d e n → mappingOf t.mem e n = some ⟨frame, perms⟩
  old : ∀ e, D e → ∀ k, k < 68719476736 → (k = n → e ≠ d ∧ ¬ TableShared s.mem d e n) →
    mappingOf t.mem e k = mappingOf s.mem e k
  path : ∀ e, D e → ∀ k, pagePath k ≠ pagePath n →
    walk Entry.child t.mem e (pagePath k) = walk Entry.child s.mem e (pagePath k)
  fresh : ∀ k, FreshFor s D (k + 3) → FreshFor t D k

theorem mapIn (flags : Nat) {s : PagingState} (h : Spaces s.mem D) (hd : D d)
    (hfresh : FreshFor s D 3) (hv : v % PAGESIZE = 0) (hp : p % PAGESIZE = 0)
    (hsmall : p < 1099511627776) : ∃ t, mapMemoryHh s d v p flags = .ok t ∧
      MappedIn s t D d (pageNumber v) (p >>> 12) (flags % 16) := by
  obtain ⟨t, ht, hwf, hspec⟩ := mapMemoryHh_spec flags (h.wellFormed d hd) (hfresh d hd) hv hp hsmall
  have hon : ∀ e, D e → d ≠ e → OnTwin s.mem t.mem d e (pageNumber v) := fun e he hne =>
    mapMemoryHh_twin (h.twins hd he hne) (hfresh d hd) (hfresh e he) ht
  obtain ⟨hspaces, hshared⟩ := h.of_onTwin hwf hon
  obtain ⟨hsupply, hle, hbound⟩ := mapMemoryHh_next ht
  refine ⟨t, ht, hspaces, hsupply, hle, hbound, hshared, fun e he hne => (hon e he hne).upper,
    fun e he hne => (hon e he hne).agree, fun e he hn => ?_, fun e he k hk hn => ?_,
    fun e he k hne => ?_, fun k hk e he => ?_⟩
  · have hnew : mappingOf t.mem d (pageNumber v) = some ⟨p >>> 12, flags % 16⟩ := by
      rw [hspec _ (pageNumber_lt v), if_pos rfl]
    by_cases hde : d = e
    · exact hde ▸ hnew
    · rw [(((hon e he hde).shared _).mpr (hn.resolve_left (Ne.symm hde))).mappingOf_eq, hnew]
  · by_cases hde : d = e
    · subst hde
      rw [hspec k hk, if_neg fun hkn => (hn hkn).1 rfl]
    · exact (hon e he hde).same k hk fun hkn => (hn hkn).2
  · by_cases hde : d = e
    · exact hde ▸ mapMemoryHh_path (h.wellFormed d hd) (hfresh d hd) ht hne
    · exact (hon e he hde).walk _ (le_refl 3)
  · by_cases hde : d = e
    · subst hde
      exact mapMemoryHh_fresh (h.wellFormed d hd) (hk d hd) ht
    · obtain ⟨j, hj⟩ := Nat.exists_eq_add_of_le hle
      have hmore : FreshPages s e (j + k) := (hk e he).mono (by omega)
      exact hmore.advance hsupply hj (hon e he hde).walk

/-- The kernel half stays: what is mapped there, and which page tables are shared. -/
structure KernelSame (D : Nat → Prop) (m m' : Frames) : Prop where
  shared : ∀ a b, D a → D b → a ≠ b → ∀ k, TableShared m' a b k ↔ TableShared m a b k
  mapping : ∀ e, D e → ∀ k, k < 68719476736 → ¬ UserPage k → mappingOf m' e k = mappingOf m e k

theorem KernelSame.refl (m : Frames) : KernelSame D m m :=
  ⟨fun _ _ _ _ _ _ => Iff.rfl, fun _ _ _ _ _ => rfl⟩

theorem KernelSame.trans {m m' m'' : Frames} (h : KernelSame D m m') (h' : KernelSame D m' m'') :
    KernelSame D m m'' :=
  ⟨fun a b ha hb hab k => (h'.shared a b ha hb hab k).trans (h.shared a b ha hb hab k),
    fun e he k hk hn => (h'.mapping e he k hk hn).trans (h.mapping e he k hk hn)⟩

/-- What `map_memory_hh` does on a page of the user half. -/
structure Mapped (s t : PagingState) (D : Nat → Prop) (d n frame perms : Nat) : Prop where
  spaces : Spaces t.mem D
  supply : t.supply = s.supply
  le : s.next ≤ t.next
  bound : t.next ≤ s.next + 3
  same : ∀ e, D e → d ≠ e → AgreeOn Entry.child s.mem t.mem e 3
  mapping : ∀ e, D e → ∀ k, k < 68719476736 → mappingOf t.mem e k =
    if e = d ∧ k = n then some ⟨frame, perms⟩ else mappingOf s.mem e k
  kernel : KernelSame D s.mem t.mem
  fresh : ∀ k, FreshFor s D (k + 3) → FreshFor t D k

/-- A page table of the user half is not shared. -/
theorem MappedIn.mapped {s t : PagingState} {n frame perms : Nat} (h : Spaces s.mem D) (hd : D d)
    (huser : UserPage n) (hmap : MappedIn s t D d n frame perms) :
    Mapped s t D d n frame perms := by
  have hown : ∀ e, D e → d ≠ e → ¬ TableShared s.mem d e n := fun e he hne hs =>
    h.kernel d e hd he hne _ hs huser
  refine ⟨hmap.spaces, hmap.supply, hmap.le, hmap.bound,
    fun e he hne => hmap.same e he hne (hown e he hne), fun e he k hk => ?_,
    ⟨hmap.shared, fun e he k hk hn => hmap.old e he k hk fun hkn => absurd (hkn ▸ huser) hn⟩,
    hmap.fresh⟩
  by_cases hn : e = d ∧ k = n
  · obtain ⟨rfl, rfl⟩ := hn
    rw [if_pos ⟨rfl, rfl⟩, hmap.new e he (.inl rfl)]
  · rw [if_neg hn, hmap.old e he k hk fun hkn => ?_]
    have hne : e ≠ d := fun hed => hn ⟨hed, hkn⟩
    exact ⟨hne, hown e he hne.symm⟩

theorem map (flags : Nat) {s : PagingState} (h : Spaces s.mem D) (hd : D d) (hfresh : FreshFor s D 3)
    (hv : v % PAGESIZE = 0) (hp : p % PAGESIZE = 0) (hsmall : p < 1099511627776)
    (huser : UserPage (pageNumber v)) :
    ∃ t, mapMemoryHh s d v p flags = .ok t ∧
      Mapped s t D d (pageNumber v) (p >>> 12) (flags % 16) := by
  obtain ⟨t, ht, hmap⟩ := h.mapIn flags hd hfresh hv hp hsmall
  exact ⟨t, ht, hmap.mapped h hd huser⟩

/-- What `duplicate_current_kernel_pml4` adds to the directories: one with an empty user half. -/
structure DirectoryAdded (s t : PagingState) (D : Nat → Prop) (father pml : Nat) : Prop where
  new : ¬ D pml
  spaces : Spaces t.mem fun d => D d ∨ d = pml
  supply : t.supply = s.supply
  le : s.next ≤ t.next
  bound : t.next ≤ s.next + duplicatePages
  same : ∀ e, D e → AgreeOn Entry.child s.mem t.mem e 3
  zero : ∀ i, i < 256 → t.mem pml i = 0
  tables : ∀ k, k < 68719476736 → (TableShared t.mem father pml k ↔
    ¬ UserPage k ∧ walk Entry.child s.mem father (pagePath k) ≠ none)
  fresh : ∀ n, FreshFor s D (duplicatePages + n) → FreshFor t (fun d => D d ∨ d = pml) n

theorem duplicate {s t : PagingState} {father pml : Nat} (h : Spaces s.mem D) (hfather : D father)
    (hsize : FrameSized s.mem) (hfresh : FreshFor s D duplicatePages)
    (hdup : duplicateCurrentKernelPml4 s father = .ok (pml, t)) : DirectoryAdded s t D father pml := by
  have hspec := duplicatePd_spec (h.wellFormed father hfather) (hfresh father hfather) hsize
    (by decide) (by decide) hdup
  have hlt := hspec.lt
  have hbound := hspec.bound
  have hout : ∀ e, D e → ∀ x, s.next ≤ x → x < t.next →
      Outside Entry.child s.mem e 3 (s.frame x) := fun e he x hlo hhi =>
    (hfresh e he).freshFrames.out x hlo (by omega)
  have hagree : ∀ e, D e → AgreeOn Entry.child s.mem t.mem e 3 := fun e he f hf =>
    hspec.same f fun x hlo hhi heq => hf (heq ▸ hout e he x hlo hhi)
  have hnew : ¬ D pml := fun hpml =>
    hout pml hpml s.next (le_refl _) hlt [] (Nat.zero_le 3) (by rw [hspec.root]; rfl)
  -- a table of the duplicate that another directory has is one of the original
  have hmeet : ∀ e, D e → Meet Entry.child t.mem e pml 3 := by
    intro e he
    by_cases hef : e = father
    · subst hef
      exact hspec.meet
    · intro p q f hp hq hwp hwq
      rw [(hagree e he).walk_eq (by omega)] at hwp
      rcases Nat.lt_or_ge 2 q.length with hlen | hlen
      · exact h.meet e father he hfather hef p q f hp hq hwp (hspec.last q f (by omega) hwq)
      · obtain ⟨x, hlo, hhi, rfl⟩ := hspec.own q f hlen hwq
        exact absurd hwp (hout e he x hlo hhi p hp)
  have hkernel : ∀ e n, TableShared t.mem e pml n → ¬ UserPage n := by
    rintro e n ⟨pt, -, hw⟩ hn
    have hi : n / 134217728 % 512 < 256 := by
      unfold UserPage at hn
      omega
    rw [walk_path, hspec.zero _ (.inl hi), Entry.zero_child] at hw
    cases hw
  refine ⟨hnew, ⟨?_, ?_, ?_⟩, hspec.supply, Nat.le_of_lt hlt, hbound, hagree,
    fun i hi => hspec.zero i (.inl hi), fun k hk => ?_, fun n hn e he => ?_⟩
  · rintro d (hd | rfl)
    · exact (hagree d hd).separated (h.wellFormed d hd)
    · exact hspec.wellFormed
  · rintro d e (hd | rfl) (he | rfl) hde
    · exact (h.meet d e hd he hde).congr (fun p hp => (hagree d hd).walk_eq (by omega))
        fun p hp => (hagree e he).walk_eq (by omega)
    · exact hmeet d hd
    · exact (hmeet e he).symm
    · exact absurd rfl hde
  · rintro d e (hd | rfl) (he | rfl) hde n hs
    · obtain ⟨pt, hwd, hwe⟩ := hs
      rw [(hagree d hd).walk_eq (q := pagePath n) (Nat.le_succ 3)] at hwd
      rw [(hagree e he).walk_eq (q := pagePath n) (Nat.le_succ 3)] at hwe
      exact h.kernel d e hd he hde n ⟨pt, hwd, hwe⟩
    · exact hkernel d n hs
    · exact hkernel e n hs.symm
    · exact absurd rfl hde
  · by_cases huser : UserPage k
    · exact ⟨fun hs => absurd huser (hkernel father k hs), fun hs => absurd huser hs.1⟩
    · have hupper : 256 ≤ k / 134217728 % 512 := by
        unfold UserPage at huser
        omega
      have hwalk : walk Entry.child t.mem pml (pagePath k) =
          walk Entry.child s.mem father (pagePath k) :=
        hspec.shared _ _ _ hupper (Nat.mod_lt _ (by decide))
      rw [TableShared, (hagree father hfather).walk_eq (q := pagePath k) (Nat.le_succ 3), hwalk]
      constructor
      · rintro ⟨pt, hw, -⟩
        refine ⟨huser, ?_⟩
        rw [hw]
        exact Option.some_ne_none pt
      · intro hs
        obtain ⟨pt, hw⟩ := Option.ne_none_iff_exists'.mp hs.2
        exact ⟨pt, hw, hw⟩
  · obtain ⟨hpml, -⟩ := hspec.freshPages (hn father hfather)
    rcases he with he | rfl
    · obtain ⟨j, hj⟩ := Nat.exists_eq_add_of_lt hlt
      have hmore : FreshPages s e (j + 1 + n) := (hn e he).mono (by omega)
      exact hmore.advance hspec.supply hj fun q hq => (hagree e he).walk_eq (Nat.le_succ_of_le hq)
    · exact hpml

end Spaces
end UnedKernel.Memory
