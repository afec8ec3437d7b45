import UnedKernel.Memory.Access
import UnedKernel.Memory.DuplicateTranslation
import UnedKernel.Proc.LoaderImage

/-! # The tables of the kernel

`init_paging` of `paging.c`. The directory of the bootloader is duplicated, and
all memory is mapped behind it at `IDENTITY_MAP_START`. The tables of that map
are new, so that the addresses of the bootloader lead where they led. -/

namespace UnedKernel.Memory
open BitField Radix Word Proc

/-! ## `init_paging` -/

/-- The block that `_map_memory` repeats for each level. It looks at the address of the page itself. -/
def enterOrPanic (s : PagingState) (table i : Nat) (message : String) :
    Except Panic (Nat × PagingState) :=
  if (s.mem table i).present = 0 ∧ s.supply s.next = 0 then .error ⟨message⟩
  else .ok (enterTable s table i)

/-- `_map_memory`. -/
def mapMemory (s : PagingState) (pml4 virtualMemory physicalMemory flags : Nat) :
    Except Panic PagingState :=
  if virtualMemory % PAGESIZE ≠ 0 then
    .error ⟨"map_memory: virtual_memory must be aligned to 0x1000"⟩
  else if physicalMemory % PAGESIZE ≠ 0 then
    .error ⟨"map_memory: physical_memory must be aligned to 0x1000"⟩
  else do
    let map := addressToMap virtualMemory
    let (pdp, s) ← enterOrPanic s pml4 map.PDP_i "ERROR: Could not allocate page for new PDP\n"
    let (pd, s) ← enterOrPanic s pdp map.PD_i "ERROR: Could not allocate page for new PD\n"
    let (pt, s) ← enterOrPanic s pd map.PT_i "ERROR: Could not allocate page for new PT\n"
    let pte := s.mem pt map.P_i
    let pte := (pte.setPagePpn (physicalMemory >>> 12)).setPresent 1
    let pte := pte.setWriteable (flags &&& PAGE_WRITE_BIT)
    let pte := pte.setUserAccess ((flags &&& PAGE_USER_BIT) >>> 1)
    let pte := pte.setExecutionDisabled ((flags &&& PAGE_NX_BIT) >>> 2)
    let pte := pte.setCacheDisabled ((flags &&& PAGE_CACHE_DISABLE) >>> 3)
    return { s with mem := s.mem.set pt map.P_i pte }

/-- The loop over `n` pages of memory from address `i` on. -/
def mapPages (pml4 : Nat) : (n i : Nat) → PagingState → Except Panic PagingState
  | 0, _, s => .ok s
  | n + 1, i, s => do
    let s ← mapMemory s pml4 (u64 (i + IDENTITY_MAP_START)) i PAGE_WRITE_BIT
    mapPages pml4 n (i + PAGESIZE) s

/-- `init_paging`, with the directory `original` of the bootloader. -/
def initPaging (s : PagingState) (original lastPage : Nat) : Except Panic (Nat × PagingState) := do
  let (pml4, s) ← requestPage s "ERROR: Could not allocate page for PML4\n"
  let s ← duplicateDirectories original pml4 0 512 { s with mem := s.mem.fill pml4 0 }
  let s ← mapPages pml4 ((lastPage + (PAGESIZE - 1)) / PAGESIZE) 0 s
  return (pml4, s)

/-! ## The part of the map -/

/-- The slots of a directory that addresses below `2 ^ 40` take behind `IDENTITY_MAP_START`. -/
def DirectSlot (i : Nat) : Prop := 320 ≤ i ∧ i < 322

instance (i : Nat) : Decidable (DirectSlot i) := inferInstanceAs (Decidable (_ ∧ _))

/-- Memory where the directory `pml` has these slots only. -/
def directPart (pml : Nat) (m : Frames) : Frames := fun f i =>
  if f = pml ∧ ¬ DirectSlot i then 0 else m f i

def PagingState.direct (s : PagingState) (pml : Nat) : PagingState :=
  { s with mem := directPart pml s.mem }

section direct

variable {m : Frames} {s : PagingState} {pml f i table : Nat} {e : Entry}

theorem directPart_apply (h : f = pml → DirectSlot i) : directPart pml m f i = m f i :=
  if_neg fun hand => hand.2 (h hand.1)

theorem directPart_of_ne (h : f ≠ pml) : directPart pml m f = m f :=
  funext fun _ => directPart_apply fun heq => absurd heq h

theorem directPart_set (h : f = pml → DirectSlot i) :
    directPart pml (m.set f i e) = (directPart pml m).set f i e := by
  funext g j
  simp only [directPart, Store.set]
  by_cases hcell : g = f ∧ j = i
  · obtain ⟨rfl, rfl⟩ := hcell
    rw [if_neg fun hand => hand.2 (h hand.1), if_pos ⟨rfl, rfl⟩, if_pos ⟨rfl, rfl⟩]
  · rw [if_neg hcell, if_neg hcell]

theorem directPart_fill (h : f ≠ pml) :
    directPart pml (m.fill f e) = (directPart pml m).fill f e := by
  funext g j
  simp only [directPart, Store.fill]
  by_cases hg : g = f
  · rw [if_neg fun hand => h (hg.symm.trans hand.1), if_pos hg, if_pos hg]
  · rw [if_neg hg, if_neg hg]

/-- Entering a table of the map does not see the other slots. -/
theorem enterTable_direct (h : table = pml → DirectSlot i) (hne : s.frame s.next ≠ pml) :
    enterTable (s.direct pml) table i =
      ((enterTable s table i).1, (enterTable s table i).2.direct pml) := by
  have hentry : (s.direct pml).mem table i = s.mem table i := directPart_apply h
  by_cases hdead : (s.mem table i).present = 0
  · have hmem : directPart pml ((s.mem.fill (s.frame s.next) 0).set table i
        (Entry.hung (s.mem table i) (s.frame s.next))) =
        ((directPart pml s.mem).fill (s.frame s.next) 0).set table i
          (Entry.hung (s.mem table i) (s.frame s.next)) := by
      rw [directPart_set h, directPart_fill hne]
    simp only [enterTable, hentry, if_pos hdead]
    exact Prod.ext rfl (congrArg (PagingState.mk · s.supply (s.next + 1)) hmem.symm)
  · simp only [enterTable, hentry, if_neg hdead]

/-- Entering a table writes its entry and the page that is new. -/
theorem enterTable_other {g j : Nat} (hcell : ¬ (g = table ∧ j = i))
    (hpage : (enterTable s table i).2.next ≠ s.next → g ≠ s.frame s.next) :
    (enterTable s table i).2.mem g j = s.mem g j := by
  by_cases hdead : (s.mem table i).present = 0
  · simp only [enterTable, if_pos hdead] at hpage ⊢
    rw [Store.set_of_ne _ (by tauto)]
    exact Store.fill_of_ne j 0 (hpage (Nat.succ_ne_self _))
  · simp only [enterTable, if_neg hdead]

/-- A table that is there is entered without a new one. -/
theorem enterTable_child (h : Entry.child (s.mem table i) = some f) : enterTable s table i = (f, s) := by
  unfold Entry.child at h
  unfold enterTable
  split at h
  · cases h
  · next hlive =>
    simp only [if_neg hlive]
    rw [Option.some.inj h]

end direct

/-! ## The tables of the map -/

/-- The entry is empty, or leads to a table that `_map_memory` has made. -/
def Hung (e : Entry) : Prop := e = 0 ∨ ∃ f, e = Entry.hung 0 f

theorem hung_present (e : Entry) (f : Nat) : (e.hung f).present ≠ 0 := by
  rw [Entry.hung, Entry.present, Entry.setUserAccess, field_setField_apart _ _ (by omega) (by omega),
    Entry.setWriteable, field_setField_apart _ _ (by omega) (by omega), Entry.setPresent,
    field_setField_same _ _ (by omega)]
  decide

/-- The pages with numbers up to `limit` that `request_page` returns: none of them is `pml`. -/
structure DirectPages (t : PagingState) (pml limit : Nat) : Prop where
  nonzero : ∀ x, t.next ≤ x → x < limit → t.supply x ≠ 0
  aligned : ∀ x, t.next ≤ x → x < limit → t.supply x % PAGESIZE = 0
  small : ∀ x, t.next ≤ x → x < limit → t.supply x < 1099511627776
  distinct : ∀ x y, t.next ≤ x → x < y → y < limit → t.supply x ≠ t.supply y
  out : ∀ x, t.next ≤ x → x < limit → t.frame x ≠ pml

/-- What has become of `t` while memory is mapped: the map is a tree of new tables, and nothing else
has changed. -/
structure Boot (t u : PagingState) (pml : Nat) : Prop where
  supply : u.supply = t.supply
  le : t.next ≤ u.next
  kept : ∀ g j, (g = pml → ¬ DirectSlot j) → (∀ x, t.next ≤ x → x < u.next → g ≠ t.frame x) →
    u.mem g j = t.mem g j
  wellFormed : WellFormed (directPart pml u.mem) pml
  own : ∀ q f, q ≠ [] → q.length ≤ 3 → walk Entry.child (directPart pml u.mem) pml q = some f →
    ∃ x, t.next ≤ x ∧ x < u.next ∧ f = t.frame x
  upper : Upper Entry.child (directPart pml u.mem) pml 3 fun _ e => Hung e

section boot

variable {s t u : PagingState} {pml limit n k table i : Nat} {p : List Nat}

theorem DirectPages.frame_ne (h : DirectPages t pml limit) {x y : Nat} (hx : t.next ≤ x) (hxy : x < y)
    (hy : y < limit) : t.frame x ≠ t.frame y := by
  have hax := h.aligned x hx (by omega)
  have hay := h.aligned y (by omega) hy
  have hne := h.distinct x y hx hxy hy
  simp only [PagingState.frame, Nat.shiftRight_eq_div_pow]
  unfold PAGESIZE at hax hay
  omega

theorem Boot.frame_eq (h : Boot t u pml) : u.frame = t.frame := PagingState.frame_congr h.supply

/-- The pages that are left are fresh for the map. -/
theorem Boot.fresh (h : Boot t u pml) (hpages : DirectPages t pml limit) (hlimit : u.next + k ≤ limit) :
    FreshPages (u.direct pml) pml k := by
  have hle := h.le
  have hpage : ∀ x, (u.direct pml).supply x = t.supply x := fun x => congrFun h.supply x
  refine ⟨fun j hj => ?_, fun j hj => ?_, fun i j hi hj => ?_, fun j hj => ?_⟩
  · rw [hpage]
    exact hpages.aligned _ (by show t.next ≤ u.next + j; omega) (by show u.next + j < limit; omega)
  · rw [hpage]
    exact hpages.small _ (by show t.next ≤ u.next + j; omega) (by show u.next + j < limit; omega)
  · rw [hpage, hpage]
    exact hpages.distinct _ _ (by show t.next ≤ u.next + i; omega) (by show u.next + i < u.next + j; omega)
      (by show u.next + j < limit; omega)
  · intro q hq hw
    rw [hpage] at hw
    by_cases hnil : q = []
    · rw [hnil] at hw
      exact hpages.out (u.next + j) (by omega) (by omega) (Option.some.inj hw).symm
    · obtain ⟨x, hlo, hhi, heq⟩ := h.own q _ hnil hq hw
      exact hpages.frame_ne hlo (show x < u.next + j by omega) (by omega) heq.symm

/-- The root is reached by no step. -/
theorem Boot.table_ne (h : Boot t u pml) (hp : p.length ≤ 3) (hnil : p ≠ [])
    (hw : walk Entry.child (directPart pml u.mem) pml p = some table) : table ≠ pml := by
  rintro rfl
  exact hnil (h.wellFormed p [] table hp (Nat.zero_le 3) hw rfl)

/-- A new table hangs under an entry that was empty. -/
theorem enterTable_hung {d : Nat} (h : Upper Entry.child s.mem d 3 fun _ e => Hung e)
    (hwf : WellFormed s.mem d) (hw : walk Entry.child s.mem d p = some table) (hp : p.length + 1 ≤ 3)
    (hfresh : FreshPages s d (n + 1)) (i : Nat) :
    Upper Entry.child (enterTable s table i).2.mem d 3 fun _ e => Hung e := by
  unfold enterTable
  by_cases hpres : (s.mem table i).present = 0
  · simp only [if_pos hpres]
    have hout := hfresh.out 0 (by omega)
    rw [Nat.add_zero] at hout
    have hsmall := hfresh.small 0 (by omega)
    rw [Nat.add_zero] at hsmall
    generalize hc : s.supply s.next >>> 12 = c at hout
    have hc28 : c < 268435456 := by rw [← hc, Nat.shiftRight_eq_div_pow]; omega
    have htc : table ≠ c := by
      rintro rfl
      exact hout p (by omega) hw
    have hagree : AgreeOn Entry.child s.mem (s.mem.fill c 0) d 3 := agreeOn_fill hout
    have hw' : walk Entry.child (s.mem.fill c 0) d p = some table := by
      rw [walk_fill hout (by omega), hw]
    have hold : Entry.child (s.mem.fill c 0 table i) = none := by
      rw [Store.fill_of_ne i 0 htc, Entry.child, if_pos hpres]
    have hempty : ∀ j, Entry.child (s.mem.fill c 0 c j) = none := fun j => by
      rw [Store.fill_same]; exact Entry.zero_child
    have hzero : s.mem table i = 0 := by
      rcases h p table i (by omega) hw with hzero | ⟨f, hf⟩
      · exact hzero
      · exact absurd (hf ▸ hpres) (hung_present 0 f)
    exact Upper.hang (h.agree hagree) (hwf.fill hout 0) (hout.fill hout 0) hw' hp hold
      (Entry.child_fresh (s.mem table i) hc28) hempty (.inr ⟨c, hzero ▸ rfl⟩)
      fun j => .inl (Store.fill_same c j 0)
  · simp only [if_neg hpres]
    exact h

/-- What entering a table of the map leaves. -/
structure EnteredBoot (t u : PagingState) (pml : Nat) (p : List Nat) (r : Nat × PagingState) : Prop where
  boot : Boot t r.2 pml
  reached : walk Entry.child (directPart pml r.2.mem) pml p = some r.1
  same : ∀ k, mappingOf (directPart pml r.2.mem) pml k = mappingOf (directPart pml u.mem) pml k
  le : u.next ≤ r.2.next
  bound : r.2.next ≤ u.next + 1
  there : walk Entry.child (directPart pml u.mem) pml p ≠ none → r.2 = u

theorem Boot.enter (h : Boot t u pml) (hpages : DirectPages t pml limit) (hlimit : u.next + (n + 1) ≤ limit)
    (hw : walk Entry.child (directPart pml u.mem) pml p = some table) (hp : p.length + 1 ≤ 3)
    (hslot : p = [] → DirectSlot i) : EnteredBoot t u pml (p ++ [i]) (enterTable u table i) := by
  have hle := h.le
  have hroot : table = pml → DirectSlot i := fun heq => hslot (by
    by_contra hnil
    exact h.table_ne (by omega) hnil hw heq)
  have hnext : u.frame u.next ≠ pml := h.frame_eq ▸ hpages.out u.next hle (by omega)
  have hdirect := enterTable_direct hroot hnext
  have hfresh : FreshPages (u.direct pml) pml (n + 1) := h.fresh hpages (by omega)
  have hentered := enterTable_entered h.wellFormed hw hp hfresh i
  have hupper := enterTable_hung h.upper h.wellFormed hw hp hfresh i
  have hwalk {q : List Nat} (hq : q.length ≤ 3) (hne : q ≠ p ++ [i]) :=
    enterTable_walk h.wellFormed hw hp (h.fresh hpages (by omega) : FreshPages (u.direct pml) pml 1) hq hne
  rw [hdirect] at hentered hupper
  simp only [hdirect] at hwalk
  obtain ⟨hsupply, hgrow, hbound⟩ := enterTable_next u table i
  have hentry : directPart pml u.mem table i = u.mem table i := directPart_apply hroot
  have hold : walk Entry.child (directPart pml u.mem) pml (p ++ [i]) = Entry.child (u.mem table i) := by
    rw [walk_concat hw, hentry]
  have hthere : ∀ f, Entry.child (u.mem table i) = some f → enterTable u table i = (f, u) :=
    fun f hf => enterTable_child hf
  refine ⟨⟨hsupply.trans h.supply, by omega, fun g j hg hframe => ?_, hentered.wellFormed,
    fun q f hnil hq hwq => ?_, hupper⟩, hentered.reached, hentered.same, hgrow, hbound, fun hne => ?_⟩
  · rw [enterTable_other (fun hcell => ?_) fun hnew => ?_]
    · exact h.kept g j hg fun x hlo hhi => hframe x hlo (by omega)
    · obtain ⟨rfl, rfl⟩ := hcell
      by_cases hnil : p = []
      · subst hnil
        exact hg (Option.some.inj hw).symm (hslot rfl)
      · obtain ⟨x, hlo, hhi, heq⟩ := h.own p g hnil (by omega) hw
        exact hframe x hlo (by omega) heq
    · rw [h.frame_eq]
      exact hframe u.next hle (by omega)
  · by_cases hqp : q = p ++ [i]
    · cases hchild : Entry.child (u.mem table i) with
      | some c =>
        rw [hthere c hchild] at hwq ⊢
        exact h.own q f hnil hq hwq
      | none =>
        have hdead : (u.mem table i).present = 0 := by
          by_contra hlive
          rw [Entry.child_of_live hlive] at hchild
          cases hchild
        have hf : f = (enterTable u table i).1 := by
          have hreached := hentered.reached
          rw [← hqp] at hreached
          exact Option.some.inj (hwq.symm.trans hreached)
        simp only [enterTable, if_pos hdead] at hf ⊢
        refine ⟨u.next, hle, Nat.lt_succ_self _, hf.trans ?_⟩
        rw [← h.frame_eq]
        rfl
    · have hwq' := (hwalk hq hqp).symm.trans hwq
      obtain ⟨x, hlo, hhi, heq⟩ := h.own q f hnil hq hwq'
      exact ⟨x, hlo, by omega, heq⟩
  · rw [hold] at hne
    obtain ⟨f, hf⟩ := Option.ne_none_iff_exists'.mp hne
    rw [hthere f hf]

theorem enterOrPanic_ok {message : String} (h : s.supply s.next ≠ 0) :
    enterOrPanic s table i message = .ok (enterTable s table i) := if_neg fun hand => h hand.2

/-- Writing an entry of a page table of the map. -/
theorem Boot.set_leaf (h : Boot t u pml) (hw : walk Entry.child (directPart pml u.mem) pml p = some table)
    (hp : p.length = 3) (e : Entry) : Boot t { u with mem := u.mem.set table i e } pml := by
  have hnil : p ≠ [] := by
    rintro rfl
    cases hp
  have hset : directPart pml (u.mem.set table i e) = (directPart pml u.mem).set table i e :=
    directPart_set fun heq => absurd heq (h.table_ne (by omega) hnil hw)
  refine ⟨h.supply, h.le, fun g j hg hframe => ?_, ?_, fun q f hq hlen hwq => ?_, ?_⟩
  · obtain ⟨x, hlo, hhi, heq⟩ := h.own p table hnil (by omega) hw
    have hne : g ≠ table := heq ▸ hframe x hlo hhi
    exact (Store.set_of_ne e (.inl hne)).trans (h.kept g j hg hframe)
  · show WellFormed (directPart pml (u.mem.set table i e)) pml
    rw [hset]
    exact h.wellFormed.set_leaf hw hp i e
  · change walk Entry.child (directPart pml (u.mem.set table i e)) pml q = some f at hwq
    rw [hset, walk_set_leaf h.wellFormed hw hp hlen] at hwq
    exact h.own q f hq hlen hwq
  · show Upper Entry.child (directPart pml (u.mem.set table i e)) pml 3 _
    rw [hset]
    exact h.upper.set_leaf h.wellFormed hw hp

/-- A walk that goes on has gone as far. -/
theorem walk_take {m : Frames} {r : Nat} {p q : List Nat} (h : walk Entry.child m r (p ++ q) ≠ none) :
    walk Entry.child m r p ≠ none := by
  intro hnone
  rw [walk_append, hnone] at h
  exact h rfl

/-- Mapping a page of memory: only this page is new in the map, and only tables that were not
there are made. -/
theorem Boot.map (h : Boot t u pml) (hpages : DirectPages t pml limit) (hlimit : u.next + 3 ≤ limit)
    {v a : Nat} (flags : Nat) (hv : v % PAGESIZE = 0) (ha : a % PAGESIZE = 0) (hsmall : a < 1099511627776)
    (hslot : DirectSlot (pageNumber v / 134217728 % 512)) :
    ∃ w, mapMemory u pml v a flags = .ok w ∧ Boot t w pml ∧
      (∀ k, k < 68719476736 → mappingOf (directPart pml w.mem) pml k =
        if k = pageNumber v then some ⟨a >>> 12, flags % 16⟩ else mappingOf (directPart pml u.mem) pml k) ∧
      ∀ d, d ≤ 3 → walk Entry.child (directPart pml u.mem) pml ((pagePath (pageNumber v)).take d) ≠ none →
        w.next + d ≤ u.next + 3 := by
  have hle := h.le
  generalize hn : pageNumber v = n at hslot ⊢
  have h1 : EnteredBoot t u pml [n / 134217728 % 512] (enterTable u pml (n / 134217728 % 512)) :=
    h.enter hpages hlimit (walk_nil pml) (by simp) fun _ => hslot
  have hd1 : enterTable (u.direct pml) pml (n / 134217728 % 512) = _ :=
    enterTable_direct (fun _ => hslot) (h.frame_eq ▸ hpages.out u.next hle (by omega))
  have hz1 : u.supply u.next ≠ 0 := h.supply ▸ hpages.nonzero u.next hle (by omega)
  generalize hr1 : enterTable u pml (n / 134217728 % 512) = r1 at h1 hd1
  obtain ⟨pdp, s1⟩ := r1
  obtain ⟨b1, w1, m1, l1, u1, e1⟩ := h1
  simp only at b1 w1 m1 l1 u1 e1 hd1
  have hne1 := b1.table_ne (by simp) (by simp) w1
  have h2 : EnteredBoot t s1 pml [n / 134217728 % 512, n / 262144 % 512]
      (enterTable s1 pdp (n / 262144 % 512)) :=
    b1.enter hpages (show s1.next + (1 + 1) ≤ limit by omega) w1 (by simp) (by simp)
  have hd2 : enterTable (s1.direct pml) pdp (n / 262144 % 512) = _ :=
    enterTable_direct (fun heq => absurd heq hne1)
      (b1.frame_eq ▸ hpages.out s1.next b1.le (by omega))
  have hz2 : s1.supply s1.next ≠ 0 := b1.supply ▸ hpages.nonzero s1.next b1.le (by omega)
  generalize hr2 : enterTable s1 pdp (n / 262144 % 512) = r2 at h2 hd2
  obtain ⟨pd, s2⟩ := r2
  obtain ⟨b2, w2, m2, l2, u2, e2⟩ := h2
  simp only at b2 w2 m2 l2 u2 e2 hd2
  have hne2 := b2.table_ne (by simp) (by simp) w2
  have h3 : EnteredBoot t s2 pml (pagePath n) (enterTable s2 pd (n / 512 % 512)) :=
    b2.enter hpages (show s2.next + (0 + 1) ≤ limit by omega) w2 (by simp) (by simp)
  have hd3 : enterTable (s2.direct pml) pd (n / 512 % 512) = _ :=
    enterTable_direct (fun heq => absurd heq hne2)
      (b2.frame_eq ▸ hpages.out s2.next b2.le (by omega))
  have hz3 : s2.supply s2.next ≠ 0 := b2.supply ▸ hpages.nonzero s2.next b2.le (by omega)
  generalize hr3 : enterTable s2 pd (n / 512 % 512) = r3 at h3 hd3
  obtain ⟨pt, s3⟩ := r3
  obtain ⟨b3, w3, m3, l3, u3, e3⟩ := h3
  simp only at b3 w3 m3 l3 u3 e3 hd3
  have hne3 := b3.table_ne (by simp [pagePath]) (by simp [pagePath]) w3
  have hleaf : (s3.direct pml).mem pt (n % 512) = s3.mem pt (n % 512) :=
    directPart_apply fun heq => absurd heq hne3
  -- the same steps on the map alone
  obtain ⟨T, hT, -, hspec⟩ := mapMemoryHh_spec (s := u.direct pml) flags h.wellFormed
    (h.fresh hpages hlimit) hv ha hsmall
  rw [hn] at hspec
  simp only [mapMemoryHh, addressToMap_eq, hn, hd1, hd2, hd3, hleaf] at hT
  rw [if_neg (by omega), if_neg (by omega)] at hT
  generalize hpte : (((((s3.mem pt (n % 512)).setPagePpn (a >>> 12)).setPresent 1).setWriteable
    (flags &&& PAGE_WRITE_BIT)).setUserAccess ((flags &&& PAGE_USER_BIT) >>> 1)).setExecutionDisabled
    ((flags &&& PAGE_NX_BIT) >>> 2) = pte at hT
  have hmem : T.mem = directPart pml (s3.mem.set pt (n % 512)
      (pte.setCacheDisabled ((flags &&& PAGE_CACHE_DISABLE) >>> 3))) := by
    rw [← Except.ok.inj hT, directPart_set fun heq => absurd heq hne3]
    rfl
  generalize hlast : pte.setCacheDisabled ((flags &&& PAGE_CACHE_DISABLE) >>> 3) = last at hmem
  refine ⟨{ s3 with mem := s3.mem.set pt (n % 512) last }, ?_, b3.set_leaf w3 rfl last,
    fun k hk => ?_, fun d hd hthere => ?_⟩
  · simp only [mapMemory, addressToMap_eq, hn]
    rw [if_neg (by omega), if_neg (by omega), enterOrPanic_ok hz1, hr1]
    refine (bind_ok (enterOrPanic_ok hz2) _).trans ?_
    rw [hr2]
    refine (bind_ok (enterOrPanic_ok hz3) _).trans ?_
    rw [hr3, ← hlast, ← hpte]
    rfl
  · have hk' := hspec k hk
    rw [hmem] at hk'
    exact hk'
  · -- the levels that are there need no page
    show s3.next + d ≤ u.next + 3
    have hfirst : d = 1 ∨ d = 2 ∨ d = 3 → s1 = u := fun hone => e1 (by
      rcases hone with rfl | rfl | rfl
      · exact hthere
      · exact walk_take (q := [n / 262144 % 512]) hthere
      · exact walk_take (q := [n / 262144 % 512, n / 512 % 512]) hthere)
    have hsecond : d = 2 ∨ d = 3 → s2 = s1 := fun htwo => e2 (by
      rw [hfirst (by omega)]
      rcases htwo with rfl | rfl
      · exact hthere
      · exact walk_take (q := [n / 512 % 512]) hthere)
    have hthird : d = 3 → s3 = s2 := fun hthree => e3 (by
      rw [hsecond (by omega), hfirst (by omega)]
      rw [hthree] at hthere
      exact hthere)
    rcases Nat.lt_or_ge d 1 with hzero | hpos
    · omega
    rw [hfirst (by omega)] at u2
    rcases Nat.lt_or_ge d 2 with hone | htwo
    · omega
    rw [hsecond (by omega), hfirst (by omega)] at u3
    rcases Nat.lt_or_ge d 3 with hlt | hthree
    · omega
    rw [hthird (by omega), hsecond (by omega), hfirst (by omega)]
    omega

/-! ## The loop over memory -/

/-- The number of the page where page `n` of memory is mapped. -/
def directPage (n : Nat) : Nat := 42949672960 + n

/-- The tables of the map of `n` pages: page tables, and those of the two levels above. -/
def directTables (n : Nat) : Nat := (n + 511) / 512 + (n + 262143) / 262144 + (n + 134217727) / 134217728

/-- The map holds the first `n` pages of memory, which may be written. -/
def MapsMemory (u : PagingState) (pml n : Nat) : Prop := ∀ k, k < 68719476736 →
  mappingOf (directPart pml u.mem) pml k =
    if directPage 0 ≤ k ∧ k < directPage n then some ⟨k - directPage 0, 1⟩ else none

theorem pageNumber_direct {a : Nat} (h : a < 1099511627776) :
    pageNumber (u64 (a + IDENTITY_MAP_START)) = directPage (a / PAGESIZE) := by
  unfold directPage pageNumber IDENTITY_MAP_START PAGESIZE
  rw [u64_of_lt (by omega)]
  omega

theorem direct_aligned {a : Nat} (h : a < 1099511627776) (ha : a % PAGESIZE = 0) :
    u64 (a + IDENTITY_MAP_START) % PAGESIZE = 0 := by
  unfold IDENTITY_MAP_START PAGESIZE at *
  rw [u64_of_lt (by omega)]
  omega

/-- As many levels are there for page `n` as it shares with the page before it. -/
theorem MapsMemory.walk (h : MapsMemory u pml n) (hsmall : n ≤ 268435456) : ∃ d, d ≤ 3 ∧
    directTables (n + 1) = directTables n + (3 - d) ∧
    walk Entry.child (directPart pml u.mem) pml ((pagePath (directPage n)).take d) ≠ none := by
  have hlast {d : Nat} (hpos : 0 < n)
      (hsame : (pagePath (directPage n)).take d = (pagePath (directPage (n - 1))).take d) :
      Radix.walk Entry.child (directPart pml u.mem) pml ((pagePath (directPage n)).take d) ≠ none := by
    have hmapped := h (directPage (n - 1)) (by unfold directPage; omega)
    rw [if_pos (by unfold directPage; omega)] at hmapped
    obtain ⟨pt, hw, -⟩ := mappingOf_some hmapped
    rw [hsame]
    refine walk_take (q := (pagePath (directPage (n - 1))).drop d) ?_
    rw [List.take_append_drop, hw]
    nofun
  unfold directTables
  by_cases hpt : n % 512 = 0
  · by_cases hpd : n % 262144 = 0
    · by_cases hpdp : n % 134217728 = 0
      · exact ⟨0, by omega, by omega, nofun⟩
      · refine ⟨1, by omega, by omega, hlast (by omega) ?_⟩
        simp only [pagePath, directPage, List.take_succ_cons, List.take_zero, List.cons.injEq, and_true]
        omega
    · refine ⟨2, by omega, by omega, hlast (by omega) ?_⟩
      simp only [pagePath, directPage, List.take_succ_cons, List.take_zero, List.cons.injEq, and_true]
      omega
  · refine ⟨3, by omega, by omega, hlast (by omega) ?_⟩
    simp only [pagePath, directPage, List.take_succ_cons, List.take_zero, List.cons.injEq, and_true]
    omega

/-- The loop maps the pages one after the other, and makes the tables of the map. -/
theorem Boot.mapPages {c : Nat} (h : Boot t u pml) (hpages : DirectPages t pml limit)
    (hmaps : MapsMemory u pml n) (hnext : u.next ≤ t.next + directTables n)
    (hlimit : t.next + directTables (n + c) + 3 ≤ limit) (hsmall : n + c ≤ 268435456) :
    ∃ w, Memory.mapPages pml c (n * PAGESIZE) u = .ok w ∧ Boot t w pml ∧ MapsMemory w pml (n + c) ∧
      w.next ≤ t.next + directTables (n + c) := by
  induction c generalizing u n with
  | zero => exact ⟨u, rfl, h, hmaps, hnext⟩
  | succ c ih =>
    have haddr : n * PAGESIZE < 1099511627776 := by
      unfold PAGESIZE
      omega
    have hpage : pageNumber (u64 (n * PAGESIZE + IDENTITY_MAP_START)) = directPage n := by
      rw [pageNumber_direct haddr, Nat.mul_div_cancel _ (by decide)]
    have hmono : directTables n ≤ directTables (n + (c + 1)) := by
      unfold directTables
      gcongr
      · omega
      · omega
      · omega
    obtain ⟨d, hd, htables, hthere⟩ := hmaps.walk (by omega)
    obtain ⟨w, hw, hboot, hmap, hcount⟩ := h.map hpages (by omega)
      PAGE_WRITE_BIT (direct_aligned haddr (Nat.mul_mod_left n PAGESIZE))
      (Nat.mul_mod_left n PAGESIZE) haddr (by rw [hpage]; unfold DirectSlot directPage; omega)
    rw [hpage] at hmap hcount
    have hwnext := hcount d hd hthere
    have hmaps' : MapsMemory w pml (n + 1) := by
      intro k hk
      rw [hmap k hk, hmaps k hk]
      by_cases hkn : k = directPage n
      · have hframe : (n * PAGESIZE) >>> 12 = k - directPage 0 := by
          rw [hkn, Nat.shiftRight_eq_div_pow]
          unfold directPage PAGESIZE
          omega
        rw [if_pos hkn, if_pos (by unfold directPage at hkn ⊢; omega), hframe]
        rfl
      · rw [if_neg hkn]
        refine if_congr ?_ rfl rfl
        unfold directPage at hkn ⊢
        omega
    obtain ⟨w', hw', hboot', hmaps'', hcount'⟩ := ih hboot hmaps' (by omega)
      (by rw [show n + 1 + c = n + (c + 1) by omega]; exact hlimit) (by omega)
    rw [show n + 1 + c = n + (c + 1) by omega] at hmaps'' hcount'
    refine ⟨w', ?_, hboot', hmaps'', hcount'⟩
    rw [Memory.mapPages, bind_ok hw, ← hw', Nat.succ_mul]

end boot

/-! ## What the duplication leaves -/

section duplicate

variable {s t : PagingState} {father pml old new pd newPd pt newPt j k n f : Nat} {m : Frames}

theorem copyEntries_other (hf : f ≠ newPt) : copyEntries pt newPt k n m f = m f := by
  induction n generalizing k m with
  | zero => rfl
  | succ n ih =>
    rw [copyEntries, ih]
    split
    · exact funext fun i => Store.set_of_ne _ (.inl hf)
    · rfl

/-- The loop over a directory writes the new directory and new pages. -/
theorem duplicateTables_extends (h : duplicateTables pd newPd j n s = .ok t) : Extends s t newPd n := by
  induction n generalizing j s with
  | zero =>
    cases h
    exact ⟨rfl, Nat.le_refl _, Nat.le_refl _, fun _ _ _ => rfl⟩
  | succ n ih =>
    rw [duplicateTables] at h
    simp only at h
    split at h
    · obtain ⟨hsupply, hle, hbound, hsame⟩ := ih h
      exact ⟨hsupply, hle, by omega, hsame⟩
    · cases hpage : requestPage s "ERROR: Could not allocate page for new PT\n" with
      | error e =>
        rw [hpage] at h
        cases h
      | ok r =>
        obtain ⟨page, s'⟩ := r
        obtain ⟨rfl, rfl⟩ := requestPage_ok hpage
        rw [hpage] at h
        have hrun : duplicateTables pd newPd (j + 1) n ⟨copyEntries (s.mem pd j).pagePpn (s.frame s.next)
            0 512 ((s.mem.copy (s.frame s.next) (s.mem pd j).pagePpn).set newPd j
              ((s.mem pd j).setPagePpn (s.frame s.next))), s.supply, s.next + 1⟩ = .ok t := h
        generalize hmem : copyEntries _ _ _ _ _ = m₁ at hrun
        have hkeep : ∀ f, f ≠ newPd → f ≠ s.frame s.next → m₁ f = s.mem f := fun f hf hne => by
          rw [← hmem, copyEntries_other hne]
          exact funext fun i => (Store.set_of_ne _ (.inl hf)).trans (congrFun (Store.copy_of_ne hne) i)
        obtain ⟨hsupply, hle, hbound, hsame⟩ := ih hrun
        simp only at hsupply hle hbound hsame
        refine ⟨hsupply, by omega, by omega, fun f hf hframe => ?_⟩
        rw [hsame f hf fun x hlo hhi => hframe x (by omega) hhi]
        exact hkeep f hf (hframe s.next (Nat.le_refl _) (by omega))

/-- The loop over the root writes the new root where the old one has an entry, and new pages. -/
theorem duplicateDirectories_extends (h : duplicateDirectories father pml j n s = .ok t) :
    Extends s t pml (513 * n) ∧ (father ≠ pml → (∀ x, s.next ≤ x → x < t.next → s.frame x ≠ pml) →
      (∀ x, s.next ≤ x → x < t.next → s.frame x ≠ father) →
      ∀ i, (s.mem father i).present = 0 → t.mem pml i = s.mem pml i) := by
  induction n generalizing j s with
  | zero =>
    cases h
    exact ⟨⟨rfl, Nat.le_refl _, Nat.le_refl _, fun _ _ _ => rfl⟩, fun _ _ _ _ _ => rfl⟩
  | succ n ih =>
    rw [duplicateDirectories] at h
    simp only at h
    split at h
    · obtain ⟨⟨hsupply, hle, hbound, hsame⟩, hdead⟩ := ih h
      exact ⟨⟨hsupply, hle, by omega, hsame⟩, hdead⟩
    · next hlive =>
      cases hpage : requestPage s "ERROR: Could not allocate page for new PD\n" with
      | error e =>
        rw [hpage] at h
        cases h
      | ok r =>
        obtain ⟨page, s'⟩ := r
        obtain ⟨rfl, rfl⟩ := requestPage_ok hpage
        rw [hpage] at h
        have hrun : (duplicateTables (s.mem father j).pagePpn (s.frame s.next) 0 512
            ⟨(s.mem.copy (s.frame s.next) (s.mem father j).pagePpn).set pml j
              ((s.mem father j).setPagePpn (s.frame s.next)), s.supply, s.next + 1⟩ >>=
              duplicateDirectories father pml (j + 1) n) = .ok t := h
        generalize hmem : (s.mem.copy (s.frame s.next) (s.mem father j).pagePpn).set pml j
          ((s.mem father j).setPagePpn (s.frame s.next)) = m₁ at hrun
        have hkeep : ∀ f, f ≠ pml → f ≠ s.frame s.next → m₁ f = s.mem f := fun f hf hne => by
          rw [← hmem]
          exact funext fun i => (Store.set_of_ne _ (.inl hf)).trans (congrFun (Store.copy_of_ne hne) i)
        cases htables : duplicateTables (s.mem father j).pagePpn (s.frame s.next) 0 512
            ⟨m₁, s.supply, s.next + 1⟩ with
        | error e =>
          rw [htables] at hrun
          cases hrun
        | ok s₂ =>
          rw [bind_ok htables] at hrun
          obtain ⟨hsupply₁, hle₁, hbound₁, hsame₁⟩ := duplicateTables_extends htables
          obtain ⟨⟨hsupply₂, hle₂, hbound₂, hsame₂⟩, hdead₂⟩ := ih hrun
          simp only at hsupply₁ hle₁ hbound₁ hsame₁
          have hframe₁ : s₂.frame = s.frame := PagingState.frame_congr hsupply₁
          refine ⟨⟨hsupply₂.trans hsupply₁, by omega, by omega, fun f hf hframe => ?_⟩,
            fun hne hpml hfather i hi => ?_⟩
          · have hpage : f ≠ s.frame s.next := hframe s.next (Nat.le_refl _) (by omega)
            rw [hsame₂ f hf fun x hlo hhi => hframe₁ ▸ hframe x (by omega) hhi,
              hsame₁ f hpage fun x hlo hhi => hframe x (by omega) (by omega)]
            exact hkeep f hf hpage
          · have hkept : s₂.mem father = s.mem father := by
              rw [hsame₁ father (hfather s.next (Nat.le_refl _) (by omega)).symm
                fun x hlo hhi => (hfather x (by omega) (by omega)).symm]
              exact hkeep father hne (hfather s.next (Nat.le_refl _) (by omega)).symm
            have hij : i ≠ j := by
              rintro rfl
              exact hlive hi
            have hroot : s₂.mem pml i = m₁ pml i := by
              rw [hsame₁ pml (hpml s.next (Nat.le_refl _) (by omega)).symm
                fun x hlo hhi => (hpml x (by omega) (by omega)).symm]
            rw [hdead₂ hne (fun x hlo hhi => hframe₁ ▸ hpml x (by omega) hhi)
              (fun x hlo hhi => hframe₁ ▸ hfather x (by omega) hhi) i (by rw [hkept]; exact hi),
              hroot, ← hmem, Store.set_of_ne _ (.inr hij)]
            exact congrFun (Store.copy_of_ne (hpml s.next (Nat.le_refl _) (by omega)).symm) i

end duplicate

/-! ## What the map translates -/

section translates

variable {m : Frames} {pml : Nat} {e : Entry}

theorem Hung.cases (h : Hung e) : e.present = 0 ∨ (e.present ≠ 0 ∧ e.size = 0 ∧ e.perms = 3) := by
  rcases h with rfl | ⟨f, rfl⟩
  · exact .inl (by decide)
  · obtain ⟨huser, hwrite, hnx⟩ := Entry.hung_open f (.inl rfl)
    have hkeep : ∀ b, 3 ≤ b → b + 1 ≤ 12 → field (Entry.hung 0 f) b 1 = 0 := by
      intro b hlo hhi
      rw [Entry.hung, Entry.setUserAccess, field_setField_apart _ _ (by omega) (by omega),
        Entry.setWriteable, field_setField_apart _ _ (by omega) (by omega), Entry.setPresent,
        field_setField_apart _ _ (by omega) (by omega), Entry.setPagePpn,
        field_setField_apart _ _ (by omega) (by omega)]
      simp [field]
    refine .inr ⟨hung_present 0 f, hkeep 7 (by decide) (by decide), ?_⟩
    rw [Entry.perms, huser, hwrite, hnx, show Entry.cacheDisabled _ = 0 from hkeep 4 (by decide) (by decide)]
    rfl

/-- Behind entries that `_map_memory` has made, the processor sees the mapping. -/
theorem translation_hung (h : Upper Entry.child m pml 3 fun _ e => Hung e) (v : Nat) :
    translation m pml v = (mappingOf m pml (pageNumber v)).map fun x => (x.frame, [3, 3, 3, x.perms]) := by
  simp only [translation, addressToMap_eq, mappingOf, leaf, walk_path]
  generalize pageNumber v = n
  rcases (h [] pml (n / 134217728 % 512) (by decide) rfl).cases with hdead | ⟨hlive, -, hperms⟩
  · rw [if_pos hdead, Entry.child, if_pos hdead]
    rfl
  have w1 : walk Entry.child m pml [n / 134217728 % 512] = some (m pml (n / 134217728 % 512)).pagePpn := by
    rw [walk_cons, Entry.child_of_live hlive]
    rfl
  rw [if_neg hlive, Entry.child_of_live hlive, hperms]
  generalize (m pml (n / 134217728 % 512)).pagePpn = pdp at w1 ⊢
  rcases (h _ pdp (n / 262144 % 512) (by simp) w1).cases with hdead₁ | ⟨hlive₁, -, hperms₁⟩
  · rw [if_pos hdead₁, Option.bind_some, Entry.child, if_pos hdead₁]
    rfl
  have w2 := walk_concat w1 (n / 262144 % 512)
  rw [Entry.child_of_live hlive₁] at w2
  rw [if_neg hlive₁, Option.bind_some, Entry.child_of_live hlive₁, hperms₁]
  generalize (m pdp (n / 262144 % 512)).pagePpn = pd at w2 ⊢
  rcases (h _ pd (n / 512 % 512) (by simp) w2).cases with hdead₂ | ⟨hlive₂, hsize₂, hperms₂⟩
  · rw [translationBelow, if_pos hdead₂, Option.bind_some, Entry.child, if_pos hdead₂]
    rfl
  rw [translationBelow, if_neg hlive₂, if_neg (not_not_intro hsize₂), Option.bind_some,
    Entry.child_of_live hlive₂, Option.bind_some, hperms₂]
  by_cases hpage : (m (m pd (n / 512 % 512)).pagePpn (n % 512)).present = 0
  · simp [Entry.live, hpage]
  · simp [Entry.live, hpage]

/-- An address of the map is translated by the map. -/
theorem translation_direct (h : WellFormed (directPart pml m) pml) {v : Nat}
    (hslot : DirectSlot (addressToMap v).PDP_i) :
    translation (directPart pml m) pml v = translation m pml v := by
  have hne {p : List Nat} {f : Nat} (hp : p.length ≤ 3) (hnil : p ≠ [])
      (hw : walk Entry.child (directPart pml m) pml p = some f) : directPart pml m f = m f :=
    directPart_of_ne fun heq => hnil (h p [] f hp (Nat.zero_le 3) hw (heq ▸ rfl))
  simp only [translation]
  generalize addressToMap v = map at hslot ⊢
  have hroot : directPart pml m pml map.PDP_i = m pml map.PDP_i := directPart_apply fun _ => hslot
  rw [hroot]
  by_cases hlive : (m pml map.PDP_i).present = 0
  · rw [if_pos hlive, if_pos hlive]
  have w1 : walk Entry.child (directPart pml m) pml [map.PDP_i] = some (m pml map.PDP_i).pagePpn := by
    rw [walk_cons, hroot, Entry.child_of_live hlive]
    rfl
  have h1 := hne (by simp) (by simp) w1
  rw [if_neg hlive, if_neg hlive, h1]
  by_cases hlive₁ : (m (m pml map.PDP_i).pagePpn map.PD_i).present = 0
  · rw [if_pos hlive₁, if_pos hlive₁]
  have w2 := walk_concat w1 map.PD_i
  rw [h1, Entry.child_of_live hlive₁] at w2
  have h2 := hne (by simp) (by simp) w2
  rw [if_neg hlive₁, if_neg hlive₁, h2]
  refine congrArg _ (translationBelow_congr fun hlive₂ _ => ?_)
  have w3 := walk_concat w2 map.PT_i
  rw [h2, Entry.child_of_live hlive₂] at w3
  exact hne (by simp) (by simp) w3

/-- A walk into the map stays there. -/
theorem walk_direct (h : WellFormed (directPart pml m) pml) {i : Nat} (hi : DirectSlot i) {q : List Nat}
    (hq : q.length ≤ 2) :
    walk Entry.child (directPart pml m) pml (i :: q) = walk Entry.child m pml (i :: q) := by
  induction q using List.reverseRecOn with
  | nil => exact congrArg (Option.bind · _) (congrArg Entry.child (directPart_apply fun _ => hi))
  | append_singleton q j ih =>
    rw [List.length_append, List.length_singleton] at hq
    rw [← List.cons_append, walk_append, walk_append, ih (by omega)]
    cases hw : walk Entry.child m pml (i :: q) with
    | none => rfl
    | some f =>
      have hne : f ≠ pml := by
        rintro rfl
        cases h (i :: q) [] f (by simp only [List.length_cons]; omega) (Nat.zero_le 3)
          ((ih (by omega)).trans hw) rfl
      simp only [Option.bind_some, walk_cons, walk_nil, directPart_of_ne hne]

/-- A page of the map is mapped by the map. -/
theorem mappingOf_direct (h : WellFormed (directPart pml m) pml) {n : Nat}
    (hslot : DirectSlot (n / 134217728 % 512)) : mappingOf (directPart pml m) pml n = mappingOf m pml n := by
  have hpath : walk Entry.child (directPart pml m) pml (pagePath n) = walk Entry.child m pml (pagePath n) :=
    walk_direct h hslot (Nat.le_refl 2)
  unfold mappingOf leaf
  rw [hpath]
  cases hw : walk Entry.child m pml (pagePath n) with
  | none => rfl
  | some f =>
    have hne : f ≠ pml := by
      rintro rfl
      cases h (pagePath n) [] f (Nat.le_refl 3) (Nat.zero_le 3) (hpath.trans hw) rfl
    rw [Option.bind_some, Option.bind_some, directPart_of_ne hne]

/-- A copied entry of the root translates as the original does. -/
theorem translation_copied {m₀ : Frames} {frame : Nat → Nat} {lo hi father v : Nat}
    (hwf : WithoutGiantPages m₀ father) (hsmall : ∀ x, lo ≤ x → x < hi → frame x < 268435456)
    (hentry : EntryCopy frame lo hi (CopyOf m₀ m frame lo hi 1) (m₀ father (addressToMap v).PDP_i)
      (m pml (addressToMap v).PDP_i))
    (hagree : ∀ f, IsTable m₀ father f → m f = m₀ f) : translation m pml v = translation m₀ father v := by
  obtain ⟨h4, h3, h2, -⟩ := addressToMap_lt v
  simp only [translation]
  generalize addressToMap v = map at *
  rcases hentry.cases hsmall with ⟨hdead, hdead'⟩ | ⟨hlive, hlive', hperms, hcopy⟩
  · rw [if_pos hdead, if_pos hdead']
  rw [if_neg hlive, if_neg hlive', hperms]
  rcases (hcopy map.PD_i h3).cases hsmall with ⟨hdead, hdead'⟩ | ⟨hlive₁, hlive₁', hperms₁, hsame⟩
  · rw [if_pos hdead, if_pos hdead']
  rw [if_neg hlive₁, if_neg hlive₁', hperms₁, hsame]
  have hbelow := ((hwf.tables h4 hlive).2 map.PD_i h3 hlive₁).2 map.PT_i h2
  rw [translationBelow_congr fun hlive₂ hsize => hagree _ (hbelow hlive₂ hsize)]

end translates

/-! ## The directory of the kernel -/

/-- What `init_paging` leaves in the directory `pml`, up to the end `last` of memory. -/
structure Booted (s w : PagingState) (original pml last : Nat) : Prop where
  old : ∀ v, ¬ DirectSlot (addressToMap v).PDP_i → translation w.mem pml v = translation s.mem original v
  memory : ∀ a, a < last →
    translation w.mem pml (u64 (a + IDENTITY_MAP_START)) = some (a / PAGESIZE, [3, 3, 3, 1]) ∧
      virtualToPhysical w.mem pml (u64 (a + IDENTITY_MAP_START)) = a / PAGESIZE * PAGESIZE
  mapped : ∀ a, a < last →
    mappingOf w.mem pml (pageNumber (u64 (a + IDENTITY_MAP_START))) = some ⟨a / PAGESIZE, 1⟩
  rest : ∀ v, DirectSlot (addressToMap v).PDP_i →
    directPage ((last + (PAGESIZE - 1)) / PAGESIZE) ≤ pageNumber v → translation w.mem pml v = none
  tables : ∀ f, IsTable s.mem original f → w.mem f = s.mem f
  supply : w.supply = s.supply

/-- The loader finds the pages of memory where `init_paging` has mapped them. -/
theorem Booted.directMapped {s w : PagingState} {original pml last j : Nat} (h : Booted s w original pml last)
    (hj : s.supply j < last) : DirectMapped w pml j := by
  refine ⟨_, ?_, (?_ : (Mapping.mk (s.supply j / PAGESIZE) 1).frame = _)⟩
  · rw [h.supply, Nat.add_comm]
    exact h.mapped _ hj
  · rw [PagingState.frame, h.supply, Nat.shiftRight_eq_div_pow]

theorem NewPages.mono {s : PagingState} {father n k : Nat} (h : NewPages s father n) (hk : k ≤ n) :
    NewPages s father k :=
  ⟨fun j hj => h.nonzero j (by omega), fun j hj => h.aligned j (by omega), fun j hj => h.small j (by omega),
    fun i j hi hj => h.distinct i j hi (by omega), fun j hj => h.out j (by omega)⟩

/-- The pages behind those that the duplication takes are there for the map. -/
theorem NewPages.directPages {s t : PagingState} {father n pml : Nat} (h : NewPages s father n)
    (hsupply : t.supply = s.supply) (hpml : pml = s.frame s.next) (hnext : s.next < t.next) :
    DirectPages t pml (s.next + n) := by
  have hpage {x : Nat} (hx : t.next ≤ x) (hlt : x < s.next + n) : ∃ k, k < n ∧ x = s.next + k :=
    ⟨x - s.next, by omega, by omega⟩
  refine ⟨fun x hx hlt => ?_, fun x hx hlt => ?_, fun x hx hlt => ?_, fun x y hx hxy hlt => ?_,
    fun x hx hlt => ?_⟩
  · obtain ⟨k, hk, rfl⟩ := hpage hx hlt
    exact hsupply ▸ h.nonzero k hk
  · obtain ⟨k, hk, rfl⟩ := hpage hx hlt
    exact hsupply ▸ h.aligned k hk
  · obtain ⟨k, hk, rfl⟩ := hpage hx hlt
    exact hsupply ▸ h.small k hk
  · obtain ⟨i, hi, rfl⟩ := hpage hx (by omega)
    obtain ⟨j, hj, rfl⟩ := hpage (by omega : t.next ≤ y) hlt
    exact hsupply ▸ h.distinct i j (by omega) hj
  · rw [PagingState.frame_congr hsupply, hpml]
    intro heq
    have := h.newFrames.inj x s.next (by omega) hlt (Nat.le_refl _) (by omega) heq
    omega

/-- The map begins empty. -/
theorem Boot.start {t : PagingState} {pml : Nat} (hzero : ∀ i, DirectSlot i → t.mem pml i = 0) :
    Boot t t pml ∧ MapsMemory t pml 0 := by
  have hall : ∀ i, directPart pml t.mem pml i = 0 := by
    intro i
    unfold directPart
    split
    · rfl
    · next h => exact hzero i (by tauto)
  have hroot : ∀ p f, walk Entry.child (directPart pml t.mem) pml p = some f → p = [] ∧ f = pml := by
    intro p f hw
    cases p with
    | nil => exact ⟨rfl, (Option.some.inj hw).symm⟩
    | cons i p =>
      rw [walk_cons, hall, Entry.zero_child] at hw
      cases hw
  refine ⟨⟨rfl, Nat.le_refl _, fun _ _ _ _ => rfl, fun p q f _ _ hp hq => ?_, fun q f hnil _ hw => ?_,
    fun p f i _ hw => ?_⟩, fun k _ => ?_⟩
  · rw [(hroot p f hp).1, (hroot q f hq).1]
  · exact absurd (hroot q f hw).1 hnil
  · rw [(hroot p f hw).2, hall]
    exact .inl rfl
  · rw [if_neg (by omega)]
    simp only [mappingOf, leaf, pagePath, walk_cons, hall, Entry.zero_child, Option.bind_none, Option.map_none]

section booted

variable {s t u w : PagingState} {original pml last limit limit' : Nat}

/-- What the duplication has made stays while memory is mapped. -/
theorem Boot.translation_old (hb : Boot t w pml) (hpages : DirectPages t pml limit) (hlimit : w.next ≤ limit)
    (hwf : WithoutGiantPages s.mem original)
    (hframes : NewFrames (IsTable s.mem original) s.supply s.next limit) (hframe : u.frame = s.frame)
    (hnext : s.next ≤ u.next) (hsupply : t.frame = s.frame)
    (hready : Ready s.mem (IsTable s.mem original) s.next limit' u original pml) (hlimit' : t.next ≤ limit')
    (hlooped : Looped s.mem u t 1 original pml 0 512 (513 * 512))
    (hagree : ∀ f, IsTable s.mem original f → w.mem f = s.mem f) {v : Nat}
    (hslot : ¬ DirectSlot (addressToMap v).PDP_i) :
    translation w.mem pml v = translation s.mem original v := by
  have hle := hb.le
  obtain ⟨h4, -⟩ := addressToMap_lt v
  have hsmall : ∀ x, u.next ≤ x → x < t.next → u.frame x < 268435456 := fun x hlo hhi => by
    rw [hframe]
    exact hframes.small x (by omega) (by omega)
  have hkept : ∀ x, u.next ≤ x → x < t.next → w.mem (u.frame x) = t.mem (u.frame x) := by
    intro x hlo hhi
    funext j
    refine hb.kept _ j (fun heq => absurd heq (hready.apart x hlo (by omega))) fun y hylo hyhi heq => ?_
    rw [hframe, hsupply] at heq
    have := hframes.inj x y (by omega) (by omega) (by omega) (by omega) heq
    omega
  have hentry := hlooped.entries (addressToMap v).PDP_i (Nat.zero_le _) (by omega)
  have hroot : w.mem pml (addressToMap v).PDP_i = t.mem pml (addressToMap v).PDP_i :=
    hb.kept pml _ (fun _ => hslot) fun y hylo hyhi => (hpages.out y hylo (by omega)).symm
  rw [← hroot] at hentry
  exact translation_copied hwf hsmall (hentry.imp (Nat.le_refl _) (Nat.le_refl _)
    fun f x hlo hhi hcopy => hcopy.congr (Nat.le_refl _) (Nat.le_refl _) (hkept x hlo hhi) hkept) hagree

/-- The map translates the addresses of memory, and no others. -/
theorem Boot.translation_map {n : Nat} (hb : Boot t w pml) (hmaps : MapsMemory w pml n) {v : Nat}
    (hslot : DirectSlot (addressToMap v).PDP_i) : translation w.mem pml v =
      if directPage 0 ≤ pageNumber v ∧ pageNumber v < directPage n then
        some (pageNumber v - directPage 0, [3, 3, 3, 1])
      else none := by
  rw [← translation_direct hb.wellFormed hslot, translation_hung hb.upper, hmaps _ (pageNumber_lt v)]
  split <;> rfl

/-- `init_paging` keeps what the bootloader has mapped, for the kernel with tables of its own, and maps
all memory at `IDENTITY_MAP_START`, which the bootloader leaves alone. -/
theorem initPaging_booted (hwf : WithoutGiantPages s.mem original)
    (hslots : ∀ i, DirectSlot i → (s.mem original i).present = 0) (hlast : last ≤ 1099511627776)
    (hpages : NewPages s original
      (duplicatePages + directTables ((last + (PAGESIZE - 1)) / PAGESIZE) + 3)) :
    ∃ pml w, initPaging s original last = .ok (pml, w) ∧ Booted s w original pml last := by
  generalize hn : (last + (PAGESIZE - 1)) / PAGESIZE = n at hpages
  have hn28 : n ≤ 268435456 := by
    rw [← hn]
    unfold PAGESIZE
    omega
  obtain ⟨u, t, ht, -, hframe, hnext, hbound, hready, hlooped⟩ := duplicatePd_looped hwf
    (hpages.mono (by omega)) (Nat.zero_le 512) (Nat.le_refl 512)
  have hframes := hpages.newFrames
  have hroom : s.next < s.next + (duplicatePages + directTables n + 3) := by omega
  have hnonzero : s.supply s.next ≠ 0 := hframes.nonzero s.next (Nat.le_refl _) hroom
  have hroot : s.frame s.next ≠ original := fun heq =>
    hframes.out s.next (Nat.le_refl _) hroom (heq ▸ IsTable.root)
  have hdup : duplicateDirectories original (s.frame s.next) 0 512
      ⟨s.mem.fill (s.frame s.next) 0, s.supply, s.next + 1⟩ = .ok t := by
    rw [duplicatePd, requestPage, if_neg hnonzero] at ht
    generalize hd : duplicateDirectories original (s.frame s.next) 0 512
      ⟨s.mem.fill (s.frame s.next) 0, s.supply, s.next + 1⟩ = r
    have hrun : (r >>= fun t => Except.ok (s.frame s.next, t)) = .ok (s.frame s.next, t) := hd ▸ ht
    cases r with
    | error e => cases hrun
    | ok t' => exact congrArg Except.ok (Prod.ext_iff.mp (Except.ok.inj hrun)).2
  obtain ⟨⟨hsupply, hle, -, -⟩, hdead⟩ := duplicateDirectories_extends hdup
  simp only at hsupply hle hdead
  have htframe : t.frame = s.frame := PagingState.frame_congr hsupply
  have hapart : ∀ x, s.next + 1 ≤ x → x < t.next → s.frame x ≠ s.frame s.next := fun x hlo hhi heq => by
    have := hframes.inj x s.next (by omega) (by omega) (Nat.le_refl _) hroom heq
    omega
  have hzero : ∀ i, DirectSlot i → t.mem (s.frame s.next) i = 0 := fun i hi => by
    have hold := hdead hroot.symm hapart
      (fun x hlo hhi heq => hframes.out x (by omega) (by omega) (heq.symm ▸ IsTable.root)) i
      (by rw [Store.fill_of_ne i 0 hroot.symm]; exact hslots i hi)
    rw [hold, Store.fill_same]
  obtain ⟨hboot, hmaps⟩ := Boot.start hzero
  have hdirect := hpages.directPages hsupply rfl (by omega)
  obtain ⟨w, hw, hb, hm, hcount⟩ := hboot.mapPages hdirect hmaps (c := n) (Nat.le_add_right _ _)
    (by rw [Nat.zero_add]; omega) (by omega)
  rw [Nat.zero_add] at hm hcount
  rw [Nat.zero_mul] at hw
  have hagree : ∀ f, IsTable s.mem original f → w.mem f = s.mem f := by
    intro f hf
    rw [← (hready.extends hlooped.toExtends hbound).agree f hf]
    funext j
    refine hb.kept f j (fun heq => ?_) fun x hlo hhi heq => ?_
    · subst heq
      exact absurd hf (hframes.out s.next (Nat.le_refl _) hroom)
    · rw [htframe] at heq
      subst heq
      exact hframes.out x (by omega) (by omega) hf
  refine ⟨s.frame s.next, w, ?_, ⟨fun v hslot => ?_, fun a ha => ?_, fun a ha => ?_,
    fun v hslot hv => ?_, hagree, hb.supply.trans hsupply⟩⟩
  · rw [initPaging, requestPage, if_neg hnonzero]
    refine (bind_ok hdup _).trans ?_
    rw [hn]
    exact bind_ok hw _
  · exact hb.translation_old hdirect (by omega) hwf hframes hframe hnext htframe hready hbound hlooped
      hagree hslot
  · have hpage := pageNumber_direct (a := a) (by omega)
    have hslot : DirectSlot (addressToMap (u64 (a + IDENTITY_MAP_START))).PDP_i := by
      rw [addressToMap_eq, hpage]
      simp only [DirectSlot, directPage, PAGESIZE]
      omega
    have htr := hb.translation_map hm hslot
    rw [hpage, if_pos (by unfold directPage PAGESIZE at *; omega)] at htr
    rw [directPage, directPage, Nat.add_zero, Nat.add_sub_cancel_left] at htr
    exact ⟨htr, by rw [(virtualToPhysical_translation _ _ _).2 _ _ htr rfl, Nat.shiftLeft_eq]⟩
  · have hpage := pageNumber_direct (a := a) (by omega)
    rw [hpage, ← mappingOf_direct hb.wellFormed (by simp only [DirectSlot, directPage, PAGESIZE]; omega),
      hm _ (by unfold directPage PAGESIZE; omega), if_pos (by unfold directPage PAGESIZE at *; omega)]
    rw [directPage, directPage, Nat.add_zero, Nat.add_sub_cancel_left]
  · rw [hb.translation_map hm hslot, if_neg (by rw [hn] at hv; omega)]

end booted

/-- Directory 0 has address 0 mapped to frame 4, and memory ends at 1 MiB. -/
theorem initPaging_booted_onePage : translation onePage.mem 0 0 = some (4, [0, 0, 0, 0]) ∧
    ∃ pml w, initPaging onePage 0 1048576 = .ok (pml, w) ∧ Booted onePage w 0 pml 1048576 :=
  ⟨by decide, initPaging_booted onePage_withoutGiants
    (fun i hi => by
      have hne : ¬ (0 < 4 ∧ i = 0) := fun h => by
        rw [h.2] at hi
        exact absurd hi (by decide)
      simp only [onePage, if_neg hne]
      decide) (by decide) (onePage_newPages _ (by decide))⟩

end UnedKernel.Memory
