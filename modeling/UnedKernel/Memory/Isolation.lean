import UnedKernel.Memory.Duplicate
import UnedKernel.Memory.PagingRuns

/-! # Isolation of duplicated address spaces

Two directories that share page tables at most: what `map_memory_hh` and
`unmap_current_memory` on one of them do to the other. -/

namespace UnedKernel.Memory
open BitField Radix Word Run

abbrev USERLAND_END : Nat := 0x0000800000000000

/-- Two directories whose trees meet in page tables only. -/
structure Twins (m : Frames) (a b : Nat) : Prop where
  left : WellFormed m a
  right : WellFormed m b
  meet : Meet Entry.child m a b 3

/-- The directories find the mapping of page `n` in the same page table. -/
def TableShared (m : Frames) (a b n : Nat) : Prop :=
  ∃ pt, walk Entry.child m a (pagePath n) = some pt ∧ walk Entry.child m b (pagePath n) = some pt

theorem TableShared.symm {m : Frames} {a b n : Nat} (h : TableShared m a b n) :
    TableShared m b a n := by
  obtain ⟨pt, ha, hb⟩ := h
  exact ⟨pt, hb, ha⟩

/-- In a shared page table both directories find the same. -/
theorem TableShared.mappingOf_eq {m : Frames} {a b n : Nat} (h : TableShared m a b n) :
    mappingOf m b n = mappingOf m a n := by
  obtain ⟨pt, ha, hb⟩ := h
  rw [mappingOf, mappingOf, leaf, leaf, ha, hb]

theorem Twins.symm {m : Frames} {a b : Nat} (h : Twins m a b) : Twins m b a :=
  ⟨h.right, h.left, h.meet.symm⟩

theorem mappingOf_agree {m m' : Frames} {b : Nat} (h : AgreeOn Entry.child m m' b 3) (k : Nat) :
    mappingOf m' b k = mappingOf m b k := by
  rw [mappingOf, mappingOf, h.leaf_eq (le_refl 3)]

/-! ## Entering a table -/

/-- The pages that follow stay fresh for a directory whose tables have not changed. -/
theorem FreshPages.agree {s t : PagingState} {b n : Nat} (h : FreshPages s b (n + 1))
    (hsupply : t.supply = s.supply) (hnext : t.next = s.next ∨ t.next = s.next + 1)
    (hagree : AgreeOn Entry.child s.mem t.mem b 3) : FreshPages t b n := by
  obtain ⟨d, hd, hle⟩ : ∃ d, t.next = s.next + d ∧ d ≤ 1 := by
    rcases hnext with hnext | hnext
    · exact ⟨0, hnext, Nat.zero_le 1⟩
    · exact ⟨1, hnext, le_refl 1⟩
  have hpage : ∀ k, t.supply (t.next + k) = s.supply (s.next + (d + k)) := fun k => by
    rw [hsupply, hd, Nat.add_assoc]
  refine ⟨fun k hk => ?_, fun k hk => ?_, fun j k hj hk => ?_, fun k hk => ?_⟩
  · rw [hpage]
    exact h.aligned _ (by omega)
  · rw [hpage]
    exact h.small _ (by omega)
  · rw [hpage, hpage]
    exact h.distinct _ _ (by omega) (by omega)
  · rw [hpage]
    exact hagree.outside (h.out _ (by omega))

/-- What entering a table of one directory does to another one. -/
structure EnteredTwin (s t : PagingState) (a b n : Nat) : Prop where
  twins : Twins t.mem a b
  agree : AgreeOn Entry.child s.mem t.mem b 3
  fresh : FreshPages t b n
  shared : ∀ k, TableShared t.mem a b k ↔ TableShared s.mem a b k

theorem enterTable_twin {s : PagingState} {a b n table : Nat} {p : List Nat}
    (h : Twins s.mem a b) (hw : walk Entry.child s.mem a p = some table) (hp : p.length + 1 ≤ 3)
    (hfresh : FreshPages s a (n + 1)) (hfreshb : FreshPages s b (n + 1)) (i : Nat) :
    EnteredTwin s (enterTable s table i).2 a b n := by
  have hentered := enterTable_entered h.left hw hp hfresh i
  obtain ⟨t, ht⟩ : ∃ t, (enterTable s table i).2 = t := ⟨_, rfl⟩
  rw [ht] at hentered ⊢
  unfold enterTable at ht
  by_cases hpres : (s.mem table i).present = 0
  · simp only [if_pos hpres] at ht
    have hout := hfresh.out 0 (by omega)
    have houtb := hfreshb.out 0 (by omega)
    have hsmall := hfresh.small 0 (by omega)
    rw [Nat.add_zero] at hout houtb hsmall
    generalize hc : s.supply s.next >>> 12 = c at ht hout houtb
    have hc28 : c < 268435456 := by
      rw [← hc, Nat.shiftRight_eq_div_pow]
      omega
    have htc : table ≠ c := by
      rintro rfl
      exact hout p (by omega) hw
    have hnew := Entry.child_fresh (s.mem table i) hc28
    generalize ((((s.mem table i).setPagePpn c).setPresent 1).setWriteable 1).setUserAccess 1 = e
      at ht hnew
    have htable : Outside Entry.child s.mem b 3 table := h.meet.outside hw hp
    have hfillb : AgreeOn Entry.child s.mem (s.mem.fill c 0) b 3 := agreeOn_fill houtb
    have hagree : AgreeOn Entry.child s.mem t.mem b 3 := by
      rw [← ht]
      exact hfillb.trans (agreeOn_set (hfillb.outside htable))
    -- the walks of the first directory: as before, and one to the new table
    have hwf' := h.left.fill hout 0
    have hw' : walk Entry.child (s.mem.fill c 0) a p = some table := by
      rw [walk_fill hout (by omega), hw]
    have hold : Entry.child (s.mem.fill c 0 table i) = none := by
      rw [Store.fill_of_ne i 0 htc, Entry.child, if_pos hpres]
    have hempty : ∀ j, Entry.child (s.mem.fill c 0 c j) = none := fun j => by
      rw [Store.fill_same]
      exact Entry.zero_child
    have hwalk : ∀ q, q.length ≤ 3 → walk Entry.child t.mem a q =
        if q = p ++ [i] then some c else walk Entry.child s.mem a q := fun q hq => by
      rw [← ht]
      show walk Entry.child ((s.mem.fill c 0).set table i e) a q = _
      rw [walk_hang hwf' (hout.fill hout 0) hw' hp hold hnew hempty (by omega),
        walk_fill hout (by omega)]
    have hmeet : Meet Entry.child t.mem a b 3 := by
      intro q r f hq hr hwq hwr
      rw [hagree.walk_eq (by omega)] at hwr
      rw [hwalk q hq] at hwq
      split at hwq
      · cases hwq
        exact absurd hwr (houtb r hr)
      · exact h.meet q r f hq hr hwq hwr
    have hnone : walk Entry.child s.mem a (p ++ [i]) = none := by
      rw [walk_concat hw]
      exact if_pos hpres
    refine ⟨⟨hentered.wellFormed, hagree.separated h.right, hmeet⟩, hagree,
      hfreshb.agree (by rw [← ht]) (.inr (by rw [← ht])) hagree, fun k => ⟨?_, ?_⟩⟩
    · rintro ⟨pt, ha, hb⟩
      rw [hagree.walk_eq (q := pagePath k) (Nat.le_succ 3)] at hb
      rw [hwalk _ (le_refl 3)] at ha
      split at ha
      · cases ha
        exact absurd hb (houtb _ (le_refl 3))
      · exact ⟨pt, ha, hb⟩
    · rintro ⟨pt, ha, hb⟩
      refine ⟨pt, ?_, ?_⟩
      · rw [hwalk _ (le_refl 3), if_neg]
        · exact ha
        · intro heq
          rw [heq, hnone] at ha
          cases ha
      · rw [hagree.walk_eq (q := pagePath k) (Nat.le_succ 3)]
        exact hb
  · simp only [if_neg hpres] at ht
    subst ht
    exact ⟨h, fun _ _ => rfl, hfreshb.pred, fun _ => Iff.rfl⟩

/-! ## The operations -/

/-- A write to the entry of page `n` in a page table of one directory. -/
theorem mappingOf_set_twin {m : Frames} {a b n pt : Nat} (h : Twins m a b)
    (hn : n < 68719476736) (hw : walk Entry.child m a (pagePath n) = some pt) (e : Entry) :
    Twins (m.set pt (n % 512) e) a b ∧
    (∀ k, TableShared (m.set pt (n % 512) e) a b k ↔ TableShared m a b k) ∧
    (¬ TableShared m a b n → AgreeOn Entry.child m (m.set pt (n % 512) e) b 3) ∧
    (∀ k, k < 68719476736 → (k = n → ¬ TableShared m a b n) →
      mappingOf (m.set pt (n % 512) e) b k = mappingOf m b k) ∧
    ∀ q, q.length ≤ 3 →
      walk Entry.child (m.set pt (n % 512) e) b q = walk Entry.child m b q := by
  have hleft : ∀ q, q.length ≤ 3 →
      walk Entry.child (m.set pt (n % 512) e) a q = walk Entry.child m a q :=
    fun q hq => walk_set_leaf h.left hw rfl hq
  have hright : ∀ q, q.length ≤ 3 →
      walk Entry.child (m.set pt (n % 512) e) b q = walk Entry.child m b q :=
    fun q hq => h.meet.walk_set_leaf h.right hw rfl hq
  refine ⟨⟨h.left.set_leaf hw rfl _ _, ?_, h.meet.set_leaf h.left h.right hw rfl⟩, fun k => ?_,
    fun hnot => agreeOn_set fun q hq hwq => ?_, fun k hk hnot => ?_, hright⟩
  · intro p q f hp hq hwp hwq
    rw [hright p hp] at hwp
    rw [hright q hq] at hwq
    exact h.right p q f hp hq hwp hwq
  · rw [TableShared, TableShared, hleft _ (le_refl 3), hright _ (le_refl 3)]
  · obtain ⟨rfl, -⟩ := h.meet (pagePath n) q pt (le_refl 3) hq hw hwq
    exact hnot ⟨pt, hw, hwq⟩
  · rw [mappingOf, mappingOf, h.meet.leaf_set h.right hw rfl (le_refl 3), if_neg]
    rintro ⟨hb, hpath, hidx⟩
    have hkn : k = n := pagePath_injective hk hn hpath hidx
    exact hnot hkn ⟨pt, hw, hb⟩

/-- What an operation on page `n` of `a` does to `b`: nothing but to a page table they share. -/
structure OnTwin (m m' : Frames) (a b n : Nat) : Prop where
  twins : Twins m' a b
  shared : ∀ k, TableShared m' a b k ↔ TableShared m a b k
  agree : ¬ TableShared m a b n → AgreeOn Entry.child m m' b 3
  same : ∀ k, k < 68719476736 → (k = n → ¬ TableShared m a b n) → mappingOf m' b k = mappingOf m b k
  walk : ∀ q, q.length ≤ 3 → walk Entry.child m' b q = walk Entry.child m b q
  upper : ∀ P, Upper Entry.child m b 3 P → Upper Entry.child m' b 3 P

theorem mapMemoryHh_twin {s t : PagingState} {a b v p flags : Nat} (h : Twins s.mem a b)
    (hfresh : FreshPages s a 3) (hfreshb : FreshPages s b 3)
    (hok : mapMemoryHh s a v p flags = .ok t) : OnTwin s.mem t.mem a b (pageNumber v) := by
  have h1 := enterTable_entered h.left (walk_nil a) (by simp) hfresh
    (pageNumber v / 134217728 % 512)
  have g1 := enterTable_twin h (walk_nil a) (by simp) hfresh hfreshb
    (pageNumber v / 134217728 % 512)
  generalize hs1 : enterTable s a (pageNumber v / 134217728 % 512) = r1 at h1 g1
  have h2 := enterTable_entered h1.wellFormed h1.reached (by simp) h1.fresh
    (pageNumber v / 262144 % 512)
  have g2 := enterTable_twin g1.twins h1.reached (by simp) h1.fresh g1.fresh
    (pageNumber v / 262144 % 512)
  generalize hs2 : enterTable r1.2 r1.1 (pageNumber v / 262144 % 512) = r2 at h2 g2
  have h3 := enterTable_entered h2.wellFormed h2.reached (by simp) h2.fresh
    (pageNumber v / 512 % 512)
  have g3 := enterTable_twin g2.twins h2.reached (by simp) h2.fresh g2.fresh
    (pageNumber v / 512 % 512)
  generalize hs3 : enterTable r2.2 r2.1 (pageNumber v / 512 % 512) = r3 at h3 g3
  have hreach : walk Entry.child r3.2.mem a (pagePath (pageNumber v)) = some r3.1 := h3.reached
  have hshared : ∀ k, TableShared r3.2.mem a b k ↔ TableShared s.mem a b k := fun k =>
    ((g3.shared k).trans (g2.shared k)).trans (g1.shared k)
  have hagree : AgreeOn Entry.child s.mem r3.2.mem b 3 := (g1.agree.trans g2.agree).trans g3.agree
  simp only [mapMemoryHh, addressToMap_eq, hs1, hs2, hs3] at hok
  split at hok
  · cases hok
  split at hok
  · cases hok
  obtain ⟨htwins, hset, hagree', hsame, hwalk⟩ := mappingOf_set_twin g3.twins (pageNumber_lt v) hreach
    ((((((r3.2.mem r3.1 (pageNumber v % 512)).setPagePpn (p >>> 12)).setPresent 1).setWriteable
      (flags &&& PAGE_WRITE_BIT)).setUserAccess ((flags &&& PAGE_USER_BIT) >>> 1)).setExecutionDisabled
        ((flags &&& PAGE_NX_BIT) >>> 2) |>.setCacheDisabled ((flags &&& PAGE_CACHE_DISABLE) >>> 3))
  cases hok
  refine ⟨htwins, fun k => (hset k).trans (hshared k),
    fun hnot => hagree.trans (hagree' fun hs => hnot ((hshared _).mp hs)), fun k hk hnot => ?_,
    fun q hq => (hwalk q hq).trans (hagree.walk_eq (Nat.le_succ_of_le hq)),
    fun P hP => (hP.agree hagree).set_leaf_twin g3.twins.meet g3.twins.right hreach rfl⟩
  rw [← mappingOf_agree hagree k]
  exact hsame k hk fun hkn hs => hnot hkn ((hshared _).mp hs)

theorem unmapCurrentMemory_twin {m : Frames} {a b : Nat} (v : Nat) (h : Twins m a b) :
    OnTwin m (unmapCurrentMemory m a v) a b (pageNumber v) := by
  rcases unmapCurrentMemory_cases m a v with ⟨hsame, -⟩ | ⟨pt, hw, hset⟩
  · rw [hsame]
    exact ⟨h, fun _ => Iff.rfl, fun _ _ _ => rfl, fun _ _ _ => rfl, fun _ _ => rfl, fun _ hP => hP⟩
  · rw [hset]
    obtain ⟨htwins, hshared, hagree, hsame, hwalk⟩ := mappingOf_set_twin h (pageNumber_lt v) hw
      ((m pt (pageNumber v % 512)).setPresent 0)
    exact ⟨htwins, hshared, hagree, hsame, hwalk,
      fun P hP => hP.set_leaf_twin h.meet h.right hw rfl⟩

/-! ## Runs on one of two directories -/

/-- The calls of `map_memory_hh` and `unmap_current_memory` on the directory `a`, below
`USERLAND_END`, beside a directory `b`. In state `s` a call that maps the page of `v` to `x`,
or unmaps it, satisfies `ok s v x`. -/
inductive SpaceStep (ok : PagingState → Nat → Option Mapping → Prop) (a b : Nat) :
    PagingState → PagingState → Prop
  | map {s t : PagingState} {v p flags : Nat} (hlow : v < USERLAND_END)
      (hok : ok s v (some ⟨p >>> 12, flags % 16⟩)) (hfresh : FreshPages s a 3)
      (hfreshb : FreshPages s b 3) (hv : v % PAGESIZE = 0) (hp : p % PAGESIZE = 0)
      (hsmall : p < 1099511627776) (h : mapMemoryHh s a v p flags = .ok t) : SpaceStep ok a b s t
  | unmap {s : PagingState} {v : Nat} (hlow : v < USERLAND_END) (hok : ok s v none) :
      SpaceStep ok a b s { s with mem := unmapCurrentMemory s.mem a v }

/-- Every address below `USERLAND_END` translates as before, with the same permissions. -/
def SameBelow (m m' : Frames) (pml4 : Nat) : Prop :=
  ∀ v, v < USERLAND_END → virtualToPhysical m' pml4 v = virtualToPhysical m pml4 v ∧
    ((mappingOf m' pml4 (pageNumber v)).isSome = (mappingOf m pml4 (pageNumber v)).isSome) ∧
    (mappingOf m pml4 (pageNumber v) ≠ none →
      getPagePermsHh m' pml4 v = getPagePermsHh m pml4 v)

/-- In the state `s`, before the directory `father` was duplicated, there was no page table
for `v`, or the call on `a` leaves the mapping of the page as it is. -/
def OwnTable (s : PagingState) (father a : Nat) (t : PagingState) (v : Nat) (x : Option Mapping) :
    Prop :=
  walk Entry.child s.mem father (pagePath (pageNumber v)) = none ∨
    mappingOf t.mem a (pageNumber v) = x

theorem sameBelow_of_mappingOf {m m' : Frames} {pml4 : Nat}
    (h : ∀ k, k < 68719476736 → mappingOf m' pml4 k = mappingOf m pml4 k) :
    SameBelow m m' pml4 := by
  intro v _
  have hk := h (pageNumber v) (pageNumber_lt v)
  refine ⟨by rw [virtualToPhysical_eq, virtualToPhysical_eq, hk], by rw [hk], fun hne => ?_⟩
  obtain ⟨x, hx⟩ := Option.ne_none_iff_exists'.mp hne
  rw [getPagePermsHh_eq hx, getPagePermsHh_eq (hk.trans hx)]

/-- The invariant of the runs on `a`: `b` holds the mappings it held in `t`. -/
structure Isolated (t u : PagingState) (a b : Nat) : Prop where
  twins : Twins u.mem a b
  shared : ∀ k, TableShared u.mem a b k → TableShared t.mem a b k
  same : ∀ k, k < 68719476736 → mappingOf u.mem b k = mappingOf t.mem b k

theorem Isolated.step {t u u' : PagingState} {a b : Nat}
    {ok : PagingState → Nat → Option Mapping → Prop}
    (hok : ∀ u v x, ok u v x → TableShared t.mem a b (pageNumber v) →
      mappingOf u.mem a (pageNumber v) = x)
    (h : Isolated t u a b) (hstep : SpaceStep ok a b u u') : Isolated t u' a b := by
  -- a page table that is shared holds what the call puts there
  have hkeep : ∀ {m' : Frames} {v : Nat} {x : Option Mapping}, OnTwin u.mem m' a b (pageNumber v) →
      mappingOf m' a (pageNumber v) = x → ok u v x → ∀ k, k < 68719476736 →
      mappingOf m' b k = mappingOf t.mem b k := by
    intro m' v x hon hnew hx k hk
    by_cases hs : k = pageNumber v ∧ TableShared u.mem a b (pageNumber v)
    · obtain ⟨rfl, hs⟩ := hs
      have hold : mappingOf u.mem a (pageNumber v) = x := hok u v x hx (h.shared _ hs)
      rw [((hon.shared _).mpr hs).mappingOf_eq, hnew, ← h.same _ hk, hs.mappingOf_eq, hold]
    · rw [hon.same k hk fun hkn hs' => hs ⟨hkn, hs'⟩, h.same k hk]
  cases hstep with
  | map hlow hx hfresh hfreshb hv hp hsmall hmap =>
    rename_i v p flags
    have hon := mapMemoryHh_twin h.twins hfresh hfreshb hmap
    obtain ⟨t', ht', -, hspec⟩ := mapMemoryHh_spec flags h.twins.left hfresh hv hp hsmall
    obtain rfl : t' = u' := Except.ok.inj (ht'.symm.trans hmap)
    have hnew : mappingOf t'.mem a (pageNumber v) = some ⟨p >>> 12, flags % 16⟩ := by
      rw [hspec _ (pageNumber_lt v), if_pos rfl]
    exact ⟨hon.twins, fun k hs => h.shared k ((hon.shared k).mp hs), hkeep hon hnew hx⟩
  | @unmap v _ hx =>
    have hon := unmapCurrentMemory_twin v h.twins
    have hnew : mappingOf (unmapCurrentMemory u.mem a v) a (pageNumber v) = none := by
      rw [(unmapCurrentMemory_spec v h.twins.left).2 _ (pageNumber_lt v), if_pos rfl]
    exact ⟨hon.twins, fun k hs => h.shared k ((hon.shared k).mp hs), hkeep hon hnew hx⟩

/-! ## The duplicate and the original -/

section Duplicate
variable {s t : PagingState} {father pml : Nat} (hwf : WellFormed s.mem father)
  (hfresh : FreshPages s father duplicatePages) (hsize : FrameSized s.mem)
  (hdup : duplicateCurrentPml4 s father = .ok (pml, t))
include hwf hfresh hsize hdup

theorem duplicate_twins : Twins t.mem father pml := by
  have hspec := duplicatePd_spec hwf hfresh hsize (Nat.zero_le 512) (le_refl 512) hdup
  exact ⟨hspec.agree.separated hwf, hspec.wellFormed, hspec.meet⟩

/-- The duplicate shares with the original every page table that the original had. -/
theorem duplicate_shared (n : Nat) : TableShared t.mem father pml n ↔
    walk Entry.child s.mem father (pagePath n) ≠ none := by
  have hspec := duplicatePd_spec hwf hfresh hsize (Nat.zero_le 512) (le_refl 512) hdup
  have hpml := hspec.shared (n / 134217728 % 512) (n / 262144 % 512) (n / 512 % 512)
    (Nat.zero_le _) (Nat.mod_lt _ (by decide))
  have hfather := hspec.agree.walk_eq (q := pagePath n) (Nat.le_succ 3)
  rw [TableShared, hfather, show walk Entry.child t.mem pml (pagePath n) =
    walk Entry.child s.mem father (pagePath n) from hpml]
  rw [Option.ne_none_iff_exists']
  exact ⟨fun ⟨pt, h, _⟩ => ⟨pt, h⟩, fun ⟨pt, h⟩ => ⟨pt, h, h⟩⟩

/-- In every run on the duplicate, or on the original, whose calls for a page table that was
there before the duplication leave the mapping as it is, the other directory stays the same
below `USERLAND_END`. -/
theorem duplicate_isolated {a b : Nat} {u : PagingState}
    (hroles : (a = pml ∧ b = father) ∨ (a = father ∧ b = pml))
    (hrun : Reaches (SpaceStep (OwnTable s father a) a b) t u) : SameBelow t.mem u.mem b := by
  have htwins := duplicate_twins hwf hfresh hsize hdup
  have hshared := duplicate_shared hwf hfresh hsize hdup
  have hab : Twins t.mem a b ∧ ∀ n, TableShared t.mem a b n →
      walk Entry.child s.mem father (pagePath n) ≠ none := by
    rcases hroles with ⟨rfl, rfl⟩ | ⟨rfl, rfl⟩
    · exact ⟨htwins.symm, fun n hs => (hshared n).mp hs.symm⟩
    · exact ⟨htwins, fun n hs => (hshared n).mp hs⟩
  have hstart : Isolated t t a b := ⟨hab.1, fun _ hs => hs, fun _ _ => rfl⟩
  have hend : Isolated t u a b := Run.invariant (fun u => Isolated t u a b) (fun _ _ h hstep =>
    h.step (fun u v x hx hs => hx.resolve_left (hab.2 _ hs)) hstep) hstart hrun
  exact sameBelow_of_mappingOf hend.same

end Duplicate

/-! ## A small directory and its duplicate -/

theorem smallTables_frameSized : FrameSized smallTables := by
  intro f i hi
  have hzero : smallTables f i = 0 := if_neg (by omega)
  rw [hzero]
  exact Entry.zero_child

theorem smallPaging_duplicate : ∃ pml t, duplicateCurrentPml4 smallPaging 1 = .ok (pml, t) := by
  obtain ⟨⟨pml, t⟩, h⟩ := @duplicatePd_total smallPaging 1 0 512 fun x => by
    show (16 + x) * 4096 ≠ 0
    omega
  exact ⟨pml, t, h⟩

/-- A page in another region, mapped in the duplicate. -/
theorem duplicate_isolated_small : ∃ pml t u, duplicateCurrentPml4 smallPaging 1 = .ok (pml, t) ∧
    mapMemoryHh t pml 2097152 28672 5 = .ok u ∧ SameBelow t.mem u.mem 1 := by
  obtain ⟨pml, t, hdup⟩ := smallPaging_duplicate
  have hspec := duplicatePd_spec smallTables_wellFormed (smallPaging_fresh (by decide))
    smallTables_frameSized (Nat.zero_le 512) (le_refl 512) hdup
  obtain ⟨hpml, hone⟩ := hspec.freshPages (n := 3) (smallPaging_fresh (by decide))
  obtain ⟨u, hu, -⟩ := mapMemoryHh_spec (v := 2097152) (p := 28672) 5 hspec.wellFormed hpml rfl rfl
    (by decide)
  have hfree : walk Entry.child smallTables 1 (pagePath (pageNumber 2097152)) = none := by
    decide +kernel
  exact ⟨pml, t, u, hdup, hu, duplicate_isolated smallTables_wellFormed
    (smallPaging_fresh (by decide)) smallTables_frameSized hdup (.inl ⟨rfl, rfl⟩)
    (Relation.ReflTransGen.single (.map (by decide) (.inl hfree) hpml hone rfl rfl (by decide) hu))⟩

/-- Unmapping page 0 in the duplicate of the small directory unmaps it in the original. -/
theorem duplicate_not_isolated : ¬ ∀ (s t u : PagingState) (father pml a b : Nat),
    WellFormed s.mem father → FreshPages s father duplicatePages → FrameSized s.mem →
    duplicateCurrentPml4 s father = .ok (pml, t) →
    ((a = pml ∧ b = father) ∨ (a = father ∧ b = pml)) →
    Reaches (SpaceStep (fun _ _ _ => True) a b) t u → SameBelow t.mem u.mem b := by
  intro hall
  obtain ⟨pml, t, hdup⟩ := smallPaging_duplicate
  have hfresh : FreshPages smallPaging 1 duplicatePages := smallPaging_fresh (by decide)
  have hsame := hall smallPaging t _ 1 pml pml 1 smallTables_wellFormed hfresh
    smallTables_frameSized hdup (.inl ⟨rfl, rfl⟩)
    (Relation.ReflTransGen.single (.unmap (v := 0) (by decide) trivial))
  have htwins := duplicate_twins smallTables_wellFormed hfresh smallTables_frameSized hdup
  have hwalk : walk Entry.child smallTables 1 (pagePath (pageNumber 0)) ≠ none := by decide +kernel
  have hshared := (duplicate_shared smallTables_wellFormed hfresh smallTables_frameSized hdup
    (pageNumber 0)).mpr hwalk
  -- the page was mapped, and is not once the duplicate has unmapped it
  have hspec := duplicatePd_spec smallTables_wellFormed hfresh smallTables_frameSized
    (Nat.zero_le 512) (le_refl 512) hdup
  have hold : mappingOf t.mem 1 (pageNumber 0) = some ⟨5, 0⟩ := by
    rw [mappingOf_agree hspec.agree]
    decide +kernel
  have hon := unmapCurrentMemory_twin 0 htwins.symm
  have hnew : mappingOf (unmapCurrentMemory t.mem pml 0) 1 (pageNumber 0) = none := by
    rw [((hon.shared _).mpr hshared.symm).mappingOf_eq,
      (unmapCurrentMemory_spec 0 hspec.wellFormed).2 _ (pageNumber_lt 0), if_pos rfl]
  have hmapped := (hsame 0 (by decide)).2.1
  simp only [hold, hnew] at hmapped
  cases hmapped

end UnedKernel.Memory
