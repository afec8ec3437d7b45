import UnedKernel.Memory.Spaces

/-! # What a user program may do with a page

The processor checks the bits of all four levels. The tables that
`map_memory_hh` makes let everything through, so that in the user half of a
task's directory the entry of the page decides. -/

namespace UnedKernel.Memory
open BitField Radix Word

namespace Entry

/-- The entry lets user programs read, write and execute below it. -/
structure Open (e : Entry) : Prop where
  user : e.userAccess = 1
  writeable : e.writeable = 1
  executable : e.executionDisabled = 0

/-- The entry that `map_memory_hh` hangs a new table under. -/
def hung (e : Entry) (f : Nat) : Entry :=
  (((e.setPagePpn f).setPresent 1).setWriteable 1).setUserAccess 1

theorem hung_open {e : Entry} (f : Nat) (h : e = 0 ∨ e.Open) : (e.hung f).Open := by
  have hnx : e.executionDisabled = 0 := by
    rcases h with rfl | h
    · decide
    · exact h.executable
  refine ⟨?_, ?_, ?_⟩
  · rw [hung, userAccess, setUserAccess, field_setField_same _ _ (by omega)]
    rfl
  · rw [hung, writeable, setUserAccess, field_setField_apart _ _ (by omega) (by omega),
      setWriteable, field_setField_same _ _ (by omega)]
    rfl
  · rw [← hnx, hung, executionDisabled, setUserAccess,
      field_setField_apart _ _ (by omega) (by omega), setWriteable,
      field_setField_apart _ _ (by omega) (by omega), setPresent,
      field_setField_apart _ _ (by omega) (by omega), setPagePpn,
      field_setField_apart _ _ (by omega) (by omega)]
    rfl

end Entry

/-- In the user half, the entries above the page tables are empty or let everything through. -/
def UserOpen (m : Frames) (d : Nat) : Prop :=
  Upper Entry.child m d 3 fun q e => q.headD 0 < 256 → e = 0 ∨ e.Open

/-- The three entries above the page table of page `n` let everything through. -/
def OpenAbove (m : Frames) (d n : Nat) : Prop :=
  ∀ p i f, (p ++ [i]) <+: pagePath n → walk Entry.child m d p = some f → (m f i).Open

theorem UserOpen.openAbove {m : Frames} {d n : Nat} {x : Mapping} (h : UserOpen m d)
    (huser : UserPage n) (hx : mappingOf m d n = some x) : OpenAbove m d n := by
  obtain ⟨pt, hw, -⟩ := mappingOf_some hx
  intro p i f hpre hp
  obtain ⟨q, hq⟩ := hpre
  have hlen := congrArg List.length hq
  simp only [List.length_append, pagePath, List.length_cons, List.length_nil] at hlen
  have hhead : (p ++ [i]).headD 0 = n / 134217728 % 512 := by
    have := congrArg (fun l => List.headD l 0) hq
    rw [show (pagePath n).headD 0 = n / 134217728 % 512 from rfl] at this
    rw [← this]
    cases p <;> rfl
  rcases h p f i (by omega) hp (by rw [hhead]; unfold UserPage at huser; omega) with hzero | hopen
  · -- the walk goes on, so the entry is not empty
    rw [← hq, walk_append, walk_concat hp, hzero, Entry.zero_child] at hw
    cases hw
  · exact hopen

theorem enterTable_open {s : PagingState} {d n table : Nat} {p : List Nat}
    (h : UserOpen s.mem d) (hwf : WellFormed s.mem d)
    (hw : walk Entry.child s.mem d p = some table) (hp : p.length + 1 ≤ 3)
    (hfresh : FreshPages s d (n + 1)) (i : Nat) : UserOpen (enterTable s table i).2.mem d := by
  unfold enterTable
  by_cases hpres : (s.mem table i).present = 0
  · simp only [if_pos hpres]
    have hout := hfresh.out 0 (by omega)
    rw [Nat.add_zero] at hout
    have hsmall := hfresh.small 0 (by omega)
    rw [Nat.add_zero] at hsmall
    generalize hc : s.supply s.next >>> 12 = c at hout
    have hc28 : c < 268435456 := by rw [← hc, Nat.shiftRight_eq_div_pow]; omega
    have htc : table ≠ c := by
      rintro rfl
      exact hout p (by omega) hw
    have hagree : AgreeOn Entry.child s.mem (s.mem.fill c 0) d 3 := agreeOn_fill hout
    have hw' : walk Entry.child (s.mem.fill c 0) d p = some table := by
      rw [walk_fill hout (by omega), hw]
    have hold : Entry.child (s.mem.fill c 0 table i) = none := by
      rw [Store.fill_of_ne i 0 htc, Entry.child, if_pos hpres]
    have hempty : ∀ j, Entry.child (s.mem.fill c 0 c j) = none := fun j => by
      rw [Store.fill_same]; exact Entry.zero_child
    exact Upper.hang (h.agree hagree) (hwf.fill hout 0) (hout.fill hout 0) hw' hp hold
      (Entry.child_fresh (s.mem table i) hc28) hempty
      (fun hhead => .inr (Entry.hung_open c (h p table i (by omega) hw hhead)))
      fun j _ => .inl (Store.fill_same c j 0)
  · simp only [if_neg hpres]
    exact h

/-- `map_memory_hh` keeps the user half of its directory open. -/
theorem mapMemoryHh_open {s t : PagingState} {d v p flags : Nat} (h : UserOpen s.mem d)
    (hwf : WellFormed s.mem d) (hfresh : FreshPages s d 3)
    (ht : mapMemoryHh s d v p flags = .ok t) : UserOpen t.mem d := by
  have h1 := enterTable_entered hwf (walk_nil d) (by simp) hfresh (pageNumber v / 134217728 % 512)
  have ho1 := enterTable_open h hwf (walk_nil d) (by simp) hfresh (pageNumber v / 134217728 % 512)
  generalize hs1 : enterTable s d (pageNumber v / 134217728 % 512) = r1 at h1 ho1
  have h2 := enterTable_entered h1.wellFormed h1.reached (by simp) h1.fresh
    (pageNumber v / 262144 % 512)
  have ho2 := enterTable_open ho1 h1.wellFormed h1.reached (by simp) h1.fresh
    (pageNumber v / 262144 % 512)
  generalize hs2 : enterTable r1.2 r1.1 (pageNumber v / 262144 % 512) = r2 at h2 ho2
  have h3 := enterTable_entered h2.wellFormed h2.reached (by simp) h2.fresh
    (pageNumber v / 512 % 512)
  have ho3 := enterTable_open ho2 h2.wellFormed h2.reached (by simp) h2.fresh
    (pageNumber v / 512 % 512)
  generalize hs3 : enterTable r2.2 r2.1 (pageNumber v / 512 % 512) = r3 at h3 ho3
  have hreach : walk Entry.child r3.2.mem d (pagePath (pageNumber v)) = some r3.1 := h3.reached
  simp only [mapMemoryHh, addressToMap_eq, hs1, hs2, hs3] at ht
  split at ht
  · cases ht
  split at ht
  · cases ht
  cases ht
  exact Upper.set_leaf ho3 h3.wellFormed hreach rfl

/-- The directory that `duplicate_current_kernel_pml4` makes has an open user half. -/
theorem userOpen_of_zero {m : Frames} {d : Nat} (hzero : ∀ i, i < 256 → m d i = 0) :
    UserOpen m d := by
  intro p f i _ hw hhead
  cases p with
  | nil =>
    cases hw
    exact .inl (hzero i hhead)
  | cons j p =>
    rw [walk_cons, hzero j hhead, Entry.zero_child] at hw
    cases hw

/-! ## The tests of the code -/

/-- `is_present`. -/
def isPresent (m : Frames) (pml4 address : Nat) : Nat :=
  let map := addressToMap address
  (m (tableOf m pml4 map) map.P_i).present

/-- `is_user_access`: the user bit at every level. -/
def isUserAccess (m : Frames) (pml4 address : Nat) : Nat :=
  let map := addressToMap address
  let pde := m pml4 map.PDP_i
  if pde.userAccess = 0 then 0
  else
    let pde := m pde.pagePpn map.PD_i
    if pde.userAccess = 0 then 0
    else
      let pde := m pde.pagePpn map.PT_i
      if pde.userAccess = 0 then 0
      else (m pde.pagePpn map.P_i).userAccess

/-- `is_executable`. -/
def isExecutable (m : Frames) (pml4 address : Nat) : Bool :=
  let map := addressToMap address
  (m (tableOf m pml4 map) map.P_i).executionDisabled == 0

end UnedKernel.Memory
