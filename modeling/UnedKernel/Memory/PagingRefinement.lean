import Mathlib.Logic.Function.Basic
import UnedKernel.Lib.Run
import UnedKernel.Memory.Paging

/-! # The page tables refine a finite map

The purpose of the tables, in its own terms, is a map from the 2 ^ 36 page
numbers to a frame and four permission bits. Each operation on a separated
tree of tables is the operation of that name on the map, on the pages it
names and on no other. -/

namespace UnedKernel.Memory
open BitField Radix Word Run

/-! ## Entries -/

namespace Entry

/-- The table or page under an entry, if it is present. -/
def child (e : Entry) : Option Nat := if e.present = 0 then none else some e.pagePpn

def live (e : Entry) : Bool := decide (e.present ≠ 0)

/-- The permission bits, as `get_page_perms_hh` packs them. -/
def perms (e : Entry) : Nat :=
  e.writeable ||| e.userAccess <<< 1 ||| e.executionDisabled <<< 2 ||| e.cacheDisabled <<< 3

theorem child_of_live {e : Entry} (h : e.present ≠ 0) : e.child = some e.pagePpn := if_neg h

theorem zero_dead : live 0 = false := by decide

theorem zero_child : child 0 = none := by decide

/-- The entry that `enterTable` makes for a page below 2 ^ 40 leads to its frame. -/
theorem child_fresh (e : Entry) {f : Nat} (hf : f < 268435456) :
    child ((((e.setPagePpn f).setPresent 1).setWriteable 1).setUserAccess 1) = some f := by
  have hpres : ((((e.setPagePpn f).setPresent 1).setWriteable 1).setUserAccess 1).present = 1 := by
    rw [present, setUserAccess, field_setField_apart _ _ (by omega) (by omega), setWriteable,
      field_setField_apart _ _ (by omega) (by omega), setPresent,
      field_setField_same _ _ (by omega)]
    rfl
  have hppn : ((((e.setPagePpn f).setPresent 1).setWriteable 1).setUserAccess 1).pagePpn = f := by
    rw [pagePpn, setUserAccess, field_setField_apart _ _ (by omega) (by omega), setWriteable,
      field_setField_apart _ _ (by omega) (by omega), setPresent,
      field_setField_apart _ _ (by omega) (by omega), setPagePpn,
      field_setField_same _ _ (by omega)]
    exact Nat.mod_eq_of_lt hf
  rw [child, hpres, hppn]
  rfl

/-- The four permission assignments, in the order of the source. -/
def withPerms (e : Entry) (w u x c : Nat) : Entry :=
  (((e.setWriteable w).setUserAccess u).setExecutionDisabled x).setCacheDisabled c

theorem withPerms_present (e : Entry) (w u x c : Nat) : (e.withPerms w u x c).present = e.present := by
  simp only [withPerms, present, setCacheDisabled, setExecutionDisabled, setUserAccess,
    setWriteable]
  repeat rw [field_setField_apart _ _ (by omega) (by omega)]

theorem withPerms_pagePpn (e : Entry) (w u x c : Nat) : (e.withPerms w u x c).pagePpn = e.pagePpn := by
  simp only [withPerms, pagePpn, setCacheDisabled, setExecutionDisabled, setUserAccess,
    setWriteable]
  repeat rw [field_setField_apart _ _ (by omega) (by omega)]

theorem withPerms_perms (e : Entry) (w u x c : Nat) : (e.withPerms w u x c).perms =
    w % 2 ||| (u % 2) <<< 1 ||| (x % 2) <<< 2 ||| (c % 2) <<< 3 := by
  have hw : (e.withPerms w u x c).writeable = w % 2 := by
    simp only [withPerms, writeable, setCacheDisabled, setExecutionDisabled, setUserAccess,
      setWriteable]
    rw [field_setField_apart _ _ (by omega) (by omega), field_setField_apart _ _ (by omega) (by omega),
      field_setField_apart _ _ (by omega) (by omega), field_setField_same _ _ (by omega), Nat.pow_one]
  have hu : (e.withPerms w u x c).userAccess = u % 2 := by
    simp only [withPerms, userAccess, setCacheDisabled, setExecutionDisabled, setUserAccess]
    rw [field_setField_apart _ _ (by omega) (by omega), field_setField_apart _ _ (by omega) (by omega),
      field_setField_same _ _ (by omega), Nat.pow_one]
  have hx : (e.withPerms w u x c).executionDisabled = x % 2 := by
    simp only [withPerms, executionDisabled, setCacheDisabled, setExecutionDisabled]
    rw [field_setField_apart _ _ (by omega) (by omega), field_setField_same _ _ (by omega),
      Nat.pow_one]
  have hc : (e.withPerms w u x c).cacheDisabled = c % 2 := by
    simp only [withPerms, cacheDisabled, setCacheDisabled]
    rw [field_setField_same _ _ (by omega), Nat.pow_one]
  rw [perms, hw, hu, hx, hc]

end Entry

/-- The low four bits of the flags, taken apart and packed again. -/
theorem flags_packed (flags : Nat) :
    (flags &&& 1) % 2 ||| ((flags &&& 2) >>> 1 % 2) <<< 1 ||| ((flags &&& 4) >>> 2 % 2) <<< 2 |||
      ((flags &&& 8) >>> 3 % 2) <<< 3 = flags % 16 := by
  apply Nat.eq_of_testBit_eq
  intro k
  have h16 : flags % 16 = flags % 2 ^ 4 := rfl
  rw [h16, Nat.testBit_mod_two_pow]
  have hm : ∀ x j, (x % 2).testBit j = (decide (j < 1) && x.testBit j) := fun x j =>
    Nat.testBit_mod_two_pow x 1 j
  have h1 : ∀ j, Nat.testBit 1 j = decide (0 = j) := fun j => Nat.testBit_two_pow (n := 0)
  have h2 : ∀ j, Nat.testBit 2 j = decide (1 = j) := fun j => Nat.testBit_two_pow (n := 1)
  have h4 : ∀ j, Nat.testBit 4 j = decide (2 = j) := fun j => Nat.testBit_two_pow (n := 2)
  have h8 : ∀ j, Nat.testBit 8 j = decide (3 = j) := fun j => Nat.testBit_two_pow (n := 3)
  simp only [Nat.testBit_or, Nat.testBit_shiftLeft, Nat.testBit_shiftRight, hm,
    Nat.testBit_and, h1, h2, h4, h8]
  rcases k with _ | _ | _ | _ | k
  · simp
  · simp
  · simp
  · simp
  · simp

/-! ## Addresses and pages -/

/-- The number of the page of an address: bits 12 to 47. -/
def pageNumber (v : Nat) : Nat := v / 4096 % 68719476736

/-- The indices of the three upper levels for page `n`. -/
def pagePath (n : Nat) : List Nat := [n / 134217728 % 512, n / 262144 % 512, n / 512 % 512]

theorem addressToMap_eq (v : Nat) : addressToMap v =
    { PDP_i := pageNumber v / 134217728 % 512, PD_i := pageNumber v / 262144 % 512
      PT_i := pageNumber v / 512 % 512, P_i := pageNumber v % 512 } := by
  simp only [addressToMap, pageNumber, Nat.shiftRight_eq_div_pow, PageMapIndex.mk.injEq]
  omega

theorem pagePath_injective {a b : Nat} (ha : a < 68719476736) (hb : b < 68719476736)
    (hp : pagePath a = pagePath b) (hi : a % 512 = b % 512) : a = b := by
  simp only [pagePath, List.cons.injEq, and_true] at hp
  omega

theorem pageNumber_lt (v : Nat) : pageNumber v < 68719476736 := Nat.mod_lt _ (by omega)

/-! ## The abstract map -/

/-- What a page is mapped to. -/
structure Mapping where
  frame : Nat
  perms : Nat
  deriving DecidableEq

/-- A map from page numbers, which are below 2 ^ 36. -/
abbrev PageMap := Nat → Option Mapping

namespace PageMap

/-- The address that a page translates to, 0 when it is not mapped. -/
def translate (A : PageMap) (n : Nat) : Nat := (A n).elim 0 fun x => x.frame <<< 12

def map (A : PageMap) (n frame perms : Nat) : PageMap := Function.update A n (some ⟨frame, perms⟩)

def unmap (A : PageMap) (n : Nat) : PageMap := Function.update A n none

open Classical in
/-- Give the pages of `S` new permissions. -/
noncomputable def protect (A : PageMap) (S : Nat → Prop) (perms : Nat) : PageMap := fun n =>
  if S n then (A n).map fun x => { x with perms := perms } else A n

end PageMap

/-- Page `n` holds a byte of `[a, a + size)`. -/
def Meets (a size n : Nat) : Prop := ∃ b, a ≤ b ∧ b < a + size ∧ pageNumber b = n

/-- The mapping that the tables hold for page `n`. -/
def mappingOf (m : Frames) (pml4 n : Nat) : Option Mapping :=
  (leaf Entry.child Entry.live m pml4 (pagePath n) (n % 512)).map fun e => ⟨e.pagePpn, e.perms⟩

/-- No table of the four levels is reached twice. -/
abbrev WellFormed (m : Frames) (pml4 : Nat) : Prop := Separated Entry.child m pml4 3

/-! ## Reading -/

theorem walk_path {m : Frames} {pml4 n : Nat} : walk Entry.child m pml4 (pagePath n) =
    (Entry.child (m pml4 (n / 134217728 % 512))).bind fun pdp =>
      (Entry.child (m pdp (n / 262144 % 512))).bind fun pd =>
        Entry.child (m pd (n / 512 % 512)) := by
  simp only [pagePath, walk_cons]
  congr 1; funext pdp
  congr 1; funext pd
  cases Entry.child (m pd (n / 512 % 512)) <;> rfl

theorem virtualToPhysical_eq (m : Frames) (pml4 v : Nat) : virtualToPhysical m pml4 v =
    (mappingOf m pml4 (pageNumber v)).elim 0 fun x => x.frame <<< 12 := by
  simp only [virtualToPhysical, addressToMap_eq, mappingOf, leaf, walk_path]
  generalize pageNumber v = n
  by_cases h4 : (m pml4 (n / 134217728 % 512)).present = 0
  · simp [Entry.child, h4]
  rw [Entry.child_of_live h4, Option.bind_some, if_neg h4]
  generalize (m pml4 (n / 134217728 % 512)).pagePpn = pdp
  by_cases h3 : (m pdp (n / 262144 % 512)).present = 0
  · simp [Entry.child, h3]
  rw [Entry.child_of_live h3, Option.bind_some, if_neg h3]
  generalize (m pdp (n / 262144 % 512)).pagePpn = pd
  by_cases h2 : (m pd (n / 512 % 512)).present = 0
  · simp [Entry.child, h2]
  rw [Entry.child_of_live h2, Option.bind_some, if_neg h2]
  generalize (m pd (n / 512 % 512)).pagePpn = pt
  by_cases h1 : (m pt (n % 512)).present = 0
  · simp [Entry.live, h1]
  · simp [Entry.live, h1]

/-- A walk that ends is the chain of `page_ppn` that `tableOf` follows. -/
theorem tableOf_eq {m : Frames} {pml4 v pt : Nat}
    (h : walk Entry.child m pml4 (pagePath (pageNumber v)) = some pt) :
    tableOf m pml4 (addressToMap v) = pt := by
  rw [walk_path] at h
  simp only [Option.bind_eq_some_iff] at h
  obtain ⟨pdp, h4, pd, h3, h2⟩ := h
  have hppn : ∀ {e : Entry} {f : Nat}, e.child = some f → e.pagePpn = f := by
    intro e f he
    unfold Entry.child at he
    split at he
    · cases he
    · exact Option.some.inj he
  rw [tableOf, addressToMap_eq]
  simp only [hppn h4, hppn h3, hppn h2]

/-- The leaf behind a mapped page. -/
theorem mappingOf_some {m : Frames} {pml4 n : Nat} {x : Mapping}
    (h : mappingOf m pml4 n = some x) : ∃ pt,
      walk Entry.child m pml4 (pagePath n) = some pt ∧ (m pt (n % 512)).present ≠ 0 ∧
      x = ⟨(m pt (n % 512)).pagePpn, (m pt (n % 512)).perms⟩ := by
  simp only [mappingOf, leaf, Option.map_eq_some_iff, Option.bind_eq_some_iff] at h
  obtain ⟨e, ⟨pt, hw, he⟩, rfl⟩ := h
  split at he
  · rename_i hlive
    cases he
    exact ⟨pt, hw, by simpa [Entry.live] using hlive, rfl⟩
  · cases he

theorem getPagePermsHh_eq {m : Frames} {pml4 v : Nat} {x : Mapping}
    (h : mappingOf m pml4 (pageNumber v) = some x) : getPagePermsHh m pml4 v = x.perms := by
  obtain ⟨pt, hw, _, rfl⟩ := mappingOf_some h
  rw [getPagePermsHh]
  simp only [tableOf_eq hw]
  rw [addressToMap_eq]
  rfl

/-! ## Writing a leaf -/

/-- Writing the leaf of page `n` changes the mapping of page `n` only. -/
theorem mappingOf_set {m : Frames} {pml4 n pt : Nat} (hwf : WellFormed m pml4)
    (hn : n < 68719476736) (hw : walk Entry.child m pml4 (pagePath n) = some pt) (e : Entry)
    {k : Nat} (hk : k < 68719476736) : mappingOf (m.set pt (n % 512) e) pml4 k =
      if k = n then (if e.present = 0 then none else some ⟨e.pagePpn, e.perms⟩)
      else mappingOf m pml4 k := by
  simp only [mappingOf, leaf_set hwf hw rfl (q := pagePath k) (le_refl 3)]
  by_cases hkn : k = n
  · subst hkn
    by_cases he : e.present = 0
    · simp [Entry.live, he]
    · simp [Entry.live, he]
  · rw [if_neg hkn, if_neg]
    rintro ⟨hp, hi⟩
    exact hkn (pagePath_injective hk hn hp hi)

theorem setPagePermsHh_spec {m : Frames} {pml4 v : Nat} {x : Mapping} (hwf : WellFormed m pml4)
    (h : mappingOf m pml4 (pageNumber v) = some x) (permissions : Nat) :
    WellFormed (setPagePermsHh m pml4 v permissions) pml4 ∧
    ∀ k, k < 68719476736 → mappingOf (setPagePermsHh m pml4 v permissions) pml4 k =
      if k = pageNumber v then some { x with perms := permissions % 16 }
      else mappingOf m pml4 k := by
  obtain ⟨pt, hw, hp, rfl⟩ := mappingOf_some h
  have hset : setPagePermsHh m pml4 v permissions = m.set pt (pageNumber v % 512)
      ((m pt (pageNumber v % 512)).withPerms (permissions &&& 1) ((permissions &&& 2) >>> 1)
        ((permissions &&& 4) >>> 2) ((permissions &&& 8) >>> 3)) := by
    rw [setPagePermsHh]
    simp only [tableOf_eq hw]
    rw [addressToMap_eq]
    rfl
  rw [hset]
  refine ⟨hwf.set_leaf hw rfl _ _, fun k hk => ?_⟩
  rw [mappingOf_set hwf (pageNumber_lt v) hw _ hk, Entry.withPerms_present, if_neg hp,
    Entry.withPerms_pagePpn, Entry.withPerms_perms, flags_packed]

/-! ## Entering a table -/

/-- The next `n` pages that `request_page` returns are page aligned, below
2 ^ 40, different, and outside the tree. -/
structure FreshPages (s : PagingState) (pml4 n : Nat) : Prop where
  aligned : ∀ k, k < n → s.supply (s.next + k) % PAGESIZE = 0
  small : ∀ k, k < n → s.supply (s.next + k) < 1099511627776
  distinct : ∀ j k, j < k → k < n → s.supply (s.next + j) ≠ s.supply (s.next + k)
  out : ∀ k, k < n → Outside Entry.child s.mem pml4 3 (s.supply (s.next + k) >>> 12)

theorem FreshPages.pred {s : PagingState} {pml4 n : Nat} (h : FreshPages s pml4 (n + 1)) :
    FreshPages s pml4 n :=
  ⟨fun k hk => h.aligned k (by omega), fun k hk => h.small k (by omega),
    fun j k hj hk => h.distinct j k hj (by omega), fun k hk => h.out k (by omega)⟩

/-- Two different pages lie in different frames. -/
theorem FreshPages.frame_ne {s : PagingState} {pml4 n j k : Nat} (h : FreshPages s pml4 n)
    (hj : j < k) (hk : k < n) :
    s.supply (s.next + k) >>> 12 ≠ s.supply (s.next + j) >>> 12 := by
  have haj := h.aligned j (by omega)
  have hak := h.aligned k hk
  have hne := h.distinct j k hj hk
  simp only [Nat.shiftRight_eq_div_pow]
  unfold PAGESIZE at haj hak
  omega

/-- What entering the table under an entry preserves, and where it leads. -/
structure Entered (s t : PagingState) (pml4 n : Nat) (p : List Nat) (f : Nat) : Prop where
  wellFormed : WellFormed t.mem pml4
  reached : walk Entry.child t.mem pml4 p = some f
  same : ∀ k, mappingOf t.mem pml4 k = mappingOf s.mem pml4 k
  fresh : FreshPages t pml4 n

theorem enterTable_entered {s : PagingState} {pml4 n table : Nat} {p : List Nat}
    (hwf : WellFormed s.mem pml4) (hw : walk Entry.child s.mem pml4 p = some table)
    (hp : p.length + 1 ≤ 3) (hfresh : FreshPages s pml4 (n + 1)) (i : Nat) :
    Entered s (enterTable s table i).2 pml4 n (p ++ [i]) (enterTable s table i).1 := by
  unfold enterTable
  by_cases hpres : (s.mem table i).present = 0
  · simp only [if_pos hpres]
    -- the page is cleared while it is outside the tree, then hung under the entry
    have hout := hfresh.out 0 (by omega)
    rw [Nat.add_zero] at hout
    have hsmall := hfresh.small 0 (by omega)
    rw [Nat.add_zero] at hsmall
    generalize hc : s.supply s.next >>> 12 = c at hout
    have hc28 : c < 268435456 := by rw [← hc, Nat.shiftRight_eq_div_pow]; omega
    have htc : table ≠ c := by
      rintro rfl
      exact hout p (by omega) hw
    have hwf' := hwf.fill hout 0
    have hw' : walk Entry.child (s.mem.fill c 0) pml4 p = some table := by
      rw [walk_fill hout (by omega), hw]
    have hold : Entry.child (s.mem.fill c 0 table i) = none := by
      rw [Store.fill_of_ne i 0 htc, Entry.child, if_pos hpres]
    have hempty : ∀ j, Entry.child (s.mem.fill c 0 c j) = none := fun j => by
      rw [Store.fill_same]; exact Entry.zero_child
    have hdead : ∀ j, Entry.live (s.mem.fill c 0 c j) = false := fun j => by
      rw [Store.fill_same]; exact Entry.zero_dead
    have hnew := Entry.child_fresh (s.mem table i) hc28
    have hout' := hout.fill hout 0
    refine ⟨hwf'.hang hout' hw' hp hold hnew hempty, ?_, fun k => ?_, ?_⟩
    · rw [walk_hang hwf' hout' hw' hp hold hnew hempty (by simp; omega), if_pos rfl]
    · simp only [mappingOf]
      rw [leaf_hang hwf' hout' hw' hp hold hnew hempty hdead rfl, leaf_fill hout (le_refl 3)]
    · have hidx : ∀ k, s.next + 1 + k = s.next + (k + 1) := fun k => by omega
      refine ⟨fun k hk => ?_, fun k hk => ?_, fun j k hj hk => ?_, fun k hk => ?_⟩
      · show s.supply (s.next + 1 + k) % PAGESIZE = 0
        rw [hidx]; exact hfresh.aligned _ (by omega)
      · show s.supply (s.next + 1 + k) < _
        rw [hidx]; exact hfresh.small _ (by omega)
      · show s.supply (s.next + 1 + j) ≠ s.supply (s.next + 1 + k)
        rw [hidx, hidx]; exact hfresh.distinct _ _ (by omega) (by omega)
      · show Outside _ _ _ _ (s.supply (s.next + 1 + k) >>> 12)
        rw [hidx]
        have hne := hfresh.frame_ne (Nat.succ_pos k) (by omega)
        rw [Nat.add_zero, hc] at hne
        have hok := hout.fill (hfresh.out (k + 1) (by omega)) 0
        exact Outside.hang hwf' hout' hw' hp hold hnew hempty hok hne
  · simp only [if_neg hpres]
    exact ⟨hwf, by rw [walk_concat hw, Entry.child_of_live hpres], fun _ => rfl, hfresh.pred⟩

theorem enterTable_walk {s : PagingState} {pml4 table : Nat} {p q : List Nat}
    (hwf : WellFormed s.mem pml4) (hw : walk Entry.child s.mem pml4 p = some table)
    (hp : p.length + 1 ≤ 3) (hfresh : FreshPages s pml4 1) {i : Nat} (hq : q.length ≤ 3)
    (hne : q ≠ p ++ [i]) :
    walk Entry.child (enterTable s table i).2.mem pml4 q = walk Entry.child s.mem pml4 q := by
  unfold enterTable
  by_cases hpres : (s.mem table i).present = 0
  · simp only [if_pos hpres]
    have hout := hfresh.out 0 (by omega)
    have hsmall := hfresh.small 0 (by omega)
    rw [Nat.add_zero] at hout hsmall
    generalize hc : s.supply s.next >>> 12 = c at hout
    have hc28 : c < 268435456 := by rw [← hc, Nat.shiftRight_eq_div_pow]; omega
    have htc : table ≠ c := by
      rintro rfl
      exact hout p (by omega) hw
    have hw' : walk Entry.child (s.mem.fill c 0) pml4 p = some table := by
      rw [walk_fill hout (by omega), hw]
    have hold : Entry.child (s.mem.fill c 0 table i) = none := by
      rw [Store.fill_of_ne i 0 htc, Entry.child, if_pos hpres]
    have hempty : ∀ j, Entry.child (s.mem.fill c 0 c j) = none := fun j => by
      rw [Store.fill_same]; exact Entry.zero_child
    rw [walk_hang (hwf.fill hout 0) (hout.fill hout 0) hw' hp hold
      (Entry.child_fresh (s.mem table i) hc28) hempty (by omega), if_neg hne,
      walk_fill hout (by omega)]
  · simp only [if_neg hpres]

/-! ## The operations -/

/-- The steps of `map_memory_hh`. -/
theorem mapMemoryHh_inv {s t : PagingState} {pml4 v p flags : Nat}
    (h : mapMemoryHh s pml4 v p flags = .ok t) :
    ∃ r₁ r₂ r₃ e, enterTable s pml4 (pageNumber v / 134217728 % 512) = r₁ ∧
      enterTable r₁.2 r₁.1 (pageNumber v / 262144 % 512) = r₂ ∧
      enterTable r₂.2 r₂.1 (pageNumber v / 512 % 512) = r₃ ∧
      t = { r₃.2 with mem := r₃.2.mem.set r₃.1 (pageNumber v % 512) e } ∧
      v % PAGESIZE = 0 ∧ p % PAGESIZE = 0 := by
  simp only [mapMemoryHh, addressToMap_eq] at h
  split at h
  · cases h
  split at h
  · cases h
  cases h
  exact ⟨_, _, _, _, rfl, rfl, rfl, rfl, by omega, by omega⟩

/-- Only the page table of the page itself may be new. -/
theorem mapMemoryHh_path {s t : PagingState} {pml4 v p flags : Nat}
    (hwf : WellFormed s.mem pml4) (hfresh : FreshPages s pml4 3)
    (h : mapMemoryHh s pml4 v p flags = .ok t) {k : Nat} (hne : pagePath k ≠ pagePath (pageNumber v)) :
    walk Entry.child t.mem pml4 (pagePath k) = walk Entry.child s.mem pml4 (pagePath k) := by
  obtain ⟨r₁, r₂, r₃, e, hs1, hs2, hs3, rfl, -⟩ := mapMemoryHh_inv h
  have h1 := enterTable_entered hwf (walk_nil pml4) (by simp) hfresh
    (pageNumber v / 134217728 % 512)
  have w1 := enterTable_walk hwf (walk_nil pml4) (by simp) hfresh.pred.pred
    (i := pageNumber v / 134217728 % 512) (q := pagePath k) (le_refl 3)
    (fun hq => absurd (congrArg List.length hq) (by simp [pagePath]))
  rw [hs1] at h1 w1
  have h2 := enterTable_entered h1.wellFormed h1.reached (by simp) h1.fresh
    (pageNumber v / 262144 % 512)
  have w2 := enterTable_walk h1.wellFormed h1.reached (by simp) h1.fresh.pred
    (i := pageNumber v / 262144 % 512) (q := pagePath k) (le_refl 3)
    (fun hq => absurd (congrArg List.length hq) (by simp [pagePath]))
  rw [hs2] at h2 w2
  have h3 := enterTable_entered h2.wellFormed h2.reached (by simp) h2.fresh
    (pageNumber v / 512 % 512)
  have w3 := enterTable_walk h2.wellFormed h2.reached (by simp) h2.fresh
    (i := pageNumber v / 512 % 512) (q := pagePath k) (le_refl 3) hne
  rw [hs3] at h3 w3
  have hreach : walk Entry.child r₃.2.mem pml4 (pagePath (pageNumber v)) = some r₃.1 := h3.reached
  rw [← w1, ← w2, ← w3]
  exact walk_set_leaf h3.wellFormed hreach rfl (le_refl 3)

theorem mapMemoryHh_spec {s : PagingState} {pml4 v p : Nat} (flags : Nat)
    (hwf : WellFormed s.mem pml4) (hfresh : FreshPages s pml4 3) (hv : v % PAGESIZE = 0)
    (hp : p % PAGESIZE = 0) (hsmall : p < 1099511627776) :
    ∃ t, mapMemoryHh s pml4 v p flags = .ok t ∧ WellFormed t.mem pml4 ∧
      ∀ k, k < 68719476736 → mappingOf t.mem pml4 k =
        if k = pageNumber v then some ⟨p >>> 12, flags % 16⟩ else mappingOf s.mem pml4 k := by
  have h1 := enterTable_entered hwf (walk_nil pml4) (by simp) hfresh
    (pageNumber v / 134217728 % 512)
  generalize hs1 : enterTable s pml4 (pageNumber v / 134217728 % 512) = r1 at h1
  have h2 := enterTable_entered h1.wellFormed h1.reached (by simp) h1.fresh
    (pageNumber v / 262144 % 512)
  generalize hs2 : enterTable r1.2 r1.1 (pageNumber v / 262144 % 512) = r2 at h2
  have h3 := enterTable_entered h2.wellFormed h2.reached (by simp) h2.fresh
    (pageNumber v / 512 % 512)
  generalize hs3 : enterTable r2.2 r2.1 (pageNumber v / 512 % 512) = r3 at h3
  have hreach : walk Entry.child r3.2.mem pml4 (pagePath (pageNumber v)) = some r3.1 := h3.reached
  have hsame : ∀ k, mappingOf r3.2.mem pml4 k = mappingOf s.mem pml4 k := fun k => by
    rw [h3.same, h2.same, h1.same]
  generalize hpte : (((r3.2.mem r3.1 (pageNumber v % 512)).setPagePpn (p >>> 12)).setPresent
    1).withPerms (flags &&& PAGE_WRITE_BIT) ((flags &&& PAGE_USER_BIT) >>> 1)
      ((flags &&& PAGE_NX_BIT) >>> 2) ((flags &&& PAGE_CACHE_DISABLE) >>> 3) = pte
  have hpres : pte.present ≠ 0 := by
    rw [← hpte, Entry.withPerms_present, Entry.present, Entry.setPresent,
      field_setField_same _ _ (by omega)]
    decide
  have hppn : pte.pagePpn = p >>> 12 := by
    rw [← hpte, Entry.withPerms_pagePpn, Entry.pagePpn, Entry.setPresent,
      field_setField_apart _ _ (by omega) (by omega), Entry.setPagePpn,
      field_setField_same _ _ (by omega)]
    exact Nat.mod_eq_of_lt (by rw [Nat.shiftRight_eq_div_pow]; omega)
  have hperms : pte.perms = flags % 16 := by
    rw [← hpte, Entry.withPerms_perms]
    exact flags_packed flags
  refine ⟨{ r3.2 with mem := r3.2.mem.set r3.1 (pageNumber v % 512) pte }, ?_,
    h3.wellFormed.set_leaf hreach rfl _ _, fun k hk => ?_⟩
  · simp only [mapMemoryHh, addressToMap_eq, hs1, hs2, hs3]
    rw [if_neg (by omega), if_neg (by omega), ← hpte]
    rfl
  · rw [mappingOf_set h3.wellFormed (pageNumber_lt v) hreach _ hk, if_neg hpres, hppn, hperms,
      hsame]

/-- `unmap_current_memory` does nothing, or clears the present bit in the page table. -/
theorem unmapCurrentMemory_cases (m : Frames) (pml4 v : Nat) :
    (unmapCurrentMemory m pml4 v = m ∧ walk Entry.child m pml4 (pagePath (pageNumber v)) = none) ∨
    ∃ pt, walk Entry.child m pml4 (pagePath (pageNumber v)) = some pt ∧
      unmapCurrentMemory m pml4 v =
        m.set pt (pageNumber v % 512) ((m pt (pageNumber v % 512)).setPresent 0) := by
  simp only [walk_path, unmapCurrentMemory, addressToMap_eq]
  by_cases h4 : (m pml4 (pageNumber v / 134217728 % 512)).present = 0
  · left
    simp [Entry.child, h4]
  rw [if_neg h4, Entry.child_of_live h4, Option.bind_some]
  generalize (m pml4 (pageNumber v / 134217728 % 512)).pagePpn = pdp
  by_cases h3 : (m pdp (pageNumber v / 262144 % 512)).present = 0
  · left
    simp [Entry.child, h3]
  rw [if_neg h3, Entry.child_of_live h3, Option.bind_some]
  generalize (m pdp (pageNumber v / 262144 % 512)).pagePpn = pd
  by_cases h2 : (m pd (pageNumber v / 512 % 512)).present = 0
  · left
    simp [Entry.child, h2]
  · right
    rw [if_neg h2]
    exact ⟨_, Entry.child_of_live h2, rfl⟩

theorem unmapCurrentMemory_spec {m : Frames} {pml4 : Nat} (v : Nat) (hwf : WellFormed m pml4) :
    WellFormed (unmapCurrentMemory m pml4 v) pml4 ∧
    ∀ k, k < 68719476736 → mappingOf (unmapCurrentMemory m pml4 v) pml4 k =
      if k = pageNumber v then none else mappingOf m pml4 k := by
  rcases unmapCurrentMemory_cases m pml4 v with ⟨hsame, hw⟩ | ⟨pt, hw, hset⟩
  · have hnone : mappingOf m pml4 (pageNumber v) = none := by simp [mappingOf, leaf, hw]
    rw [hsame]
    refine ⟨hwf, fun k _ => ?_⟩
    split
    · rename_i hk; rw [hk, hnone]
    · rfl
  · rw [hset]
    refine ⟨hwf.set_leaf hw rfl _ _, fun k hk => ?_⟩
    have hdead : ((m pt (pageNumber v % 512)).setPresent 0).present = 0 := by
      rw [Entry.present, Entry.setPresent, field_setField_same _ _ (by omega)]
      rfl
    rw [mappingOf_set hwf (pageNumber_lt v) hw _ hk, if_pos hdead]

/-- The loop of `mprotect_hh` gives its pages the permissions, and no other page. -/
theorem setPermsFrom_spec {pml4 : Nat} (permissions n : Nat) {i : Nat} {m : Frames}
    (hwf : WellFormed m pml4)
    (hmapped : ∀ j, j < n → mappingOf m pml4 (pageNumber (i + j * PAGESIZE)) ≠ none) :
    WellFormed (setPermsFrom pml4 permissions i n m) pml4 ∧
    ∀ k, k < 68719476736 → mappingOf (setPermsFrom pml4 permissions i n m) pml4 k =
      PageMap.protect (mappingOf m pml4) (fun k => ∃ j, j < n ∧ pageNumber (i + j * PAGESIZE) = k)
        (permissions % 16) k := by
  induction n generalizing i m with
  | zero => exact ⟨hwf, fun k _ => by simp [setPermsFrom, PageMap.protect]⟩
  | succ n ih =>
    obtain ⟨x, hx⟩ := Option.ne_none_iff_exists'.mp (hmapped 0 (by omega))
    rw [Nat.zero_mul, Nat.add_zero] at hx
    obtain ⟨hwf', hstep⟩ := setPagePermsHh_spec hwf hx permissions
    have hidx : ∀ j, i + PAGESIZE + j * PAGESIZE = i + (j + 1) * PAGESIZE := fun j => by
      unfold PAGESIZE; omega
    have hmapped' : ∀ j, j < n → mappingOf (setPagePermsHh m pml4 i permissions) pml4
        (pageNumber (i + PAGESIZE + j * PAGESIZE)) ≠ none := by
      intro j hj
      rw [hstep _ (pageNumber_lt _)]
      split
      · simp
      · rw [hidx]; exact hmapped (j + 1) (by omega)
    obtain ⟨hwf'', hrest⟩ := ih hwf' hmapped'
    refine ⟨hwf'', fun k hk => ?_⟩
    rw [setPermsFrom, hrest k hk]
    have hsplit : (∃ j, j < n + 1 ∧ pageNumber (i + j * PAGESIZE) = k) ↔
        k = pageNumber i ∨ ∃ j, j < n ∧ pageNumber (i + PAGESIZE + j * PAGESIZE) = k := by
      constructor
      · rintro ⟨j | j, hj, rfl⟩
        · left; rw [Nat.zero_mul, Nat.add_zero]
        · right; exact ⟨j, by omega, by rw [hidx]⟩
      · rintro (rfl | ⟨j, hj, rfl⟩)
        · exact ⟨0, by omega, by rw [Nat.zero_mul, Nat.add_zero]⟩
        · exact ⟨j + 1, by omega, by rw [hidx]⟩
    simp only [PageMap.protect, hsplit, hstep k hk]
    by_cases hki : k = pageNumber i
    · subst hki
      simp [hx]
    · simp [hki]

/-- The pages of the loop of `mprotect_hh` are those that meet the range: with
one exception, an empty range inside a page. -/
theorem loop_pages {a size : Nat} (hwrap : a + size + 4095 < 18446744073709551616)
    (hsize : 0 < size ∨ a % PAGESIZE = 0) (k : Nat) :
    (∃ j, j < (u64 (u64 (a + size) + 4095) / PAGESIZE * PAGESIZE - a / PAGESIZE * PAGESIZE) / PAGESIZE ∧
      pageNumber (a / PAGESIZE * PAGESIZE + j * PAGESIZE) = k) ↔ Meets a size k := by
  have hend : u64 (u64 (a + size) + 4095) = a + size + 4095 := by unfold u64; omega
  rw [hend]
  unfold PAGESIZE at *
  have hn : ((a + size + 4095) / 4096 * 4096 - a / 4096 * 4096) / 4096 =
      (a + size + 4095) / 4096 - a / 4096 := by omega
  rw [hn]
  constructor
  · rintro ⟨j, hj, rfl⟩
    by_cases hj0 : j = 0
    · subst hj0
      refine ⟨a, le_refl a, by omega, ?_⟩
      unfold pageNumber; omega
    · refine ⟨a / 4096 * 4096 + j * 4096, by omega, by omega, rfl⟩
  · rintro ⟨b, hab, hb, rfl⟩
    refine ⟨b / 4096 - a / 4096, by omega, ?_⟩
    unfold pageNumber; omega

theorem mprotectHh_spec {m : Frames} {pml4 a size : Nat} (permissions : Nat)
    (hwf : WellFormed m pml4) (hwrap : a + size + 4095 < 18446744073709551616)
    (hsize : 0 < size ∨ a % PAGESIZE = 0)
    (hmapped : ∀ k, Meets a size k → mappingOf m pml4 k ≠ none) :
    WellFormed (mprotectHh m pml4 a size permissions) pml4 ∧
    ∀ k, k < 68719476736 → mappingOf (mprotectHh m pml4 a size permissions) pml4 k =
      PageMap.protect (mappingOf m pml4) (Meets a size) (permissions % 16) k := by
  have hpages := loop_pages hwrap hsize
  have hset : (fun k => ∃ j, j < (u64 (u64 (a + size) + 4095) / PAGESIZE * PAGESIZE -
      a / PAGESIZE * PAGESIZE) / PAGESIZE ∧ pageNumber (a / PAGESIZE * PAGESIZE + j * PAGESIZE) = k) =
      Meets a size := funext fun k => propext (hpages k)
  have hspec := setPermsFrom_spec permissions ((u64 (u64 (a + size) + 4095) / PAGESIZE * PAGESIZE -
    a / PAGESIZE * PAGESIZE) / PAGESIZE) (i := a / PAGESIZE * PAGESIZE) hwf
    fun j hj => hmapped _ ((hpages _).mp ⟨j, hj, rfl⟩)
  rw [hset] at hspec
  exact hspec

end UnedKernel.Memory
