import UnedKernel.Ext2.DirectoryGrowth
import UnedKernel.Ext2.ExactPaths

/-! # Records that are removed

The names and inodes that are left when a record goes, the search that
`ext2_delete_dentry` makes for it, and the bytes of a directory after it. -/

namespace UnedKernel.Ext2
open ByteMem CString Word Components

/-- The name and the inode of an entry. -/
def Record.link (r : Record) : List Byte × Nat := (r.name, r.inode)

/-- The names and inodes of the records in use. -/
def links (rs : List Record) : List (List Byte × Nat) := (inUse rs).map Record.link

variable {m m' : Bytes} {rs rs' front back : List Record} {q r : Record} {name : List Byte}
  {p a e size turns t : Nat}

/-! ## Links -/

theorem links_append : links (front ++ back) = links front ++ links back := by
  rw [links, inUse, List.filter_append, List.map_append]
  rfl

/-- Elements that are not erased cannot make up for one in front of them. -/
theorem map_ne_cons_eraseP {α β : Type} {f : α → β} {P : α → Bool} {b : β} {l : List α}
    (hP : ∀ x y, f x = f y → P x = P y) (hb : ∀ x, f x = b → P x = false)
    (h : l.map f = b :: (l.eraseP P).map f) : ∀ x ∈ l, P x = false := by
  induction l generalizing b with
  | nil => cases h
  | cons y l ih =>
    rw [List.map_cons, List.cons.injEq] at h
    have hy := hb y h.1
    rw [List.eraseP_cons_of_neg (by simp [hy]), List.map_cons] at h
    intro x hx
    rcases List.mem_cons.mp hx with rfl | hx
    · exact hy
    · refine ih (fun z hz => ?_) h.2 x hx
      rw [hP z y hz, hy]

theorem entryNamed_spec (h : entryNamed rs name = some r) : r ∈ rs ∧ r.inode ≠ 0 ∧ r.name = name := by
  have hspec := List.find?_some h
  exact ⟨List.mem_of_find?_eq_some h, by simpa using hspec⟩

/-- Without the first record of an inode the entries are those without the first one of a name
exactly when the two are the same. -/
theorem links_removed_iff {entry : Record} (hr : r.inode = t) (ht : t ≠ 0)
    (hfront : ∀ s ∈ front, s.inode ≠ t) (hentry : entryNamed (front ++ r :: back) name = some entry) :
    links front ++ links back =
      ((inUse (front ++ r :: back)).eraseP fun r => r.name = name).map Record.link ↔ r = entry := by
  obtain ⟨hmem, hused, hname⟩ := entryNamed_spec hentry
  have hlive : r.inode ≠ 0 := hr ▸ ht
  have hall : inUse (front ++ r :: back) = inUse front ++ r :: inUse back := by
    rw [inUse, List.filter_append, List.filter_cons_of_pos (by simpa using hlive)]
    rfl
  rw [hall]
  by_cases hin : ∃ s ∈ inUse front, s.name = name
  · obtain ⟨s, hs, hsname⟩ := hin
    rw [List.eraseP_append_left (a := s) (by simpa using hsname) _ hs, List.map_append, List.map_cons]
    constructor
    · -- what is left of the front has no record of the inode
      intro heq
      change links front ++ links back = _ ++ ([r.link] ++ links back) at heq
      rw [← List.append_assoc, List.append_left_inj] at heq
      have hlink : r.link ∈ links front := by
        rw [heq]
        exact List.mem_append_right _ (List.mem_singleton_self _)
      obtain ⟨s, hs, hsr⟩ := List.mem_map.mp hlink
      exact absurd ((Prod.mk.inj hsr).2.trans hr) (hfront s (List.mem_of_mem_filter hs))
    · rintro rfl
      -- the entry would be found in the front
      rw [entryNamed, List.find?_append] at hentry
      cases hfind : front.find? fun r => r.inode ≠ 0 ∧ r.name = name with
      | none =>
        have hslive : s.inode ≠ 0 := by simpa using (List.mem_filter.mp hs).2
        have hno := List.find?_eq_none.mp hfind s (List.mem_of_mem_filter hs)
        exact absurd (decide_eq_true ⟨hslive, hsname⟩) hno
      | some x =>
        rw [hfind] at hentry
        obtain rfl : x = r := Option.some.inj hentry
        exact absurd hr (hfront x (List.mem_of_find?_eq_some hfind))
  · have hno : ∀ s ∈ inUse front, ¬ (decide (s.name = name)) = true := fun s hs hsname =>
      hin ⟨s, hs, of_decide_eq_true hsname⟩
    rw [List.eraseP_append_right _ hno, List.map_append]
    by_cases hrname : r.name = name
    · rw [List.eraseP_cons_of_pos (by simpa using hrname)]
      refine iff_of_true rfl ?_
      have hfind : entryNamed (front ++ r :: back) name = some r := by
        refine List.find?_eq_some_iff_append.mpr ⟨by simp [hlive, hrname], front, back, rfl, fun s hs => ?_⟩
        by_cases hslive : s.inode = 0
        · simp [hslive]
        · have := hno s (List.mem_filter.mpr ⟨hs, by simpa using hslive⟩)
          simpa [hslive] using this
      exact Option.some.inj (hfind.symm.trans hentry)
    · rw [List.eraseP_cons_of_neg (by simpa using hrname), List.map_cons]
      refine iff_of_false (fun heq => ?_) fun heq => hrname (heq ▸ hname)
      have hback := map_ne_cons_eraseP (fun x y hxy => by rw [(Prod.mk.inj hxy).1])
        (fun x hx => by rw [(Prod.mk.inj hx).1]; simpa using hrname) (List.append_cancel_left heq)
      -- the entry is in none of the parts
      rcases List.mem_append.mp hmem with hmem | hmem
      · exact hin ⟨entry, List.mem_filter.mpr ⟨hmem, by simpa using hused⟩, hname⟩
      · rcases List.mem_cons.mp hmem with rfl | hmem
        · exact hrname hname
        · have := hback entry (List.mem_filter.mpr ⟨hmem, by simpa using hused⟩)
          exact absurd hname (by simpa using this)

/-! ## Tilings -/

theorem span_append : span (front ++ back) = span front + span back := by
  rw [span, List.map_append, List.sum_append]
  rfl

theorem span_singleton : span [r] = r.recLen := by
  rw [span, List.map_singleton, List.sum_singleton]

namespace Tiles

theorem eq_span (h : Tiles size m p rs e) : e = p + span rs := by
  induction rs generalizing p with
  | nil => exact h.symm
  | cons r rs ih =>
    obtain ⟨-, -, -, -, hrest⟩ := h
    rw [ih hrest, span_cons, Nat.add_assoc]

/-- Where the bytes are the same the records are. -/
theorem same_front (h : Tiles size m p front a) (h' : Tiles size m' p rs' e) (hlt : a < e)
    (heq : ∀ x, p ≤ x → x < a → m' x = m x) : ∃ ds, rs' = front ++ ds ∧ Tiles size m' a ds e := by
  induction front generalizing p rs' with
  | nil =>
    obtain rfl : p = a := h
    exact ⟨rs', rfl, h'⟩
  | cons r front ih =>
    obtain ⟨hr, hmul, hfits, hin, hrest⟩ := h
    have hle := hrest.le
    cases rs' with
    | nil =>
      have hpe : p = e := h'
      omega
    | cons d rs' =>
      obtain ⟨hd, -, -, -, hrest'⟩ := h'
      have hsame : recordAt m' p = recordAt m p := recordAt_congr fun x hx hx' => by
        rw [hr] at hx'
        exact heq x hx (by omega)
      obtain rfl : d = r := by rw [← hd, hsame, hr]
      obtain ⟨ds, hds, htiles⟩ := ih hrest hrest' fun x hx => heq x (by omega)
      exact ⟨ds, by rw [hds, List.cons_append], htiles⟩

/-- Bytes are tiled in one way. -/
theorem unique (h : Tiles size m p rs e) (h' : Tiles size m p rs' e) : rs' = rs := by
  induction rs generalizing p rs' with
  | nil =>
    obtain rfl : p = e := h
    cases rs' with
    | nil => rfl
    | cons d rs' =>
      obtain ⟨-, -, hfits, -, hrest⟩ := h'
      have := hrest.le
      omega
  | cons r rs ih =>
    obtain ⟨hr, -, hfits, -, hrest⟩ := h
    have hle := hrest.le
    cases rs' with
    | nil =>
      have hpe : p = e := h'
      omega
    | cons d rs' =>
      obtain ⟨hd, -, -, -, hrest'⟩ := h'
      obtain rfl : d = r := hd.symm.trans hr
      rw [ih hrest hrest']

end Tiles

/-- The search of `ext2_delete_dentry` stops at the first record of the inode, and has the record
before it. -/
theorem findInodeFrom_tiles {previous previous' : Option Nat} {entry : Nat} (h : Tiles size m p rs e)
    (he : e < 4294967296)
    (hfind : findInodeFrom m t e turns p previous = some (some (entry, previous'))) :
    ∃ front r back, rs = front ++ r :: back ∧ r.inode = t ∧ (∀ s ∈ front, s.inode ≠ t) ∧
      Tiles size m p front entry ∧ Tiles size m entry (r :: back) e ∧
      (front = [] ∧ previous' = previous ∨ ∃ init q, front = init ++ [q] ∧
        previous' = some (p + span init)) := by
  induction rs generalizing p turns previous with
  | nil =>
    obtain rfl : p = e := h
    cases turns with
    | zero =>
      rw [findInodeFrom, if_neg (Nat.lt_irrefl p)] at hfind
      cases hfind
    | succ turns =>
      rw [findInodeFrom, if_neg (Nat.lt_irrefl p)] at hfind
      cases hfind
  | cons r rs ih =>
    obtain ⟨hr, hmul, hfits, hin, hrest⟩ := h
    have hle := hrest.le
    have hinode : DirectoryEntry.inode.get m p = r.inode := congrArg Record.inode hr
    have hlen : DirectoryEntry.recLen.get m p = r.recLen := congrArg Record.recLen hr
    cases turns with
    | zero =>
      rw [findInodeFrom, if_pos (by omega)] at hfind
      cases hfind
    | succ turns =>
      rw [findInodeFrom, if_pos (by omega), hinode, hlen, u32_of_lt (by omega)] at hfind
      by_cases ht : r.inode = t
      · rw [if_pos ht] at hfind
        obtain ⟨rfl, rfl⟩ := Prod.mk.inj (Option.some.inj (Option.some.inj hfind))
        exact ⟨[], r, rs, rfl, ht, fun s hs => absurd hs List.not_mem_nil, rfl,
          ⟨hr, hmul, hfits, hin, hrest⟩, .inl ⟨rfl, rfl⟩⟩
      · rw [if_neg ht] at hfind
        obtain ⟨front, x, back, rfl, hx, hfront, hbefore, hafter, hprevious⟩ := ih hrest hfind
        refine ⟨r :: front, x, back, rfl, hx, List.forall_mem_cons.mpr ⟨ht, hfront⟩,
          ⟨hr, hmul, hfits, hin, hbefore⟩, hafter, .inr ?_⟩
        rcases hprevious with ⟨rfl, hprevious⟩ | ⟨init, q, rfl, hprevious⟩
        · exact ⟨[], r, rfl, hprevious⟩
        · refine ⟨r :: init, q, rfl, ?_⟩
          rw [hprevious, span_cons, Nat.add_assoc]

/-- Where some record has the inode the search stops. -/
theorem findInodeFrom_exists (h : Tiles size m p rs e) (he : e < 4294967296) (hturns : e ≤ p + turns)
    (hmem : ∃ r ∈ rs, r.inode = t) (previous : Option Nat) :
    ∃ entry previous', findInodeFrom m t e turns p previous = some (some (entry, previous')) := by
  induction rs generalizing p turns previous with
  | nil =>
    obtain ⟨r, hr, -⟩ := hmem
    cases hr
  | cons r rs ih =>
    obtain ⟨hr, hmul, hfits, hin, hrest⟩ := h
    have hle := hrest.le
    have hinode : DirectoryEntry.inode.get m p = r.inode := congrArg Record.inode hr
    have hlen : DirectoryEntry.recLen.get m p = r.recLen := congrArg Record.recLen hr
    cases turns with
    | zero => omega
    | succ turns =>
      rw [findInodeFrom, if_pos (by omega), hinode, hlen, u32_of_lt (by omega)]
      by_cases ht : r.inode = t
      · exact ⟨p, previous, if_pos ht⟩
      · rw [if_neg ht]
        obtain ⟨s, hs, hst⟩ := hmem
        rcases List.mem_cons.mp hs with rfl | hs
        · exact absurd hst ht
        · exact ih hrest (by omega) ⟨s, hs, hst⟩ (some p)

/-- Records that tile stand one after the other. -/
theorem Tiles.laid (h : Tiles size m p rs e) (hwf : ∀ r ∈ rs, r.WellFormed) : Laid m p rs := by
  induction rs generalizing p with
  | nil => trivial
  | cons r rs ih =>
    obtain ⟨hr, -, -, -, hrest⟩ := h
    have hlen : DirectoryEntry.nameLen.get m p = r.name.length := by rw [← hr, recordAt_name_length]
    refine ⟨⟨congrArg Record.inode hr, congrArg Record.recLen hr, hlen, congrArg Record.type hr, fun i hi => ?_⟩,
      hwf r List.mem_cons_self, ih hrest fun s hs => hwf s (List.mem_cons_of_mem r hs)⟩
    have hchars : (List.range (DirectoryEntry.nameLen.get m p)).map
        (fun i => m (p + DirectoryEntry.name + i)) = r.name := congrArg Record.name hr
    rw [← hchars, List.getD_eq_getElem?_getD, List.getElem?_map, List.getElem?_range (hlen ▸ hi)]
    rfl

/-! ## The entry cleared -/

section clear

variable {entry : Nat} {previous : Option Nat}

/-- The entry without its inode, its name and its type. -/
def emptied (m : Bytes) (entry : Nat) : Bytes :=
  store (DirectoryEntry.fileType.set (DirectoryEntry.nameLen.set (DirectoryEntry.inode.set m entry 0)
    entry 0) entry 0) (entry + DirectoryEntry.name) 1 0

theorem emptied_apply_out {x : Nat} (hx : x < entry ∨ entry + 9 ≤ x) : emptied m entry x = m x := by
  have hwithin {f : Field} (hf : f.Within 8) (b : Bytes) : f.set b entry 0 x = b x :=
    f.set_apply_out b 0 hf (by omega)
  unfold emptied DirectoryEntry.name
  rw [store_apply_out _ (by omega), hwithin (by decide), hwithin (by decide), hwithin (by decide)]

theorem emptied_recLen : DirectoryEntry.recLen.get (emptied m entry) entry =
    DirectoryEntry.recLen.get m entry := by
  have hname (b : Bytes) : DirectoryEntry.recLen.get (store b (entry + DirectoryEntry.name) 1 0) entry =
      DirectoryEntry.recLen.get b entry :=
    DirectoryEntry.recLen.get_congr (show DirectoryEntry.recLen.Within 8 by decide) fun x _ hx =>
      store_apply_out _ (.inl hx)
  rw [emptied, hname, Field.get_set_disjoint _ _ (by decide), Field.get_set_disjoint _ _ (by decide),
    Field.get_set_disjoint _ _ (by decide)]

theorem clearEntry_some : clearEntry m entry (some p) = DirectoryEntry.recLen.set
    (DirectoryEntry.recLen.set (emptied m entry) p (u16 (DirectoryEntry.recLen.get (emptied m entry) p +
      DirectoryEntry.recLen.get (emptied m entry) entry))) entry 0 := rfl

theorem clearEntry_recLen : DirectoryEntry.recLen.get (clearEntry m entry previous) entry = 0 := by
  cases previous with
  | none => exact Field.get_set_same _ _
  | some p => exact Field.get_set_same _ _

theorem clearEntry_apply_out {x : Nat} (hp : x < p ∨ p + 8 ≤ x) (hx : x < entry ∨ entry + 9 ≤ x) :
    clearEntry m entry (some p) x = m x := by
  rw [clearEntry_some, ← emptied_apply_out (m := m) hx,
    Field.set_apply_out _ _ (show DirectoryEntry.recLen.Within 8 by decide) (by omega),
    Field.set_apply_out _ _ (show DirectoryEntry.recLen.Within 8 by decide) hp]

/-- The record before has the length of both, as far as it fits. -/
theorem recordAt_clearEntry (hq : Tiles size m p [q] entry) (hr : (recordAt m entry).recLen = r.recLen) :
    recordAt (clearEntry m entry (some p)) p = { q with recLen := u16 (q.recLen + r.recLen) } := by
  obtain ⟨hq, -, hfits, -, hend⟩ := hq
  have hend : p + q.recLen = entry := hend
  have hbefore : recordAt (emptied m entry) p = q := by
    rw [recordAt_congr fun x hx hx' => emptied_apply_out (.inl (by rw [hq] at hx'; omega)), hq]
  have hlen : DirectoryEntry.recLen.get (emptied m entry) p = q.recLen := congrArg Record.recLen hbefore
  have hr : DirectoryEntry.recLen.get m entry = r.recLen := hr
  rw [clearEntry_some, hlen, emptied_recLen, hr]
  have hset := recordAt_setRecLen (m := emptied m entry) (p := p) (u16 (q.recLen + r.recLen))
  rw [hbefore, Nat.mod_eq_of_lt (show u16 (q.recLen + r.recLen) < 65536 from Nat.mod_lt _ (by decide))]
    at hset
  rw [← hset]
  refine recordAt_congr fun x hx hx' => store_apply_out _ (.inl ?_)
  rw [hset] at hx'
  have hx' : x < p + 8 + q.name.length := hx'
  unfold DirectoryEntry.recLen
  simp only
  omega

/-- Bytes that are the same up to an end are cleared in the same way. -/
theorem clearEntry_congr (heq : ∀ x, x < e → m' x = m x) (hp : p + 8 ≤ e) (hentry : entry + 8 ≤ e) {x : Nat}
    (hx : x < e) : clearEntry m' entry (some p) x = clearEntry m entry (some p) x := by
  have hempty {x : Nat} (hx : x < e) : emptied m' entry x = emptied m entry x := by
    simp only [emptied, Field.set, store]
    split
    · rfl
    · rw [heq x hx]
  have hlen {a : Nat} (ha : a + 8 ≤ e) : DirectoryEntry.recLen.get (emptied m' entry) a =
      DirectoryEntry.recLen.get (emptied m entry) a :=
    DirectoryEntry.recLen.get_congr (show DirectoryEntry.recLen.Within 8 by decide) fun x _ hx =>
      hempty (by omega)
  rw [clearEntry_some, clearEntry_some, hlen hp, hlen hentry]
  simp only [Field.set, store, hempty hx]

end clear

end UnedKernel.Ext2
