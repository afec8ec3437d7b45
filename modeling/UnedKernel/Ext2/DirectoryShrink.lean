import UnedKernel.Ext2.Files
import UnedKernel.Ext2.RecordRemoval

/-! # Removing an entry of a directory

`ext2_delete_dentry` clears the first record with the inode that the path leads
to, and gives its length to the record before it, whatever block that is in. -/

namespace UnedKernel.Ext2
open ByteMem CString Word Components

/-- The directories hold these records. -/
structure DirectoryTree (size : Nat) (f : Files) (dir : Nat → Option (List Record)) : Prop where
  isDir : ∀ k rs, dir k = some rs → f.isDir k = true
  tiled : ∀ k rs, dir k = some rs → TiledBlocks size (f.bytes k) (f.length k) rs
  wellFormed : ∀ k rs, dir k = some rs → ∀ r ∈ rs, r.WellFormed

/-- The components of the path lead to directory `n` of records `rs` and name its entry `r`,
which is neither `.` nor `..`. -/
structure NamesEntry (dir : Nat → Option (List Record)) (path : List Byte) (n : Nat)
    (rs : List Record) (r : Record) : Prop where
  walk : ∃ cs, components slash path = cs ++ [r.name] ∧ exactWalk dir EXT2_ROOT_INO_INDEX cs = some n
  directory : dir n = some rs
  entry : entryNamed rs r.name = some r
  notDot : r.name ≠ [0x2E] ∧ r.name ≠ [0x2E, 0x2E]

/-- The bytes are tiled by well-formed records, and those in use are the old ones without the
one of the name. -/
def EntryGone (size : Nat) (m : Bytes) (length : Nat) (rs : List Record) (name : List Byte) : Prop :=
  ∃ rs', TiledBlocks size m length rs' ∧ (∀ r ∈ rs', r.WellFormed) ∧
    links rs' = ((inUse rs).eraseP fun r => r.name = name).map Record.link

/-- The two lengths do not fit into 16 bits, and what is kept of their sum leads from the first
record, at `p`, over bytes that are records again, with the right entries among them. -/
def WrapsRightly (size : Nat) (m : Bytes) (length : Nat) (rs front : List Record) (q r : Record)
    (name : List Byte) : Prop :=
  let p := span front
  let kept := u16 (q.recLen + r.recLen)
  65536 ≤ q.recLen + r.recLen ∧ 8 + q.name.length ≤ kept ∧
    ∃ ds, Tiles size (clearEntry m (p + q.recLen) (some p)) (p + kept) ds length ∧
      (∀ d ∈ ds, d.WellFormed) ∧
      links (front ++ [q]) ++ links ds = ((inUse rs).eraseP fun r => r.name = name).map Record.link

/-- The first record with the inode is the entry, and the record before it is in the same block
and has room for both lengths in its 16 bits. -/
def Absorbed (size : Nat) (m : Bytes) (length : Nat) (rs : List Record) (target : Nat)
    (entry : Record) : Prop :=
  ∃ front q r back, rs = front ++ q :: r :: back ∧ r.inode = target ∧
    (∀ s ∈ front ++ [q], s.inode ≠ target) ∧
    (r = entry ∧ (span front + q.recLen) % size ≠ 0 ∧ q.recLen + r.recLen < 65536 ∨
      WrapsRightly size m length rs front q r entry.name)

variable {m m' : Bytes} {rs rs' front back ds : List Record} {q r : Record} {c name : List Byte}
  {size turns t length : Nat}

/-! ## What is left of the directory -/

/-- The record before has taken the length of the record that is removed. -/
def Record.grown (q r : Record) : Record := { q with recLen := u16 (q.recLen + r.recLen) }

theorem Record.WellFormed.grown (h : q.WellFormed) (hfits : 8 + q.name.length ≤ u16 (q.recLen + r.recLen)) :
    (q.grown r).WellFormed :=
  ⟨h.name, h.length, h.nonempty, hfits⟩

theorem links_grown : links (front ++ q.grown r :: ds) = links (front ++ [q]) ++ links ds := by
  have hq : links [q.grown r] = links [q] := by
    rw [links, links, inUse, inUse, List.filter_singleton, List.filter_singleton]
    by_cases hlive : q.inode = 0
    · simp [Record.grown, hlive]
    · simp [Record.grown, hlive, Record.link]
  rw [List.append_cons, links_append, links_append, hq, links_append]

section removal

variable (htiles : Tiles size m 0 (front ++ q :: r :: back) length)
include htiles

/-- The places of the two records. -/
theorem removal_places : Tiles size m 0 front (span front) ∧
    Tiles size m (span front) [q] (span front + q.recLen) ∧
    Tiles size m (span front + q.recLen) [r] (span front + q.recLen + r.recLen) ∧
    Tiles size m (span front + q.recLen + r.recLen) back length := by
  obtain ⟨p, hfront, hq, hqmul, hqfits, hqin, hr, hrmul, hrfits, hrin, hback⟩ := Tiles.append.mp htiles
  have hp := hfront.eq_span
  rw [Nat.zero_add] at hp
  subst hp
  exact ⟨hfront, ⟨hq, hqmul, hqfits, hqin, rfl⟩, ⟨hr, hrmul, hrfits, hrin, rfl⟩, hback⟩

theorem recordAt_grown : recordAt (clearEntry m (span front + q.recLen) (some (span front))) (span front) =
    q.grown r := by
  obtain ⟨-, hq, hr, -⟩ := removal_places htiles
  exact recordAt_clearEntry hq (by rw [hr.1])

/-- The records of the changed bytes are those of the front, the record before with its new length,
and what the bytes from its new end on are. -/
theorem tiles_removed_iff : Tiles size (clearEntry m (span front + q.recLen) (some (span front))) 0 rs'
      length ↔
    ∃ ds, rs' = front ++ q.grown r :: ds ∧ 8 + q.name.length ≤ u16 (q.recLen + r.recLen) ∧
      span front % size + u16 (q.recLen + r.recLen) ≤ size ∧
      Tiles size (clearEntry m (span front + q.recLen) (some (span front)))
        (span front + u16 (q.recLen + r.recLen)) ds length := by
  obtain ⟨hfront, hq, hr, hback⟩ := removal_places htiles
  have hgrown := recordAt_grown htiles
  have hle := hback.le
  obtain ⟨-, hqmul, hqfits, -, -⟩ := hq
  obtain ⟨-, hrmul, -, -, -⟩ := hr
  have hsame : ∀ x, 0 ≤ x → x < span front →
      clearEntry m (span front + q.recLen) (some (span front)) x = m x := fun x _ hx =>
    clearEntry_apply_out (.inl hx) (.inl (by omega))
  constructor
  · intro h
    obtain ⟨ds, rfl, hrest⟩ := hfront.same_front h (by omega) hsame
    cases ds with
    | nil =>
      have : span front = length := hrest
      omega
    | cons d ds =>
      obtain ⟨hd, -, hfits, hin, hrest⟩ := hrest
      obtain rfl : d = q.grown r := hd.symm.trans hgrown
      exact ⟨ds, rfl, hfits, hin, hrest⟩
  · rintro ⟨ds, rfl, hfits, hin, hrest⟩
    refine Tiles.append.mpr ⟨span front, hfront.congr hsame, hgrown, ?_, hfits, hin, hrest⟩
    change u16 (q.recLen + r.recLen) % 4 = 0
    unfold u16
    omega

/-- A length that is kept whole leads to the record behind, and the record before stays in its
block unless the one removed begins a block. -/
theorem removed_fits (hwf : ∀ s ∈ front ++ q :: r :: back, s.WellFormed) (hlive : r.inode ≠ 0)
    (hsum : q.recLen + r.recLen < 65536) (ds : List Record) :
    (Tiles size (clearEntry m (span front + q.recLen) (some (span front)))
        (span front + u16 (q.recLen + r.recLen)) ds length ↔ ds = back) ∧
      (span front % size + u16 (q.recLen + r.recLen) ≤ size ↔ (span front + q.recLen) % size ≠ 0) := by
  obtain ⟨hfront, hq, hr, hback⟩ := removal_places htiles
  obtain ⟨-, hqmul, hqfits, hqin, -⟩ := hq
  obtain ⟨-, hrmul, hrfits, hrin, -⟩ := hr
  have hlen : 8 + r.name.length ≤ r.recLen := hrfits
  have hpos : 1 ≤ r.name.length := (hwf r (by simp)).nonempty hlive
  have hkept : u16 (q.recLen + r.recLen) = q.recLen + r.recLen := Nat.mod_eq_of_lt hsum
  have hback' : Tiles size (clearEntry m (span front + q.recLen) (some (span front)))
      (span front + u16 (q.recLen + r.recLen)) back length := by
    rw [hkept, ← Nat.add_assoc]
    exact hback.congr fun x hx _ => clearEntry_apply_out (.inr (by omega)) (.inr (by omega))
  refine ⟨⟨fun h => hback'.unique h, fun h => h ▸ hback'⟩, ?_⟩
  rw [hkept]
  have hsize : 0 < size := by omega
  have hmod : (span front + q.recLen) % size = (span front % size + q.recLen) % size := by
    rw [Nat.mod_add_mod]
  by_cases hend : span front % size + q.recLen = size
  · rw [hend, Nat.mod_self] at hmod
    exact iff_of_false (by omega) (by omega)
  · have hqin : span front % size + q.recLen ≤ size := hqin
    have hrin : (span front + q.recLen) % size + r.recLen ≤ size := hrin
    rw [Nat.mod_eq_of_lt (a := span front % size + q.recLen) (by omega)] at hmod
    exact iff_of_true (by omega) (by omega)

/-- The entry alone is gone exactly when it was the record removed, stood behind another record of
its block, and the two lengths fit, or the wrapped length leads rightly. -/
theorem entryGone_iff {entry : Record} (hblocks : length % size = 0)
    (hwf : ∀ s ∈ front ++ q :: r :: back, s.WellFormed) (hr : r.inode = t) (ht : t ≠ 0)
    (hfirst : ∀ s ∈ front ++ [q], s.inode ≠ t)
    (hentry : entryNamed (front ++ q :: r :: back) name = some entry)
    (heq : ∀ x, x < length →
      m' x = clearEntry m (span front + q.recLen) (some (span front)) x) :
    EntryGone size m' length (front ++ q :: r :: back) name ↔
      r = entry ∧ (span front + q.recLen) % size ≠ 0 ∧ q.recLen + r.recLen < 65536 ∨
        WrapsRightly size m length (front ++ q :: r :: back) front q r name := by
  have hlive : r.inode ≠ 0 := hr ▸ ht
  have hentry' : entryNamed ((front ++ [q]) ++ r :: back) name = some entry := by
    rwa [List.append_assoc]
  have hlinks := links_removed_iff hr ht hfirst hentry'
  rw [List.append_assoc, List.singleton_append] at hlinks
  have hqwf : q.WellFormed := hwf q (by simp)
  obtain ⟨-, hqTiles, hrTiles, -⟩ := removal_places htiles
  have hqfits : 8 + q.name.length ≤ q.recLen := hqwf.fits
  have hrlt : r.recLen < 65536 := by
    rw [← hrTiles.1]
    exact DirectoryEntry.recLen.get_lt m
  have hqin : span front % size + q.recLen ≤ size := hqTiles.2.2.2.1
  rw [EntryGone]
  constructor
  · rintro ⟨rs', ⟨-, h⟩, hwf', hgone⟩
    obtain ⟨ds, rfl, hfits, hin, hrest⟩ :=
      (tiles_removed_iff htiles).mp (h.congr fun x _ hx => (heq x hx).symm)
    rw [links_grown] at hgone
    by_cases hsum : q.recLen + r.recLen < 65536
    · obtain ⟨hds, hblock⟩ := removed_fits htiles hwf hlive hsum ds
      obtain rfl := hds.mp hrest
      exact .inl ⟨hlinks.mp hgone, hblock.mp hin, hsum⟩
    · exact .inr ⟨by omega, hfits, ds, hrest, fun d hd => hwf' d (by simp [hd]), hgone⟩
  · have hgrown {ds : List Record} (hds : ∀ d ∈ ds, d.WellFormed)
        (hfits : 8 + q.name.length ≤ u16 (q.recLen + r.recLen)) :
        ∀ s ∈ front ++ q.grown r :: ds, s.WellFormed := by
      intro s hs
      rcases List.mem_append.mp hs with hs | hs
      · exact hwf s (List.mem_append_left _ hs)
      · rcases List.mem_cons.mp hs with rfl | hs
        · exact hqwf.grown hfits
        · exact hds s hs
    rintro (⟨hsame, hblock, hsum⟩ | ⟨hsum, hfits, ds, hrest, hds, hgone⟩)
    · have hkept : u16 (q.recLen + r.recLen) = q.recLen + r.recLen := Nat.mod_eq_of_lt hsum
      obtain ⟨hds, hin⟩ := removed_fits htiles hwf hlive hsum back
      have hfits : 8 + q.name.length ≤ u16 (q.recLen + r.recLen) := by omega
      have h := (tiles_removed_iff htiles).mpr ⟨back, rfl, hfits, hin.mpr hblock, hds.mpr rfl⟩
      refine ⟨_, ⟨hblocks, h.congr fun x _ hx => heq x hx⟩,
        hgrown (fun d hd => hwf d (by simp [hd])) hfits, ?_⟩
      rw [links_grown]
      exact hlinks.mpr hsame
    · have hin : span front % size + u16 (q.recLen + r.recLen) ≤ size := by
        unfold u16
        omega
      have h := (tiles_removed_iff htiles).mpr ⟨ds, rfl, hfits, hin, hrest⟩
      refine ⟨_, ⟨hblocks, h.congr fun x _ hx => heq x hx⟩, hgrown hds hfits, ?_⟩
      rw [links_grown]
      exact hgone

end removal

/-- Nothing is left of a directory whose first record is cleared. -/
theorem not_entryGone_first (htiles : Tiles size m 0 rs length) (hne : rs ≠ [])
    (heq : ∀ x, x < length → m' x = clearEntry m 0 none x) : ¬ EntryGone size m' length rs name := by
  rintro ⟨rs', ⟨-, h⟩, -, -⟩
  obtain ⟨r, rs, rfl⟩ := List.exists_cons_of_ne_nil hne
  obtain ⟨-, -, hfits, -, hrest⟩ := htiles
  have hle := hrest.le
  cases rs' with
  | nil =>
    have : 0 = length := h
    omega
  | cons d rs' =>
    obtain ⟨hd, -, hdfits, -, -⟩ := h
    have hlen : DirectoryEntry.recLen.get m' 0 = d.recLen := congrArg Record.recLen hd
    rw [DirectoryEntry.recLen.get_congr (show DirectoryEntry.recLen.Within 8 by decide) fun x _ hx =>
      heq x (by omega), clearEntry_recLen] at hlen
    omega

/-- A directory that is as it was still has the entry. -/
theorem not_entryGone_same (htiles : Tiles size m 0 rs length) (hentry : entryNamed rs name = some r) :
    ¬ EntryGone size m length rs name := by
  rintro ⟨rs', ⟨-, h⟩, -, hgone⟩
  obtain rfl := htiles.unique h
  obtain ⟨hmem, hlive, hname⟩ := entryNamed_spec hentry
  have hcount := congrArg List.length hgone
  have hin : r ∈ inUse rs' := List.mem_filter.mpr ⟨hmem, by simpa using hlive⟩
  rw [links, List.length_map, List.length_map, List.length_eraseP_of_mem hin (by simpa using hname)]
    at hcount
  have := List.length_pos_of_mem hin
  omega

/-- A list has one first element of a kind. -/
theorem first_unique {front' back' : List Record} {r' : Record}
    (h : front ++ r :: back = front' ++ r' :: back') (hr : r.inode = t) (hr' : r'.inode = t)
    (hfront : ∀ s ∈ front, s.inode ≠ t) (hfront' : ∀ s ∈ front', s.inode ≠ t) :
    front = front' ∧ r = r' ∧ back = back' := by
  induction front generalizing front' with
  | nil =>
    cases front' with
    | nil =>
      obtain ⟨rfl, rfl⟩ := List.cons.inj h
      exact ⟨rfl, rfl, rfl⟩
    | cons s front' =>
      obtain rfl : r = s := (List.cons.inj h).1
      exact absurd hr (hfront' r List.mem_cons_self)
  | cons s front ih =>
    cases front' with
    | nil =>
      obtain rfl : s = r' := (List.cons.inj h).1
      exact absurd hr' (hfront s List.mem_cons_self)
    | cons s' front' =>
      obtain ⟨rfl, hrest⟩ := List.cons.inj h
      obtain ⟨rfl, rfl, rfl⟩ := ih hrest (fun x hx => hfront x (List.mem_cons_of_mem s hx)) fun x hx =>
        hfront' x (List.mem_cons_of_mem s hx)
      exact ⟨rfl, rfl, rfl⟩

theorem absorbed_iff {entry : Record} (hr : r.inode = t) (hfirst : ∀ s ∈ front ++ [q], s.inode ≠ t) :
    Absorbed size m length (front ++ q :: r :: back) t entry ↔
      r = entry ∧ (span front + q.recLen) % size ≠ 0 ∧ q.recLen + r.recLen < 65536 ∨
        WrapsRightly size m length (front ++ q :: r :: back) front q r entry.name := by
  constructor
  · rintro ⟨front', q', r', back', hrs, hr', hfirst', h⟩
    have hrs' : (front ++ [q]) ++ r :: back = (front' ++ [q']) ++ r' :: back' := by
      rw [List.append_assoc, List.append_assoc]
      exact hrs
    obtain ⟨hbefore, rfl, rfl⟩ := first_unique hrs' hr hr' hfirst hfirst'
    obtain ⟨rfl, hq⟩ := List.append_inj' hbefore rfl
    obtain rfl : q = q' := List.singleton_injective hq
    exact h
  · exact fun h => ⟨front, q, r, back, rfl, hr, hfirst, h⟩

/-! ## What a call leaves -/

/-- A call that returns 0 removes the entry alone exactly when it cleared the first record of the
inode in the directory of the entry, and that was the entry behind another record of its block. -/
theorem Deletes.entryGone_iff {f g : Files} {dir : Nat → Option (List Record)} {path : List Byte}
    {n parent target : Nat} {entry : Record} (hdel : Deletes f path parent target g)
    (htree : DirectoryTree size f dir) (hdir : dir n = some rs) (hentry : entryNamed rs name = some entry) :
    EntryGone size (g.bytes n) (g.length n) rs name ↔
      parent = n ∧ Absorbed size (f.bytes n) (f.length n) rs target entry := by
  obtain ⟨buffer, position, previous, hfind, rfl⟩ := hdel.cleared
  obtain ⟨hblocks, htiles⟩ := htree.tiled n rs hdir
  obtain ⟨-, -, hname⟩ := entryNamed_spec hentry
  by_cases hn : parent = n
  · subst hn
    rw [and_iff_right rfl]
    have hbuffer : ∀ x, x < f.length parent → f.content buffer parent x = f.bytes parent x := fun x hx => by
      rw [Files.content, copy_apply_in _ _ (Nat.zero_le x) (by omega), Nat.sub_zero, Nat.zero_add]
    have hbytes : ∀ x, x < f.length parent → (f.write parent (copy (f.bytes parent) 0
        (clearEntry (f.content buffer parent) position previous) 0 (f.length parent))).bytes parent x =
        clearEntry (f.content buffer parent) position previous x := fun x hx => by
      rw [Files.write]
      simp only [if_true]
      rw [copy_apply_in _ _ (Nat.zero_le x) (by omega), Nat.sub_zero, Nat.zero_add]
    obtain ⟨front, r, back, rfl, hr, hfront, hbefore, hafter, hprevious⟩ :=
      findInodeFrom_tiles (htiles.congr fun x _ hx => hbuffer x hx) hdel.lengthLt hfind
    rcases hprevious with ⟨rfl, rfl⟩ | ⟨front, q, rfl, rfl⟩
    · -- the first record has none before it
      obtain rfl : 0 = position := hbefore
      refine iff_of_false (not_entryGone_first (htiles.congr fun x _ hx => hbuffer x hx)
        (List.cons_ne_nil _ _) hbytes) ?_
      rintro ⟨front, q, r', back', hrs, -, hfirst, -⟩
      cases front with
      | nil =>
        obtain rfl : r = q := (List.cons.inj hrs).1
        exact hfirst r List.mem_cons_self hr
      | cons s front =>
        obtain rfl : r = s := (List.cons.inj hrs).1
        exact hfirst r List.mem_cons_self hr
    · have hposition := hbefore.eq_span
      rw [Nat.zero_add, span_append, span_singleton] at hposition
      subst hposition
      rw [Nat.zero_add] at hbytes ⊢
      have hrs : (front ++ [q]) ++ r :: back = front ++ q :: r :: back := by
        rw [List.append_assoc]
        rfl
      rw [hrs] at htiles ⊢
      have hplaces := removal_places htiles
      have hqfits : 8 + q.name.length ≤ q.recLen := hplaces.2.1.2.2.1
      have hrfits : 8 + r.name.length ≤ r.recLen := hplaces.2.2.1.2.2.1
      have hle := hplaces.2.2.2.le
      rw [absorbed_iff hr hfront, hname]
      refine Ext2.entryGone_iff htiles hblocks (hrs ▸ htree.wellFormed parent _ hdir) hr
        hdel.nonzero hfront (hrs ▸ hentry) fun x hx => ?_
      rw [hbytes x hx]
      exact clearEntry_congr hbuffer (by omega) (by omega) hx
  · refine iff_of_false ?_ fun h => hn h.1
    have hsame : (f.write parent (copy (f.bytes parent) 0
        (clearEntry (f.content buffer parent) position previous) 0 (f.length parent))).bytes n =
        f.bytes n := by
      rw [Files.write]
      exact if_neg (Ne.symm hn)
    rw [hsame]
    exact not_entryGone_same htiles hentry

/-! ## Where paths lead -/

namespace DirectoryTree

variable {f : Files} {dir : Nat → Option (List Record)} {k : Nat}

theorem content_tiles (h : DirectoryTree size f dir) (hdir : dir k = some rs) (buffer : Bytes) :
    Tiles size (f.content buffer k) 0 rs (f.length k) :=
  (h.tiled k rs hdir).tiles.congr fun x _ hx => by
    rw [Files.content, copy_apply_in _ _ (Nat.zero_le x) (by omega), Nat.sub_zero, Nat.zero_add]

/-- The search for a component finds the first record, in use or not, whose name begins it. -/
theorem find (h : DirectoryTree size f dir) (hdir : dir k = some rs) (hlt : f.length k < 4294967296) :
    f.find k c = some (match rs.find? fun r => r.name <+: c with
      | none => EXT2_INO_PAP_NOTFOUND
      | some r => int32 r.inode) := by
  obtain ⟨turns, hturns⟩ : ∃ turns, turns = POSITIONS := ⟨_, rfl⟩
  have htiles := h.content_tiles hdir fun _ => 0
  have hspan := htiles.eq_span
  have hentry := @findEntry_laid _ c _ _ _ turns (htiles.laid (h.wellFormed k rs hdir)) hspan.symm hlt
    (by rw [hturns]; unfold POSITIONS; omega)
  rw [Files.find, if_pos (h.isDir k rs hdir), ← hturns]
  cases hloop : findEntry (f.content (fun _ => 0) k) c (f.length k) turns 0 with
  | none =>
    rw [hloop] at hentry
    cases hentry
  | some found =>
    rw [hloop] at hentry
    cases hfind : rs.find? fun r => r.name <+: c with
    | none =>
      rw [hfind] at hentry
      cases found with
      | none => rfl
      | some q => cases hentry
    | some r =>
      rw [hfind] at hentry
      cases found with
      | none => cases hentry
      | some q =>
        have hinode : DirectoryEntry.inode.get (f.content (fun _ => 0) k) q = r.inode :=
          Option.some.inj (Option.some.inj hentry)
        simp only [hinode]

/-- One token of a path: the search goes on at the inode of the record found. -/
theorem leadsFrom_cons (h : DirectoryTree size f dir) (hdir : dir k = some rs)
    (hlt : f.length k < 4294967296) {rest rest' : List Byte} (hc : c ≠ [])
    (htoken : strtok slash rest = some (c, rest')) (hfind : (rs.find? fun r => r.name <+: c) = some r)
    (hr : r.inode < 4294967294) :
    f.leadsFrom (turns + 1) k rest = f.leadsFrom turns r.inode rest' := by
  obtain ⟨b, c, rfl⟩ := List.exists_cons_of_ne_nil hc
  have hindex := h.find (c := b :: c) hdir hlt
  rw [hfind] at hindex
  have herror : ¬ (int32 r.inode = EXT2_INO_PAP_ERROR ∨ int32 r.inode = EXT2_INO_PAP_NOTFOUND) := by
    unfold int32 EXT2_INO_PAP_ERROR EXT2_INO_PAP_NOTFOUND
    split <;> omega
  rw [Files.leadsFrom, htoken]
  simp only [hindex, if_neg herror, int32_mod (Nat.lt_trans hr (by decide))]

end DirectoryTree

theorem Files.leadsFrom_end {f : Files} {k : Nat} (hk : k ≠ 0) : f.leadsFrom (turns + 1) k [] = some k := by
  rw [Files.leadsFrom, strtok]
  simp only
  rw [if_neg hk]

/-! ## Directories in one piece

On this disk every inode is that of a directory of 1024 bytes, and the bytes of each lie in one
piece far behind the inodes. -/

/-- The bytes for one file. -/
def PIECE : Nat := 2 ^ 80

/-- The inode of every file. -/
def pieceInode : Bytes :=
  InodeDescriptor.size.set (InodeDescriptor.mode.set (fun _ => 0) 0 0x4000) 0 1024

def pieceReader : InodeReader := fun v k buffer count skip =>
  (1, copy buffer 0 v.disk.image (PIECE * (k + 1) + skip) count, v)

def pieceWriter : InodeWriter := fun v k source count skip =>
  (1, { v with disk :=
    { v.disk with image := copy v.disk.image (PIECE * (k + 1) + skip) source 0 count } })

def pieceFiles (v : Volume) : Files where
  isDir := fun _ => true
  bytes := fun k x => if x < 1024 then v.disk.image (PIECE * (k + 1) + x) else 0
  length := fun _ => 1024

structure PieceGood (v : Volume) : Prop where
  part : v.part = tablePartition
  reliable : v.disk.Reliable
  inodes : ∀ x, x < PIECE → v.disk.image x = pieceInode (x % 128)

theorem PieceGood.unchanged {v w : Volume} (hv : PieceGood v) (hw : Unchanged v w) :
    SameFiles PieceGood pieceFiles v w :=
  ⟨⟨hw.part.trans hv.part, hw.reliable hv.reliable, by rw [hw.image]; exact hv.inodes⟩, by
    unfold pieceFiles
    rw [hw.image]⟩

/-- Every inode that is read is the one of the disk. -/
theorem PieceGood.readInode {v : Volume} (hv : PieceGood v) (k : Nat) :
    ∃ inode w, Ext2.readInode v k = (some inode, w) ∧ Unchanged v w ∧
      ∀ f : Field, f.Within 128 → f.get inode 0 = f.get pieceInode 0 := by
  have hm : Mounted v.part := by rw [hv.part]; exact mounted_tablePartition
  have hsize : v.part.inodeSize = 128 := by rw [hv.part]; decide +kernel
  have hblock : v.part.blockSize = 1024 := by rw [hv.part]; decide +kernel
  have hoffset : v.part.inodeOffset k % 128 = 0 ∧ v.part.inodeOffset k + 128 ≤ 1024 := by
    unfold Partition.inodeOffset u32
    rw [hsize, hblock]
    omega
  obtain ⟨inode, w, hread, hw⟩ := readInode_reliable (n := k) hm hv.reliable (by rw [hsize]; decide)
  obtain ⟨a, ha, hbytes⟩ := readInode_steady (n := k) hm (by rw [hsize]; decide)
    (by rw [hsize, hblock]; exact hoffset.2) (⟨rfl, rfl, fun _ _ => hv.reliable _⟩ : v.Steady v)
  rw [hread] at ha
  cases ha
  refine ⟨inode, w, hread, hw, fun f hf => ?_⟩
  refine f.get_congr hf fun x _ hx => ?_
  rw [hbytes x (by omega), Volume.inodeWindow, Sectors.window, hv.inodes]
  · congr 1
    omega
  · unfold PIECE u64
    omega

theorem exactFiles_piece : ExactFiles pieceReader pieceWriter PieceGood pieceFiles := by
  refine ⟨fun v hv => hv.unchanged ⟨rfl, rfl, id⟩, fun v k hv => ?_, fun v k inode hv hread => ?_,
    fun v k inode hv hread => ?_, fun v k buffer count skip hv hfits => ⟨1, _, v, rfl, ⟨hv, rfl⟩,
      fun _ => ?_⟩,
    fun v k source count skip hv hfits => ⟨1, _, rfl, ⟨hv.part, fun t => hv.reliable t, fun x hx => ?_⟩,
      fun h => absurd h (by decide), fun _ => ?_⟩⟩
  · obtain ⟨inode, w, hread, hw, -⟩ := hv.readInode k
    rw [hread]
    exact hv.unchanged hw
  · obtain ⟨inode', w, hread', -, hfield⟩ := hv.readInode k
    rw [hread'] at hread
    cases hread
    rw [hfield _ (by decide)]
    exact iff_of_true (by decide +kernel) rfl
  · obtain ⟨inode', w, hread', -, hfield⟩ := hv.readInode k
    rw [hread'] at hread
    cases hread
    rw [hfield _ (by decide)]
    exact show InodeDescriptor.size.get pieceInode 0 = 1024 by decide +kernel
  · have hfits : skip + count ≤ 1024 := hfits
    funext x
    by_cases hx : x < count
    · rw [copy_apply_in _ _ (Nat.zero_le x) (by omega), copy_apply_in _ _ (Nat.zero_le x) (by omega),
        pieceFiles]
      simp only
      rw [if_pos (by omega), Nat.add_assoc]
    · rw [copy_apply_out _ _ (by omega), copy_apply_out _ _ (by omega)]
  · have hstart : PIECE ≤ PIECE * (k + 1) := Nat.le_mul_of_pos_right _ (Nat.succ_pos k)
    simp only
    rw [copy_apply_out _ _ (by omega)]
    exact hv.inodes x hx
  · have hfits : skip + count ≤ 1024 := hfits
    unfold pieceFiles Files.write
    simp only [Files.mk.injEq, true_and, and_true]
    funext n x
    by_cases hx : x < 1024
    · rw [if_pos hx]
      by_cases hn : n = k
      · subst hn
        rw [if_pos rfl]
        by_cases hin : skip ≤ x ∧ x < skip + count
        · rw [copy_apply_in _ _ (by omega) (by omega), copy_apply_in _ _ (by omega) (by omega)]
          congr 1
          omega
        · rw [copy_apply_out _ _ (by omega), copy_apply_out _ _ (by omega), if_pos hx]
      · rw [if_neg hn, if_pos hx]
        -- the pieces of two files are apart
        refine copy_apply_out _ _ ?_
        unfold PIECE
        omega
    · rw [if_neg hx]
      by_cases hn : n = k
      · rw [if_pos hn, copy_apply_out _ _ (by omega), if_neg hx]
      · rw [if_neg hn, if_neg hx]

theorem unfailing_piece : Unfailing pieceReader pieceWriter PieceGood := by
  refine ⟨fun v k hv => ?_, fun _ _ _ _ _ _ => show (1 : Int) ≠ EXT2_READ_FAILED by decide,
    fun _ _ _ _ _ _ => show (1 : Int) ≠ EXT2_WRITE_FAILED by decide⟩
  obtain ⟨inode, w, hread, -⟩ := hv.readInode k
  rw [hread]
  rfl

/-- The root with a directory `d`. -/
def rootRecords : List Record :=
  [⟨2, 12, [0x2E], 2⟩, ⟨2, 12, [0x2E, 0x2E], 2⟩, ⟨3, 1000, [0x64], 2⟩]

/-- The directory `d` with two links `a` and `b` to one file. -/
def linkRecords : List Record :=
  [⟨3, 12, [0x2E], 2⟩, ⟨2, 12, [0x2E, 0x2E], 2⟩, ⟨12, 12, [0x61], 1⟩, ⟨12, 988, [0x62], 1⟩]

def linkDir (k : Nat) : Option (List Record) :=
  if k = 2 then some rootRecords else if k = 3 then some linkRecords else none

def linkContent (k : Nat) : Bytes :=
  if k = 2 then splitEntry (dotEntries (fun _ => 0) 2 2) 12 1024 3 [0x64] 1 2
  else splitEntry (splitEntry (dotEntries (fun _ => 0) 3 2) 12 1024 12 [0x61] 1 1) 24 1024 12 [0x62] 1 1

def linkVolume : Volume where
  disk :=
    { image := fun x => if x < PIECE then pieceInode (x % 128) else linkContent (x / PIECE - 1) (x % PIECE)
      fails := fun _ => false
      clock := 0 }
  part := tablePartition
  buffers := fun _ _ => 0
  allocated := 0

theorem pieceGood_linkVolume : PieceGood linkVolume :=
  ⟨rfl, fun _ => rfl, fun _ hx => if_pos hx⟩

theorem linkContent_root : Tiles 1024 (linkContent 2) 0 rootRecords 1024 := by
  have hdots : Tiles 1024 (dotEntries (fun _ => 0) 2 2) 0
      ([⟨2, 12, [0x2E], 2⟩] ++ [⟨2, 1012, [0x2E, 0x2E], 2⟩]) 1024 :=
    dotEntries_tiles (by decide) (by decide) (Nat.le_refl 1024)
  obtain ⟨q, hfirst, hlast⟩ := Tiles.append.mp hdots
  obtain rfl : q = 12 := hfirst.eq_span
  rw [linkContent, if_pos rfl]
  exact splitEntry_append hfirst hlast 3 2 (by decide) (by decide) (by decide)

theorem linkContent_links : Tiles 1024 (linkContent 3) 0 linkRecords 1024 := by
  have hdots : Tiles 1024 (dotEntries (fun _ => 0) 3 2) 0
      ([⟨3, 12, [0x2E], 2⟩] ++ [⟨2, 1012, [0x2E, 0x2E], 2⟩]) 1024 :=
    dotEntries_tiles (by decide) (by decide) (Nat.le_refl 1024)
  obtain ⟨q, hfirst, hlast⟩ := Tiles.append.mp hdots
  obtain rfl : q = 12 := hfirst.eq_span
  have ha : Tiles 1024 (splitEntry (dotEntries (fun _ => 0) 3 2) 12 1024 12 [0x61] 1 1) 0
      ([⟨3, 12, [0x2E], 2⟩, ⟨2, 12, [0x2E, 0x2E], 2⟩] ++ [⟨12, 1000, [0x61], 1⟩]) 1024 :=
    splitEntry_append hfirst hlast 12 1 (by decide) (by decide) (by decide)
  obtain ⟨q, hfirst, hlast⟩ := Tiles.append.mp ha
  obtain rfl : q = 24 := hfirst.eq_span
  rw [linkContent, if_neg (by decide)]
  exact splitEntry_append hfirst hlast 12 1 (by decide) (by decide) (by decide)

theorem pieceFiles_linkVolume {k x : Nat} (hx : x < 1024) :
    (pieceFiles linkVolume).bytes k x = linkContent k x := by
  have hpiece : PIECE = 1208925819614629174706176 := by decide
  simp only [pieceFiles, linkVolume, if_pos hx]
  have hdiv : (PIECE * (k + 1) + x) / PIECE - 1 = k := by rw [hpiece]; omega
  have hmod : (PIECE * (k + 1) + x) % PIECE = x := by rw [hpiece]; omega
  rw [if_neg (by rw [hpiece]; omega), hdiv, hmod]

theorem directoryTree_linkVolume : DirectoryTree 1024 (pieceFiles linkVolume) linkDir := by
  have hcases {k : Nat} {rs : List Record} (h : linkDir k = some rs) :
      Tiles 1024 (linkContent k) 0 rs 1024 ∧ ∀ r ∈ rs, r.WellFormed := by
    unfold linkDir at h
    split at h
    · rename_i hk
      cases h
      refine ⟨hk ▸ linkContent_root, ?_⟩
      simp only [rootRecords, List.forall_mem_cons, List.not_mem_nil, false_implies, implies_true, and_true]
      exact ⟨⟨by decide, by decide, by decide, by decide⟩, ⟨by decide, by decide, by decide, by decide⟩,
        ⟨by decide, by decide, by decide, by decide⟩⟩
    · split at h
      · rename_i hk
        cases h
        refine ⟨hk ▸ linkContent_links, ?_⟩
        simp only [linkRecords, List.forall_mem_cons, List.not_mem_nil, false_implies, implies_true,
          and_true]
        exact ⟨⟨by decide, by decide, by decide, by decide⟩, ⟨by decide, by decide, by decide, by decide⟩,
          ⟨by decide, by decide, by decide, by decide⟩, ⟨by decide, by decide, by decide, by decide⟩⟩
      · cases h
  exact ⟨fun _ _ _ => rfl, fun k rs h => ⟨show 1024 % 1024 = 0 from rfl, (hcases h).1.congr fun x _ hx => pieceFiles_linkVolume hx⟩,
    fun k rs h => (hcases h).2⟩

/-- The path search goes from the root to `d`. -/
theorem linkVolume_leads_d {turns : Nat} {rest rest' : List Byte}
    (htoken : strtok slash rest = some ([0x64], rest')) :
    (pieceFiles linkVolume).leadsFrom (turns + 1) EXT2_ROOT_INO_INDEX rest =
      (pieceFiles linkVolume).leadsFrom turns 3 rest' := by
  have hfind : (rootRecords.find? fun r => r.name <+: [0x64]) = some ⟨3, 1000, [0x64], 2⟩ := by rfl
  exact directoryTree_linkVolume.leadsFrom_cons (show linkDir 2 = some rootRecords from rfl)
    (show 1024 < 4294967296 by decide) (by decide) htoken hfind (show 3 < 4294967294 by decide)

theorem linkVolume_leads_parent : (pieceFiles linkVolume).leads [0x2F, 0x64] = some 3 := by
  have hcopy : ([0x2F, 0x64] : List Byte).take (strlen STR_MAX_SIZE [0x2F, 0x64]) = [0x2F, 0x64] := rfl
  rw [Files.leads, hcopy]
  exact (linkVolume_leads_d rfl).trans (Files.leadsFrom_end (by decide))

/-- From `d` to the file, by either of its names. -/
theorem linkVolume_leads_file {c : Byte} (hc : c = 0x61 ∨ c = 0x62) :
    (pieceFiles linkVolume).leads [0x2F, 0x64, 0x2F, c] = some 12 := by
  have hcopy : ([0x2F, 0x64, 0x2F, c] : List Byte).take (strlen STR_MAX_SIZE [0x2F, 0x64, 0x2F, c]) =
      [0x2F, 0x64, 0x2F, c] := rfl
  obtain ⟨r, hfind, hr⟩ : ∃ r, (linkRecords.find? fun r => r.name <+: [c]) = some r ∧ r.inode = 12 := by
    rcases hc with rfl | rfl
    · exact ⟨⟨12, 12, [0x61], 1⟩, by rfl, rfl⟩
    · exact ⟨⟨12, 988, [0x62], 1⟩, by rfl, rfl⟩
  have htoken : strtok slash [c] = some ([c], []) := by
    rcases hc with rfl | rfl
    · rfl
    · rfl
  rw [Files.leads, hcopy]
  have hd : strtok slash [0x2F, 0x64, 0x2F, c] = some ([0x64], [c]) := rfl
  refine (linkVolume_leads_d hd).trans ((directoryTree_linkVolume.leadsFrom_cons
    (show linkDir 3 = some linkRecords from rfl) (show 1024 < 4294967296 by decide) (by simp) htoken
    hfind (by rw [hr]; decide)).trans ?_)
  rw [hr]
  exact Files.leadsFrom_end (by decide)

/-- Removing either name returns 0. -/
theorem linkVolume_deletes {c : Byte} (hc : c = 0x61 ∨ c = 0x62) :
    ∃ w, deleteDentryBy pieceReader pieceWriter linkVolume [0x2F, 0x64, 0x2F, c] = some (0, w) := by
  have hsplit : pathToParentAndName [0x2F, 0x64, 0x2F, c] = some ([0x2F, 0x64], [c]) := by
    rcases hc with rfl | rfl
    · rfl
    · rfl
  refine ExactFiles.deleteDentryBy_eq unfailing_piece exactFiles_piece pieceGood_linkVolume hsplit
    linkVolume_leads_parent (by decide) (linkVolume_leads_file hc) (by decide) rfl fun buffer => ?_
  exact findInodeFrom_exists (directoryTree_linkVolume.content_tiles
    (show linkDir 3 = some linkRecords from rfl) buffer) (show 1024 < 4294967296 by decide)
    (show 1024 ≤ 0 + POSITIONS by decide) ⟨⟨12, 12, [0x61], 1⟩, by simp [linkRecords], rfl⟩ none

theorem namesEntry_linkVolume {c : Byte} {r : Record} (hc : c = 0x61 ∨ c = 0x62) (hname : r.name = [c])
    (hentry : entryNamed linkRecords [c] = some r) :
    NamesEntry linkDir [0x2F, 0x64, 0x2F, c] 3 linkRecords r := by
  refine ⟨⟨[[0x64]], ?_, by decide⟩, rfl, hname ▸ hentry, ?_⟩
  · rw [hname]
    rcases hc with rfl | rfl
    · decide +kernel
    · decide +kernel
  · rw [hname]
    rcases hc with rfl | rfl
    · decide
    · decide

/-! ## The call -/

/-- Over exact input and output a call of `ext2_delete_dentry` that returns 0 removes the entry
that the path names, and no other, exactly when the two path searches lead to its directory and to
an inode whose first record is the entry, behind another record of its block. -/
theorem deleteDentry_removes_iff {readB : InodeReader} {writeB : InodeWriter} {good : Volume → Prop}
    {files : Volume → Files} (hio : ExactFiles readB writeB good files) {v w : Volume} (hv : good v)
    {dir : Nat → Option (List Record)} (htree : DirectoryTree v.part.blockSize (files v) dir)
    {path : Str} {n : Nat} {entry : Record} (hpath : NamesEntry dir path.chars n rs entry)
    (hret : deleteDentryBy readB writeB v path.chars = some (0, w)) :
    EntryGone v.part.blockSize ((files w).bytes n) ((files w).length n) rs entry.name ↔
      ∃ parentPath name target, pathToParentAndName path.chars = some (parentPath, name) ∧
        (files v).leads parentPath = some n ∧ (files v).leads path.chars = some target ∧
        Absorbed v.part.blockSize ((files v).bytes n) ((files v).length n) rs target entry := by
  obtain ⟨parent, target, hdel⟩ := hio.deleteDentryBy hv hret
  rw [hdel.entryGone_iff htree hpath.directory hpath.entry]
  obtain ⟨parentPath, name, hsplit, hparent⟩ := hdel.parentLeads
  constructor
  · rintro ⟨rfl, h⟩
    exact ⟨parentPath, name, target, hsplit, hparent, hdel.targetLeads, h⟩
  · rintro ⟨parentPath', name', target', hsplit', hparent', htarget', h⟩
    obtain ⟨rfl, rfl⟩ := Prod.mk.inj (Option.some.inj (hsplit.symm.trans hsplit'))
    obtain rfl := Option.some.inj (hdel.targetLeads.symm.trans htarget')
    exact ⟨Option.some.inj (hparent.symm.trans hparent'), h⟩

/-- The second of two links stays, the first one goes. -/
theorem deleteDentry_not_removes : ¬ ∀ (readB : InodeReader) (writeB : InodeWriter)
    (good : Volume → Prop) (files : Volume → Files), ExactFiles readB writeB good files →
    ∀ v w : Volume, good v → ∀ dir, DirectoryTree v.part.blockSize (files v) dir →
    ∀ (path : Str) (n : Nat) (rs : List Record) (entry : Record),
      NamesEntry dir path.chars n rs entry → deleteDentryBy readB writeB v path.chars = some (0, w) →
      EntryGone v.part.blockSize ((files w).bytes n) ((files w).length n) rs entry.name := by
  intro hall
  have hblock : linkVolume.part.blockSize = 1024 := by decide +kernel
  obtain ⟨w, hret⟩ := linkVolume_deletes (.inr rfl)
  have hentry := namesEntry_linkVolume (r := ⟨12, 988, [0x62], 1⟩) (.inr rfl) rfl (by rfl)
  have htree : DirectoryTree linkVolume.part.blockSize (pieceFiles linkVolume) linkDir :=
    hblock ▸ directoryTree_linkVolume
  have hgone := hall _ _ _ _ exactFiles_piece linkVolume w pieceGood_linkVolume linkDir htree
    ⟨[0x2F, 0x64, 0x2F, 0x62], by decide⟩ 3 linkRecords _ hentry hret
  obtain ⟨parent, target, hdel⟩ := exactFiles_piece.deleteDentryBy pieceGood_linkVolume hret
  obtain ⟨-, habsorbed⟩ := (hdel.entryGone_iff htree hentry.directory hentry.entry).mp hgone
  obtain rfl := Option.some.inj ((linkVolume_leads_file (.inr rfl)).symm.trans hdel.targetLeads)
  -- the first record of the inode is `a`
  have hfirst : ∀ s ∈ [⟨3, 12, [0x2E], 2⟩] ++ [(⟨2, 12, [0x2E, 0x2E], 2⟩ : Record)], s.inode ≠ 12 := by simp
  rcases (absorbed_iff (r := ⟨12, 12, [0x61], 1⟩) rfl hfirst).mp habsorbed with ⟨hsame, -⟩ | ⟨hsum, -⟩
  · cases hsame
  · exact absurd hsum (by decide)

/-- The first of two links is removed alone. -/
theorem deleteDentry_removes_iff_link : ∃ w,
    deleteDentryBy pieceReader pieceWriter linkVolume [0x2F, 0x64, 0x2F, 0x61] = some (0, w) ∧
    EntryGone 1024 ((pieceFiles w).bytes 3) 1024 linkRecords [0x61] := by
  have hblock : linkVolume.part.blockSize = 1024 := by decide +kernel
  obtain ⟨w, hret⟩ := linkVolume_deletes (.inl rfl)
  have hentry : NamesEntry linkDir (Str.chars ⟨[0x2F, 0x64, 0x2F, 0x61], by decide⟩) 3 linkRecords
      ⟨12, 12, [0x61], 1⟩ := namesEntry_linkVolume (.inl rfl) rfl (by rfl)
  have htree : DirectoryTree linkVolume.part.blockSize (pieceFiles linkVolume) linkDir :=
    hblock ▸ directoryTree_linkVolume
  refine ⟨w, hret, ?_⟩
  have h := (deleteDentry_removes_iff exactFiles_piece pieceGood_linkVolume htree hentry hret).mpr
      ⟨[0x2F, 0x64], [0x61], 12, rfl, linkVolume_leads_parent, linkVolume_leads_file (.inl rfl), ?_⟩
  · rw [hblock] at h
    exact h
  · refine ⟨[⟨3, 12, [0x2E], 2⟩], ⟨2, 12, [0x2E, 0x2E], 2⟩, ⟨12, 12, [0x61], 1⟩, [⟨12, 988, [0x62], 1⟩], rfl,
      rfl, by simp, .inl ⟨rfl, ?_, by decide⟩⟩
    rw [hblock]
    decide

end UnedKernel.Ext2
