import UnedKernel.Ext2.Lookups
import UnedKernel.Ext2.PathTokens

/-! # The inode that a path names

`ext2_path_to_inode` beside the walk that takes in each directory the entry in
use with exactly the name of the component. The code takes the first record,
deleted ones too, whose name begins the component, and its `strtok` leaves the
string at a path that ends in two slashes. -/

namespace UnedKernel.Ext2
open ByteMem CString Word Components

/-- The record that `ext2_inode_from_path_and_parent` returns the inode of. -/
def entryAt (v : Volume) (parent : Nat) (path : List Byte) : Option Record :=
  match readInode v parent with
  | (none, _) => none
  | (some inode, v) =>
    if InodeDescriptor.mode.get inode 0 &&& INODE_TYPE_DIR ≠ 0 then
      let size := InodeDescriptor.size.get inode 0
      let (read, block, _) := readInodeBytes v parent (fun _ => 0) size 0
      if read = EXT2_READ_FAILED then none
      else match findEntry block path size POSITIONS 0 with
        | some (some parsed) => some (recordAt block parsed)
        | _ => none
    else none

/-- The records that the loop of `ext2_path_to_inode` takes for the components. -/
def resolvedFrom (v : Volume) : (turns inodeIndex : Nat) → (rest : List Byte) → List Record
  | 0, _, _ => []
  | turns + 1, inodeIndex, rest =>
    match strtok slash rest with
    | none => []
    | some ([], _) => []
    | some (token, rest) =>
      match inodeFromPathAndParent v inodeIndex token with
      | none => []
      | some (index, w) =>
        if index = EXT2_INO_PAP_ERROR ∨ index = EXT2_INO_PAP_NOTFOUND then []
        else (entryAt v inodeIndex token).toList ++
          resolvedFrom w turns (index % 4294967296).toNat rest

/-- The records that `ext2_path_to_inode` takes for the components of a path. -/
def resolved (v : Volume) (path : List Byte) : List Record :=
  let copy := path.take (strlen STR_MAX_SIZE path)
  resolvedFrom v (copy.length + 1) EXT2_ROOT_INO_INDEX copy

/-! ## The walk by exact names -/

/-- The entry in use with this name. -/
def entryNamed (rs : List Record) (c : List Byte) : Option Record :=
  rs.find? fun r => r.inode ≠ 0 ∧ r.name = c

/-- The inode that the components lead to from directory `n`. -/
def exactWalk (dir : Nat → Option (List Record)) : (n : Nat) → List (List Byte) → Option Nat
  | n, [] => some n
  | n, c :: cs =>
    match (dir n).bind fun rs => entryNamed rs c with
    | none => none
    | some r => exactWalk dir r.inode cs

/-- The path is resolved exactly: the call returns the inode that the components lead to, or the
error when they lead nowhere, and takes for each component an entry in use with its name. -/
structure PathResolved (v : Volume) (dir : Nat → Option (List Record)) (path : List Byte) : Prop where
  returns : ∃ i w, pathToInode v path = some (i, w) ∧
    (∀ j, j ≠ 0 → (i = j ↔ exactWalk dir EXT2_ROOT_INO_INDEX (components slash path) = some j)) ∧
    (exactWalk dir EXT2_ROOT_INO_INDEX (components slash path) = none → i = EXT2_INO_PTI_ERROR)
  names : (resolved v path).map Record.name <+: components slash path
  inUse : ∀ r ∈ resolved v path, r.inode ≠ 0

/-- With a slash before it the string ends in two slashes. -/
def EndsInSlashes (s : List Byte) : Prop := [slash, slash] <:+ slash :: s

/-- The record that the search for a component in directory `n` ends at: the first one, in use or
not, whose name begins the component. A directory of more than twelve blocks is not searched, and
the two largest numbers are taken for errors. -/
def stopsAt (v : Volume) (dir : Nat → Option (List Record)) (n : Nat) (c : List Byte) : Option Record :=
  match dir n with
  | none => none
  | some rs =>
    if v.fileSize n ≤ 12 * v.part.blockSize then
      (rs.find? fun r => r.name <+: c).filter fun r => r.inode < 4294967294
    else none

/-- The search goes the way of the components from directory `n` on: at each token it ends at an
entry in use with the name of the component, or the components lead nowhere. At the end of the
tokens the components that are left lead to where they begin. -/
def Straight (v : Volume) (dir : Nat → Option (List Record)) (ends : Prop) :
    (n : Nat) → (tokens cs : List (List Byte)) → Prop
  | n, [], cs => ends ∧ exactWalk dir n cs = some n
  | n, c :: tokens, cs =>
    match stopsAt v dir n c with
    | none => exactWalk dir n cs = none
    | some r => r.inode ≠ 0 ∧ cs.head? = some r.name ∧ Straight v dir ends r.inode tokens cs.tail

/-- The search for the path goes straight, and the part of it that is copied does not end in two
slashes when the search goes through it. -/
def GoesStraight (v : Volume) (dir : Nat → Option (List Record)) (path : List Byte) : Prop :=
  let copy := path.take (strlen STR_MAX_SIZE path)
  Straight v dir (¬ EndsInSlashes copy) EXT2_ROOT_INO_INDEX (components slash copy)
    (components slash path)

/-! ## One step of the walk -/

theorem entryNamed_of_find {rs : List Record} {r : Record} {c : List Byte}
    (h : (rs.find? fun r => r.name <+: c) = some r) (hr : r.inode ≠ 0) :
    entryNamed rs r.name = some r := by
  rw [List.find?_eq_some_iff_append] at h
  obtain ⟨hbegins, front, back, rfl, hfront⟩ := h
  refine List.find?_eq_some_iff_append.mpr ⟨by simpa using hr, front, back, rfl, fun q hq => ?_⟩
  -- a record before it with its name would have been found
  have hbegins : r.name <+: c := by simpa using hbegins
  have hq' : ¬ q.name <+: c := by simpa using hfront q hq
  have hne : q.name ≠ r.name := fun heq => hq' (heq ▸ hbegins)
  simp [hne]

theorem exactWalk_ne_zero {dir : Nat → Option (List Record)} {n j : Nat} {cs : List (List Byte)}
    (h : exactWalk dir n cs = some j) (hn : n ≠ 0) : j ≠ 0 := by
  induction cs generalizing n with
  | nil =>
    cases h
    exact hn
  | cons c cs ih =>
    rw [exactWalk] at h
    cases hentry : (dir n).bind fun rs => entryNamed rs c with
    | none =>
      rw [hentry] at h
      cases h
    | some r =>
      rw [hentry] at h
      obtain ⟨rs, -, hr⟩ := Option.bind_eq_some_iff.mp hentry
      have hfound := List.find?_some hr
      exact ih h (by simpa using (of_decide_eq_true hfound).1)

section stops

variable {v : Volume} {dir : Nat → Option (List Record)} {n : Nat} {c : List Byte} {r : Record}

theorem stopsAt_eq_some : stopsAt v dir n c = some r ↔ ∃ rs, dir n = some rs ∧
    v.fileSize n ≤ 12 * v.part.blockSize ∧ (rs.find? fun r => r.name <+: c) = some r ∧
      r.inode < 4294967294 := by
  rw [stopsAt]
  cases dir n with
  | none => simp
  | some rs =>
    by_cases hsmall : v.fileSize n ≤ 12 * v.part.blockSize
    · simp [hsmall, Option.filter_eq_some_iff]
    · simp [hsmall]

theorem exactWalk_cons (h : stopsAt v dir n c = some r) (hr : r.inode ≠ 0) (cs : List (List Byte)) :
    exactWalk dir n (r.name :: cs) = exactWalk dir r.inode cs := by
  obtain ⟨rs, hdir, -, hfind, -⟩ := stopsAt_eq_some.mp h
  rw [exactWalk, hdir, Option.bind_some, entryNamed_of_find hfind hr]

/-- The search returns the inode of the record where it stops. -/
theorem found_of_stopsAt (h : stopsAt v dir n c = some r) :
    ¬ (found v dir n c = EXT2_INO_PAP_ERROR ∨ found v dir n c = EXT2_INO_PAP_NOTFOUND) ∧
      (found v dir n c % 4294967296).toNat = r.inode := by
  obtain ⟨rs, hdir, hsmall, hfind, hlt⟩ := stopsAt_eq_some.mp h
  have hfound : found v dir n c = int32 r.inode := by
    rw [found, hdir]
    simp only [if_pos hsmall, hfind]
  rw [hfound]
  refine ⟨?_, int32_mod (Nat.lt_trans hlt (by decide))⟩
  unfold int32 EXT2_INO_PAP_ERROR EXT2_INO_PAP_NOTFOUND
  split <;> omega

end stops

namespace Directories

variable {v w : Volume} {dir : Nat → Option (List Record)} {n : Nat} {c : List Byte} {r : Record}

/-- The search returns an error where it does not stop. -/
theorem found_of_stopsAt_none (h : Directories v dir) (hn : Linked dir n)
    (hstops : stopsAt v dir n c = none) :
    found v dir n c = EXT2_INO_PAP_ERROR ∨ found v dir n c = EXT2_INO_PAP_NOTFOUND := by
  rw [found]
  cases hdir : dir n with
  | none => exact .inr rfl
  | some rs =>
    by_cases hsmall : v.fileSize n ≤ 12 * v.part.blockSize
    · simp only [if_pos hsmall]
      cases hfind : rs.find? fun r => r.name <+: c with
      | none => exact .inr rfl
      | some r =>
        have hlt := (h.laid n rs hn hdir).1.inode_lt (List.mem_of_find?_eq_some hfind)
        have hlarge : ¬ r.inode < 4294967294 := fun hlt => by
          rw [stopsAt_eq_some.mpr ⟨rs, hdir, hsmall, hfind, hlt⟩] at hstops
          cases hstops
        simp only [int32, EXT2_INO_PAP_ERROR, EXT2_INO_PAP_NOTFOUND]
        rw [if_neg (by omega)]
        omega
    · simp only [if_neg hsmall]
      exact .inl trivial

/-- Where the search stops it returns the inode of that record. -/
theorem entryAt (h : Directories v dir) (hw : Unchanged v w) (hn : Linked dir n)
    (hstops : stopsAt v dir n c = some r) : Ext2.entryAt w n c = some r := by
  obtain ⟨rs, hdir, hsmall, hfind, -⟩ := stopsAt_eq_some.mp hstops
  obtain ⟨inode, w₁, hread, hw₁, htyped, hsize⟩ := h.readInode hw hn
  -- the loop and the read stay closed terms that nothing evaluates
  obtain ⟨turns, hturns⟩ : ∃ turns, turns = POSITIONS := ⟨_, rfl⟩
  obtain ⟨readB, hreadB⟩ : ∃ readB, readB = readInodeBytes := ⟨_, rfl⟩
  rw [hdir] at htyped
  rw [Ext2.entryAt, hread, ← hreadB, ← hturns]
  simp only [hsize]
  rw [if_pos (htyped.mpr rfl)]
  obtain ⟨⟨read, block, w₂⟩, hbytes⟩ :
      ∃ x, readB w₁ n (fun _ => 0) (v.fileSize n) 0 = x := ⟨_, rfl⟩
  obtain ⟨-, hne, hlaid, -⟩ := h.readInodeBytes_small hw₁ hn hdir hsmall (hreadB ▸ hbytes)
  have hspan := (h.laid n rs hn hdir).2
  have hlt : v.fileSize n < 4294967296 := InodeDescriptor.size.get_lt _
  have hentry := @findEntry_records _ c _ _ _ turns hlaid
    (by rw [Nat.zero_add]; exact hspan) hlt (by rw [hturns]; unfold POSITIONS; omega)
  rw [hfind] at hentry
  simp only [hbytes, if_neg hne]
  obtain ⟨found, hloop, hrecord⟩ := Option.map_eq_some_iff.mp hentry
  obtain ⟨q, rfl, hq⟩ := Option.map_eq_some_iff.mp hrecord
  simp only [hloop, hq]

/-- From directory `n` on the loop returns what the components lead to, and takes for them entries
in use with their names, exactly when the search goes straight. -/
theorem pathToInodeFrom_exact (h : Directories v dir) (hw : Unchanged v w) (hn : Linked dir n)
    (hne : n ≠ 0) {turns : Nat} {rest : List Byte} (hturns : rest.length < turns)
    (cs : List (List Byte)) :
    ((∃ i w', Ext2.pathToInodeFrom w turns n rest = some (i, w') ∧
        (∀ j, j ≠ 0 → (i = j ↔ exactWalk dir n cs = some j)) ∧
        (exactWalk dir n cs = none → i = EXT2_INO_PTI_ERROR)) ∧
      (resolvedFrom w turns n rest).map Record.name <+: cs ∧
      ∀ r ∈ resolvedFrom w turns n rest, r.inode ≠ 0) ↔
    Straight v dir (¬ EndsInSlashes rest) n (components slash rest) cs := by
  induction turns generalizing w n rest cs with
  | zero => exact absurd hturns (Nat.not_lt_zero _)
  | succ turns ih =>
    rw [Ext2.pathToInodeFrom, resolvedFrom]
    by_cases hrest : rest = []
    · subst hrest
      rw [components_nil, Straight, strtok]
      simp only [if_neg hne]
      constructor
      · rintro ⟨⟨i, w', hreturns, hwalk, -⟩, -⟩
        cases hreturns
        exact ⟨not_endsTwice List.not_mem_nil, (hwalk n hne).mp rfl⟩
      · rintro ⟨-, hwalk⟩
        refine ⟨⟨n, w, rfl, fun j _ => ?_, fun hnone => ?_⟩, List.nil_prefix, fun r hr => absurd hr List.not_mem_nil⟩
        · rw [hwalk, Option.some.injEq]
        · rw [hwalk] at hnone
          cases hnone
    rcases strtok_cases hrest with ⟨hcomponents, hends, htoken⟩ |
      ⟨c, t, hc, htoken, hcomponents, hends, hlen⟩
    · -- `strtok` leaves the string
      rw [hcomponents, htoken, Straight]
      refine iff_of_false (fun hall => ?_) fun hstraight => hstraight.1 hends
      obtain ⟨⟨i, w', hreturns, -⟩, -⟩ := hall
      cases hreturns
    obtain ⟨d, c, rfl⟩ := List.exists_cons_of_ne_nil hc
    obtain ⟨w', hfind, hw'⟩ := @inodeFromPathAndParent _ _ _ _ (d :: c) h hw hn
    have hends : EndsInSlashes rest ↔ EndsInSlashes t := hends
    rw [hcomponents, htoken, Straight, hends]
    simp only [hfind]
    cases hstops : stopsAt v dir n (d :: c) with
    | none =>
      have herror := h.found_of_stopsAt_none hn hstops
      simp only [if_pos herror]
      constructor
      · rintro ⟨⟨i, w'', hreturns, hwalk, -⟩, -⟩
        cases hreturns
        cases hexact : exactWalk dir n cs with
        | none => rfl
        | some j =>
          have hj := exactWalk_ne_zero hexact hne
          exact absurd ((hwalk j hj).mpr hexact).symm hj
      · intro hnone
        refine ⟨⟨_, w', rfl, fun j hj => ?_, fun _ => rfl⟩, List.nil_prefix, fun r hr => absurd hr List.not_mem_nil⟩
        rw [hnone]
        exact iff_of_false (fun heq => hj heq.symm) (Option.some_ne_none j).symm
    | some r =>
      obtain ⟨hnerror, hinode⟩ := found_of_stopsAt hstops
      have hw' := hw' fun herror => hnerror (.inl herror)
      simp only [if_neg hnerror, hinode, h.entryAt hw hn hstops, Option.toList_some,
        List.singleton_append, List.map_cons, List.forall_mem_cons]
      by_cases hr : r.inode = 0
      · exact iff_of_false (fun hall => hall.2.2.1 hr) fun hstraight => hstraight.1 hr
      cases cs with
      | nil =>
        refine iff_of_false (fun hall => ?_) fun hstraight => Option.some_ne_none _ hstraight.2.1.symm
        exact absurd hall.2.1.length_le (by simp)
      | cons e cs =>
        obtain ⟨rs, hdir, -, hfound, -⟩ := stopsAt_eq_some.mp hstops
        have hlinked : Linked dir r.inode := .entry hn hdir (List.mem_of_find?_eq_some hfound) hr
        have hstep := ih hw' hlinked hr (Nat.lt_of_lt_of_le hlen (Nat.le_of_lt_succ hturns)) cs
        rw [List.cons_prefix_cons, List.head?_cons, List.tail_cons, ← hstep, Option.some.injEq]
        constructor
        · rintro ⟨hreturns, ⟨hname, hnames⟩, -, hused⟩
          rw [← hname, exactWalk_cons hstops hr] at hreturns
          exact ⟨hr, hname.symm, hreturns, hnames, hused⟩
        · rintro ⟨-, hname, hreturns, hnames, hused⟩
          rw [hname, exactWalk_cons hstops hr]
          exact ⟨hreturns, ⟨rfl, hnames⟩, hr, hused⟩

end Directories

/-- A path is resolved exactly when the search for it goes straight. -/
theorem pathResolved_iff {v : Volume} {dir : Nat → Option (List Record)} (h : Directories v dir)
    (path : Str) : PathResolved v dir path.chars ↔ GoesStraight v dir path.chars := by
  have hexact := h.pathToInodeFrom_exact ⟨rfl, rfl, id⟩ .root (by decide)
    (Nat.lt_succ_self (path.chars.take (strlen STR_MAX_SIZE path.chars)).length)
    (components slash path.chars)
  rw [GoesStraight, ← hexact]
  exact ⟨fun ⟨hreturns, hnames, hused⟩ => ⟨hreturns, hnames, hused⟩,
    fun ⟨hreturns, hnames, hused⟩ => ⟨hreturns, hnames, hused⟩⟩

/-- `/.` is the root. -/
theorem pathResolved_iff_dot : PathResolved rootVolume dots [0x2F, 0x2E] := by
  refine (pathResolved_iff directories_rootVolume ⟨[0x2F, 0x2E], by decide⟩).mpr ?_
  have hstops : stopsAt rootVolume dots 2 [0x2E] = some ⟨2, 12, [0x2E], 2⟩ :=
    stopsAt_eq_some.mpr ⟨_, rfl, by decide +kernel, by rfl, by decide⟩
  have hends : ¬ EndsInSlashes [0x2F, 0x2E] :=
    mt (endsTwice_cons_sep (by decide)).mp (not_endsTwice (by decide))
  have hcopy : ([0x2F, 0x2E] : List Byte).take (strlen STR_MAX_SIZE [0x2F, 0x2E]) = [0x2F, 0x2E] := rfl
  have hcomponents : components slash [0x2F, 0x2E] = [[0x2E]] := by decide +kernel
  rw [GoesStraight, hcopy, hcomponents, EXT2_ROOT_INO_INDEX, Straight, hstops]
  exact ⟨by decide, rfl, hends, rfl⟩

/-- `/.x` leads to the root, which has no such entry. -/
theorem not_pathResolved : ¬ ∀ v dir, Directories v dir → ∀ path : Str,
    PathResolved v dir path.chars := by
  intro hall
  obtain ⟨⟨i, w, hreturns, -, hnone⟩, -, -⟩ :=
    hall rootVolume dots directories_rootVolume ⟨[0x2F, 0x2E, 0x78], by decide⟩
  have hwalk : walk rootVolume dots [0x2F, 0x2E, 0x78] = .leads 2 := by decide +kernel
  have hpath := directories_rootVolume.pathToInode [0x2F, 0x2E, 0x78]
  rw [hwalk] at hpath
  obtain ⟨x, hleads, -⟩ := hpath
  rw [hreturns] at hleads
  obtain rfl : i = 2 := (Prod.mk.inj (Option.some.inj hleads)).1
  exact absurd (hnone (by decide +kernel)) (by decide)

end UnedKernel.Ext2
