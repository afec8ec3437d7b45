import UnedKernel.Ext2.DirectoryEdit
import UnedKernel.Lib.Components

/-! # Two ways to split a path

`ext2_path_to_parent_and_name`, with the bytes it copies, and
`split_into_path_and_name`. The first takes index 0 both for a slash at the
beginning and for no slash, and copies one byte too many then. -/

namespace UnedKernel.Ext2
open ByteMem CString Components

/-- What `ext2_path_to_parent_and_name` allocates, and how many bytes of the source it reads. -/
structure PathBuffers where
  path : List Byte
  name : List Byte
  sourceRead : Nat

/-- `ext2_path_to_parent_and_name`, with the source in memory. -/
def pathToParentAndNameAt (m : Bytes) (source : Nat) : Option PathBuffers :=
  let path := stringAt m source STR_MAX_SIZE
  let pathLength := path.length
  if pathLength = 0 then none
  else
    let lastSlash := lastSlashFrom 0 0 path
    if lastSlash = 0 then
      some
        { path := [slash, 0]
          name := bytesAt m (source + 1) (pathLength + 1)
          sourceRead := 1 + (pathLength + 1) }
    else
      some
        { path := bytesAt m source lastSlash ++ [0]
          name := bytesAt m (source + lastSlash + 1) (pathLength - lastSlash)
          sourceRead := lastSlash + 1 + (pathLength - lastSlash) }

/-- The loop of `strrchr`: the position of the last character `ch`. -/
def strrchrFrom (ch : Byte) (i : Nat) (last : Option Nat) : List Byte → Option Nat
  | [] => last
  | c :: s => strrchrFrom ch (i + 1) (if c = ch then some i else last) s

def strrchr (s : List Byte) (ch : Byte) : Option Nat := strrchrFrom ch 0 none s

/-- `split_into_path_and_name`. It reads its path up to the terminator. -/
def splitIntoPathAndName (fullPath : List Byte) : Option (List Byte × List Byte) :=
  if strlen STR_MAX_SIZE fullPath = 0 then none
  else match strrchr fullPath slash with
    | none => some ([], fullPath)
    | some lastSep =>
      let parentLen := if lastSep = 0 then 1 else lastSep
      some (fullPath.take (min parentLen (strlen STR_MAX_SIZE fullPath)), fullPath.drop (lastSep + 1))

/-- Both split the string at `source` into the same strings, the first one without reading behind
the terminator, and together the strings name what the path names. -/
def SplittersAgree (m : Bytes) (source : Nat) (s : List Byte) : Prop :=
  ∃ buffers path name, pathToParentAndNameAt m source = some buffers ∧
    splitIntoPathAndName s = some (path, name) ∧ bufferString buffers.path = some path ∧
    bufferString buffers.name = some name ∧ buffers.sourceRead ≤ s.length + 1 ∧
    components slash (path ++ slash :: name) = components slash s

/-! ## The last slash -/

section lastSlash

variable {s u v : List Byte} {i last : Nat} {seen : Option Nat}

theorem lastSlashFrom_of_not_mem (h : slash ∉ s) : lastSlashFrom i last s = last := by
  induction s generalizing i with
  | nil => rfl
  | cons c s ih =>
    have hc : c ≠ slash := fun heq => h (heq ▸ List.mem_cons_self)
    rw [lastSlashFrom, if_neg hc, ih fun hs => h (List.mem_cons_of_mem c hs)]

theorem lastSlashFrom_append (h : slash ∉ v) :
    lastSlashFrom i last (u ++ slash :: v) = i + u.length := by
  induction u generalizing i last with
  | nil => rw [List.nil_append, lastSlashFrom, if_pos rfl, lastSlashFrom_of_not_mem h, List.length_nil,
      Nat.add_zero]
  | cons c u ih =>
    rw [List.cons_append, lastSlashFrom, ih, List.length_cons, Nat.add_right_comm, Nat.add_assoc]

theorem strrchrFrom_of_not_mem (h : slash ∉ s) : strrchrFrom slash i seen s = seen := by
  induction s generalizing i with
  | nil => rfl
  | cons c s ih =>
    have hc : c ≠ slash := fun heq => h (heq ▸ List.mem_cons_self)
    rw [strrchrFrom, if_neg hc, ih fun hs => h (List.mem_cons_of_mem c hs)]

theorem strrchrFrom_append (h : slash ∉ v) :
    strrchrFrom slash i seen (u ++ slash :: v) = some (i + u.length) := by
  induction u generalizing i seen with
  | nil => rw [List.nil_append, strrchrFrom, if_pos rfl, strrchrFrom_of_not_mem h, List.length_nil,
      Nat.add_zero]
  | cons c u ih =>
    rw [List.cons_append, strrchrFrom, ih, List.length_cons, Nat.add_right_comm, Nat.add_assoc]

theorem strrchr_of_not_mem (h : slash ∉ s) : strrchr s slash = none := strrchrFrom_of_not_mem h

theorem strrchr_append (h : slash ∉ v) : strrchr (u ++ slash :: v) slash = some u.length := by
  rw [strrchr, strrchrFrom_append h, Nat.zero_add]

end lastSlash

/-! ## The two splitters on strings -/

section split

variable {m : Bytes} {a : Nat} {s u v : List Byte}

theorem splitIntoPathAndName_of_not_mem (hne : s ≠ []) (h : slash ∉ s) :
    splitIntoPathAndName s = some ([], s) := by
  have hlen : strlen STR_MAX_SIZE s ≠ 0 := by
    have hpos := List.length_pos_of_ne_nil hne
    unfold strlen STR_MAX_SIZE
    omega
  rw [splitIntoPathAndName, if_neg hlen, strrchr_of_not_mem h]

theorem splitIntoPathAndName_append (h : slash ∉ v) : splitIntoPathAndName (u ++ slash :: v) =
    some (if u = [] then [slash] else u.take STR_MAX_SIZE, v) := by
  have hlen : strlen STR_MAX_SIZE (u ++ slash :: v) = min (u.length + (v.length + 1)) STR_MAX_SIZE := by
    rw [strlen, List.length_append, List.length_cons]
  have hpos : strlen STR_MAX_SIZE (u ++ slash :: v) ≠ 0 := by
    rw [hlen]
    unfold STR_MAX_SIZE
    omega
  rw [splitIntoPathAndName, if_neg hpos, strrchr_append h, hlen]
  simp only [Option.some.injEq, Prod.mk.injEq]
  constructor
  · by_cases hu : u = []
    · subst hu
      have hmin : min 1 (min (v.length + 1) STR_MAX_SIZE) = 1 := by
        unfold STR_MAX_SIZE
        omega
      simp [hmin]
    · have hpos : u.length ≠ 0 := fun h0 => hu (List.eq_nil_of_length_eq_zero h0)
      have hmin : min u.length (min (u.length + (v.length + 1)) STR_MAX_SIZE) =
          min u.length STR_MAX_SIZE := by omega
      rw [if_neg hpos, if_neg hu, hmin, List.take_append_of_le_length (Nat.min_le_left ..),
        Nat.min_comm, ← List.take_take, List.take_length]
  · rw [← List.drop_drop, List.drop_left]
    rfl

/-- A path whose last slash is not its first character. -/
theorem pathToParentAndNameAt_append (hpath : stringAt m a STR_MAX_SIZE = u ++ slash :: v)
    (hv : slash ∉ v) (hu : u ≠ []) : pathToParentAndNameAt m a = some ⟨bytesAt m a u.length ++ [0],
      bytesAt m (a + u.length + 1) (v.length + 1), u.length + 1 + (v.length + 1)⟩ := by
  have hpos : u.length ≠ 0 := fun h0 => hu (List.eq_nil_of_length_eq_zero h0)
  have hlen : u.length + (v.length + 1) - u.length = v.length + 1 := Nat.add_sub_cancel_left ..
  simp only [pathToParentAndNameAt, hpath, lastSlashFrom_append hv, List.length_append, List.length_cons,
    Nat.zero_add, hlen]
  rw [if_neg (by omega), if_neg hpos]

/-- A path whose first `STR_MAX_SIZE` characters have no slash but the first: everything after
its first character is the name. -/
theorem pathToParentAndNameAt_first (hs : NulFree s) (h : Reads m a s) (hne : s ≠ [])
    (hfirst : slash ∉ (s.take STR_MAX_SIZE).tail) :
    pathToParentAndNameAt m a = some ⟨[slash, 0],
      bytesAt m (a + 1) (min s.length STR_MAX_SIZE + 1), 1 + (min s.length STR_MAX_SIZE + 1)⟩ := by
  have hpath := @stringAt_eq_take _ _ _ STR_MAX_SIZE hs h
  have hlen : (s.take STR_MAX_SIZE).length = min s.length STR_MAX_SIZE := by
    rw [List.length_take, Nat.min_comm]
  have hpos : min s.length STR_MAX_SIZE ≠ 0 := by
    have hpos := List.length_pos_of_ne_nil hne
    unfold STR_MAX_SIZE
    omega
  have hlast : lastSlashFrom 0 0 (s.take STR_MAX_SIZE) = 0 := by
    cases htake : s.take STR_MAX_SIZE with
    | nil => rfl
    | cons c rest =>
      rw [htake] at hfirst
      rw [lastSlashFrom, ite_self]
      exact lastSlashFrom_of_not_mem hfirst
  simp only [pathToParentAndNameAt, hpath, hlen, hlast, if_neg hpos, if_true]

/-- A slash that is not the first character, found from the last one. -/
theorem exists_append_of_mem_tail (h : slash ∈ s.tail) :
    ∃ u v, s = u ++ slash :: v ∧ slash ∉ v ∧ u ≠ [] := by
  obtain ⟨u, v, rfl, hv⟩ := exists_last (List.mem_of_mem_tail h)
  refine ⟨u, v, rfl, hv, ?_⟩
  intro hu
  subst hu
  exact hv h

theorem bufferString_path (hs : NulFree s) (h : Reads m a s) {n : Nat} (hn : n ≤ s.length) :
    bufferString (bytesAt m a n ++ [0]) = some (s.take n) := by
  rw [bytesAt_eq_take h hn]
  exact bufferString_append_zero (hs.take n)

/-- On a path that `strlen` measures whole, the buffers hold the strings of `pathToParentAndName`. -/
theorem pathToParentAndNameAt_strings (hs : NulFree s) (h : Reads m a s)
    (hlen : s.length ≤ STR_MAX_SIZE) :
    (pathToParentAndNameAt m a).map (fun b => (bufferString b.path, bufferString b.name)) =
      (pathToParentAndName s).map fun r => (some r.1, some r.2) := by
  have htake : s.take STR_MAX_SIZE = s := List.take_of_length_le hlen
  have hstrlen : strlen STR_MAX_SIZE s = s.length := Nat.min_eq_left hlen
  by_cases hne : s = []
  · subst hne
    have hpath := @stringAt_eq_take _ _ _ STR_MAX_SIZE hs h
    rw [List.take_nil] at hpath
    simp [pathToParentAndNameAt, pathToParentAndName, hpath]
  have hpos := List.length_pos_of_ne_nil hne
  by_cases hslash : slash ∈ s.tail
  · obtain ⟨u, v, rfl, hv, hu⟩ := exists_append_of_mem_tail hslash
    have hu' : u.length ≠ 0 := fun h0 => hu (List.eq_nil_of_length_eq_zero h0)
    have hsum : (u ++ slash :: v).length = u.length + (v.length + 1) := by simp
    have hname := bufferString_bytesAt (n := v.length + 1) (hs.drop (u.length + 1))
      (h.drop (k := u.length + 1) (by omega))
    rw [List.length_drop, if_pos (by omega)] at hname
    rw [pathToParentAndNameAt_append ((stringAt_eq_take hs h).trans htake) hv hu]
    simp only [pathToParentAndName, hstrlen, List.take_length, lastSlashFrom_append hv, Nat.zero_add,
      Option.map_some, bufferString_path hs h (show u.length ≤ _ by omega), Nat.add_assoc a, hname]
    rw [if_neg (by omega), if_neg hu']
    rfl
  · have hfirst : slash ∉ (s.take STR_MAX_SIZE).tail := by rwa [htake]
    have hname := bufferString_bytesAt (n := min s.length STR_MAX_SIZE + 1) (hs.drop 1) (h.drop hpos)
    rw [List.length_drop, if_pos (by omega)] at hname
    obtain ⟨c, rest, rfl⟩ := List.exists_cons_of_ne_nil hne
    have hlast : lastSlashFrom 0 0 (c :: rest) = 0 := by
      rw [lastSlashFrom, ite_self]
      exact lastSlashFrom_of_not_mem hslash
    rw [pathToParentAndNameAt_first hs h hne hfirst]
    simp only [pathToParentAndName, hstrlen, List.take_length, hlast, Option.map_some, hname]
    rw [if_neg (by omega), if_true]
    rfl

/-- Both find the last slash, when `strlen` measures the whole path. -/
theorem splittersAgree_of_mem_tail (hs : NulFree s) (h : Reads m a s) (hlen : s.length ≤ STR_MAX_SIZE)
    (hslash : slash ∈ s.tail) : SplittersAgree m a s := by
  obtain ⟨u, v, rfl, hv, hu⟩ := exists_append_of_mem_tail hslash
  have hpath : stringAt m a STR_MAX_SIZE = u ++ slash :: v := by
    rw [stringAt_eq_take hs h, List.take_of_length_le hlen]
  have hsum : (u ++ slash :: v).length = u.length + (v.length + 1) := by simp
  have hdrop : (u ++ slash :: v).drop (u.length + 1) = v := by simp
  have hname : bufferString (bytesAt m (a + u.length + 1) (v.length + 1)) = some v := by
    have hreads := h.drop (k := u.length + 1) (by omega)
    have hfree := hs.drop (u.length + 1)
    rw [hdrop] at hreads hfree
    rw [Nat.add_assoc, bufferString_bytesAt hfree hreads, if_pos (Nat.lt_succ_self _)]
  refine ⟨_, u, v, pathToParentAndNameAt_append hpath hv hu, ?_, ?_, hname, ?_, rfl⟩
  · rw [splitIntoPathAndName_append hv, if_neg hu, List.take_of_length_le (by omega)]
  · rw [bufferString_path hs h (by omega), List.take_left]
  · show u.length + 1 + (v.length + 1) ≤ _
    omega

/-- A name that does not end within what `strlen` measures is copied without its terminator. -/
theorem not_splittersAgree_of_long (hs : NulFree s) (h : Reads m a s) (hlen : STR_MAX_SIZE < s.length)
    (hslash : slash ∈ (s.take STR_MAX_SIZE).tail) : ¬ SplittersAgree m a s := by
  obtain ⟨u, v, htake, hv, hu⟩ := exists_append_of_mem_tail hslash
  have hsum : u.length + (v.length + 1) = STR_MAX_SIZE := by
    have hcount := congrArg List.length htake
    rw [List.length_take, List.length_append, List.length_cons] at hcount
    omega
  intro ⟨buffers, path, name, hbuffers, _, _, hname, _⟩
  rw [pathToParentAndNameAt_append ((stringAt_eq_take hs h).trans htake) hv hu] at hbuffers
  obtain rfl := Option.some.inj hbuffers
  have hreads := h.drop (k := u.length + 1) (by omega)
  simp only [Nat.add_assoc] at hname
  rw [bufferString_bytesAt (hs.drop _) hreads, List.length_drop, if_neg (by omega)] at hname
  cases hname

/-- Without a slash after its first character a path splits alike only when it has one character
more than `strlen` measures, the first of them the slash. -/
theorem splittersAgree_first_iff (hs : NulFree s) (h : Reads m a s) (hne : s ≠ [])
    (hfirst : slash ∉ (s.take STR_MAX_SIZE).tail) : SplittersAgree m a s ↔
      s.length = STR_MAX_SIZE + 1 ∧ s.head? = some slash ∧ slash ∉ s.tail := by
  have hpos := List.length_pos_of_ne_nil hne
  have hbuffers := pathToParentAndNameAt_first hs h hne hfirst
  have hname := bufferString_bytesAt (n := min s.length STR_MAX_SIZE + 1) (hs.drop 1) (h.drop hpos)
  rw [List.length_drop] at hname
  constructor
  · intro ⟨buffers, path, name, hsome, hsplit, hpath, hbuffer, hread, _⟩
    rw [hbuffers] at hsome
    obtain rfl := Option.some.inj hsome
    simp only at hpath hbuffer hread
    rw [hname] at hbuffer
    have hlen : s.length = STR_MAX_SIZE + 1 := by
      split at hbuffer
      · omega
      · cases hbuffer
    rw [if_pos (by omega)] at hbuffer
    obtain rfl : s.drop 1 = name := Option.some.inj hbuffer
    obtain rfl : [slash] = path := Option.some.inj hpath
    by_cases hmem : slash ∈ s
    · obtain ⟨u, v, rfl, hv⟩ := exists_last hmem
      rw [splitIntoPathAndName_append hv] at hsplit
      obtain ⟨-, hdrop⟩ := Prod.mk.inj (Option.some.inj hsplit)
      -- the name is shorter unless the last slash is the first character
      have hu : u = [] := by
        have hcount := congrArg List.length hdrop
        simp only [List.length_drop, List.length_append, List.length_cons] at hcount
        exact List.eq_nil_of_length_eq_zero (by omega)
      subst hu
      exact ⟨hlen, rfl, hv⟩
    · rw [splitIntoPathAndName_of_not_mem hne hmem] at hsplit
      cases (Prod.mk.inj (Option.some.inj hsplit)).1
  · intro ⟨hlen, hhead, htail⟩
    obtain ⟨t, rfl⟩ : ∃ t, s = slash :: t := by
      cases s with
      | nil => cases hhead
      | cons c t => exact ⟨t, by rw [Option.some.inj hhead]⟩
    have hsplit := splitIntoPathAndName_append (u := []) htail
    rw [if_pos (by omega)] at hname
    refine ⟨_, [slash], t, hbuffers, hsplit, rfl, hname, ?_, ?_⟩
    · show 1 + (min _ STR_MAX_SIZE + 1) ≤ _
      omega
    · simp

end split

/-- The splitters agree on a path exactly when a slash follows its first character and `strlen`
measures all of it, or when it is the slash and as many characters as `strlen` measures. -/
theorem splittersAgree_iff {m : Bytes} {a : Nat} {s : List Byte} (hs : NulFree s) (h : Reads m a s)
    (hne : s ≠ []) : SplittersAgree m a s ↔ s.length ≤ STR_MAX_SIZE ∧ slash ∈ s.tail ∨
      s.length = STR_MAX_SIZE + 1 ∧ s.head? = some slash ∧ slash ∉ s.tail := by
  by_cases hslash : slash ∈ (s.take STR_MAX_SIZE).tail
  · have htail : slash ∈ s.tail := by
      rw [← List.drop_one] at hslash ⊢
      rw [List.drop_take] at hslash
      exact List.mem_of_mem_take hslash
    by_cases hlen : s.length ≤ STR_MAX_SIZE
    · simp [splittersAgree_of_mem_tail hs h hlen htail, hlen, htail]
    · simp [not_splittersAgree_of_long hs h (by omega) hslash, hlen, htail]
  · rw [splittersAgree_first_iff hs h hne hslash]
    constructor
    · exact .inr
    · intro hor
      refine hor.resolve_left fun ⟨hlen, htail⟩ => ?_
      rw [List.take_of_length_le hlen] at hslash
      exact hslash htail

/-- `/a/b`. -/
theorem splittersAgree_nested : SplittersAgree (chars [0x2F, 0x61, 0x2F, 0x62]) 0 [0x2F, 0x61, 0x2F, 0x62] :=
  (splittersAgree_iff (by decide) (by
    intro i _
    rw [Nat.zero_add]
    rfl) (by simp)).mpr (.inl (by decide))

/-- In the path `a`, without a slash, the first one drops the `a`. -/
theorem not_splittersAgree : ¬ ∀ (m : Bytes) (a : Nat) (s : List Byte), NulFree s → Reads m a s →
    s ≠ [] → SplittersAgree m a s := by
  intro hall
  have hreads : Reads (chars [0x61]) 0 [0x61] := by
    intro i _
    rw [Nat.zero_add]
    rfl
  obtain ⟨buffers, path, name, hbuffers, hsplit, hpath, -⟩ :=
    hall (chars [0x61]) 0 [0x61] (by decide) hreads (by simp)
  have hfirst := pathToParentAndNameAt_first (by decide) hreads (by simp) (by decide)
  rw [hfirst] at hbuffers
  obtain rfl := Option.some.inj hbuffers
  rw [splitIntoPathAndName_of_not_mem (by simp) (by decide)] at hsplit
  obtain rfl := (Prod.mk.inj (Option.some.inj hsplit)).1
  cases hpath

end UnedKernel.Ext2
