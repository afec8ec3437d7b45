import UnedKernel.Vfs.DirectoryNodes

/-! # Runs of directory descriptors

As long as no directory is closed, the nodes in use are those of the open lists, and
no list shares a node with another one. A directory that is closed keeps its empty
node, which nothing reaches any more. -/

namespace Vfs
open ByteMem CString Blocks

variable {name : List Byte} {inode type nameLen p q : Nat} {b : Bytes} {block : Block}

/-! ## The pointer of a node -/

theorem pointer_addr (block : Block) : pointer block.addr = some block.addr :=
  if_neg block.ne_null

theorem pointer_eq_some {v : Nat} (h : pointer v = some p) : v = p := by
  unfold pointer at h
  split at h
  · cases h
  · exact Option.some.inj h

theorem next_set (b : Bytes) (block : Block) :
    pointer (Dentry.next.get (Dentry.next.set b 0 block.addr) 0) = some block.addr := by
  rw [Field.get_set_same, show 256 ^ Dentry.next.width = 2 ^ 64 from rfl,
    Nat.mod_eq_of_lt block.addr_lt, pointer_addr]

theorem next_fill (b : Bytes) : pointer (Dentry.next.get (fill b 0 Dentry.size 0) 0) = none := by
  have hzero : Dentry.next.get (fill b 0 Dentry.size 0) 0 = Dentry.next.get (fun _ => 0) 0 := by
    refine load_congr fun i hi => fill_apply_in b (Nat.zero_le _) ?_
    simp only [Dentry.next, Dentry.size] at hi ⊢
    omega
  rw [hzero]
  rfl

theorem next_fillDentry (hname : name.length ≤ VFS_FDE_NAME_MAX_LEN) :
    pointer (Dentry.next.get (DirTable.fillDentry b name inode type nameLen) 0) = none := by
  have hcopy : Dentry.next.get (DirTable.fillDentry b name inode type nameLen) 0 =
      Dentry.next.get (Dentry.nameLen.set (Dentry.type.set (Dentry.inode.set
        (Dentry.next.set b 0 0) 0 inode) 0 type) 0 nameLen) 0 := by
    refine load_congr fun i _ => strncpy_out (.inr ?_)
    have hmin := Nat.min_le_left name.length (strlen STR_MAX_SIZE name)
    simp only [VFS_FDE_NAME_MAX_LEN] at hname
    simp only [Dentry.next, Dentry.name]
    omega
  rw [hcopy, Field.get_set_disjoint _ _ (by decide), Field.get_set_disjoint _ _ (by decide),
    Field.get_set_disjoint _ _ (by decide), Field.get_set_same]
  rfl

namespace Nodes

variable {m : Nodes}

theorem write_next_same : (m.write p b).next p = pointer (Dentry.next.get b 0) := by
  unfold next write
  simp only [Function.update_self]

theorem write_next_of_ne (h : q ≠ p) : (m.write p b).next q = m.next q := by
  unfold next write
  simp only [Function.update_of_ne h]

theorem kmalloc_next_of_ne (h : q ≠ block.addr) : (m.kmalloc block).next q = m.next q := by
  unfold next kmalloc
  simp only [Function.update_of_ne h]

end Nodes

namespace DirTable

variable {s t : DirTable} {ls : Nat → List Nat} {path mount : List Byte}
  {flags mode fd i n : Nat} {as : List Nat}

/-! ## The lists of the open directories -/

/-- The nodes of the directories, `ls i` those of the entry `i`, are the nodes in use. -/
structure Owns (s : DirTable) (ls : Nat → List Nat) : Prop where
  cursor : s.cursor ≤ VFS_COMPAT_MAX_OPEN_DIRECTORIES
  inside : ∀ i, ls i ≠ [] → i < VFS_COMPAT_MAX_OPEN_DIRECTORIES
  loaded : ∀ i, s.loaded i = if ls i = [] then 0 else 1
  list : ∀ i, NodeList s.nodes.next (pointer (s.dirs i).dentries) (ls i)
  number : ∀ i, (s.dirs i).number ≤ (ls i).length - 1
  apart : ∀ i j p, p ∈ ls i → p ∈ ls j → i = j
  live_iff : ∀ p, p ∈ live s.nodes.trace ↔ ∃ i, p ∈ ls i
  addr_lt : ∀ p, p ∈ live s.nodes.trace → p < 2 ^ 64
  once : FreedOnce s.nodes.trace
  touches : TouchesLive s.nodes.trace

theorem owns_initial : Owns initial fun _ => [] where
  cursor := Nat.zero_le _
  inside := fun _ h => absurd rfl h
  loaded := fun _ => rfl
  list := fun _ => rfl
  number := fun _ => Nat.zero_le _
  apart := fun _ _ _ h => absurd h List.not_mem_nil
  live_iff := fun _ => ⟨fun h => absurd h (Finset.notMem_empty _),
    fun ⟨_, h⟩ => absurd h List.not_mem_nil⟩
  addr_lt := fun _ h => absurd h (Finset.notMem_empty _)
  once := fun _ => rfl
  touches := trivial

namespace Owns

theorem loaded_iff (h : Owns s ls) : s.loaded i ≠ 0 ↔ ls i ≠ [] := by
  rw [h.loaded i]
  split
  · rename_i hnil
    exact iff_of_false (fun hne => hne rfl) fun hne => hne hnil
  · rename_i hne
    exact iff_of_true Nat.one_ne_zero hne

/-- An open directory has its empty node first. -/
theorem head (h : Owns s ls) (hi : ls i ≠ []) :
    ∃ as, ls i = (s.dirs i).dentries :: as ∧
      pointer (s.dirs i).dentries = some (s.dirs i).dentries := by
  cases hlist : ls i with
  | nil => exact absurd hlist hi
  | cons p as =>
    have hp := (h.list i).head_eq
    rw [hlist, List.head?_cons] at hp
    obtain rfl := pointer_eq_some hp
    exact ⟨as, rfl, hp⟩

/-- What is reached from the pointer of an entry is its list. -/
theorem reaches_iff (h : Owns s ls) :
    (s.dirs i).dentries ≠ 0 ∧
      Run.Reaches (fun a b => s.nodes.next a = some b) (s.dirs i).dentries p ↔ p ∈ ls i := by
  have hlist := h.list i
  unfold pointer at hlist
  split at hlist
  · rename_i hnull
    have hnil : ls i = [] := List.head?_eq_none_iff.mp hlist.head_eq.symm
    rw [hnil]
    exact iff_of_false (fun hreach => hreach.1 hnull) List.not_mem_nil
  · rename_i hne
    rw [and_iff_right hne]
    exact hlist.reaches_iff

theorem reachable_iff (h : Owns s ls) : s.Reachable p ↔ ∃ i, p ∈ ls i := by
  constructor
  · intro ⟨i, _, _, hreach⟩
    exact ⟨i, h.reaches_iff.mp hreach⟩
  · intro ⟨i, hp⟩
    have hne := List.ne_nil_of_mem hp
    exact ⟨i, h.inside i hne, h.loaded_iff.mpr hne, h.reaches_iff.mpr hp⟩

theorem accounted (h : Owns s ls) : s.Accounted where
  live_iff := fun p => (h.live_iff p).trans h.reachable_iff.symm
  once := h.once
  touches := h.touches

/-- An open directory that is closed while its first node stays in use leaves that node
behind. -/
theorem not_accounted (h : Owns s ls) (hbytes : t.nodes.bytes = s.nodes.bytes)
    (hdirs : ∀ j, (t.dirs j).dentries = (s.dirs j).dentries) (hi : ls i ≠ [])
    (hclosed : t.loaded i = 0) (hlive : (s.dirs i).dentries ∈ live t.nodes.trace) :
    ¬ t.Accounted := by
  intro haccounted
  obtain ⟨as, hlist, -⟩ := h.head hi
  obtain ⟨j, -, hloaded, hreach⟩ := (haccounted.live_iff _).mp hlive
  have hnext : t.nodes.next = s.nodes.next := by
    unfold Nodes.next
    rw [hbytes]
  rw [hdirs j, hnext] at hreach
  have hmem : (s.dirs i).dentries ∈ ls i := hlist ▸ List.mem_cons_self
  obtain rfl := h.apart i j _ hmem (h.reaches_iff.mp hreach)
  exact hloaded hclosed

/-- A list of nodes in use is not longer than a loop may be. -/
theorem length_le (h : Owns s ls) : (ls i).length ≤ turns :=
  (h.list i).length_le fun p hp => h.addr_lt p ((h.live_iff p).mpr ⟨i, hp⟩)

end Owns

/-! ## What a call changes -/

/-- A fresh node is put at the end of a list. -/
theorem Owns.grow (h : Owns s ls) (hfd : fd < VFS_COMPAT_MAX_OPEN_DIRECTORIES)
    (hfresh : block.addr ∉ live s.nodes.trace) (hcursor : t.cursor ≤ VFS_COMPAT_MAX_OPEN_DIRECTORIES)
    (hother : ∀ i, i ≠ fd → t.dirs i = s.dirs i) (hloaded : t.loaded fd = 1)
    (hnumber : (t.dirs fd).number ≤ (ls fd).length)
    (hlist : NodeList t.nodes.next (pointer (t.dirs fd).dentries) (ls fd ++ [block.addr]))
    (hnext : ∀ p, p ∉ ls fd → p ≠ block.addr → t.nodes.next p = s.nodes.next p)
    (hlive : live t.nodes.trace = insert block.addr (live s.nodes.trace))
    (honce : FreedOnce t.nodes.trace) (htouches : TouchesLive t.nodes.trace) :
    Owns t (Function.update ls fd (ls fd ++ [block.addr])) := by
  have hold (i p : Nat) (hp : p ∈ ls i) : p ≠ block.addr := by
    intro heq
    exact hfresh ((h.live_iff _).mpr ⟨i, heq ▸ hp⟩)
  have hmem (i p : Nat) : p ∈ Function.update ls fd (ls fd ++ [block.addr]) i ↔
      p ∈ ls i ∨ i = fd ∧ p = block.addr := by
    by_cases hi : i = fd
    · rw [hi, Function.update_self, List.mem_append, List.mem_singleton]
      exact or_congr_right (and_iff_right rfl).symm
    · rw [Function.update_of_ne hi]
      exact (or_iff_left fun heq => hi heq.1).symm
  refine ⟨hcursor, fun i hi => ?_, fun i => ?_, fun i => ?_, fun i => ?_, fun i j p hi hj => ?_,
    fun p => ?_, fun p hp => ?_, honce, htouches⟩
  · by_cases hif : i = fd
    · rw [hif]
      exact hfd
    · rw [Function.update_of_ne hif] at hi
      exact h.inside i hi
  · by_cases hif : i = fd
    · rw [hif, Function.update_self, hloaded]
      exact (if_neg (List.append_ne_nil_of_right_ne_nil _ (List.cons_ne_nil _ _))).symm
    · rw [Function.update_of_ne hif, DirTable.loaded, hother i hif]
      exact h.loaded i
  · by_cases hif : i = fd
    · rw [hif, Function.update_self]
      exact hlist
    · rw [Function.update_of_ne hif, hother i hif]
      refine (h.list i).congr fun p hp => hnext p (fun hp' => hif (h.apart i fd p hp hp')) ?_
      exact hold i p hp
  · by_cases hif : i = fd
    · rw [hif, Function.update_self, List.length_append]
      exact hnumber
    · rw [Function.update_of_ne hif, hother i hif]
      exact h.number i
  · rcases (hmem i p).mp hi with hi | ⟨hif, hp⟩
    · rcases (hmem j p).mp hj with hj | ⟨-, hp⟩
      · exact h.apart i j p hi hj
      · exact absurd hp (hold i p hi)
    · rcases (hmem j p).mp hj with hj | ⟨hjf, -⟩
      · exact absurd hp (hold j p hj)
      · rw [hif, hjf]
  · rw [hlive, Finset.mem_insert, h.live_iff]
    constructor
    · rintro (rfl | ⟨i, hp⟩)
      · exact ⟨fd, (hmem fd _).mpr (.inr ⟨rfl, rfl⟩)⟩
      · exact ⟨i, (hmem i p).mpr (.inl hp)⟩
    · intro ⟨i, hp⟩
      rcases (hmem i p).mp hp with hp | ⟨-, hp⟩
      · exact .inr ⟨i, hp⟩
      · exact .inl hp
  · rw [hlive] at hp
    rcases Finset.mem_insert.mp hp with rfl | hp
    · exact block.addr_lt
    · exact h.addr_lt p hp

/-- An entry is assigned, and what `f` takes from it stays. -/
theorem update_field {β : Type} {d : DirEntry} (f : DirEntry → β) (hf : f d = f (s.dirs i)) (j : Nat) :
    f (Function.update s.dirs i d j) = f (s.dirs j) := by
  by_cases hj : j = i
  · rw [hj, Function.update_self]
    exact hf
  · rw [Function.update_of_ne hj]

/-- Nodes in use are read, and no entry is opened or closed. -/
theorem Owns.reads (h : Owns s ls) (as : List Nat) (has : ∀ a ∈ as, a ∈ live s.nodes.trace)
    (hcursor : t.cursor ≤ VFS_COMPAT_MAX_OPEN_DIRECTORIES)
    (hloaded : ∀ i, t.loaded i = s.loaded i)
    (hdentries : ∀ i, (t.dirs i).dentries = (s.dirs i).dentries)
    (hnumber : ∀ i, (t.dirs i).number = (s.dirs i).number)
    (hnodes : t.nodes = s.nodes.readAll as) : Owns t ls where
  cursor := hcursor
  inside := h.inside
  loaded := fun i => (hloaded i).trans (h.loaded i)
  list := fun i => by
    rw [hdentries i, hnodes]
    exact h.list i
  number := fun i => (hnumber i).symm ▸ h.number i
  apart := h.apart
  live_iff := fun p => by
    rw [hnodes, Nodes.readAll, live_touches]
    exact h.live_iff p
  addr_lt := fun p hp => by
    rw [hnodes, Nodes.readAll, live_touches] at hp
    exact h.addr_lt p hp
  once := hnodes ▸ h.once.touches as
  touches := hnodes ▸ h.touches.touches has

/-- The scan of `get_dirfd` from a cursor inside the table opens a free entry, or
finds none. -/
theorem getDirfdFrom_cases (hcursor : s.cursor < VFS_COMPAT_MAX_OPEN_DIRECTORIES) :
    (∃ fd, fd < VFS_COMPAT_MAX_OPEN_DIRECTORIES ∧ s.loaded fd = 0 ∧
      getDirfdFrom path mount flags mode block n s =
        some ((fd : Int), s.openAt fd path mount flags mode block)) ∨
    (∃ c, c < VFS_COMPAT_MAX_OPEN_DIRECTORIES ∧
      getDirfdFrom path mount flags mode block n s = some (-1, { s with cursor := c })) := by
  induction n generalizing s with
  | zero => exact .inr ⟨s.cursor, hcursor, rfl⟩
  | succ n ih =>
    unfold getDirfdFrom
    simp only [if_neg (Nat.not_le.mpr hcursor)]
    by_cases hfree : s.loaded s.cursor = 0
    · exact .inl ⟨s.cursor, hcursor, hfree, by rw [if_pos hfree]⟩
    · rw [if_neg hfree]
      have hnext : (if VFS_COMPAT_MAX_OPEN_DIRECTORIES ≤ s.cursor + 1 then 0 else s.cursor + 1) <
          VFS_COMPAT_MAX_OPEN_DIRECTORIES := by
        split
        · exact Nat.succ_pos _
        · rename_i hlt
          exact Nat.not_le.mp hlt
      exact ih (s := { s with cursor := _ }) hnext

theorem Owns.openAt (h : Owns s ls) (hfd : fd < VFS_COMPAT_MAX_OPEN_DIRECTORIES)
    (hfree : s.loaded fd = 0) (hfresh : block.addr ∉ live s.nodes.trace)
    (hpath : path.length ≤ VFS_FDE_NAME_MAX_LEN) (hmount : mount.length ≤ VFS_FDE_NAME_MAX_LEN) :
    ∃ ls', Owns (s.openAt fd path mount flags mode block) ls' := by
  have hnil : ls fd = [] := by
    by_contra hne
    exact h.loaded_iff.mpr hne hfree
  have hdir : (s.openAt fd path mount flags mode block).dirs fd =
      ⟨Descriptors.openEntry (s.dirs fd).fd path mount flags mode, block.addr, 0, 0⟩ :=
    Function.update_self ..
  refine ⟨_, h.grow hfd hfresh hfd (fun i hi => Function.update_of_ne hi _ _) ?_ ?_ ?_ ?_ rfl ?_ ?_⟩
  · rw [DirTable.loaded, hdir]
    exact Descriptors.openEntry_loaded hpath hmount
  · rw [hdir]
    exact Nat.zero_le _
  · rw [hdir, hnil]
    exact ⟨pointer_addr block, Nodes.write_next_same.trans (next_fill _)⟩
  · intro p _ hp
    exact (Nodes.write_next_of_ne hp).trans (Nodes.kmalloc_next_of_ne hp)
  · exact (h.once.alloc hfresh).touches [block.addr]
  · exact ⟨Finset.mem_insert_self _ _, h.touches⟩

/-- A node that `add_file_to_dirfd` adds: the last one points to it, and it ends the list. -/
theorem addAt_next_of_ne {m : Nodes} (hq : q ≠ p) (hq' : q ≠ block.addr) :
    (s.addAt fd p m name inode type nameLen block).nodes.next q = m.next q :=
  ((Nodes.write_next_of_ne hq').trans (Nodes.write_next_of_ne hq)).trans (Nodes.kmalloc_next_of_ne hq')

theorem addAt_next_last {m : Nodes} (hp : p ≠ block.addr) :
    (s.addAt fd p m name inode type nameLen block).nodes.next p = some block.addr :=
  ((Nodes.write_next_of_ne hp).trans Nodes.write_next_same).trans (next_set _ _)

theorem addAt_next_new {m : Nodes} (hname : name.length ≤ VFS_FDE_NAME_MAX_LEN) :
    (s.addAt fd p m name inode type nameLen block).nodes.next block.addr = none :=
  Nodes.write_next_same.trans (next_fillDentry hname)

theorem Owns.addAt (h : Owns s ls) {front : List Nat} (hls : ls fd = front ++ [p])
    (hname : name.length ≤ VFS_FDE_NAME_MAX_LEN) (hfresh : block.addr ∉ live s.nodes.trace) :
    ∃ ls', Owns (s.addAt fd p (s.nodes.readAll (front ++ [p]).reverse) name inode type nameLen
      block) ls' := by
  have hne : ls fd ≠ [] := hls ▸ List.append_ne_nil_of_right_ne_nil _ (List.cons_ne_nil _ _)
  have hlive (q : Nat) (hq : q ∈ ls fd) : q ∈ live s.nodes.trace := (h.live_iff q).mpr ⟨fd, hq⟩
  have hp : p ∈ ls fd := hls ▸ List.mem_append_right front List.mem_cons_self
  have hold (q : Nat) (hq : q ∈ ls fd) : q ≠ block.addr := fun heq => hfresh (heq ▸ hlive q hq)
  have hlist := h.list fd
  rw [hls] at hlist
  have hreads (q : Nat) (hq : q ∈ (front ++ [p]).reverse) : q ∈ live s.nodes.trace :=
    hlive q (hls ▸ List.mem_reverse.mp hq)
  generalize ht : s.addAt fd p (s.nodes.readAll (front ++ [p]).reverse) name inode type nameLen
    block = t
  have hdir : t.dirs fd =
      { s.dirs fd with number := ((s.dirs fd).number + 1) % 2 ^ 32 } := by
    rw [← ht]
    exact Function.update_self ..
  have hnext (q : Nat) (hq : q ≠ p) (hq' : q ≠ block.addr) : t.nodes.next q = s.nodes.next q := by
    rw [← ht]
    exact addAt_next_of_ne hq hq'
  have hlast : t.nodes.next p = some block.addr := by
    rw [← ht]
    exact addAt_next_last (hold p hp)
  have hend : t.nodes.next block.addr = none := by
    rw [← ht]
    exact addAt_next_new hname
  have htrace : t.nodes.trace = .touch block.addr :: .touch p :: .alloc block.addr ::
      ((front ++ [p]).reverse.map .touch ++ s.nodes.trace) := by
    rw [← ht]
    rfl
  refine ⟨_, h.grow (h.inside fd hne) hfresh ?_ (fun i hi => ?_) ?_ ?_ ?_ ?_ ?_ ?_ ?_⟩
  · rw [← ht]
    exact h.cursor
  · rw [← ht]
    exact Function.update_of_ne hi _ _
  · rw [DirTable.loaded, hdir]
    exact (h.loaded fd).trans (if_neg hne)
  · rw [hdir]
    refine Nat.le_trans (Nat.mod_le _ _) (Nat.le_trans (Nat.succ_le_succ (h.number fd)) ?_)
    exact Nat.le_of_eq (Nat.sub_add_cancel (List.length_pos_of_ne_nil hne))
  · rw [hdir, hls]
    refine hlist.snoc (fun q hq => hnext q (hlist.front_ne hq) (hold q ?_)) hlast hend
    rw [hls]
    exact List.mem_append_left _ hq
  · intro q hq hq'
    exact hnext q (fun heq => hq (heq ▸ hp)) hq'
  · rw [htrace]
    exact congrArg (insert block.addr) live_touches
  · rw [htrace]
    have halloc := (h.once.touches (front ++ [p]).reverse).alloc (a := block.addr)
      (by rwa [live_touches])
    exact halloc.touches [block.addr, p]
  · rw [htrace]
    refine ⟨Finset.mem_insert_self _ _, Finset.mem_insert_of_mem ?_, h.touches.touches hreads⟩
    rw [live_touches]
    exact hlive p hp

/-! ## Closing -/

/-- What a loop of `force_release` leaves in the table. -/
theorem closeMatching_snd (path : List Byte) (n : Nat) (table : Nat → Bytes) (i : Nat) :
    (closeMatching path n table).2 i =
      if i < n ∧ Descriptors.OpenAs (table i) path then FdEntry.loaded.set (table i) 0 0
      else table i := by
  induction n generalizing i with
  | zero => exact (if_neg fun hlt => absurd hlt.1 (Nat.not_lt_zero i)).symm
  | succ n ih =>
    have hlast : (closeMatching path n table).2 n = table n :=
      (ih n).trans (if_neg fun hlt => absurd hlt.1 (Nat.lt_irrefl n))
    simp only [closeMatching, hlast]
    by_cases hin : i = n
    · subst hin
      by_cases hopen : Descriptors.OpenAs (table i) path
      · rw [if_pos hopen, if_pos ⟨Nat.lt_succ_self i, hopen⟩]
        exact Function.update_self ..
      · rw [if_neg hopen, if_neg fun hlt => hopen hlt.2]
        exact hlast
    · have hlt : i < n + 1 ↔ i < n :=
        ⟨fun hi => Nat.lt_of_le_of_ne (Nat.le_of_lt_succ hi) hin, Nat.lt_succ_of_lt⟩
      simp only [hlt]
      rw [← ih i]
      split
      · exact Function.update_of_ne hin _ _
      · rfl

theorem loaded_close (e : Bytes) :
    FdEntry.loaded.get (FdEntry.loaded.set e 0 0) 0 = 0 := by
  rw [Field.get_set_same]
  rfl

/-- Closing an open directory frees its entries, each of them once, and leaves its
empty node in use; where there are entries, one is read after it is freed. -/
theorem Owns.releaseDirfd (h : Owns s ls) (hi : ls i = p :: as) :
    ∃ t, s.releaseDirfd i = some (0, t) ∧ t.loaded i = 0 ∧
      (∀ j, (t.dirs j).dentries = (s.dirs j).dentries) ∧ t.nodes.bytes = s.nodes.bytes ∧
      live t.nodes.trace = live s.nodes.trace \ as.toFinset ∧ FreedOnce t.nodes.trace ∧
      (TouchesLive t.nodes.trace → as = []) := by
  have hne : ls i ≠ [] := hi ▸ List.cons_ne_nil p as
  obtain ⟨as', hls, hpointer⟩ := h.head hne
  obtain ⟨hp, rfl⟩ := List.cons.inj (hi.symm.trans hls)
  have hlist := h.list i
  have hlength : as.length < turns := by
    have hle := h.length_le (i := i)
    rwa [hi] at hle
  rw [hpointer, hls] at hlist
  have hlive (a : Nat) (ha : a ∈ as) : a ∈ live s.nodes.trace :=
    (h.live_iff a).mpr ⟨i, hi ▸ List.mem_cons_of_mem p ha⟩
  obtain ⟨m, hfree, hbytes, hlive', honce, es, htrace, htouches⟩ :=
    Nodes.freeDentries_spec hlist hlength hlive h.once
  have hin : ¬ (VFS_COMPAT_MAX_OPEN_DIRECTORIES : Int) ≤ i :=
    Int.not_le.mpr (Int.ofNat_lt.mpr (h.inside i hne))
  unfold DirTable.releaseDirfd
  rw [if_neg hin, if_neg (Int.not_lt.mpr (Int.natCast_nonneg i))]
  simp only [Int.toNat_natCast, hpointer, hfree]
  refine ⟨_, rfl, ?_, update_field DirEntry.dentries rfl, hbytes, hlive', honce, htouches⟩
  unfold DirTable.loaded
  simp only [Function.update_self]
  exact loaded_close _

/-! ## Calls and runs -/

theorem long_iff {path : Str} : VFS_FDE_NAME_MAX_LEN < strlen STR_MAX_SIZE path.chars ↔
    VFS_FDE_NAME_MAX_LEN < path.chars.length :=
  Descriptors.strlen_gt_iff

/-- `read_dirfd` of an open directory reads nodes of its list. -/
theorem Owns.readDirfd (h : Owns s ls) (hopen : s.loaded i ≠ 0) (buffer : Bytes) :
    ∃ r t, s.readDirfd i buffer = some (r, t) ∧ Owns t.2 ls := by
  have hne := h.loaded_iff.mp hopen
  obtain ⟨as, hls, hpointer⟩ := h.head hne
  have hlive (q : Nat) (hq : q ∈ ls i) : q ∈ live s.nodes.trace := (h.live_iff q).mpr ⟨i, hq⟩
  have hlist := h.list i
  have hnumber := h.number i
  rw [hls] at hlist hnumber hlive
  rw [hpointer] at hlist
  have hin : ¬ (VFS_COMPAT_MAX_OPEN_DIRECTORIES : Int) ≤ i :=
    Int.not_le.mpr (Int.ofNat_lt.mpr (h.inside i hne))
  unfold DirTable.readDirfd
  rw [if_neg hin, if_neg (Int.not_lt.mpr (Int.natCast_nonneg i))]
  simp only [Int.toNat_natCast, if_neg hopen]
  by_cases hindex : (s.dirs i).number ≤ (s.dirs i).index
  · rw [if_pos hindex]
    exact ⟨0, (none, s), rfl, h⟩
  · rw [if_neg hindex]
    have hlt : (s.dirs i).index < as.length :=
      Nat.lt_of_lt_of_le (Nat.not_le.mp hindex) hnumber
    obtain ⟨-, hrest⟩ := hlist
    have hnext := hrest.head_eq
    cases hfirst : s.nodes.next (s.dirs i).dentries with
    | none =>
      rw [hfirst, eq_comm, List.head?_eq_none_iff] at hnext
      rw [hnext] at hlt
      exact absurd hlt (Nat.not_lt_zero _)
    | some first =>
      rw [hfirst] at hrest
      have hq := List.getElem_mem hlt
      have hskip := Nodes.skipDentries_eq (m := s.nodes.read (s.dirs i).dentries) hrest
        (List.getElem?_eq_getElem hlt)
      simp only [hpointer, hfirst, hskip]
      refine ⟨1, (_, _), rfl, h.reads (as[(s.dirs i).index] :: (as.take (s.dirs i).index).reverse ++
        [(s.dirs i).dentries]) (fun a ha => hlive a ?_) h.cursor (fun j => ?_) (fun j => ?_)
        (fun j => ?_) ?_⟩
      · rcases List.mem_append.mp ha with ha | ha
        · rcases List.mem_cons.mp ha with rfl | ha
          · exact List.mem_cons_of_mem _ hq
          · exact List.mem_cons_of_mem _ (List.mem_of_mem_take (List.mem_reverse.mp ha))
        · rw [List.mem_singleton.mp ha]
          exact List.mem_cons_self
      · refine update_field (fun d => FdEntry.loaded.get d.fd 0) ?_ j
        rfl
      · refine update_field DirEntry.dentries ?_ j
        rfl
      · refine update_field DirEntry.number ?_ j
        rfl
      · rw [Nodes.read_readAll]
        rfl

/-- The file table may change. -/
theorem Owns.sameEntries (h : Owns s ls) {files fds : Nat → Bytes}
    (hsame : ∀ i, fds i = (s.dirs i).fd) :
    Owns { s with files := files, dirs := fun i => { s.dirs i with fd := fds i } } ls := by
  refine h.reads [] (fun _ ha => absurd ha List.not_mem_nil) h.cursor (fun i => ?_)
    (fun _ => rfl) (fun _ => rfl) rfl
  unfold DirTable.loaded
  simp only [hsame]

/-- `force_release` of a path under which a directory is open leaves its nodes. -/
theorem Owns.not_closeBoth (h : Owns s ls) (files : Nat) (hi : i < n)
    (hopen : Descriptors.OpenAs (s.dirs i).fd path) :
    ¬ (DirTable.closeBoth path files n s).2.Accounted := by
  have hne : ls i ≠ [] := by
    refine h.loaded_iff.mp ?_
    rw [DirTable.loaded, hopen.1]
    exact Nat.one_ne_zero
  obtain ⟨as, hls, -⟩ := h.head hne
  have hclosed : FdEntry.loaded.get ((closeMatching path n fun i => (s.dirs i).fd).2 i) 0 = 0 := by
    rw [closeMatching_snd, if_pos ⟨hi, hopen⟩]
    exact loaded_close _
  exact h.not_accounted rfl (fun _ => rfl) hne hclosed
    ((h.live_iff _).mpr ⟨i, hls ▸ List.mem_cons_self⟩)

/-- `force_release` of a path under which no directory is open. -/
theorem Owns.closeBoth (h : Owns s ls) (files : Nat)
    (hnone : ∀ i, i < n → ¬ Descriptors.OpenAs (s.dirs i).fd path) :
    Owns (DirTable.closeBoth path files n s).2 ls := by
  refine h.sameEntries fun i => (closeMatching_snd path n _ i).trans (if_neg ?_)
  intro hmatch
  exact hnone i hmatch.1 hmatch.2

/-- A call that meets the condition ends, and the lists stay owned. -/
theorem Owns.step (h : Owns s ls) (op : DirOp) (hfresh : Fresh s op) (hkeeps : KeepsNodes s op) :
    ∃ t, op.apply s = some t ∧ ∃ ls', Owns t ls' := by
  cases op with
  | getDirfd path mount flags mode block =>
    simp only [DirOp.apply, DirTable.getDirfd, long_iff]
    by_cases hpath : VFS_FDE_NAME_MAX_LEN < path.chars.length
    · rw [if_pos hpath]
      exact ⟨s, rfl, ls, h⟩
    · rw [if_neg hpath]
      by_cases hmount : VFS_FDE_NAME_MAX_LEN < mount.chars.length
      · rw [if_pos hmount]
        exact ⟨s, rfl, ls, h⟩
      · rw [if_neg hmount]
        have hcursor : s.cursor < VFS_COMPAT_MAX_OPEN_DIRECTORIES :=
          Nat.lt_of_le_of_ne h.cursor ((hkeeps.resolve_left hpath).resolve_left hmount)
        rcases getDirfdFrom_cases hcursor with ⟨fd, hfd, hfree, heq⟩ | ⟨c, hc, heq⟩
        · rw [heq]
          exact ⟨_, rfl, h.openAt hfd hfree hfresh (Nat.not_lt.mp hpath) (Nat.not_lt.mp hmount)⟩
        · rw [heq]
          exact ⟨_, rfl, ls, h.reads [] (fun _ ha => absurd ha List.not_mem_nil)
            (Nat.le_of_lt hc) (fun _ => rfl) (fun _ => rfl) (fun _ => rfl) rfl⟩
  | addFileToDirfd fd name inode type nameLen block =>
    simp only [DirOp.apply, DirTable.addFileToDirfd, long_iff]
    by_cases hout : (VFS_COMPAT_MAX_OPEN_DIRECTORIES : Int) ≤ fd
    · rw [if_pos hout]
      exact ⟨s, rfl, ls, h⟩
    · rw [if_neg hout]
      by_cases hname : VFS_FDE_NAME_MAX_LEN < name.chars.length
      · rw [if_pos hname]
        exact ⟨s, rfl, ls, h⟩
      · rw [if_neg hname, if_neg (Int.not_lt.mpr (hkeeps.resolve_left hname))]
        by_cases hclosed : s.loaded fd.toNat = 0
        · rw [if_pos hclosed]
          exact ⟨s, rfl, ls, h⟩
        · rw [if_neg hclosed]
          have hne := h.loaded_iff.mp hclosed
          obtain ⟨-, -, hpointer⟩ := h.head hne
          obtain ⟨front, p, hls⟩ := List.eq_nil_or_concat' (ls fd.toNat) |>.resolve_left hne
          have hlist := h.list fd.toNat
          have hlength := h.length_le (i := fd.toNat)
          rw [hls] at hlist hlength
          rw [hpointer] at hlist
          rw [List.length_append] at hlength
          simp only [hpointer, Nodes.lastDentry_eq hlist hlength]
          exact ⟨_, rfl, h.addAt hls (Nat.not_lt.mp hname) hfresh⟩
  | readDirfd fd name =>
    simp only [DirOp.apply]
    obtain ⟨i, rfl⟩ := Int.eq_ofNat_of_zero_le (show 0 ≤ fd from hkeeps)
    by_cases hopen : (i : Int) < VFS_COMPAT_MAX_OPEN_DIRECTORIES ∧ s.loaded i ≠ 0
    · obtain ⟨r, t, hread, ht⟩ := h.readDirfd hopen.2 name
      rw [hread]
      exact ⟨t.2, rfl, ls, ht⟩
    · have hrefused : s.readDirfd i name = some (-1, none, s) := by
        unfold DirTable.readDirfd
        split
        · rfl
        · rename_i hin
          rw [if_neg (Int.not_lt.mpr (Int.natCast_nonneg i)), Int.toNat_natCast,
            if_pos (not_not.mp fun hloaded => hopen ⟨Int.not_le.mp hin, hloaded⟩)]
      rw [hrefused]
      exact ⟨s, rfl, ls, h⟩
  | releaseDirfd fd =>
    have hrefused : s.releaseDirfd fd = some (-1, s) := by
      unfold DirTable.releaseDirfd
      exact if_pos hkeeps
    simp only [DirOp.apply, hrefused]
    exact ⟨s, rfl, ls, h⟩
  | forceRelease path => exact ⟨_, rfl, ls, h.closeBoth VFS_COMPAT_MAX_OPEN_FILES hkeeps⟩

/-- A call that does not meet the condition leaves the table, or a node that nothing
reaches. -/
theorem Owns.not_served (h : Owns s ls) {op : DirOp} (hkeeps : ¬ KeepsNodes s op) :
    ¬ NodesServed s op := by
  cases op with
  | getDirfd path mount flags mode block =>
    unfold KeepsNodes at hkeeps
    push Not at hkeeps
    obtain ⟨hpath, hmount, hcursor⟩ := hkeeps
    have hpast : s.getDirfd path.chars mount.chars flags mode block = none := by
      unfold DirTable.getDirfd
      rw [if_neg (mt long_iff.mp (Nat.not_lt.mpr hpath)),
        if_neg (mt long_iff.mp (Nat.not_lt.mpr hmount)),
        show VFS_COMPAT_MAX_OPEN_DIRECTORIES = 4095 + 1 from rfl, getDirfdFrom]
      exact if_pos (Nat.le_of_eq hcursor.symm)
    intro ⟨t, ht, _⟩
    rw [DirOp.apply, hpast] at ht
    cases ht
  | addFileToDirfd fd name inode type nameLen block =>
    unfold KeepsNodes at hkeeps
    push Not at hkeeps
    obtain ⟨hname, hneg⟩ := hkeeps
    have hout : s.addFileToDirfd fd name.chars inode type nameLen block = none := by
      unfold DirTable.addFileToDirfd
      rw [if_neg (by simp only [VFS_COMPAT_MAX_OPEN_DIRECTORIES]; omega),
        if_neg (mt long_iff.mp (Nat.not_lt.mpr hname)), if_pos hneg]
    intro ⟨t, ht, _⟩
    rw [DirOp.apply, hout] at ht
    cases ht
  | readDirfd fd name =>
    have hneg : fd < 0 := Int.not_le.mp hkeeps
    have hout : s.readDirfd fd name = none := by
      unfold DirTable.readDirfd
      rw [if_neg (by simp only [VFS_COMPAT_MAX_OPEN_DIRECTORIES]; omega), if_pos hneg]
    intro ⟨t, ht, _⟩
    rw [DirOp.apply, hout] at ht
    cases ht
  | releaseDirfd fd =>
    unfold KeepsNodes at hkeeps
    intro ⟨t, ht, haccounted⟩
    rw [DirOp.apply] at ht
    by_cases hneg : fd < 0
    · unfold DirTable.releaseDirfd at ht
      rw [if_neg hkeeps, if_pos hneg] at ht
      cases ht
    · obtain ⟨i, rfl⟩ := Int.eq_ofNat_of_zero_le (Int.not_lt.mp hneg)
      cases hls : ls i with
      | nil =>
        have hnull := (h.list i).head_eq
        rw [hls, List.head?_nil] at hnull
        unfold DirTable.releaseDirfd at ht
        rw [if_neg hkeeps, if_neg hneg] at ht
        simp only [Int.toNat_natCast, hnull] at ht
        cases ht
      | cons p as =>
        obtain ⟨t', hrelease, hclosed, hdentries, hbytes, hlive, -⟩ := h.releaseDirfd hls
        rw [hrelease] at ht
        obtain rfl : t' = t := Option.some.inj ht
        have hne : ls i ≠ [] := hls ▸ List.cons_ne_nil p as
        obtain ⟨as', hhead, -⟩ := h.head hne
        obtain ⟨rfl, -⟩ := List.cons.inj (hls.symm.trans hhead)
        refine h.not_accounted hbytes hdentries hne hclosed ?_ haccounted
        have hnodup := (h.list i).nodup
        rw [hls] at hnodup
        rw [hlive]
        refine Finset.mem_sdiff.mpr ⟨(h.live_iff _).mpr ⟨i, hls ▸ List.mem_cons_self⟩, ?_⟩
        exact fun hmem => (List.nodup_cons.mp hnodup).1 (List.mem_toFinset.mp hmem)
  | forceRelease path =>
    unfold KeepsNodes at hkeeps
    push Not at hkeeps
    obtain ⟨i, hi, hopen⟩ := hkeeps
    intro ⟨t, ht, haccounted⟩
    rw [← Option.some.inj ht] at haccounted
    exact h.not_closeBoth VFS_COMPAT_MAX_OPEN_FILES hi hopen haccounted

theorem Owns.served_iff (h : Owns s ls) (op : DirOp) (hfresh : Fresh s op) :
    NodesServed s op ↔ KeepsNodes s op := by
  constructor
  · intro hserved
    by_contra hkeeps
    exact h.not_served hkeeps hserved
  · intro hkeeps
    obtain ⟨t, ht, ls', howns⟩ := h.step op hfresh hkeeps
    exact ⟨t, ht, howns.accounted⟩

/-- Where `kmalloc` gives no block that is in use, the nodes are accounted for after every
call of a run exactly when every call meets the condition. -/
theorem directory_nodes_iff (ops : List DirOp)
    (hfresh : Run.Throughout (fun s op t => op.apply s = some t) Fresh initial ops) :
    Run.Throughout (fun s op t => op.apply s = some t) NodesServed initial ops ↔
      Run.Throughout (fun s op t => op.apply s = some t) KeepsNodes initial ops := by
  refine Run.throughout_iff_of (fun s => ∃ ls, Owns s ls) ?_ ?_ ⟨_, owns_initial⟩ hfresh
  · intro s op ⟨ls, h⟩ hop
    exact h.served_iff op hop
  · intro s op t ⟨ls, h⟩ hop hserved hstep
    obtain ⟨t', ht', howns⟩ := h.step op hop ((h.served_iff op hop).mp hserved)
    rwa [← Option.some.inj (ht'.symm.trans hstep)]

/-- The first two blocks that an allocator may give. -/
def firstBlock : Block := ⟨4096, fun _ => 0, by decide, by decide⟩

def secondBlock : Block := ⟨8192, fun _ => 0, by decide, by decide⟩

/-- A directory is opened, given an entry and read. -/
def firstRead : List DirOp :=
  [.getDirfd diskName diskName 0 0 firstBlock, .addFileToDirfd 0 diskName 2 1 3 secondBlock,
    .readDirfd 0 fun _ => 0]

theorem directory_nodes_firstRead :
    Run.Throughout (fun s op t => op.apply s = some t) NodesServed initial firstRead :=
  (directory_nodes_iff firstRead (by decide +kernel)).mpr (by decide +kernel)

/-- A directory is opened and closed: its empty node is in use, and nothing reaches it. -/
theorem not_directory_nodes :
    ¬ ∀ ops, Run.Throughout (fun s op t => op.apply s = some t) Fresh initial ops →
      Run.Throughout (fun s op t => op.apply s = some t) NodesServed initial ops := by
  intro h
  let opened : DirOp := .getDirfd diskName diskName 0 0 firstBlock
  have hall := h [opened, .releaseDirfd 0] (by decide +kernel)
  obtain ⟨t, ht, ls, howns⟩ := owns_initial.step opened (by decide) (by decide)
  have hserved := (hall.2 t ht).1
  have hkeeps := (howns.served_iff (.releaseDirfd 0) trivial).mp hserved
  exact absurd hkeeps (show ¬ (4096 : Int) ≤ 0 by decide)

end DirTable
end Vfs
