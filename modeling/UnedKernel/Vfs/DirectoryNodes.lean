import UnedKernel.Lib.Blocks
import UnedKernel.Lib.NodeList
import UnedKernel.Memory.HeapSizes
import UnedKernel.Vfs.DescriptorRuns

/-! # The nodes of open directories

A directory descriptor owns a list of `struct dentry`: an empty node, which
`get_dirfd` allocates, and behind it the entries, in the order in which
`add_file_to_dirfd` added them. `release_dirfd` gives the entries back and not the
empty node, and it reads the pointer of an entry after that entry is freed. -/

namespace Vfs
open ByteMem CString Blocks

/-! ## `struct dentry` -/

def Dentry.name : Nat := 0
def Dentry.nameLen : Field := ⟨256, 4⟩
def Dentry.inode : Field := ⟨260, 4⟩
def Dentry.type : Field := ⟨264, 4⟩
def Dentry.next : Field := ⟨272, 8⟩

/-- `sizeof(struct dentry)`. -/
def Dentry.size : Nat := 280

/-- A pointer, with `none` for the null pointer. -/
def pointer (v : Nat) : Option Nat := if v = 0 then none else some v

/-- The memory of the nodes, and what was done with them. -/
structure Nodes where
  bytes : Nat → Bytes
  trace : List (Event Nat)

/-- What `kmalloc` gives: a pointer, and a block with what an earlier owner left in it. -/
structure Block where
  addr : Nat
  bytes : Bytes
  ne_null : addr ≠ 0
  addr_lt : addr < 2 ^ 64

theorem Dentry.noOverflow : UnedKernel.Memory.NoOverflow Dentry.size :=
  show 280 + 4144 ≤ 18446744073709551616 by decide

open UnedKernel.Memory in
/-- A node from the kernel heap. -/
def Block.ofMalloc {h h' : HeapState} {held : List (Nat × Nat)} {fuel p : Nat}
    (hheap : HeapHolds (h, held)) (hmalloc : malloc fuel h Dentry.size = some (.ok (p, h'))) :
    Block where
  addr := p
  bytes := fun i => h'.mem (p + i)
  ne_null := (malloc_fresh hheap Dentry.noOverflow (Nat.succ_pos _) hmalloc).1
  addr_lt := (malloc_fresh hheap Dentry.noOverflow (Nat.succ_pos _) hmalloc).2.1

open UnedKernel.Memory in
/-- The kernel heap gives no node that is in use. -/
theorem Block.ofMalloc_fresh {h h' : HeapState} {held : List (Nat × Nat)} {fuel p : Nat}
    (hheap : HeapHolds (h, held)) (hmalloc : malloc fuel h Dentry.size = some (.ok (p, h')))
    {trace : List (Event Nat)} (hheld : ∀ q ∈ live trace, q ∈ held.map Prod.fst) :
    (Block.ofMalloc hheap hmalloc).addr ∉ live trace := by
  intro hmem
  exact (malloc_fresh hheap Dentry.noOverflow (Nat.succ_pos _) hmalloc).2.2 (hheld p hmem)

namespace Nodes

def kmalloc (m : Nodes) (b : Block) : Nodes :=
  ⟨Function.update m.bytes b.addr b.bytes, .alloc b.addr :: m.trace⟩

/-- A freed block keeps its bytes. -/
def kfree (m : Nodes) (p : Nat) : Nodes := ⟨m.bytes, .free p :: m.trace⟩

def read (m : Nodes) (p : Nat) : Nodes := ⟨m.bytes, .touch p :: m.trace⟩

def write (m : Nodes) (p : Nat) (b : Bytes) : Nodes :=
  ⟨Function.update m.bytes p b, .touch p :: m.trace⟩

/-- The pointer `next` of the node at `p`. -/
def next (m : Nodes) (p : Nat) : Option Nat := pointer (Dentry.next.get (m.bytes p) 0)

/-- The loop of `add_file_to_dirfd`: the last node from `dentry` on. -/
def lastDentry : Nat → Nodes → Nat → Option (Nat × Nodes)
  | 0, _, _ => none
  | n + 1, m, dentry =>
    match m.next dentry with
    | none => some (dentry, m.read dentry)
    | some next => lastDentry n (m.read dentry) next

/-- The loop of `read_dirfd`: the node `i` places behind `dentry`. `none` is a null
pointer followed. -/
def skipDentries : Nat → Nodes → Nat → Option (Nat × Nodes)
  | 0, m, dentry => some (dentry, m)
  | i + 1, m, dentry =>
    match m.next dentry with
    | none => none
    | some next => skipDentries i (m.read dentry) next

/-- The loop of `release_dirfd`: a node is freed before its pointer is read. -/
def freeDentries : Nat → Nodes → Nat → Option Nodes
  | 0, _, _ => none
  | n + 1, m, dentry =>
    match m.next dentry with
    | none => some (m.read dentry)
    | some next => freeDentries n ((m.read dentry).kfree next) next

/-! ### The loops over a list -/

/-- The nodes were read, the last one of the list first. -/
def readAll (m : Nodes) (us : List Nat) : Nodes := ⟨m.bytes, us.map .touch ++ m.trace⟩

variable {m m' : Nodes} {front as : List Nat} {a p q n i : Nat}

theorem read_readAll : (m.read a).readAll as = m.readAll (as ++ [a]) := by
  rw [readAll, readAll, List.map_append, List.append_assoc]
  rfl

theorem lastDentry_eq (h : NodeList m.next (some p) (front ++ [a])) (hn : front.length < n) :
    m.lastDentry n p = some (a, m.readAll (front ++ [a]).reverse) := by
  induction n generalizing m p front with
  | zero => exact absurd hn (Nat.not_lt_zero _)
  | succ n ih =>
    rw [lastDentry]
    cases front with
    | nil =>
      obtain rfl := Option.some.inj h.1
      rw [show m.next p = none from h.2]
      rfl
    | cons b front =>
      obtain ⟨hp, hrest⟩ := h
      obtain rfl := Option.some.inj hp
      have hnext := hrest.head_eq
      cases hq : m.next p with
      | none =>
        rw [hq, eq_comm, List.head?_eq_none_iff] at hnext
        exact absurd hnext (List.append_ne_nil_of_right_ne_nil front (List.cons_ne_nil a []))
      | some q =>
        rw [hq] at hrest
        have hlast := ih (m := m.read p) hrest (Nat.lt_of_succ_lt_succ hn)
        rw [read_readAll, ← List.reverse_cons, ← List.cons_append] at hlast
        exact hlast

theorem skipDentries_eq (h : NodeList m.next (some p) as) (hi : as[i]? = some a) :
    m.skipDentries i p = some (a, m.readAll (as.take i).reverse) := by
  induction i generalizing m p as with
  | zero =>
    have hhead := h.head_eq
    rw [List.head?_eq_getElem?, hi] at hhead
    obtain rfl := Option.some.inj hhead
    rfl
  | succ i ih =>
    cases as with
    | nil => cases hi
    | cons b as =>
      obtain ⟨hp, hrest⟩ := h
      obtain rfl := Option.some.inj hp
      rw [List.getElem?_cons_succ] at hi
      have hnext := hrest.head_eq
      rw [skipDentries]
      cases hq : m.next p with
      | none =>
        rw [hq, eq_comm, List.head?_eq_none_iff] at hnext
        rw [hnext] at hi
        cases hi
      | some q =>
        rw [hq] at hrest
        have hskip := ih (m := m.read p) hrest hi
        rw [read_readAll, ← List.reverse_cons, ← List.take_succ_cons] at hskip
        exact hskip

/-- The nodes of the list behind its first one are freed, each of them once; and a
node that is freed is read. -/
theorem freeDentries_spec (h : NodeList m.next (some p) (p :: as)) (hn : as.length < n)
    (hlive : ∀ a ∈ as, a ∈ live m.trace) (honce : FreedOnce m.trace) :
    ∃ m', m.freeDentries n p = some m' ∧ m'.bytes = m.bytes ∧
      live m'.trace = live m.trace \ as.toFinset ∧ FreedOnce m'.trace ∧
      ∃ es, m'.trace = es ++ .touch p :: m.trace ∧ (TouchesLive m'.trace → as = []) := by
  induction n generalizing m p as with
  | zero => exact absurd hn (Nat.not_lt_zero _)
  | succ n ih =>
    rw [freeDentries]
    obtain ⟨-, hrest⟩ := h
    cases as with
    | nil =>
      rw [show m.next p = none from hrest]
      exact ⟨m.read p, rfl, rfl, (Finset.sdiff_empty).symm, honce, [], rfl, fun _ => rfl⟩
    | cons q as =>
      have hq : m.next p = some q := hrest.1
      rw [hq] at hrest ⊢
      obtain ⟨hnotin, -⟩ := List.nodup_cons.mp hrest.nodup
      have hqlive := hlive q List.mem_cons_self
      have hrestlive (a : Nat) (ha : a ∈ as) : a ∈ (live m.trace).erase q := by
        refine Finset.mem_erase.mpr ⟨fun heq => hnotin (heq ▸ ha), ?_⟩
        exact hlive a (List.mem_cons_of_mem q ha)
      obtain ⟨m', hfree, hbytes, hlive', honce', es, htrace, -⟩ :=
        ih (m := (m.read p).kfree q) hrest (Nat.lt_of_succ_lt_succ hn) hrestlive
          ((show FreedOnce (.touch p :: m.trace) from honce).free hqlive)
      refine ⟨m', hfree, hbytes, ?_, honce', es ++ [.touch q, .free q], ?_, ?_⟩
      · rw [hlive', List.toFinset_cons, Finset.sdiff_insert, ← Finset.erase_sdiff_comm]
        rfl
      · rw [htrace, List.append_assoc]
        rfl
      · intro htouches
        rw [htrace] at htouches
        exact absurd htouches.of_append.1 (Finset.notMem_erase q _)

end Nodes

/-! ## The table -/

/-- `struct dir`. -/
structure DirEntry where
  fd : Bytes
  dentries : Nat
  number : Nat
  index : Nat

/-- The two tables, the cursor of `get_dirfd` and the nodes. -/
structure DirTable where
  files : Nat → Bytes
  dirs : Nat → DirEntry
  cursor : Nat
  nodes : Nodes

/-- Pointers have 64 bits: a loop over nodes that takes more turns does not end. -/
def turns : Nat := 2 ^ 64

namespace DirTable

/-- The tables as the kernel starts with them. -/
def initial : DirTable := ⟨fun _ _ => 0, fun _ => ⟨fun _ => 0, 0, 0, 0⟩, 0, ⟨fun _ _ => 0, []⟩⟩

def loaded (s : DirTable) (i : Nat) : Nat := FdEntry.loaded.get (s.dirs i).fd 0

/-- The entry `fd` as `get_dirfd` fills it, with an empty node. -/
def openAt (s : DirTable) (fd : Nat) (path mount : List Byte) (flags mode : Nat)
    (block : Block) : DirTable :=
  let dir : DirEntry :=
    ⟨Descriptors.openEntry (s.dirs fd).fd path mount flags mode, block.addr, 0, 0⟩
  let nodes := (s.nodes.kmalloc block).write block.addr (fill block.bytes 0 Dentry.size 0)
  ⟨s.files, Function.update s.dirs fd dir, fd + 1, nodes⟩

/-- The loop of `get_dirfd`, `n` turns of it to go. `none` is an access outside the
table. -/
def getDirfdFrom (path mount : List Byte) (flags mode : Nat) (block : Block) :
    Nat → DirTable → Option (Int × DirTable)
  | 0, s => some (-1, s)
  | n + 1, s =>
    let fd := s.cursor
    if VFS_COMPAT_MAX_OPEN_DIRECTORIES ≤ fd then none
    else if s.loaded fd = 0 then some (fd, s.openAt fd path mount flags mode block)
    else
      getDirfdFrom path mount flags mode block n
        { s with cursor := if VFS_COMPAT_MAX_OPEN_DIRECTORIES ≤ fd + 1 then 0 else fd + 1 }

def getDirfd (s : DirTable) (path mount : List Byte) (flags mode : Nat) (block : Block) :
    Option (Int × DirTable) :=
  if VFS_FDE_NAME_MAX_LEN < strlen STR_MAX_SIZE path then some (-1, s)
  else if VFS_FDE_NAME_MAX_LEN < strlen STR_MAX_SIZE mount then some (-1, s)
  else getDirfdFrom path mount flags mode block VFS_COMPAT_MAX_OPEN_DIRECTORIES s

/-- The node as `add_file_to_dirfd` fills it. The name is copied last, and the
terminator of one that fills its array is in `name_len`. -/
def fillDentry (b : Bytes) (name : List Byte) (inode type nameLen : Nat) : Bytes :=
  let b := Dentry.next.set b 0 0
  let b := Dentry.inode.set b 0 inode
  let b := Dentry.type.set b 0 type
  let b := Dentry.nameLen.set b 0 nameLen
  strncpy b Dentry.name name (strlen STR_MAX_SIZE name)

/-- A node is linked behind the last one, `dentry`, and filled. -/
def addAt (s : DirTable) (fd dentry : Nat) (m : Nodes) (name : List Byte)
    (inode type nameLen : Nat) (block : Block) : DirTable :=
  let m := m.kmalloc block
  let m := m.write dentry (Dentry.next.set (m.bytes dentry) 0 block.addr)
  let m := m.write block.addr (fillDentry (m.bytes block.addr) name inode type nameLen)
  let dir := { s.dirs fd with number := ((s.dirs fd).number + 1) % 2 ^ 32 }
  { s with dirs := Function.update s.dirs fd dir, nodes := m }

def addFileToDirfd (s : DirTable) (fd : Int) (name : List Byte) (inode type nameLen : Nat)
    (block : Block) : Option (Int × DirTable) :=
  if VFS_COMPAT_MAX_OPEN_DIRECTORIES ≤ fd then some (0, s)
  else if VFS_FDE_NAME_MAX_LEN < strlen STR_MAX_SIZE name then some (0, s)
  else if fd < 0 then none
  else if s.loaded fd.toNat = 0 then some (0, s)
  else
    match pointer (s.dirs fd.toNat).dentries with
    | none => none
    | some head =>
      match s.nodes.lastDentry turns head with
      | none => none
      | some (dentry, m) =>
        some (1, s.addAt fd.toNat dentry m name inode type nameLen block)

/-- What `read_dirfd` writes to its arguments. -/
structure Found where
  name : Bytes
  nameLen : Nat
  type : Nat

def readDirfd (s : DirTable) (fd : Int) (name : Bytes) : Option (Int × Option Found × DirTable) :=
  if VFS_COMPAT_MAX_OPEN_DIRECTORIES ≤ fd then some (-1, none, s)
  else if fd < 0 then none
  else if s.loaded fd.toNat = 0 then some (-1, none, s)
  else
    let dir := s.dirs fd.toNat
    if dir.number ≤ dir.index then some (0, none, s)
    else
      match pointer dir.dentries with
      | none => some (0, none, s)
      | some head =>
        match s.nodes.next head with
        | none => some (0, none, { s with nodes := s.nodes.read head })
        | some first =>
          match (s.nodes.read head).skipDentries dir.index first with
          | none => none
          | some (dentry, m) =>
            let b := m.bytes dentry
            let nameLen := Dentry.nameLen.get b 0
            let found : Found :=
              ⟨strncpy name 0 (stringAt b Dentry.name STR_MAX_SIZE) nameLen, nameLen,
                Dentry.type.get b 0⟩
            let dir := { dir with index := (dir.index + 1) % 2 ^ 32 }
            some (1, some found,
              { s with dirs := Function.update s.dirs fd.toNat dir, nodes := m.read dentry })

/-- The entry is closed before its list is given back. `none` is a null pointer
followed, or a loop that does not end. -/
def releaseDirfd (s : DirTable) (fd : Int) : Option (Int × DirTable) :=
  if VFS_COMPAT_MAX_OPEN_DIRECTORIES ≤ fd then some (-1, s)
  else if fd < 0 then none
  else
    let dir := s.dirs fd.toNat
    match pointer dir.dentries with
    | none => none
    | some head =>
      match s.nodes.freeDentries turns head with
      | none => none
      | some m =>
        let dir := { dir with fd := FdEntry.loaded.set dir.fd 0 0 }
        some (0, { s with dirs := Function.update s.dirs fd.toNat dir, nodes := m })

/-- A loop of `force_release` over the first `n` entries of a table. -/
def closeMatching (path : List Byte) : Nat → (Nat → Bytes) → Int × (Nat → Bytes)
  | 0, table => (0, table)
  | n + 1, table =>
    let (changes, table) := closeMatching path n table
    if Descriptors.OpenAs (table n) path then
      (changes + 1, Function.update table n (FdEntry.loaded.set (table n) 0 0))
    else (changes, table)

/-- Both loops of `force_release`, over `n` files and `k` directories. -/
def closeBoth (path : List Byte) (n k : Nat) (s : DirTable) : Int × DirTable :=
  let files := closeMatching path n s.files
  let dirs := closeMatching path k fun i => (s.dirs i).fd
  (files.1 + dirs.1,
    { s with files := files.2, dirs := fun i => { s.dirs i with fd := dirs.2 i } })

def forceRelease (s : DirTable) (path : List Byte) : Int × DirTable :=
  closeBoth path VFS_COMPAT_MAX_OPEN_FILES VFS_COMPAT_MAX_OPEN_DIRECTORIES s

/-! ## Calls -/

/-- A call on the table, with what `kmalloc` gives it. -/
inductive DirOp where
  | getDirfd (path mount : Str) (flags mode : Nat) (block : Block)
  | addFileToDirfd (fd : Int) (name : Str) (inode type nameLen : Nat) (block : Block)
  | readDirfd (fd : Int) (name : Bytes)
  | releaseDirfd (fd : Int)
  | forceRelease (path : Str)

def DirOp.apply (s : DirTable) : DirOp → Option DirTable
  | .getDirfd path mount flags mode block =>
    (s.getDirfd path.chars mount.chars flags mode block).map Prod.snd
  | .addFileToDirfd fd name inode type nameLen block =>
    (s.addFileToDirfd fd name.chars inode type nameLen block).map Prod.snd
  | .readDirfd fd name => (s.readDirfd fd name).map fun r => r.2.2
  | .releaseDirfd fd => (s.releaseDirfd fd).map Prod.snd
  | .forceRelease path => some (s.forceRelease path.chars).2

/-- The block that `kmalloc` gives is not in use. -/
def Fresh (s : DirTable) : DirOp → Prop
  | .getDirfd _ _ _ _ block => block.addr ∉ live s.nodes.trace
  | .addFileToDirfd _ _ _ _ _ block => block.addr ∉ live s.nodes.trace
  | .readDirfd .. => True
  | .releaseDirfd _ => True
  | .forceRelease _ => True

instance (s : DirTable) (op : DirOp) : Decidable (s.Fresh op) :=
  match op with
  | .getDirfd _ _ _ _ block => inferInstanceAs (Decidable (block.addr ∉ live s.nodes.trace))
  | .addFileToDirfd _ _ _ _ _ block =>
    inferInstanceAs (Decidable (block.addr ∉ live s.nodes.trace))
  | .readDirfd .. => isTrue trivial
  | .releaseDirfd _ => isTrue trivial
  | .forceRelease _ => isTrue trivial

/-- The node is reached from a directory entry that is loaded. -/
def Reachable (s : DirTable) (p : Nat) : Prop :=
  ∃ i, i < VFS_COMPAT_MAX_OPEN_DIRECTORIES ∧ s.loaded i ≠ 0 ∧ (s.dirs i).dentries ≠ 0 ∧
    Run.Reaches (fun a b => s.nodes.next a = some b) (s.dirs i).dentries p

/-- The nodes allocated and not yet freed are those reached from the loaded entries;
each is freed once; and none is accessed when it is freed. -/
structure Accounted (s : DirTable) : Prop where
  live_iff : ∀ p, p ∈ live s.nodes.trace ↔ s.Reachable p
  once : FreedOnce s.nodes.trace
  touches : TouchesLive s.nodes.trace

/-- A call is served: it ends, with the nodes accounted for. -/
def NodesServed (s : DirTable) (op : DirOp) : Prop := ∃ t, op.apply s = some t ∧ Accounted t

/-- When a call is served. A descriptor that lies in the table is not released, with
`force_release` neither; `get_dirfd` does not follow the call that gave the last
entry; and no descriptor is negative. -/
def KeepsNodes (s : DirTable) : DirOp → Prop
  | .getDirfd path mount _ _ _ => VFS_FDE_NAME_MAX_LEN < path.chars.length ∨
      VFS_FDE_NAME_MAX_LEN < mount.chars.length ∨ s.cursor ≠ VFS_COMPAT_MAX_OPEN_DIRECTORIES
  | .addFileToDirfd fd name _ _ _ _ => VFS_FDE_NAME_MAX_LEN < name.chars.length ∨ 0 ≤ fd
  | .readDirfd fd _ => 0 ≤ fd
  | .releaseDirfd fd => VFS_COMPAT_MAX_OPEN_DIRECTORIES ≤ fd
  | .forceRelease path => ∀ i, i < VFS_COMPAT_MAX_OPEN_DIRECTORIES →
      ¬ Descriptors.OpenAs (s.dirs i).fd path.chars

instance (s : DirTable) (op : DirOp) : Decidable (s.KeepsNodes op) :=
  match op with
  | .getDirfd .. => inferInstanceAs (Decidable (_ ∨ _ ∨ _))
  | .addFileToDirfd .. => inferInstanceAs (Decidable (_ ∨ _))
  | .readDirfd fd _ => inferInstanceAs (Decidable (0 ≤ fd))
  | .releaseDirfd fd => inferInstanceAs (Decidable (VFS_COMPAT_MAX_OPEN_DIRECTORIES ≤ fd))
  | .forceRelease path => inferInstanceAs (Decidable (∀ i, i < VFS_COMPAT_MAX_OPEN_DIRECTORIES →
      ¬ Descriptors.OpenAs (s.dirs i).fd path.chars))

end DirTable
end Vfs
