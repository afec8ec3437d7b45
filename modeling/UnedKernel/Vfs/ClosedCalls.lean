import UnedKernel.Vfs.FileCalls

/-! # Calls on a descriptor that is not open

What the five calls of `vfs_interface.c` do when their descriptor is not open,
in every state that mounts, opens, releases and calls lead to. The names of an
entry outlive its release, so such a call still reaches a file system. -/

namespace Vfs
open ByteMem CString Word Run
open UnedKernel.Ext2 (EXT2_RESULT_ERROR EXT2_RESULT_OK)

variable {σ : Type}

/-- A call on a file descriptor. -/
inductive FileOp where
  | read (buffer : Bytes) (size : Nat)
  | write (buffer : Bytes) (size : Nat)
  | seek (offset : Nat) (whence : Int)
  | tell
  | flush

/-- The call: its result and the state after it. `vfs_file_flush` has no result. -/
def FileOp.call (ext2 : Ext2 σ) (s : State σ) (fd : Int) : FileOp → Option (Nat × State σ)
  | .read buffer size => (s.vfsFileRead ext2 fd buffer size).map fun r => (r.1.1, r.2)
  | .write buffer size => s.vfsFileWrite ext2 fd buffer size
  | .seek offset whence => s.vfsFileSeek ext2 fd offset whence
  | .tell => s.vfsFileTell fd
  | .flush => (s.vfsFileFlush fd).map fun r => (0, r.2)

/-- The results that stand for a failure: -1, `EXT2_RESULT_ERROR` of a read or a write, and
the 0 that a seek or a tell returns when it finds no file. -/
def FileOp.Fails : FileOp → Nat → Prop
  | .read _ _, r => r = minusOne ∨ r = EXT2_RESULT_ERROR
  | .write _ _, r => r = minusOne ∨ r = EXT2_RESULT_ERROR
  | .seek _ _, r => r = minusOne ∨ r = 0
  | .tell, r => r = minusOne ∨ r = 0
  | .flush, _ => True

namespace State

/-- The descriptor is open: `get_fd` gave it and nothing released it since. -/
def IsOpen (s : State σ) (fd : Int) : Prop :=
  0 ≤ fd ∧ fd < VFS_COMPAT_MAX_OPEN_FILES ∧ s.descriptors.fileLoaded fd.toNat ≠ 0

/-- The same files, queues and descriptor entries. -/
structure Same (ext2 : Ext2 σ) (s s' : State σ) : Prop where
  files : ∀ p, (s'.ext2Partitions p).map ext2.content = (s.ext2Partitions p).map ext2.content
  queues : ∀ d, (s'.fifoDevices d).map Fifo.contents = (s.fifoDevices d).map Fifo.contents
  entries : ∀ i, s'.entry i = s.entry i

/-- The call fails and has no effect. -/
def NoEffect (ext2 : Ext2 σ) (s : State σ) (op : FileOp) (fd : Int) : Prop :=
  ∃ r s', op.call ext2 s fd = some (r, s') ∧ op.Fails r ∧ s.Same ext2 s'

/-- The offset that `ext2_compat_file_seek` stores. -/
def sought (ext2 : Ext2 σ) (x : σ) (e : Bytes) (offset : Nat) (whence : Int) : Option Nat :=
  if whence = SEEK_SET then some (u64 offset)
  else if whence = SEEK_CUR then some (u64 (FdEntry.offset.get e 0 + offset))
  else if whence = SEEK_END then
    some (u64 (ext2.getFileSize x (entryString e FdEntry.name) + offset))
  else none

/-- When a call that reaches a mount with a closed entry does no harm. A fifo looks at the
entry except in a flush. Of ext2 only a read looks at it, and returns `EXT2_RESULT_OK` then; its
flush is a null pointer. -/
def HarmlessOn (ext2 : Ext2 σ) (s : State σ) (fst : Fst) (index : Int) (e : Bytes) :
    FileOp → Prop
  | .read _ _ => fst = .fifo
  | .write buffer size => fst = .ext2 → u64 size = 0 ∧ ∀ x, s.partition index = some x →
      ∀ r x', ext2.writeFile x (entryString e FdEntry.name) buffer size
        (FdEntry.offset.get e 0) = (r, x') →
      (throughInt r = minusOne ∨ throughInt r = EXT2_RESULT_ERROR) ∧ ext2.content x' = ext2.content x
  | .seek offset whence => fst = .ext2 → ∀ x, s.partition index = some x →
      ∀ o, sought ext2 x e offset whence = some o →
      o = FdEntry.offset.get e 0 ∧ (o = minusOne ∨ o = 0)
  | .tell => fst = .ext2 → FdEntry.offset.get e 0 = minusOne ∨ FdEntry.offset.get e 0 = 0
  | .flush => fst = .fifo ∧ ∀ f, s.device index = some f → f.fifoSize = 0

/-- When a call on a closed descriptor does no harm: past the table, or in it and without
a mount or harmless on its mount. -/
def Harmless (ext2 : Ext2 σ) (s : State σ) (op : FileOp) (fd : Int) : Prop :=
  VFS_COMPAT_MAX_OPEN_FILES ≤ fd ∨ 0 ≤ fd ∧ ∀ (m : Mount Unit Fst) native,
    getMountFromPath (fullPath (s.entry fd.toNat)) s.mounts = some (m.node, native) →
    s.HarmlessOn ext2 m.fst m.internalIndex (s.entry fd.toNat) op

/-! ## Reachable states -/

def initial : State σ := ⟨[initMountHeader], fun _ => none, fun _ => none, Descriptors.initial⟩

/-- What changes the state: mounts, opens, releases, the five calls, and calls that touch
files, queues and directories only. -/
inductive Event (ext2 : Ext2 σ) : State σ → State σ → Prop
  | mount (s part fst x f) : Event ext2 s (s.mountFs part fst x f)
  | open (s path flags mode r s') : s.vfsFileOpen path flags mode = some (r, s') → Event ext2 s s'
  | close (s fd r s') : s.vfsFileClose fd = some (r, s') → Event ext2 s s'
  | forceRelease (s path) : Event ext2 s
      { s with descriptors := (s.descriptors.forceRelease path).2 }
  | call (s fd r s') (op : FileOp) : op.call ext2 s fd = some (r, s') → Event ext2 s s'
  | elsewhere (s) (f : Nat → σ → σ) (g : Nat → Fifo → Fifo) (dirs : Nat → Dir) (cursor : Nat) :
      Event ext2 s { s with
        ext2Partitions := fun p => (s.ext2Partitions p).map (f p)
        fifoDevices := fun d => (s.fifoDevices d).map (g d)
        descriptors := { s.descriptors with dirs := dirs, dirCursor := cursor } }

/-- Every mount has its driver's slot. -/
structure Registered (s : State σ) : Prop where
  built : Built s.mounts
  slots : ∀ m ∈ mountsOf s.mounts, s.registered m.fst m.internalIndex

variable {ext2 : Ext2 σ} {s s' : State σ}

/-- The mounts stay, and slots that are taken stay taken. -/
structure Keeps (s s' : State σ) : Prop where
  mounts : s'.mounts = s.mounts
  ext2 : ∀ p, (s.ext2Partitions p).isSome → (s'.ext2Partitions p).isSome
  fifo : ∀ d, (s.fifoDevices d).isSome → (s'.fifoDevices d).isSome

namespace Keeps

theorem refl (s : State σ) : Keeps s s := ⟨rfl, fun _ h => h, fun _ h => h⟩

theorem trans {s'' : State σ} (h : Keeps s s') (h' : Keeps s' s'') : Keeps s s'' :=
  ⟨h'.mounts.trans h.mounts, fun p hp => h'.ext2 p (h.ext2 p hp), fun d hd => h'.fifo d (h.fifo d hd)⟩

theorem setEntry (s : State σ) (i : Nat) (e : Bytes) : Keeps s (s.setEntry i e) :=
  ⟨rfl, fun _ h => h, fun _ h => h⟩

theorem setPartition (s : State σ) (p : Nat) (x : σ) : Keeps s (s.setPartition p x) := by
  refine ⟨rfl, fun q hq => ?_, fun _ h => h⟩
  by_cases hqp : q = p
  · simp [State.setPartition, hqp]
  · simpa [State.setPartition, hqp] using hq

theorem setDevice (s : State σ) (d : Nat) (f : Fifo) : Keeps s (s.setDevice d f) := by
  refine ⟨rfl, fun _ h => h, fun c hc => ?_⟩
  by_cases hcd : c = d
  · simp [State.setDevice, hcd]
  · simpa [State.setDevice, hcd] using hc

theorem callOnEntry {α : Type} {fd : Int} {noPath noMount r : α}
    {call : Fst → Int → Nat → Option (α × State σ)}
    (h : s.callOnEntry fd noPath noMount call = some (r, s'))
    (hcall : ∀ fst index i, call fst index i = some (r, s') → Keeps s s') : Keeps s s' := by
  unfold State.callOnEntry at h
  split at h
  · cases h
    exact refl s
  · cases h
  split at h
  · cases h
    exact refl s
  split at h
  · cases h
    exact refl s
  · exact hcall _ _ _ h

end Keeps

theorem keeps_ext2FileSeek (partno : Int) (i offset : Nat) (whence : Int) :
    Keeps s (s.ext2FileSeek ext2 partno i offset whence).2 := by
  unfold ext2FileSeek
  split
  · exact .refl s
  split
  · exact .setEntry _ _ _
  split
  · exact .setEntry _ _ _
  split
  · exact .setEntry _ _ _
  · exact .refl s

theorem keeps_ext2FileWrite (partno : Int) (i : Nat) (buffer : Bytes) (size : Nat) :
    Keeps s (s.ext2FileWrite ext2 partno i buffer size).2 := by
  unfold ext2FileWrite
  split
  · exact .refl s
  · exact (Keeps.setPartition s _ _).trans (keeps_ext2FileSeek _ _ _ _)

theorem keeps_fifoFileSeek (devno : Int) (i offset : Nat) (whence : Int) :
    Keeps s (s.fifoFileSeek devno i offset whence).2 := by
  unfold fifoFileSeek
  split
  · exact .refl s
  split
  · exact .refl s
  simp only
  split
  · exact .setEntry _ _ _
  split
  · exact .setEntry _ _ _
  split
  · exact .setEntry _ _ _
  · exact .refl s

theorem keeps_fifoFileWrite (devno : Int) (i : Nat) (buffer : Bytes) (size : Nat) :
    Keeps s (s.fifoFileWrite devno i buffer size).2 := by
  unfold fifoFileWrite
  split
  · exact .refl s
  split
  · exact .refl s
  · exact .setDevice _ _ _

/-- No call on a descriptor takes a mount or a slot away. -/
theorem keeps_call {fd : Int} {r : Nat} (op : FileOp) (h : op.call ext2 s fd = some (r, s')) :
    Keeps s s' := by
  cases op with
  | read buffer size =>
    obtain ⟨⟨⟨r, b⟩, t⟩, hread, ht⟩ := Option.map_eq_some_iff.mp h
    cases ht
    refine Keeps.callOnEntry hread fun fst index i hcall => ?_
    cases fst with
    | ext2 =>
      simp only [ext2FileRead] at hcall
      split at hcall
      · cases hcall; exact .refl s
      split at hcall
      · cases hcall; exact .refl s
      · cases hcall; exact .refl s
    | fifo =>
      simp only [fifoFileRead] at hcall
      split at hcall
      · cases hcall; exact .refl s
      split at hcall
      · cases hcall; exact .refl s
      · cases hcall; exact .setDevice _ _ _
  | write buffer size =>
    simp only [FileOp.call, vfsFileWrite] at h
    refine Keeps.callOnEntry h fun fst index i hcall => ?_
    cases fst with
    | ext2 =>
      obtain rfl : _ = s' := congrArg Prod.snd (Option.some.inj hcall)
      exact keeps_ext2FileWrite _ _ _ _
    | fifo =>
      obtain rfl : _ = s' := congrArg Prod.snd (Option.some.inj hcall)
      exact keeps_fifoFileWrite _ _ _ _
  | seek offset whence =>
    simp only [FileOp.call, vfsFileSeek] at h
    refine Keeps.callOnEntry h fun fst index i hcall => ?_
    cases fst with
    | ext2 =>
      obtain rfl : _ = s' := congrArg Prod.snd (Option.some.inj hcall)
      exact keeps_ext2FileSeek _ _ _ _
    | fifo =>
      obtain rfl : _ = s' := congrArg Prod.snd (Option.some.inj hcall)
      exact keeps_fifoFileSeek _ _ _ _
  | tell =>
    simp only [FileOp.call, vfsFileTell] at h
    refine Keeps.callOnEntry h fun fst index i hcall => ?_
    cases fst with
    | ext2 =>
      simp only [ext2FileTell] at hcall
      split at hcall
      · cases hcall; exact .refl s
      · obtain rfl : s = s' := congrArg Prod.snd (Option.some.inj hcall)
        exact .refl s
    | fifo =>
      simp only [fifoFileTell] at hcall
      split at hcall
      · cases hcall; exact .refl s
      split at hcall
      · cases hcall; exact .refl s
      · obtain rfl : s = s' := congrArg Prod.snd (Option.some.inj hcall)
        exact .refl s
  | flush =>
    obtain ⟨⟨u, t⟩, hflush, ht⟩ := Option.map_eq_some_iff.mp h
    cases ht
    refine Keeps.callOnEntry hflush fun fst index i hcall => ?_
    cases fst with
    | ext2 => cases hcall
    | fifo =>
      obtain ⟨t, hcall, ht⟩ := Option.map_eq_some_iff.mp hcall
      cases ht
      simp only [fifoFileFlush] at hcall
      split at hcall
      · cases hcall; exact .refl s
      split at hcall
      · cases hcall
      · cases hcall; exact .setDevice _ _ _

/-- Slots that are taken stay registered. -/
theorem Keeps.registered (hk : Keeps s s') {fst : Fst} {index : Int}
    (h : s.registered fst index) : s'.registered fst index := by
  cases fst with
  | ext2 =>
    simp only [State.registered, partition] at h ⊢
    split at h
    · cases h
    · rename_i hin
      rw [if_neg hin]
      exact hk.ext2 _ h
  | fifo =>
    simp only [State.registered, device] at h ⊢
    split at h
    · cases h
    · rename_i hin
      rw [if_neg hin]
      exact hk.fifo _ h

theorem Registered.keeps (h : Registered s) (hk : Keeps s s') : Registered s' :=
  ⟨hk.mounts ▸ h.built, fun m hm => hk.registered (h.slots m (hk.mounts ▸ hm))⟩

theorem keeps_getFd {path mount : List Byte} {flags mode : Nat} {r : Int}
    (h : s.getFd path mount flags mode = some (r, s')) : Keeps s s' := by
  obtain ⟨⟨r, d⟩, -, ht⟩ := Option.map_eq_some_iff.mp h
  cases ht
  exact ⟨rfl, fun _ h => h, fun _ h => h⟩

theorem keeps_vfsFileOpen {path : List Byte} {flags mode : Nat} {r : Int}
    (h : s.vfsFileOpen path flags mode = some (r, s')) : Keeps s s' := by
  unfold vfsFileOpen at h
  split at h
  · cases h; exact .refl s
  split at h
  · split at h
    · cases h; exact .refl s
    split at h
    · cases h; exact .refl s
    · exact keeps_getFd h
  · cases h; exact .refl s

theorem keeps_vfsFileClose {fd r : Int} (h : s.vfsFileClose fd = some (r, s')) : Keeps s s' := by
  refine Keeps.callOnEntry h fun fst index i hcall => ?_
  simp only at hcall
  split at hcall
  · obtain ⟨⟨r, d⟩, -, ht⟩ := Option.map_eq_some_iff.mp hcall
    cases ht
    exact ⟨rfl, fun _ h => h, fun _ h => h⟩
  · cases hcall; exact .refl s

theorem mountsOf_addMount {mounts next : List (VfsMount Unit Fst)} (h : Built mounts)
    {part : VfsPartition} {fst : Fst} {index : Int}
    (hadd : addMount mounts (some ()) (some part) (some fst) index = .ok next) :
    mountsOf next = mountsOf mounts ++ [⟨(), part, fst, index⟩] := by
  rw [h.eq_mounts] at hadd
  have hempty : ((mountsOf mounts).map Mount.node ++ [initMountHeader]).isEmpty = false := by
    simp
  simp only [addMount, Option.isNone_some, Bool.false_eq_true, if_false, hempty] at hadd
  rw [← Except.ok.inj hadd, fillLast_snoc]
  have hlist : (mountsOf mounts).map Mount.node ++ [⟨some (), some part, some fst, index⟩,
      initMountHeader] = (mountsOf mounts ++ [(⟨(), part, fst, index⟩ : Mount Unit Fst)]).map
      Mount.node ++ [initMountHeader] := by simp [Mount.node]
  rw [hlist, mountsOf_snoc]

/-- A driver mounts into a slot of its own. -/
theorem Registered.mountFs (h : Registered s) (part : VfsPartition) (fst : Fst) (x : σ)
    (f : Fifo) : Registered (s.mountFs part fst x f) := by
  -- in a state that keeps the slots and has the new one, the longer list is registered
  have hlonger {t : State σ} {i : Nat} {mounts : List (VfsMount Unit Fst)}
      (hadd : addMount s.mounts (some ()) (some part) (some fst) i = .ok mounts)
      (hk : Keeps s { t with mounts := s.mounts })
      (hslot : t.registered fst i) : Registered { t with mounts := mounts } := by
    refine ⟨.add _ _ _ _ _ _ h.built hadd, fun m hm => ?_⟩
    rw [mountsOf_addMount h.built hadd] at hm
    rcases List.mem_append.mp hm with hold | hnew
    · exact hk.registered (h.slots m hold)
    · obtain rfl := List.mem_singleton.mp hnew
      exact hslot
  unfold State.mountFs
  cases fst with
  | ext2 =>
    simp only
    split
    · exact h
    rename_i i hfree
    have hi := List.mem_range.mp (List.mem_of_find?_eq_some hfree)
    split
    · exact h
    · rename_i mounts hadd
      refine hlonger (t := s.setPartition i x) hadd (.setPartition s i x) ?_
      simp only [State.registered, partition]
      rw [if_neg (by omega)]
      simp [setPartition]
  | fifo =>
    simp only
    split
    · exact h
    rename_i i hfree
    have hi := List.mem_range.mp (List.mem_of_find?_eq_some hfree)
    split
    · exact h
    · rename_i mounts hadd
      refine hlonger (t := s.setDevice i f) hadd (.setDevice s i f) ?_
      simp only [State.registered, device]
      rw [if_neg (by omega)]
      simp [setDevice]

/-- Whatever happens, every mount has its driver's slot. -/
theorem registered_of_reaches (h : Reaches (Event ext2) initial s) : Registered s := by
  refine Run.invariant Registered (fun s t hs hstep => ?_) ⟨.header, fun m hm => ?_⟩ h
  · cases hstep with
    | mount part fst x f => exact hs.mountFs part fst x f
    | «open» path flags mode r _ hopen => exact hs.keeps (keeps_vfsFileOpen hopen)
    | close fd r _ hclose => exact hs.keeps (keeps_vfsFileClose hclose)
    | forceRelease path => exact hs.keeps ⟨rfl, fun _ h => h, fun _ h => h⟩
    | call fd r _ op hcall => exact hs.keeps (keeps_call op hcall)
    | elsewhere f g dirs cursor =>
      exact hs.keeps ⟨rfl, fun p hp => by simpa using hp, fun d hd => by simpa using hd⟩
  · cases hm

/-! ## What changes nothing -/

section same

variable {i p d v : Nat} {x x' : σ} {f : Fifo}

theorem Same.refl (ext2 : Ext2 σ) (s : State σ) : s.Same ext2 s := ⟨fun _ => rfl, fun _ => rfl, fun _ => rfl⟩

theorem fifoSize_flush (f : Fifo) : f.flush.fifoSize = 0 := by
  have hlt := f.size_lt
  have hzero : sub64 0 0 = 0 := by decide
  simp only [Fifo.fifoSize, Fifo.flush, hzero, Nat.zero_add, u64_of_lt hlt, Nat.mod_self]

/-- A flush leaves an empty queue as it is. -/
theorem same_setDevice_iff (hf : s.fifoDevices d = some f) :
    s.Same ext2 (s.setDevice d f.flush) ↔ f.fifoSize = 0 := by
  have hcontents : f.flush.contents = f.contents ↔ f.fifoSize = 0 := by
    have hflush : f.flush.contents = [] := by
      rw [Fifo.contents, fifoSize_flush]
      rfl
    rw [hflush]
    constructor
    · intro h
      simpa [Fifo.contents] using (congrArg List.length h).symm
    · intro h
      rw [Fifo.contents, h]
      rfl
  rw [← hcontents]
  constructor
  · intro h
    have hd := h.queues d
    simpa [setDevice, hf] using hd
  · intro h
    refine ⟨fun _ => rfl, fun c => ?_, fun _ => rfl⟩
    by_cases hcd : c = d
    · subst hcd
      simp [setDevice, hf, h]
    · simp [setDevice, hcd]

/-- An offset that is stored changes the entry unless it is the one there. -/
theorem setOffset_eq_iff (e : Bytes) (hv : v < 18446744073709551616) :
    FdEntry.offset.set e 0 v = e ↔ v = FdEntry.offset.get e 0 := by
  constructor
  · intro h
    have hget := Field.get_set_same (f := FdEntry.offset) e (a := 0) v
    rw [h] at hget
    exact (hget.trans (Nat.mod_eq_of_lt hv)).symm
  · intro h
    rw [h]
    exact store_load_self e _ _

theorem same_setEntry_iff {e : Bytes} : s.Same ext2 (s.setEntry i e) ↔ e = s.entry i := by
  constructor
  · intro h
    simpa [State.entry, setEntry] using h.entries i
  · intro h
    refine ⟨fun _ => rfl, fun _ => rfl, fun j => ?_⟩
    by_cases hji : j = i
    · subst hji
      simp [State.entry, setEntry, h]
    · exact Descriptors.setFile_of_ne _ _ hji

theorem same_write_iff {e : Bytes} (hx : s.ext2Partitions p = some x) :
    s.Same ext2 ((s.setPartition p x').setEntry i e) ↔
      e = s.entry i ∧ ext2.content x' = ext2.content x := by
  constructor
  · intro h
    refine ⟨by simpa [State.entry, setEntry, setPartition] using h.entries i, ?_⟩
    simpa [setEntry, setPartition, hx] using h.files p
  · intro h
    have hentry : s.Same ext2 (s.setEntry i e) := same_setEntry_iff.mpr h.1
    refine ⟨fun q => ?_, fun _ => rfl, hentry.entries⟩
    by_cases hqp : q = p
    · subst hqp
      simp [setEntry, setPartition, hx, h.2]
    · simp [setEntry, setPartition, hqp]

end same

/-! ## Calls on a closed descriptor -/

section closed

variable {fd : Int} {i : Nat} {op : FileOp} {m : Mount Unit Fst} {native : List Byte}

theorem noEffect_iff_of_call {r : Nat} (h : op.call ext2 s fd = some (r, s')) :
    s.NoEffect ext2 op fd ↔ op.Fails r ∧ s.Same ext2 s' := by
  constructor
  · rintro ⟨r', t, hcall, heffect⟩
    rw [h] at hcall
    cases hcall
    exact heffect
  · intro heffect
    exact ⟨r, s', h, heffect⟩

/-- A call that changes nothing and fails. -/
theorem noEffect_of_call {r : Nat} (h : op.call ext2 s fd = some (r, s)) (hr : op.Fails r) :
    s.NoEffect ext2 op fd := ⟨r, s, h, hr, .refl ext2 s⟩

theorem callOnEntry_mount {α : Type} {noPath noMount : α}
    {call : Fst → Int → Nat → Option (α × State σ)} (hfd : getFileDescriptor fd = .entry i)
    (hm : getMountFromPath (fullPath (s.entry i)) s.mounts = some (m.node, native)) :
    s.callOnEntry fd noPath noMount call = call m.fst m.internalIndex i := by
  unfold callOnEntry
  rw [hfd]
  simp only [hm, Mount.node]

/-- Without a mount every call returns before it reaches a file system. -/
theorem callOnEntry_unresolved {α : Type} (noPath noMount : α)
    (call : Fst → Int → Nat → Option (α × State σ))
    (h : getFileDescriptor fd = .null ∨ ∃ i, getFileDescriptor fd = .entry i ∧
      getMountFromPath (fullPath (s.entry i)) s.mounts = none) :
    s.callOnEntry fd noPath noMount call = some (noPath, s) ∨
      s.callOnEntry fd noPath noMount call = some (noMount, s) := by
  unfold callOnEntry
  rcases h with hfd | ⟨i, hfd, hm⟩
  · left
    rw [hfd]
  · right
    rw [hfd]
    simp only [hm]

theorem noEffect_unresolved (h : getFileDescriptor fd = .null ∨ ∃ i, getFileDescriptor fd = .entry i ∧
      getMountFromPath (fullPath (s.entry i)) s.mounts = none) : s.NoEffect ext2 op fd := by
  cases op with
  | read buffer size =>
    refine noEffect_of_call (r := minusOne) ?_ (.inl rfl)
    simp only [FileOp.call, vfsFileRead]
    rcases callOnEntry_unresolved _ _ _ h with hcall | hcall <;> rw [hcall] <;> rfl
  | write buffer size =>
    refine noEffect_of_call (r := minusOne) ?_ (.inl rfl)
    simp only [FileOp.call, vfsFileWrite]
    exact or_self_iff.mp (callOnEntry_unresolved _ _ _ h)
  | seek offset whence =>
    have hends : FileOp.call ext2 s fd (.seek offset whence) = some (minusOne, s) ∨
        FileOp.call ext2 s fd (.seek offset whence) = some (0, s) := by
      simp only [FileOp.call, vfsFileSeek]
      exact callOnEntry_unresolved _ _ _ h
    rcases hends with hcall | hcall
    · exact noEffect_of_call hcall (.inl rfl)
    · exact noEffect_of_call hcall (.inr rfl)
  | tell =>
    have hends : FileOp.call ext2 s fd .tell = some (minusOne, s) ∨
        FileOp.call ext2 s fd .tell = some (0, s) := by
      simp only [FileOp.call, vfsFileTell]
      exact callOnEntry_unresolved _ _ _ h
    rcases hends with hcall | hcall
    · exact noEffect_of_call hcall (.inl rfl)
    · exact noEffect_of_call hcall (.inr rfl)
  | flush =>
    refine noEffect_of_call (r := 0) ?_ trivial
    simp only [FileOp.call, vfsFileFlush]
    rcases callOnEntry_unresolved _ _ _ h with hcall | hcall <;> rw [hcall] <;> rfl

theorem not_noEffect_outside (h : getFileDescriptor fd = .outside) : ¬ s.NoEffect ext2 op fd := by
  rintro ⟨r, s', hcall, -⟩
  cases op with
  | read buffer size => simp [FileOp.call, vfsFileRead, callOnEntry, h] at hcall
  | write buffer size => simp [FileOp.call, vfsFileWrite, callOnEntry, h] at hcall
  | seek offset whence => simp [FileOp.call, vfsFileSeek, callOnEntry, h] at hcall
  | tell => simp [FileOp.call, vfsFileTell, callOnEntry, h] at hcall
  | flush => simp [FileOp.call, vfsFileFlush, callOnEntry, h] at hcall

/-- A fifo looks at the entry, except in a flush. -/
theorem noEffect_fifo_iff (hfd : getFileDescriptor fd = .entry i)
    (hm : getMountFromPath (fullPath (s.entry i)) s.mounts = some (m.node, native))
    (hfst : m.fst = .fifo) (hslot : s.registered m.fst m.internalIndex)
    (hclosed : FdEntry.loaded.get (s.entry i) 0 = 0) :
    s.NoEffect ext2 op fd ↔ s.HarmlessOn ext2 m.fst m.internalIndex (s.entry i) op := by
  rw [hfst] at hslot ⊢
  obtain ⟨f, hf⟩ := Option.isSome_iff_exists.mp hslot
  have hminus : throughInt minusOne = minusOne := by decide
  cases op with
  | read buffer size =>
    have hcall : FileOp.call ext2 s fd (.read buffer size) = some (minusOne, s) := by
      simp only [FileOp.call, vfsFileRead, callOnEntry_mount hfd hm, hfst, fifoFileRead, hf, hclosed,
        if_true, hminus, Option.map_some]
    exact ⟨fun _ => rfl, fun _ => noEffect_of_call hcall (.inl rfl)⟩
  | write buffer size =>
    have hcall : FileOp.call ext2 s fd (.write buffer size) = some (minusOne, s) := by
      simp only [FileOp.call, vfsFileWrite, callOnEntry_mount hfd hm, hfst, fifoFileWrite, hf,
        hclosed, if_true, hminus]
    exact ⟨fun _ h => (nomatch h), fun _ => noEffect_of_call hcall (.inl rfl)⟩
  | seek offset whence =>
    have hcall : FileOp.call ext2 s fd (.seek offset whence) = some (minusOne, s) := by
      simp only [FileOp.call, vfsFileSeek, callOnEntry_mount hfd hm, hfst, fifoFileSeek, hf, hclosed,
        if_true]
    exact ⟨fun _ h => (nomatch h), fun _ => noEffect_of_call hcall (.inl rfl)⟩
  | tell =>
    have hcall : FileOp.call ext2 s fd .tell = some (minusOne, s) := by
      simp only [FileOp.call, vfsFileTell, callOnEntry_mount hfd hm, hfst, fifoFileTell, hf, hclosed,
        if_true]
    exact ⟨fun _ h => (nomatch h), fun _ => noEffect_of_call hcall (.inl rfl)⟩
  | flush =>
    -- the callback does not look at the entry
    obtain ⟨hin, hdev⟩ : ¬ (m.internalIndex < 0 ∨ (MAX_DEVICES : Int) ≤ m.internalIndex) ∧
        s.fifoDevices m.internalIndex.toNat = some f := by
      unfold device at hf
      split at hf
      · cases hf
      · exact ⟨‹_›, hf⟩
    have hcall : FileOp.call ext2 s fd .flush =
        some (0, s.setDevice m.internalIndex.toNat f.flush) := by
      simp only [FileOp.call, vfsFileFlush, callOnEntry_mount hfd hm, hfst, fifoFileFlush, hdev,
        if_neg hin, Option.map_some]
    rw [noEffect_iff_of_call hcall, same_setDevice_iff hdev]
    constructor
    · rintro ⟨-, hempty⟩
      refine ⟨rfl, fun g hg => ?_⟩
      rw [hf] at hg
      cases hg
      exact hempty
    · intro h
      exact ⟨trivial, h.2 f hf⟩

/-- A seek on ext2 stores what it computes. -/
theorem ext2FileSeek_eq {x : σ} {index : Int} (hx : s.partition index = some x) (offset : Nat)
    (whence : Int) :
    s.ext2FileSeek ext2 index i offset whence =
      match sought ext2 x (s.entry i) offset whence with
      | none => (0, s)
      | some o => (o, s.setEntry i (FdEntry.offset.set (s.entry i) 0 o)) := by
  have hget (v : Nat) : FdEntry.offset.get (FdEntry.offset.set (s.entry i) 0 v) 0 = u64 v :=
    Field.get_set_same _ _
  have hset (v : Nat) : FdEntry.offset.set (s.entry i) 0 v =
      FdEntry.offset.set (s.entry i) 0 (u64 v) := (store_mod _ _ _ _).symm
  unfold ext2FileSeek sought
  simp only [hx]
  by_cases hs : whence = SEEK_SET
  · rw [if_pos hs, if_pos hs, hget, hset]
  rw [if_neg hs, if_neg hs]
  by_cases hc : whence = SEEK_CUR
  · rw [if_pos hc, if_pos hc, hget, u64_of_lt (u64_lt _)]
  rw [if_neg hc, if_neg hc]
  by_cases he : whence = SEEK_END
  · rw [if_pos he, if_pos he, hget, u64_of_lt (u64_lt _)]
  · rw [if_neg he, if_neg he]

theorem sought_lt {x : σ} {e : Bytes} {offset o : Nat} {whence : Int}
    (h : sought ext2 x e offset whence = some o) : o < 18446744073709551616 := by
  unfold sought at h
  split at h
  · cases h; exact u64_lt _
  split at h
  · cases h; exact u64_lt _
  split at h
  · cases h; exact u64_lt _
  · cases h

/-- Of ext2 only a read looks at the entry, and succeeds. -/
theorem noEffect_ext2_iff (hfd : getFileDescriptor fd = .entry i)
    (hm : getMountFromPath (fullPath (s.entry i)) s.mounts = some (m.node, native))
    (hfst : m.fst = .ext2) (hslot : s.registered m.fst m.internalIndex)
    (hclosed : FdEntry.loaded.get (s.entry i) 0 = 0) :
    s.NoEffect ext2 op fd ↔ s.HarmlessOn ext2 m.fst m.internalIndex (s.entry i) op := by
  rw [hfst] at hslot ⊢
  obtain ⟨x, hx⟩ := Option.isSome_iff_exists.mp hslot
  have hx' : s.ext2Partitions m.internalIndex.toNat = some x := by
    unfold partition at hx
    split at hx
    · cases hx
    · exact hx
  have hoffset : FdEntry.offset.get (s.entry i) 0 < 18446744073709551616 := Field.get_lt _
  cases op with
  | read buffer size =>
    have hcall : FileOp.call ext2 s fd (.read buffer size) = some (EXT2_RESULT_OK, s) := by
      simp only [FileOp.call, vfsFileRead, callOnEntry_mount hfd hm, hfst, ext2FileRead, hx, hclosed,
        if_true, Option.map_some]
      rfl
    rw [noEffect_iff_of_call hcall]
    refine iff_of_false (fun h => ?_) (fun h => nomatch h)
    rcases h.1 with h | h <;> exact absurd h (by decide)
  | write buffer size =>
    obtain ⟨⟨r, x'⟩, hw⟩ : ∃ w, ext2.writeFile x (entryString (s.entry i) FdEntry.name) buffer size
        (FdEntry.offset.get (s.entry i) 0) = w := ⟨_, rfl⟩
    have hpart : (s.setPartition m.internalIndex.toNat x').partition m.internalIndex = some x' := by
      unfold partition at hx ⊢
      split at hx
      · cases hx
      · rename_i hin
        rw [if_neg hin]
        simp [setPartition]
    have hseek := @ext2FileSeek_eq _ ext2 _ i _ _ hpart size SEEK_CUR
    have hentry : (s.setPartition m.internalIndex.toNat x').entry i = s.entry i := rfl
    have hcur : sought ext2 x' (s.entry i) size SEEK_CUR =
        some (u64 (FdEntry.offset.get (s.entry i) 0 + size)) := rfl
    rw [hentry, hcur] at hseek
    have hcall : FileOp.call ext2 s fd (.write buffer size) = some (throughInt r,
        (s.setPartition m.internalIndex.toNat x').setEntry i (FdEntry.offset.set (s.entry i) 0
          (u64 (FdEntry.offset.get (s.entry i) 0 + size)))) := by
      simp only [FileOp.call, vfsFileWrite, callOnEntry_mount hfd hm, hfst, ext2FileWrite, hx, hw,
        hseek]
    have hzero : u64 (FdEntry.offset.get (s.entry i) 0 + size) = FdEntry.offset.get (s.entry i) 0 ↔
        u64 size = 0 := by
      unfold u64
      omega
    rw [noEffect_iff_of_call hcall, same_write_iff hx', setOffset_eq_iff _ (u64_lt _), hzero]
    constructor
    · rintro ⟨hfails, hsize, hcontent⟩ -
      refine ⟨hsize, fun y hy r' y' hw' => ?_⟩
      rw [hx] at hy
      cases hy
      rw [hw] at hw'
      cases hw'
      exact ⟨hfails, hcontent⟩
    · intro h
      obtain ⟨hsize, hfile⟩ := h rfl
      obtain ⟨hfails, hcontent⟩ := hfile x hx r x' hw
      exact ⟨hfails, hsize, hcontent⟩
  | seek offset whence =>
    have hseek := @ext2FileSeek_eq _ ext2 _ i _ _ hx offset whence
    have hcall : FileOp.call ext2 s fd (.seek offset whence) =
        some (s.ext2FileSeek ext2 m.internalIndex i offset whence) := by
      simp only [FileOp.call, vfsFileSeek, callOnEntry_mount hfd hm, hfst]
    rw [hseek] at hcall
    cases ho : sought ext2 x (s.entry i) offset whence with
    | none =>
      rw [ho] at hcall
      refine ⟨fun _ _ y hy o hsome => ?_, fun _ => noEffect_of_call hcall (.inr rfl)⟩
      rw [hx] at hy
      cases hy
      rw [ho] at hsome
      cases hsome
    | some o =>
      rw [ho] at hcall
      rw [noEffect_iff_of_call hcall, same_setEntry_iff, setOffset_eq_iff _ (sought_lt ho)]
      constructor
      · rintro ⟨hfails, hsame⟩ - y hy o' hsome
        rw [hx] at hy
        cases hy
        rw [ho] at hsome
        cases hsome
        exact ⟨hsame, hfails⟩
      · intro h
        obtain ⟨hsame, hfails⟩ := h rfl x hx o ho
        exact ⟨hfails, hsame⟩
  | tell =>
    have hcall : FileOp.call ext2 s fd .tell = some (FdEntry.offset.get (s.entry i) 0, s) := by
      simp only [FileOp.call, vfsFileTell, callOnEntry_mount hfd hm, hfst, ext2FileTell, hx]
    rw [noEffect_iff_of_call hcall]
    exact ⟨fun h _ => h.1, fun h => ⟨h rfl, .refl ext2 s⟩⟩
  | flush =>
    have hcall : FileOp.call ext2 s fd .flush = none := by
      simp only [FileOp.call, vfsFileFlush, callOnEntry_mount hfd hm, hfst, Option.map_none]
    constructor
    · rintro ⟨r, s', h, -⟩
      rw [hcall] at h
      cases h
    · intro h
      exact nomatch h.1

/-- The mount a path resolves to is one of the list. -/
theorem Registered.found {path rest : List Byte} {mount : VfsMount Unit Fst} (h : Registered s)
    (hfound : getMountFromPath path s.mounts = some (mount, rest)) :
    ∃ m : Mount Unit Fst, mount = m.node ∧ s.registered m.fst m.internalIndex := by
  rw [h.built.getMountFromPath_eq] at hfound
  obtain ⟨m, hm, heq⟩ := Option.map_eq_some_iff.mp hfound
  cases heq
  exact ⟨m, rfl, h.slots m (List.mem_of_find?_eq_some hm)⟩

/-- A call on a descriptor that is not open fails and has no effect exactly when it is
harmless: the descriptor is past the table, or in it and its names lead to no mount, to a
fifo that is not flushed or is empty, or to ext2 for a write of nothing that fails, or for a
seek or tell that finds the failure value as the offset. -/
theorem closed_call_noEffect_iff (ext2 : Ext2 σ) (hreach : Reaches (Event ext2) initial s)
    (hclosed : ¬ s.IsOpen fd) (op : FileOp) :
    s.NoEffect ext2 op fd ↔ s.Harmless ext2 op fd := by
  have hreg := registered_of_reaches hreach
  unfold Harmless
  cases hfd : getFileDescriptor fd with
  | null =>
    have hpast : (VFS_COMPAT_MAX_OPEN_FILES : Int) ≤ fd := by
      by_contra hlt
      unfold getFileDescriptor at hfd
      rw [if_neg hlt] at hfd
      split at hfd <;> cases hfd
    exact ⟨fun _ => .inl hpast, fun _ => noEffect_unresolved (.inl hfd)⟩
  | outside =>
    obtain ⟨hlt, hneg⟩ : ¬ (VFS_COMPAT_MAX_OPEN_FILES : Int) ≤ fd ∧ fd < 0 := by
      unfold getFileDescriptor at hfd
      split at hfd
      · cases hfd
      split at hfd
      · exact ⟨‹_›, ‹_›⟩
      · cases hfd
    constructor
    · intro h
      exact absurd h (not_noEffect_outside hfd)
    · intro h
      omega
  | entry i =>
    obtain ⟨hlt, hpos, rfl⟩ : ¬ (VFS_COMPAT_MAX_OPEN_FILES : Int) ≤ fd ∧ 0 ≤ fd ∧ fd.toNat = i := by
      unfold getFileDescriptor at hfd
      split at hfd
      · cases hfd
      split at hfd
      · cases hfd
      · cases hfd
        exact ⟨‹_›, by omega, rfl⟩
    have hloaded : FdEntry.loaded.get (s.entry fd.toNat) 0 = 0 := by
      by_contra hne
      exact hclosed ⟨hpos, by omega, hne⟩
    cases hm : getMountFromPath (fullPath (s.entry fd.toNat)) s.mounts with
    | none =>
      refine ⟨fun _ => .inr ⟨hpos, fun m native h => ?_⟩, fun _ => noEffect_unresolved (.inr ⟨_, hfd, hm⟩)⟩
      cases h
    | some found =>
      obtain ⟨mount, native⟩ := found
      obtain ⟨m, rfl, hslot⟩ := hreg.found hm
      have hiff : s.NoEffect ext2 op fd ↔
          s.HarmlessOn ext2 m.fst m.internalIndex (s.entry fd.toNat) op := by
        cases hfst : m.fst with
        | ext2 => exact hfst ▸ noEffect_ext2_iff hfd hm hfst hslot hloaded
        | fifo => exact hfst ▸ noEffect_fifo_iff hfd hm hfst hslot hloaded
      rw [hiff]
      constructor
      · intro h
        refine .inr ⟨hpos, fun m' native' heq => ?_⟩
        obtain rfl : m = m' := Mount.node_injective (congrArg Prod.fst (Option.some.inj heq))
        exact h
      · rintro (h | h)
        · exact absurd h hlt
        · exact h.2 m native rfl

end closed

/-- One file per partition, of 16 bytes, whatever its path. -/
def plainExt2 : Ext2 Bytes where
  readFile x _ buffer size skip := if size + skip ≤ 16 then (EXT2_RESULT_OK, copy buffer 0 x skip size)
    else (EXT2_RESULT_ERROR, buffer)
  writeFile x _ buffer size skip := (EXT2_RESULT_OK, copy x skip buffer 0 size)
  getFileSize _ _ := 16
  content x _ := some x

/-- An ext2 partition mounted as `a`. -/
def plainMounted : State Bytes :=
  initial.mountFs ⟨⟨[0x61#8], by decide⟩, by decide⟩ .ext2 (fun _ => 0)
    ⟨fun _ => 0, 0, 0, 1024, by decide⟩

/-- After `a/b` is opened. -/
def plainOpened : State Bytes :=
  ((plainMounted.vfsFileOpen [0x61#8, 0x2f#8, 0x62#8] 0 0).map Prod.snd).getD plainMounted

/-- After the descriptor is closed again. -/
def plainClosed : State Bytes := ((plainOpened.vfsFileClose 0).map Prod.snd).getD plainOpened

theorem reaches_plainOpened : Reaches (Event plainExt2) initial plainOpened := by
  have hopen : (plainMounted.vfsFileOpen [0x61#8, 0x2f#8, 0x62#8] 0 0).isSome := by decide +kernel
  obtain ⟨⟨r, t⟩, ho⟩ := Option.isSome_iff_exists.mp hopen
  have ht : plainOpened = t := by rw [plainOpened, ho]; rfl
  rw [ht]
  exact (Relation.ReflTransGen.single (.mount _ _ _ _ _)).tail (.open _ _ _ _ _ _ ho)

theorem reaches_plainClosed : Reaches (Event plainExt2) initial plainClosed := by
  have hclose : (plainOpened.vfsFileClose 0).isSome := by decide +kernel
  obtain ⟨⟨r, t⟩, hc⟩ := Option.isSome_iff_exists.mp hclose
  have ht : plainClosed = t := by rw [plainClosed, hc]; rfl
  rw [ht]
  exact reaches_plainOpened.tail (.close _ _ _ _ hc)

theorem not_isOpen_plainClosed : ¬ plainClosed.IsOpen 0 := by
  intro h
  have hloaded : plainClosed.descriptors.fileLoaded 0 = 0 := by decide +kernel
  exact h.2.2 hloaded

/-- A tell on the closed descriptor, which was opened and not moved. -/
theorem closed_call_noEffect_iff_plain : plainClosed.NoEffect plainExt2 .tell 0 :=
  (closed_call_noEffect_iff plainExt2 reaches_plainClosed not_isOpen_plainClosed _).mpr
    (.inr ⟨Int.le_refl 0, fun _ _ _ _ => .inr (by decide +kernel)⟩)

/-- A seek of the closed descriptor succeeds. -/
theorem not_closed_call_noEffect : ¬ ∀ (σ : Type) (ext2 : Ext2 σ) s,
    Reaches (Event ext2) initial s → ∀ fd op, ¬ s.IsOpen fd → s.NoEffect ext2 op fd := by
  intro h
  obtain ⟨r, s', hcall, hfails, -⟩ := h Bytes plainExt2 plainClosed reaches_plainClosed 0
    (.seek 5 SEEK_SET) not_isOpen_plainClosed
  have hfive : (FileOp.call plainExt2 plainClosed 0 (.seek 5 SEEK_SET)).map Prod.fst = some 5 := by
    decide +kernel
  rw [hcall] at hfive
  obtain rfl : r = 5 := Option.some.inj hfive
  rcases hfails with h | h <;> exact absurd h (by decide)

end State
end Vfs
