import UnedKernel.Vfs.ClosedCalls

/-! # The offset of an open file

To the callers of `vfs_interface.c` an open file is a place in a file: a call
that transfers bytes moves it past them, a call that fails leaves it where it
is. The descriptors of `generic_ext2.h` are compared with that. -/

namespace Vfs
open ByteMem CString Word Run
open UnedKernel.Ext2 (EXT2_RESULT_OK)

variable {σ : Type}

/-- A call that transfers bytes, or one that seeks. -/
inductive Transfer where
  | read (buffer : Bytes) (size : Nat)
  | write (buffer : Bytes) (size : Nat)
  | seek (offset : Nat) (whence : Int)

/-- The call: its result, the buffer that a read fills, and the state after it. -/
def Transfer.call (ext2 : Ext2 σ) (s : State σ) (fd : Int) :
    Transfer → Option ((Nat × Option Bytes) × State σ)
  | .read buffer size => (s.vfsFileRead ext2 fd buffer size).map fun r => ((r.1.1, some r.1.2), r.2)
  | .write buffer size => (s.vfsFileWrite ext2 fd buffer size).map fun r => ((r.1, none), r.2)
  | .seek offset whence => (s.vfsFileSeek ext2 fd offset whence).map fun r => ((r.1, none), r.2)

/-- A place in a file of a partition. -/
@[ext] structure Cursor (σ : Type) where
  path : List Byte
  files : σ
  offset : Nat

namespace Cursor

/-- A transfer of `size` bytes that returned `r`. -/
def advance (c : Cursor σ) (r size : Nat) : Cursor σ :=
  if r = EXT2_RESULT_OK then { c with offset := u64 (c.offset + size) } else c

/-- Where a seek goes. -/
def target (ext2 : Ext2 σ) (c : Cursor σ) (offset : Nat) (whence : Int) : Option Nat :=
  if whence = SEEK_SET then some (u64 offset)
  else if whence = SEEK_CUR then some (u64 (c.offset + offset))
  else if whence = SEEK_END then some (u64 (ext2.getFileSize c.files c.path + offset))
  else none

def seek (ext2 : Ext2 σ) (c : Cursor σ) (offset : Nat) (whence : Int) : Cursor σ :=
  match c.target ext2 offset whence with
  | none => c
  | some o => { c with offset := o }

/-- The partition after a write at the cursor. -/
def written (ext2 : Ext2 σ) (c : Cursor σ) (buffer : Bytes) (size : Nat) : Cursor σ :=
  { c with files := (ext2.writeFile c.files c.path buffer size c.offset).2 }

/-- What the file system returns for a read at the cursor. -/
def readResult (ext2 : Ext2 σ) (c : Cursor σ) (buffer : Bytes) (size : Nat) : Nat :=
  throughInt (ext2.readFile c.files c.path buffer size c.offset).1

/-- What the file system returns for a write at the cursor. -/
def writeResult (ext2 : Ext2 σ) (c : Cursor σ) (buffer : Bytes) (size : Nat) : Nat :=
  throughInt (ext2.writeFile c.files c.path buffer size c.offset).1

/-- What a call gives its caller. -/
def output (ext2 : Ext2 σ) (c : Cursor σ) : Transfer → Nat × Option Bytes
  | .read buffer size => (c.readResult ext2 buffer size,
      some (ext2.readFile c.files c.path buffer size c.offset).2)
  | .write buffer size => (c.writeResult ext2 buffer size, none)
  | .seek offset whence => ((c.target ext2 offset whence).getD 0, none)

/-- The cursor after a call. -/
def step (ext2 : Ext2 σ) (c : Cursor σ) : Transfer → Cursor σ
  | .read buffer size => c.advance (c.readResult ext2 buffer size) size
  | .write buffer size => (c.written ext2 buffer size).advance (c.writeResult ext2 buffer size) size
  | .seek offset whence => c.seek ext2 offset whence

/-- The cursor as the callbacks leave it. -/
def left (ext2 : Ext2 σ) (c : Cursor σ) : Transfer → Cursor σ
  | .read _ _ => c
  | .write buffer size => { c.written ext2 buffer size with offset := u64 (c.offset + size) }
  | .seek offset whence => c.seek ext2 offset whence

/-- A read that transfers nothing, or a write that transfers what it was given. -/
def Steady (ext2 : Ext2 σ) (c : Cursor σ) : Transfer → Prop
  | .read buffer size => c.readResult ext2 buffer size = EXT2_RESULT_OK → u64 size = 0
  | .write buffer size => c.writeResult ext2 buffer size ≠ EXT2_RESULT_OK → u64 size = 0
  | .seek _ _ => True

/-- The place is an offset that a descriptor can hold. -/
def InRange (c : Cursor σ) : Prop := c.offset < 18446744073709551616

end Cursor

namespace State

variable {ext2 : Ext2 σ} {s s' : State σ} {fd : Int} {c : Cursor σ}

/-- The place in a file that an entry of ext2 stands for. -/
def cursor (s : State σ) (fd : Int) : Option (Cursor σ) :=
  match getMountFromPath (fullPath (s.entry fd.toNat)) s.mounts with
  | some (⟨_, _, some .ext2, index⟩, _) => (s.partition index).map fun files =>
      ⟨entryString (s.entry fd.toNat) FdEntry.name, files, FdEntry.offset.get (s.entry fd.toNat) 0⟩
  | _ => none

/-- A sequence of calls does what it would do at the cursor: each call gives its caller
what it gives there, and the descriptor is then where the cursor is. -/
def Follows (ext2 : Ext2 σ) (fd : Int) : Cursor σ → State σ → List Transfer → Prop
  | c, s, [] => s.cursor fd = some c
  | c, s, t :: ts => s.cursor fd = some c ∧
      ∃ s', t.call ext2 s fd = some (c.output ext2 t, s') ∧ Follows ext2 fd (c.step ext2 t) s' ts

/-! ## What one call leaves -/

theorem cursor_eq_some_iff : s.cursor fd = some c ↔ ∃ mount native,
    getMountFromPath (fullPath (s.entry fd.toNat)) s.mounts = some (mount, native) ∧
      mount.fst = some .ext2 ∧ s.partition mount.internalIndex = some c.files ∧
      entryString (s.entry fd.toNat) FdEntry.name = c.path ∧
      FdEntry.offset.get (s.entry fd.toNat) 0 = c.offset := by
  unfold cursor
  constructor
  · intro h
    split at h
    · rename_i device part index native hm
      obtain ⟨x, hx, rfl⟩ := Option.map_eq_some_iff.mp h
      exact ⟨_, _, hm, rfl, hx, by simp only, by simp only⟩
    · cases h
  · rintro ⟨⟨device, part, fst, index⟩, native, hm, hfst, hx, hpath, hoffset⟩
    simp only at hfst hx
    subst hfst
    simp only [hm, hx, hpath, hoffset, Option.map_some]

/-- The open entries of a mounted ext2 partition stand for a place in a file. -/
theorem Registered.exists_cursor (h : Registered s) {m : Mount Unit Fst} {native : List Byte}
    (hm : getMountFromPath (fullPath (s.entry fd.toNat)) s.mounts = some (m.node, native))
    (hfst : m.fst = .ext2) : ∃ c, s.cursor fd = some c := by
  obtain ⟨m', hnode, hslot⟩ := h.found hm
  obtain rfl := Mount.node_injective hnode
  rw [hfst] at hslot
  obtain ⟨x, hx⟩ := Option.isSome_iff_exists.mp hslot
  refine ⟨⟨entryString (s.entry fd.toNat) FdEntry.name, x,
    FdEntry.offset.get (s.entry fd.toNat) 0⟩, cursor_eq_some_iff.mpr ?_⟩
  exact ⟨_, _, hm, congrArg some hfst, hx, by simp only, by simp only⟩

theorem inRange_of_cursor (hc : s.cursor fd = some c) : c.InRange := by
  obtain ⟨_, _, _, _, _, _, hoffset⟩ := cursor_eq_some_iff.mp hc
  unfold Cursor.InRange
  rw [← hoffset]
  exact Field.get_lt _

theorem IsOpen.getFileDescriptor (h : s.IsOpen fd) :
    getFileDescriptor fd = .entry fd.toNat := by
  unfold Vfs.getFileDescriptor
  rw [if_neg (Int.not_le.mpr h.2.1), if_neg (Int.not_lt.mpr h.1)]

theorem partition_setPartition {index : Int} {x x' : σ} (hx : s.partition index = some x) :
    (s.setPartition index.toNat x').partition index = some x' := by
  unfold partition at hx ⊢
  split at hx
  · cases hx
  · rename_i hin
    rw [if_neg hin]
    simp [setPartition]

/-- A call on the entry reaches its partition. -/
theorem callOnEntry_cursor (hopen : s.IsOpen fd) (hc : s.cursor fd = some c) :
    ∃ index, s.partition index = some c.files ∧
      (∀ x, (s.setPartition index.toNat x).cursor fd = some { c with files := x }) ∧
      ∀ {α : Type} (noPath noMount : α) (call : Fst → Int → Nat → Option (α × State σ)),
        s.callOnEntry fd noPath noMount call = call .ext2 index fd.toNat := by
  obtain ⟨mount, native, hm, hfst, hx, hplace⟩ := cursor_eq_some_iff.mp hc
  refine ⟨mount.internalIndex, hx, fun x => ?_, fun noPath noMount call => ?_⟩
  · exact cursor_eq_some_iff.mpr ⟨mount, native, hm, hfst, partition_setPartition hx, hplace⟩
  · unfold callOnEntry
    rw [hopen.getFileDescriptor]
    simp only [hm, hfst]

/-- The names of an entry lie before its offset. -/
theorem entryString_setOffset (e : Bytes) (o a : Nat) :
    entryString (FdEntry.offset.set e 0 o) a = entryString e a := by
  have hbyte (i : Nat) (hi : i ∈ List.range (FdEntry.flags.off + 1 - a)) :
      FdEntry.offset.set e 0 o (a + i) = e (a + i) := by
    have hlt := List.mem_range.mp hi
    apply store_apply_out
    left
    simp only [FdEntry.flags] at hlt
    simp only [FdEntry.offset]
    omega
  unfold entryString
  rw [List.map_congr_left hbyte]

theorem isOpen_setOffset (hopen : s.IsOpen fd) (o : Nat) :
    (s.setEntry fd.toNat (FdEntry.offset.set (s.entry fd.toNat) 0 o)).IsOpen fd := by
  have hloaded := hopen.2.2
  refine ⟨hopen.1, hopen.2.1, ?_⟩
  simp only [Descriptors.fileLoaded] at hloaded ⊢
  simp only [setEntry, Descriptors.setFile_same, State.entry]
  rw [Field.get_set_disjoint _ _ (by decide)]
  exact hloaded

/-- An offset that is stored moves the entry in its file. -/
theorem cursor_setOffset (hc : s.cursor fd = some c) (o : Nat) :
    (s.setEntry fd.toNat (FdEntry.offset.set (s.entry fd.toNat) 0 o)).cursor fd =
      some { c with offset := u64 o } := by
  obtain ⟨mount, native, hm, hfst, hx, hpath, -⟩ := cursor_eq_some_iff.mp hc
  have hentry : (s.setEntry fd.toNat (FdEntry.offset.set (s.entry fd.toNat) 0 o)).entry fd.toNat =
      FdEntry.offset.set (s.entry fd.toNat) 0 o := by simp [setEntry, State.entry]
  have hfull : fullPath (FdEntry.offset.set (s.entry fd.toNat) 0 o) =
      fullPath (s.entry fd.toNat) := by
    unfold fullPath
    rw [entryString_setOffset, entryString_setOffset]
  refine cursor_eq_some_iff.mpr ⟨mount, native, ?_, hfst, hx, ?_, ?_⟩
  · rw [hentry, hfull]
    exact hm
  · rw [hentry, entryString_setOffset]
    exact hpath
  · rw [hentry]
    exact Field.get_set_same _ _

/-- The offset that a seek computes on the entry is the one of the cursor. -/
theorem sought_eq_target (hc : s.cursor fd = some c) (offset : Nat) (whence : Int) :
    sought ext2 c.files (s.entry fd.toNat) offset whence = c.target ext2 offset whence := by
  obtain ⟨_, _, _, _, _, hpath, hoffset⟩ := cursor_eq_some_iff.mp hc
  unfold sought Cursor.target
  rw [hpath, hoffset]

/-- A seek moves the entry as it moves the cursor. -/
theorem ext2FileSeek_cursor {index : Int} (hopen : s.IsOpen fd) (hc : s.cursor fd = some c)
    (hx : s.partition index = some c.files) (offset : Nat) (whence : Int) :
    ∃ s', s.ext2FileSeek ext2 index fd.toNat offset whence =
        ((c.target ext2 offset whence).getD 0, s') ∧
      s'.IsOpen fd ∧ s'.cursor fd = some (c.seek ext2 offset whence) := by
  have hseek := @ext2FileSeek_eq _ ext2 s fd.toNat _ _ hx offset whence
  have htarget := @sought_eq_target _ ext2 _ _ _ hc offset whence
  unfold Cursor.seek
  cases ho : c.target ext2 offset whence with
  | none =>
    rw [htarget, ho] at hseek
    exact ⟨s, hseek, hopen, hc⟩
  | some o =>
    rw [htarget, ho] at hseek
    rw [ho] at htarget
    refine ⟨_, hseek, isOpen_setOffset hopen o, ?_⟩
    rw [cursor_setOffset hc, u64_of_lt (sought_lt htarget)]

/-- What a call gives its caller, and where it leaves the descriptor. -/
theorem call_cursor (hopen : s.IsOpen fd) (hc : s.cursor fd = some c) (t : Transfer) :
    ∃ s', t.call ext2 s fd = some (c.output ext2 t, s') ∧ s'.IsOpen fd ∧
      s'.cursor fd = some (c.left ext2 t) := by
  obtain ⟨index, hx, hpartition, hcall⟩ := callOnEntry_cursor hopen hc
  obtain ⟨_, _, _, _, _, hpath, hoffset⟩ := cursor_eq_some_iff.mp hc
  cases t with
  | read buffer size =>
    have hloaded : FdEntry.loaded.get (s.entry fd.toNat) 0 ≠ 0 := hopen.2.2
    refine ⟨s, ?_, hopen, hc⟩
    simp only [Transfer.call, vfsFileRead, hcall, ext2FileRead, hx, if_neg hloaded, hpath, hoffset,
      Option.map_some]
    rfl
  | write buffer size =>
    -- the write is over, whatever it returned, when the callback seeks
    obtain ⟨w, hw⟩ : ∃ w, ext2.writeFile c.files c.path buffer size c.offset = w := ⟨_, rfl⟩
    obtain ⟨s', hseek, hopen', hc'⟩ := @ext2FileSeek_cursor _ ext2
      (s.setPartition index.toNat w.2) _ _ _ hopen (hpartition w.2) (partition_setPartition hx)
      size SEEK_CUR
    have hleft : c.left ext2 (.write buffer size) =
        Cursor.seek ext2 { c with files := w.2 } size SEEK_CUR := by
      rw [← hw]
      rfl
    rw [hleft]
    refine ⟨s', ?_, hopen', hc'⟩
    simp only [Transfer.call, vfsFileWrite, hcall, ext2FileWrite, hx, hpath, hoffset, hw, hseek,
      Option.map_some, Cursor.output, Cursor.writeResult]
  | seek offset whence =>
    obtain ⟨s', hseek, hopen', hc'⟩ := @ext2FileSeek_cursor _ ext2 _ _ _ _ hopen hc hx offset whence
    refine ⟨s', ?_, hopen', hc'⟩
    simp only [Transfer.call, vfsFileSeek, hcall, hseek, Option.map_some]
    rfl

end State

/-- The callbacks leave the cursor where the call moves it exactly when the call is steady. -/
theorem Cursor.left_eq_step_iff {ext2 : Ext2 σ} {c : Cursor σ} (hc : c.InRange) (t : Transfer) :
    c.left ext2 t = c.step ext2 t ↔ c.Steady ext2 t := by
  have hwrap (size : Nat) : c.offset = u64 (c.offset + size) ↔ u64 size = 0 := by
    unfold InRange at hc
    unfold u64
    omega
  cases t with
  | read buffer size =>
    simp only [left, step, Steady, advance]
    by_cases hr : c.readResult ext2 buffer size = EXT2_RESULT_OK
    · rw [if_pos hr, Cursor.ext_iff]
      simp [hr, hwrap]
    · rw [if_neg hr]
      exact iff_of_true rfl fun h => absurd h hr
  | write buffer size =>
    simp only [left, step, Steady, advance]
    by_cases hr : c.writeResult ext2 buffer size = EXT2_RESULT_OK
    · rw [if_pos hr]
      exact iff_of_true rfl fun h => absurd hr h
    · rw [if_neg hr, Cursor.ext_iff, eq_comm (a := u64 _)]
      simp [hr, hwrap, written]
  | seek offset whence => exact iff_of_true rfl trivial

namespace State

variable {ext2 : Ext2 σ} {s : State σ} {fd : Int} {c : Cursor σ}

/-- Offsets follow the data over a sequence of calls exactly when, at the cursor that the
calls before it moved, no read of a positive size succeeds and no write of one fails. -/
theorem offsets_follow_iff (hopen : s.IsOpen fd) (hc : s.cursor fd = some c) (ts : List Transfer) :
    Follows ext2 fd c s ts ↔
      Throughout (fun c t c' => c' = c.step ext2 t) (fun c t => c.Steady ext2 t) c ts := by
  induction ts generalizing s c with
  | nil => exact iff_of_true hc trivial
  | cons t ts ih =>
    obtain ⟨s', hcall, hopen', hc'⟩ := @call_cursor _ ext2 _ _ _ hopen hc t
    have hiff := @Cursor.left_eq_step_iff _ ext2 _ (inRange_of_cursor hc) t
    constructor
    · rintro ⟨-, s'', hcall'', hrest⟩
      obtain rfl : s' = s'' := (Prod.mk.inj (Option.some.inj (hcall.symm.trans hcall''))).2
      have hnext : s'.cursor fd = some (c.step ext2 t) := by
        cases ts with
        | nil => exact hrest
        | cons t' ts => exact hrest.1
      have heq : c.left ext2 t = c.step ext2 t := Option.some.inj (hc'.symm.trans hnext)
      refine ⟨hiff.mp heq, fun c' hstep => ?_⟩
      subst hstep
      exact (ih hopen' hnext).mp hrest
    · rintro ⟨hsteady, hrest⟩
      rw [hiff.mpr hsteady] at hc'
      exact ⟨hc, s', hcall, (ih hopen' hc').mpr (hrest _ rfl)⟩

theorem isOpen_plainOpened : plainOpened.IsOpen 0 := by
  refine ⟨Int.le_refl 0, by decide, ?_⟩
  decide +kernel

theorem exists_cursor_plainOpened : ∃ c, plainOpened.cursor 0 = some c ∧ c.offset = 0 := by
  have hsome : (plainOpened.cursor 0).map (·.offset) = some 0 := by decide +kernel
  exact Option.map_eq_some_iff.mp hsome

/-- A file that is written only. -/
theorem offsets_follow_iff_plain : ∃ c, plainOpened.cursor 0 = some c ∧
    Follows plainExt2 0 c plainOpened [.seek 5 SEEK_SET, .write (fun _ => 0) 4] := by
  obtain ⟨c, hc, -⟩ := exists_cursor_plainOpened
  refine ⟨c, hc, (offsets_follow_iff isOpen_plainOpened hc _).mpr ⟨trivial, fun c' _ => ⟨?_, ?_⟩⟩⟩
  · intro hfails
    exact absurd rfl hfails
  · intro _ _
    trivial

/-- A read of four bytes leaves the offset at 0. -/
theorem not_offsets_follow : ¬ ∀ (σ : Type) (ext2 : Ext2 σ) s, Reaches (Event ext2) initial s →
    ∀ fd c, s.IsOpen fd → s.cursor fd = some c → ∀ ts, Follows ext2 fd c s ts := by
  intro hall
  obtain ⟨c, hc, hzero⟩ := exists_cursor_plainOpened
  obtain ⟨-, s', hcall, hnext⟩ := hall Bytes plainExt2 plainOpened reaches_plainOpened 0 c
    isOpen_plainOpened hc [.read (fun _ => 0) 4]
  obtain ⟨s'', hcall'', -, hleft⟩ := @call_cursor _ plainExt2 _ _ _ isOpen_plainOpened hc
    (.read (fun _ => 0) 4)
  obtain rfl : s' = s'' := (Prod.mk.inj (Option.some.inj (hcall.symm.trans hcall''))).2
  have hok : c.readResult plainExt2 (fun _ => 0) 4 = EXT2_RESULT_OK := by
    rw [Cursor.readResult, plainExt2, hzero]
    rfl
  have heq : c = c.advance EXT2_RESULT_OK 4 := by
    rw [← hok]
    exact Option.some.inj (hleft.symm.trans hnext)
  have hfour : (c.advance EXT2_RESULT_OK 4).offset = 4 := by
    simp [Cursor.advance, hzero, u64]
  rw [← heq, hzero] at hfour
  exact absurd hfour (by decide)

end State
end Vfs
