import UnedKernel.Ext2.DirectoryEdit

/-! # Files in one piece

What `ext2_path_to_inode` and `ext2_delete_dentry` do when the input and output
of inodes is exact: a path leads over the bytes of the directories, and an entry
is cleared in the bytes of one of them. -/

namespace UnedKernel.Ext2
open ByteMem CString Word

/-- What the inodes hold: whether they are directories, their bytes and how many there are. -/
structure Files where
  isDir : Nat → Bool
  bytes : Nat → Bytes
  length : Nat → Nat

namespace Files

/-- The bytes of inode `k` are replaced. -/
def write (f : Files) (k : Nat) (m : Bytes) : Files :=
  { f with bytes := fun n => if n = k then m else f.bytes n }

/-- The bytes of inode `k` in a buffer. -/
def content (f : Files) (buffer : Bytes) (k : Nat) : Bytes := copy buffer 0 (f.bytes k) 0 (f.length k)

/-- What `ext2_inode_from_path_and_parent` finds. -/
def find (f : Files) (parent : Nat) (path : List Byte) : Option Int :=
  if f.isDir parent then
    match findEntry (f.content (fun _ => 0) parent) path (f.length parent) POSITIONS 0 with
    | none => none
    | some none => some EXT2_INO_PAP_NOTFOUND
    | some (some parsed) =>
      some (int32 (DirectoryEntry.inode.get (f.content (fun _ => 0) parent) parsed))
  else some EXT2_INO_PAP_NOTFOUND

/-- The inode that the tokens lead `ext2_path_to_inode` to. -/
def leadsFrom (f : Files) : (turns inodeIndex : Nat) → (rest : List Byte) → Option Nat
  | 0, _, _ => none
  | turns + 1, inodeIndex, rest =>
    match strtok slash rest with
    | none => none
    | some ([], _) => if inodeIndex = 0 then none else some inodeIndex
    | some (token, rest) =>
      match f.find inodeIndex token with
      | none => none
      | some index =>
        if index = EXT2_INO_PAP_ERROR ∨ index = EXT2_INO_PAP_NOTFOUND then some EXT2_INO_PTI_ERROR
        else f.leadsFrom turns (index % 4294967296).toNat rest

/-- The inode that a path leads `ext2_path_to_inode` to. -/
def leads (f : Files) (path : List Byte) : Option Nat :=
  let copy := path.take (strlen STR_MAX_SIZE path)
  f.leadsFrom (copy.length + 1) EXT2_ROOT_INO_INDEX copy

end Files

/-- The files are the same in both volumes, and the second is good. -/
structure SameFiles (good : Volume → Prop) (files : Volume → Files) (v w : Volume) : Prop where
  good : good w
  files : files w = files v

theorem SameFiles.trans {good : Volume → Prop} {files : Volume → Files} {v w x : Volume}
    (h : SameFiles good files v w) (h' : SameFiles good files w x) : SameFiles good files v x :=
  ⟨h'.good, h'.files.trans h.files⟩

/-- What is asked of the input and output of inodes, in the states `good`: an inode has the mode
and the size of its file, a read returns its bytes, a write replaces them and those of no other
file, and a failure changes nothing. -/
structure ExactFiles (readB : InodeReader) (writeB : InodeWriter) (good : Volume → Prop)
    (files : Volume → Files) : Prop where
  heap : ∀ v, good v → SameFiles good files v (kmalloc v).2
  inode : ∀ v k, good v → SameFiles good files v (readInode v k).2
  mode : ∀ v k inode, good v → (readInode v k).1 = some inode →
    (InodeDescriptor.mode.get inode 0 &&& INODE_TYPE_DIR ≠ 0 ↔ (files v).isDir k = true)
  size : ∀ v k inode, good v → (readInode v k).1 = some inode →
    InodeDescriptor.size.get inode 0 = (files v).length k
  reads : ∀ v k buffer count skip, good v → skip + count ≤ (files v).length k → ∃ result block w,
    readB v k buffer count skip = (result, block, w) ∧ SameFiles good files v w ∧
      (result ≠ EXT2_READ_FAILED → block = copy buffer 0 ((files v).bytes k) skip count)
  writes : ∀ v k source count skip, good v → skip + count ≤ (files v).length k → ∃ result w,
    writeB v k source count skip = (result, w) ∧ good w ∧
      (result = EXT2_WRITE_FAILED → files w = files v) ∧
      (result ≠ EXT2_WRITE_FAILED →
        files w = (files v).write k (copy ((files v).bytes k) skip source 0 count))

/-- Where nothing fails. -/
structure Unfailing (readB : InodeReader) (writeB : InodeWriter) (good : Volume → Prop) : Prop where
  inode : ∀ v k, good v → (readInode v k).1.isSome = true
  reads : ∀ v k buffer count skip, good v → (readB v k buffer count skip).1 ≠ EXT2_READ_FAILED
  writes : ∀ v k source count skip, good v → (writeB v k source count skip).1 ≠ EXT2_WRITE_FAILED

/-- What a call of `ext2_delete_dentry` that returns 0 has done to the files. -/
structure Deletes (f : Files) (path : List Byte) (parent target : Nat) (g : Files) : Prop where
  parentLeads : ∃ parentPath name, pathToParentAndName path = some (parentPath, name) ∧
    f.leads parentPath = some parent
  targetLeads : f.leads path = some target
  nonzero : target ≠ 0
  isDir : f.isDir parent = true
  lengthLt : f.length parent < 4294967296
  cleared : ∃ buffer entry previous,
    findInodeFrom (f.content buffer parent) target (f.length parent) POSITIONS 0 none =
      some (some (entry, previous)) ∧
    g = f.write parent (copy (f.bytes parent) 0 (clearEntry (f.content buffer parent) entry previous) 0
      (f.length parent))

namespace ExactFiles

variable {readB : InodeReader} {writeB : InodeWriter} {good : Volume → Prop} {files : Volume → Files}
  {v w : Volume} {n i turns : Nat} {c rest path : List Byte} {index : Int}

theorem inodeFromPathAndParentBy (h : ExactFiles readB writeB good files) (hv : good v)
    (hfind : Ext2.inodeFromPathAndParentBy readB v n c = some (index, w)) :
    SameFiles good files v w ∧ (index ≠ EXT2_INO_PAP_ERROR → (files v).find n c = some index) := by
  -- the number of turns stays a closed term that nothing evaluates
  obtain ⟨turns, hturns⟩ : ∃ turns, turns = POSITIONS := ⟨_, rfl⟩
  have hinode := h.inode v n hv
  have hmode := h.mode v n
  have hsize := h.size v n
  rw [Ext2.inodeFromPathAndParentBy, ← hturns] at hfind
  rw [Files.find, ← hturns]
  cases hread : readInode v n with
  | mk inode v₁ =>
    rw [hread] at hfind hinode hmode hsize
    cases inode with
    | none =>
      obtain ⟨rfl, rfl⟩ := Prod.mk.inj (Option.some.inj hfind)
      exact ⟨hinode, fun hne => absurd rfl hne⟩
    | some inode =>
      simp only [hsize inode hv rfl] at hfind
      have hmode := hmode inode hv rfl
      by_cases hdir : (files v).isDir n = true
      · rw [if_pos (hmode.mpr hdir)] at hfind
        rw [if_pos hdir]
        obtain ⟨read, block, v₂, hbytes, hsame, hblock⟩ := h.reads v₁ n (fun _ => 0)
          ((files v).length n) 0 hinode.good (by rw [hinode.files, Nat.zero_add])
        have hsame := hinode.trans hsame
        simp only [hbytes] at hfind
        split at hfind
        · obtain ⟨rfl, rfl⟩ := Prod.mk.inj (Option.some.inj hfind)
          exact ⟨hsame, fun hne => absurd rfl hne⟩
        · rename_i hok
          have hblock : block = (files v).content (fun _ => 0) n := by
            rw [hblock hok, hinode.files]
            rfl
          rw [← hblock]
          cases hentry : findEntry block c ((files v).length n) turns 0 with
          | none =>
            rw [hentry] at hfind
            cases hfind
          | some found =>
            rw [hentry] at hfind
            cases found with
            | none =>
              obtain ⟨rfl, rfl⟩ := Prod.mk.inj (Option.some.inj hfind)
              exact ⟨hsame, fun _ => rfl⟩
            | some parsed =>
              obtain ⟨rfl, rfl⟩ := Prod.mk.inj (Option.some.inj hfind)
              exact ⟨hsame, fun _ => rfl⟩
      · rw [if_neg (mt hmode.mp hdir)] at hfind
        rw [if_neg hdir]
        obtain ⟨rfl, rfl⟩ := Prod.mk.inj (Option.some.inj hfind)
        exact ⟨hinode, fun _ => rfl⟩

theorem pathToInodeFromBy (h : ExactFiles readB writeB good files) (hv : good v)
    (hpath : Ext2.pathToInodeFromBy readB v turns n rest = some (i, w)) :
    SameFiles good files v w ∧ (i ≠ 0 → (files v).leadsFrom turns n rest = some i) := by
  induction turns generalizing v n rest with
  | zero => cases hpath
  | succ turns ih =>
    rw [Ext2.pathToInodeFromBy] at hpath
    rw [Files.leadsFrom]
    cases htoken : strtok slash rest with
    | none =>
      rw [htoken] at hpath
      cases hpath
    | some t =>
      obtain ⟨token, rest⟩ := t
      rw [htoken] at hpath
      cases token with
      | nil =>
        simp only at hpath ⊢
        split at hpath
        · cases hpath
        · rename_i hne
          obtain ⟨rfl, rfl⟩ := Prod.mk.inj (Option.some.inj hpath)
          exact ⟨⟨hv, rfl⟩, fun _ => if_neg hne⟩
      | cons b token =>
        cases hstep : Ext2.inodeFromPathAndParentBy readB v n (b :: token) with
        | none =>
          simp only [hstep] at hpath
          cases hpath
        | some found =>
          obtain ⟨index, v₁⟩ := found
          obtain ⟨hsame, hfind⟩ := h.inodeFromPathAndParentBy hv hstep
          simp only [hstep] at hpath
          split at hpath
          · obtain ⟨rfl, rfl⟩ := Prod.mk.inj (Option.some.inj hpath)
            exact ⟨hsame, fun hne => absurd rfl hne⟩
          · rename_i herror
            obtain ⟨hrest, hleads⟩ := ih hsame.good hpath
            refine ⟨hsame.trans hrest, fun hne => ?_⟩
            simp only [hfind fun he => herror (.inl he), if_neg herror]
            rw [← hsame.files]
            exact hleads hne

/-- A path search that returns an inode goes the way that the bytes of the directories lead. -/
theorem pathToInodeBy (h : ExactFiles readB writeB good files) (hv : good v)
    (hpath : Ext2.pathToInodeBy readB v path = some (i, w)) :
    SameFiles good files v w ∧ (i ≠ 0 → (files v).leads path = some i) :=
  h.pathToInodeFromBy hv hpath

/-- In the parent directory the first entry of the inode is cleared. -/
theorem deleteEntryBy (h : ExactFiles readB writeB good files) (hv : good v) {inode : Bytes}
    {parent target : Nat}
    (hmode : InodeDescriptor.mode.get inode 0 &&& INODE_TYPE_DIR ≠ 0 ↔ (files v).isDir parent = true)
    (hsize : InodeDescriptor.size.get inode 0 = (files v).length parent)
    (hret : Ext2.deleteEntryBy readB writeB v inode parent target = some (0, w)) :
    (files v).isDir parent = true ∧ ∃ buffer entry previous,
      findInodeFrom ((files v).content buffer parent) target ((files v).length parent) POSITIONS 0
        none = some (some (entry, previous)) ∧
      files w = (files v).write parent (copy ((files v).bytes parent) 0
        (clearEntry ((files v).content buffer parent) entry previous) 0 ((files v).length parent)) := by
  obtain ⟨turns, hturns⟩ : ∃ turns, turns = POSITIONS := ⟨_, rfl⟩
  rw [Ext2.deleteEntryBy, ← hturns] at hret
  rw [← hturns]
  split at hret
  · rename_i hdir
    refine ⟨hmode.mp hdir, ?_⟩
    have hheap := h.heap v hv
    simp only [hsize] at hret
    obtain ⟨read, block, v₁, hread, hsame, hblock⟩ := h.reads (kmalloc v).2 parent (kmalloc v).1
      ((files v).length parent) 0 hheap.good (by rw [hheap.files, Nat.zero_add])
    have hsame := hheap.trans hsame
    simp only [hread] at hret
    split at hret
    · cases hret
    · rename_i hok
      have hblock : block = (files v).content (kmalloc v).1 parent := by
        rw [hblock hok, hheap.files]
        rfl
      rw [hblock] at hret
      refine ⟨(kmalloc v).1, ?_⟩
      split at hret
      · cases hret
      · cases hret
      · rename_i entry previous hloop
        obtain ⟨written, v₂, hwrite, hv₂, hbad, hgood⟩ := h.writes v₁ parent
          (clearEntry ((files v).content (kmalloc v).1 parent) entry previous)
          ((files v).length parent) 0 hsame.good (by rw [hsame.files, Nat.zero_add])
        simp only [hwrite] at hret
        split at hret
        · cases hret
        · rename_i hdone
          cases hret
          refine ⟨entry, previous, hloop, ?_⟩
          rw [hgood hdone, hsame.files]
  · cases hret

/-- A call of `ext2_delete_dentry` that returns 0 clears an entry. -/
theorem deleteDentryBy (h : ExactFiles readB writeB good files) (hv : good v)
    (hret : Ext2.deleteDentryBy readB writeB v path = some (0, w)) :
    ∃ parent target, Deletes (files v) path parent target (files w) := by
  rw [Ext2.deleteDentryBy] at hret
  split at hret
  · cases hret
  · rename_i parentPath name hsplit
    split at hret
    · cases hret
    · rename_i parent v₁ hparent
      obtain ⟨hv₁, hleads⟩ := h.pathToInodeBy hv hparent
      split at hret
      · cases hret
      · rename_i hparentNe
        have hinode := h.inode v₁ parent hv₁.good
        have hmode := h.mode v₁ parent
        have hsize := h.size v₁ parent
        split at hret
        · cases hret
        · rename_i inode v₂ hread
          rw [hread] at hinode hmode hsize
          have hmode := hmode inode hv₁.good rfl
          have hsize := hsize inode hv₁.good rfl
          have hv₂ := hv₁.trans hinode
          split at hret
          · cases hret
          · rename_i target v₃ htarget
            obtain ⟨hv₃, hleads'⟩ := h.pathToInodeBy hv₂.good htarget
            have hv₃ := hv₂.trans hv₃
            split at hret
            · cases hret
            · rename_i htargetNe
              rw [hv₁.files, ← hv₃.files] at hmode hsize
              obtain ⟨hdir, hcleared⟩ := h.deleteEntryBy hv₃.good hmode hsize hret
              rw [hv₃.files] at hdir hcleared hsize
              rw [hv₂.files] at hleads'
              exact ⟨parent, target, ⟨parentPath, name, hsplit, hleads hparentNe⟩, hleads' htargetNe,
                htargetNe, hdir, hsize ▸ InodeDescriptor.size.get_lt inode, hcleared⟩

/-! ## Where nothing fails -/

section unfailing

variable (hun : Unfailing readB writeB good)
include hun

theorem inodeFromPathAndParentBy_eq (h : ExactFiles readB writeB good files) (hv : good v)
    (hfind : (files v).find n c = some index) :
    ∃ w, Ext2.inodeFromPathAndParentBy readB v n c = some (index, w) ∧ SameFiles good files v w := by
  obtain ⟨turns, hturns⟩ : ∃ turns, turns = POSITIONS := ⟨_, rfl⟩
  have hinode := h.inode v n hv
  have hmode := h.mode v n
  have hsize := h.size v n
  have hsome := hun.inode v n hv
  rw [Files.find, ← hturns] at hfind
  rw [Ext2.inodeFromPathAndParentBy, ← hturns]
  cases hread : readInode v n with
  | mk inode v₁ =>
    rw [hread] at hinode hmode hsize hsome
    obtain ⟨inode, rfl⟩ := Option.isSome_iff_exists.mp hsome
    have hmode := hmode inode hv rfl
    simp only [hsize inode hv rfl]
    by_cases hdir : (files v).isDir n = true
    · rw [if_pos hdir] at hfind
      rw [if_pos (hmode.mpr hdir)]
      have hok := hun.reads v₁ n (fun _ => 0) ((files v).length n) 0 hinode.good
      obtain ⟨read, block, v₂, hbytes, hsame, hblock⟩ := h.reads v₁ n (fun _ => 0)
        ((files v).length n) 0 hinode.good (by rw [hinode.files, Nat.zero_add])
      rw [hbytes] at hok
      have hblock : block = (files v).content (fun _ => 0) n := by
        rw [hblock hok, hinode.files]
        rfl
      simp only [hbytes]
      rw [if_neg hok, hblock]
      cases hentry : findEntry ((files v).content (fun _ => 0) n) c ((files v).length n) turns 0 with
      | none =>
        rw [hentry] at hfind
        cases hfind
      | some found =>
        rw [hentry] at hfind
        cases found with
        | none =>
          cases hfind
          exact ⟨v₂, rfl, hinode.trans hsame⟩
        | some parsed =>
          cases hfind
          exact ⟨v₂, rfl, hinode.trans hsame⟩
    · rw [if_neg hdir] at hfind
      rw [if_neg (mt hmode.mp hdir)]
      cases hfind
      exact ⟨v₁, rfl, hinode⟩

theorem pathToInodeFromBy_eq (h : ExactFiles readB writeB good files) (hv : good v)
    (hleads : (files v).leadsFrom turns n rest = some i) :
    ∃ w, Ext2.pathToInodeFromBy readB v turns n rest = some (i, w) ∧ SameFiles good files v w := by
  induction turns generalizing v n rest with
  | zero => cases hleads
  | succ turns ih =>
    rw [Files.leadsFrom] at hleads
    rw [Ext2.pathToInodeFromBy]
    cases htoken : strtok slash rest with
    | none =>
      rw [htoken] at hleads
      cases hleads
    | some t =>
      obtain ⟨token, rest⟩ := t
      rw [htoken] at hleads
      cases token with
      | nil =>
        simp only at hleads ⊢
        split at hleads
        · cases hleads
        · rename_i hne
          cases hleads
          exact ⟨v, by rw [if_neg hne], ⟨hv, rfl⟩⟩
      | cons b token =>
        cases hfind : (files v).find n (b :: token) with
        | none =>
          simp only [hfind] at hleads
          cases hleads
        | some index =>
          obtain ⟨v₁, hstep, hsame⟩ := inodeFromPathAndParentBy_eq hun h hv hfind
          simp only [hfind] at hleads
          simp only [hstep]
          split at hleads
          · rename_i herror
            cases hleads
            rw [if_pos herror]
            exact ⟨v₁, rfl, hsame⟩
          · rename_i herror
            rw [← hsame.files] at hleads
            obtain ⟨w, hpath, hw⟩ := ih hsame.good hleads
            rw [if_neg herror]
            exact ⟨w, hpath, hsame.trans hw⟩

/-- The path search returns what the bytes of the directories lead to. -/
theorem pathToInodeBy_eq (h : ExactFiles readB writeB good files) (hv : good v)
    (hleads : (files v).leads path = some i) :
    ∃ w, Ext2.pathToInodeBy readB v path = some (i, w) ∧ SameFiles good files v w :=
  pathToInodeFromBy_eq hun h hv hleads

/-- `ext2_delete_dentry` returns 0 where the two searches lead to a directory with the inode. -/
theorem deleteDentryBy_eq (h : ExactFiles readB writeB good files) (hv : good v)
    {parentPath name : List Byte} {parent target : Nat}
    (hsplit : pathToParentAndName path = some (parentPath, name))
    (hparent : (files v).leads parentPath = some parent) (hparentNe : parent ≠ EXT2_INO_PTI_ERROR)
    (htarget : (files v).leads path = some target) (htargetNe : target ≠ EXT2_INO_PTI_ERROR)
    (hdir : (files v).isDir parent = true)
    (hfind : ∀ buffer, ∃ entry previous, findInodeFrom ((files v).content buffer parent) target
      ((files v).length parent) POSITIONS 0 none = some (some (entry, previous))) :
    ∃ w, Ext2.deleteDentryBy readB writeB v path = some (0, w) := by
  obtain ⟨turns, hturns⟩ : ∃ turns, turns = POSITIONS := ⟨_, rfl⟩
  obtain ⟨v₁, hpath, hv₁⟩ := pathToInodeBy_eq hun h hv hparent
  have hinode := h.inode v₁ parent hv₁.good
  have hmode := h.mode v₁ parent
  have hsize := h.size v₁ parent
  have hsome := hun.inode v₁ parent hv₁.good
  rw [Ext2.deleteDentryBy, hsplit]
  simp only [hpath]
  rw [if_neg hparentNe]
  cases hread : readInode v₁ parent with
  | mk inode v₂ =>
    rw [hread] at hinode hmode hsize hsome
    obtain ⟨inode, rfl⟩ := Option.isSome_iff_exists.mp hsome
    have hmode := hmode inode hv₁.good rfl
    have hsize := hsize inode hv₁.good rfl
    have hv₂ := hv₁.trans hinode
    rw [← hv₂.files] at htarget
    obtain ⟨v₃, hpath', hv₃⟩ := pathToInodeBy_eq hun h hv₂.good htarget
    have hv₃ := hv₂.trans hv₃
    rw [hv₁.files] at hmode hsize
    simp only [hpath']
    rw [if_neg htargetNe, Ext2.deleteEntryBy, if_pos (hmode.mpr hdir), ← hturns]
    have hheap := hv₃.trans (h.heap v₃ hv₃.good)
    have hok := hun.reads (kmalloc v₃).2 parent (kmalloc v₃).1 ((files v).length parent) 0 hheap.good
    obtain ⟨read, block, v₄, hread', hsame, hblock⟩ := h.reads (kmalloc v₃).2 parent (kmalloc v₃).1
      ((files v).length parent) 0 hheap.good (by rw [hheap.files, Nat.zero_add])
    rw [hread'] at hok
    have hblock : block = (files v).content (kmalloc v₃).1 parent := by
      rw [hblock hok, hheap.files]
      rfl
    obtain ⟨entry, previous, hloop⟩ := hfind (kmalloc v₃).1
    rw [← hturns] at hloop
    simp only [hsize, hread']
    rw [if_neg hok, hblock, hloop]
    have hdone := hun.writes v₄ parent (clearEntry ((files v).content (kmalloc v₃).1 parent) entry previous)
      ((files v).length parent) 0 hsame.good
    simp only
    rw [if_neg hdone]
    exact ⟨_, rfl⟩

end unfailing

end ExactFiles

end UnedKernel.Ext2
