import UnedKernel.Vfs.DirectoryRuns

/-! # The directory table without its nodes

`Descriptors` has the list of a directory in place of the pointer to it. The calls on
the table do there what they do to the nodes. -/

namespace Vfs
open ByteMem CString Blocks

namespace DirTable

variable {s t : DirTable} {ls : Nat → List Nat} {path mount : List Byte} {block : Block}
  {flags mode fd n : Nat}

/-- The list of an entry by what its nodes hold. -/
def entries (s : DirTable) : List Nat → DentryList
  | [] => .null
  | _ :: as => .live (as.map s.nodes.bytes)

/-- The tables are the same, and a list of nodes stands for what it holds. -/
structure Represents (s : DirTable) (ls : Nat → List Nat) (d : Descriptors) : Prop where
  files : d.files = s.files
  cursor : d.dirCursor = s.cursor
  dirs : ∀ i, d.dirs i =
    ⟨(s.dirs i).fd, s.entries (ls i), (s.dirs i).number, (s.dirs i).index⟩

variable {d : Descriptors} {r : Int}

theorem Represents.loaded (h : Represents s ls d) (i : Nat) : d.dirLoaded i = s.loaded i := by
  unfold Descriptors.dirLoaded DirTable.loaded
  rw [h.dirs i]

theorem Represents.openAt (h : Represents s ls d)
    (hfresh : ∀ i, block.addr ∉ ls i) :
    Represents (s.openAt fd path mount flags mode block) (Function.update ls fd [block.addr])
      { d.setDir fd ⟨Descriptors.openEntry (d.dirs fd).fd path mount flags mode, .live [], 0, 0⟩ with
        dirCursor := fd + 1 } where
  files := h.files
  cursor := rfl
  dirs := by
    intro i
    by_cases hi : i = fd
    · subst hi
      rw [h.dirs i]
      unfold DirTable.openAt Descriptors.setDir
      simp only [Function.update_self]
      rfl
    · unfold DirTable.openAt Descriptors.setDir
      simp only [Function.update_of_ne hi]
      rw [h.dirs i]
      congr 1
      cases hls : ls i with
      | nil => rfl
      | cons p as =>
        have hne (q : Nat) (hq : q ∈ as) : q ≠ block.addr := by
          intro heq
          exact hfresh i (hls ▸ heq ▸ List.mem_cons_of_mem p hq)
        refine congrArg DentryList.live (List.map_congr_left fun q hq => ?_)
        unfold Nodes.write Nodes.kmalloc
        simp only [Function.update_of_ne (hne q hq)]

theorem Represents.getDirfdFrom (h : Represents s ls d) (hfresh : ∀ i, block.addr ∉ ls i)
    (hget : DirTable.getDirfdFrom path mount flags mode block n s = some (r, t)) :
    ∃ d' ls', Descriptors.getDirfdFrom path mount flags mode n d = some (r, d') ∧
      Represents t ls' d' := by
  induction n generalizing s d with
  | zero =>
    cases hget
    exact ⟨d, ls, rfl, h⟩
  | succ n ih =>
    unfold DirTable.getDirfdFrom at hget
    unfold Descriptors.getDirfdFrom
    simp only [h.cursor, h.loaded s.cursor]
    simp only at hget
    by_cases hout : VFS_COMPAT_MAX_OPEN_DIRECTORIES ≤ s.cursor
    · rw [if_pos hout] at hget
      cases hget
    · rw [if_neg hout] at hget ⊢
      by_cases hfree : s.loaded s.cursor = 0
      · rw [if_pos hfree] at hget ⊢
        cases hget
        exact ⟨_, _, rfl, h.openAt hfresh⟩
      · rw [if_neg hfree] at hget ⊢
        refine ih (s := { s with cursor := _ }) ?_ hget
        exact ⟨h.files, rfl, h.dirs⟩

/-- `get_dirfd` without the nodes does what it does with them. -/
theorem Represents.getDirfd (h : Represents s ls d) (howns : Owns s ls)
    (hfresh : block.addr ∉ live s.nodes.trace)
    (hget : s.getDirfd path mount flags mode block = some (r, t)) :
    ∃ d' ls', d.getDirfd path mount flags mode = some (r, d') ∧ Represents t ls' d' := by
  unfold DirTable.getDirfd at hget
  unfold Descriptors.getDirfd
  split at hget
  · rename_i hlong
    cases hget
    exact ⟨d, ls, if_pos hlong, h⟩
  · rename_i hpath
    rw [if_neg hpath]
    split at hget
    · rename_i hlong
      cases hget
      exact ⟨d, ls, if_pos hlong, h⟩
    · rename_i hmount
      rw [if_neg hmount]
      exact h.getDirfdFrom (fun i hi => hfresh ((howns.live_iff _).mpr ⟨i, hi⟩)) hget

theorem releaseFiles_eq (path : List Byte) (n : Nat) (d : Descriptors) :
    Descriptors.releaseFiles path n d =
      ((closeMatching path n d.files).1, { d with files := (closeMatching path n d.files).2 }) := by
  induction n with
  | zero => rfl
  | succ n ih =>
    rw [Descriptors.releaseFiles, ih, closeMatching]
    simp only
    split
    · rfl
    · rfl

/-- The entries `fds` in the table of the directories. -/
def withFds (d : Descriptors) (fds : Nat → Bytes) : Descriptors :=
  { d with dirs := fun i => { d.dirs i with fd := fds i } }

theorem withFds_fd (d : Descriptors) (fds : Nat → Bytes) (i : Nat) :
    ((withFds d fds).dirs i).fd = fds i := rfl

theorem setDir_withFds (d : Descriptors) (fds : Nat → Bytes) (n : Nat) (e : Bytes) :
    (withFds d fds).setDir n { (withFds d fds).dirs n with fd := e } =
      withFds d (Function.update fds n e) := by
  have hdirs : Function.update (withFds d fds).dirs n { (withFds d fds).dirs n with fd := e } =
      (withFds d (Function.update fds n e)).dirs := by
    funext i
    unfold withFds
    by_cases hi : i = n
    · subst hi
      simp only [Function.update_self]
    · simp only [Function.update_of_ne hi]
  exact congrArg (fun dirs => { d with dirs := dirs }) hdirs

theorem releaseDirs_eq (path : List Byte) (n : Nat) (d : Descriptors) :
    Descriptors.releaseDirs path n d = ((closeMatching path n fun i => (d.dirs i).fd).1,
      withFds d (closeMatching path n fun i => (d.dirs i).fd).2) := by
  induction n with
  | zero => rfl
  | succ n ih =>
    rw [Descriptors.releaseDirs, ih, closeMatching]
    simp only [setDir_withFds, withFds_fd]
    split
    · rfl
    · rfl

/-- The loops of `force_release` without the nodes do what they do with them. -/
theorem Represents.closeBoth (h : Represents s ls d) (path : List Byte) (n k : Nat) :
    (Descriptors.releaseBoth path n k d).1 = (DirTable.closeBoth path n k s).1 ∧
      Represents (DirTable.closeBoth path n k s).2 ls (Descriptors.releaseBoth path n k d).2 := by
  have hfds : (fun i => (d.dirs i).fd) = fun i => (s.dirs i).fd := by
    funext i
    rw [h.dirs i]
  unfold Descriptors.releaseBoth DirTable.closeBoth
  simp only [releaseFiles_eq, releaseDirs_eq, h.files, hfds]
  refine ⟨trivial, rfl, h.cursor, fun i => ?_⟩
  unfold withFds
  simp only [h.dirs i]
  rfl

theorem Represents.forceRelease (h : Represents s ls d) (path : List Byte) :
    (d.forceRelease path).1 = (s.forceRelease path).1 ∧
      Represents (s.forceRelease path).2 ls (d.forceRelease path).2 :=
  h.closeBoth path VFS_COMPAT_MAX_OPEN_FILES VFS_COMPAT_MAX_OPEN_DIRECTORIES

end DirTable
end Vfs
