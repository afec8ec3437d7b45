import UnedKernel.Lib.Run
import UnedKernel.Vfs.Compat

/-! # Runs of the open-file table

What `get_fd` hands out over any run of opens and releases: a free entry, filled
with the path and the mount. The cursor is left one past the entry given, so
after the last entry it points outside the table, and a path of 256 bytes has
its terminator where the mount begins. -/

namespace Vfs
open ByteMem CString

namespace Descriptors

variable {s s' : Descriptors} {e : Bytes} {path mount : List Byte} {flags mode n fd : Nat}

/-! ## The entry of a new descriptor -/

theorem strlen_of_le (h : path.length ≤ VFS_FDE_NAME_MAX_LEN) :
    strlen STR_MAX_SIZE path = path.length := by
  simp only [VFS_FDE_NAME_MAX_LEN] at h
  simp only [strlen, STR_MAX_SIZE]
  omega

theorem strlen_gt_iff :
    VFS_FDE_NAME_MAX_LEN < strlen STR_MAX_SIZE path ↔ VFS_FDE_NAME_MAX_LEN < path.length := by
  simp only [strlen, STR_MAX_SIZE, VFS_FDE_NAME_MAX_LEN]
  omega

/-- The two copies of `get_fd` touch the entry up to its flags. -/
theorem openEntry_field {f : Field} (hpath : path.length ≤ VFS_FDE_NAME_MAX_LEN)
    (hmount : mount.length ≤ VFS_FDE_NAME_MAX_LEN) (hf : 513 ≤ f.off) :
    f.get (openEntry e path mount flags mode) 0 =
      f.get (FdEntry.offset.set (FdEntry.mode.set (FdEntry.flags.set
        (FdEntry.loaded.set e 0 1) 0 flags) 0 mode) 0 0) 0 := by
  simp only [VFS_FDE_NAME_MAX_LEN] at hpath hmount
  have hp := Nat.min_le_left path.length (strlen STR_MAX_SIZE path)
  have hm := Nat.min_le_left mount.length (strlen STR_MAX_SIZE mount)
  refine load_congr fun i _ => ?_
  unfold openEntry FdEntry.mount FdEntry.name
  rw [strncpy_out (.inr (by omega)), strncpy_out (.inr (by omega))]

theorem openEntry_loaded (hpath : path.length ≤ VFS_FDE_NAME_MAX_LEN)
    (hmount : mount.length ≤ VFS_FDE_NAME_MAX_LEN) :
    FdEntry.loaded.get (openEntry e path mount flags mode) 0 = 1 := by
  rw [openEntry_field hpath hmount (by decide), Field.get_set_disjoint _ _ (by decide),
    Field.get_set_disjoint _ _ (by decide), Field.get_set_disjoint _ _ (by decide),
    Field.get_set_same]
  rfl

theorem openEntry_offset (hpath : path.length ≤ VFS_FDE_NAME_MAX_LEN)
    (hmount : mount.length ≤ VFS_FDE_NAME_MAX_LEN) :
    FdEntry.offset.get (openEntry e path mount flags mode) 0 = 0 := by
  rw [openEntry_field hpath hmount (by decide), Field.get_set_same]
  rfl

theorem openEntry_mount (hmount : mount.length ≤ VFS_FDE_NAME_MAX_LEN) :
    Reads (openEntry e path mount flags mode) FdEntry.mount mount :=
  strncpy_reads (Nat.le_of_eq (strlen_of_le hmount).symm)

/-- The name is read back unless it fills its array and the mount follows. -/
theorem openEntry_name_iff (hm : NulFree mount) (hpath : path.length ≤ VFS_FDE_NAME_MAX_LEN)
    (hmount : mount.length ≤ VFS_FDE_NAME_MAX_LEN) :
    Reads (openEntry e path mount flags mode) FdEntry.name path ↔
      (path.length = VFS_FDE_NAME_MAX_LEN → mount = []) := by
  have hcopy := strncpy_reads (m := FdEntry.offset.set (FdEntry.mode.set (FdEntry.flags.set
    (FdEntry.loaded.set e 0 1) 0 flags) 0 mode) 0 0) (a := FdEntry.name)
    (Nat.le_of_eq (strlen_of_le hpath).symm)
  refine (reads_before_strncpy hcopy ?_ hm).trans ?_
  · rw [FdEntry.name, Nat.zero_add]
    exact hpath
  · rw [FdEntry.name, Nat.zero_add, strlen_of_le hmount, Nat.min_self, List.length_eq_zero_iff]
    rfl

/-! ## The scan -/

/-- Every entry is in use. -/
def Full (s : Descriptors) : Prop := ∀ i, i < VFS_COMPAT_MAX_OPEN_FILES → s.fileLoaded i ≠ 0

/-- The scan of `get_fd` from a cursor inside the table gives a free entry, or
has seen `n` entries in use. -/
theorem getFdFrom_spec (hcursor : s.fileCursor < VFS_COMPAT_MAX_OPEN_FILES) :
    (∃ fd, fd < VFS_COMPAT_MAX_OPEN_FILES ∧ s.fileLoaded fd = 0 ∧
      getFdFrom path mount flags mode n s = some ((fd : Int), { s.setFile fd
        (openEntry (s.files fd) path mount flags mode) with fileCursor := fd + 1 })) ∨
    (∃ c, c < VFS_COMPAT_MAX_OPEN_FILES ∧
      (∀ i, i < n → s.fileLoaded ((s.fileCursor + i) % VFS_COMPAT_MAX_OPEN_FILES) ≠ 0) ∧
      getFdFrom path mount flags mode n s = some (-1, { s with fileCursor := c })) := by
  induction n generalizing s with
  | zero => exact .inr ⟨s.fileCursor, hcursor, fun i hi => absurd hi (Nat.not_lt_zero i), rfl⟩
  | succ n ih =>
    unfold getFdFrom
    simp only [if_neg (Nat.not_le.mpr hcursor)]
    by_cases hfree : s.fileLoaded s.fileCursor = 0
    · exact .inl ⟨s.fileCursor, hcursor, hfree, by rw [if_pos hfree]⟩
    · rw [if_neg hfree]
      have hnext : (if VFS_COMPAT_MAX_OPEN_FILES ≤ s.fileCursor + 1 then 0 else s.fileCursor + 1) =
          (s.fileCursor + 1) % VFS_COMPAT_MAX_OPEN_FILES := by
        split
        · rename_i hwrap
          have hfull : s.fileCursor + 1 = VFS_COMPAT_MAX_OPEN_FILES :=
            Nat.le_antisymm hcursor hwrap
          rw [hfull, Nat.mod_self]
        · rename_i hwrap
          exact (Nat.mod_eq_of_lt (Nat.not_le.mp hwrap)).symm
      rw [hnext]
      have hlt := Nat.mod_lt (s.fileCursor + 1) (show 0 < VFS_COMPAT_MAX_OPEN_FILES by decide)
      rcases ih (s := { s with fileCursor := (s.fileCursor + 1) % VFS_COMPAT_MAX_OPEN_FILES }) hlt
        with h | ⟨c, hc, hseen, heq⟩
      · exact .inl h
      · refine .inr ⟨c, hc, fun i hi => ?_, heq⟩
        cases i with
        | zero => rwa [Nat.add_zero, Nat.mod_eq_of_lt hcursor]
        | succ i =>
          have hi' := hseen i (Nat.lt_of_succ_lt_succ hi)
          simp only [Nat.mod_add_mod] at hi'
          rw [Nat.add_right_comm] at hi'
          exact hi'

/-- The turns of a scan from a cursor inside the table reach every entry. -/
theorem full_of_scan {c : Nat} (hc : c < VFS_COMPAT_MAX_OPEN_FILES)
    (h : ∀ i, i < VFS_COMPAT_MAX_OPEN_FILES →
      s.fileLoaded ((c + i) % VFS_COMPAT_MAX_OPEN_FILES) ≠ 0) : s.Full := by
  intro j hj
  by_cases hle : c ≤ j
  · have hj' := h (j - c) (Nat.lt_of_le_of_lt (Nat.sub_le j c) hj)
    rwa [Nat.add_sub_cancel' hle, Nat.mod_eq_of_lt hj] at hj'
  · have hj' := h (VFS_COMPAT_MAX_OPEN_FILES + j - c) (by omega)
    rwa [Nat.add_sub_cancel' (by omega), Nat.add_mod_left, Nat.mod_eq_of_lt hj] at hj'

/-! ## Calls and runs -/

/-- A call on the open-file table. -/
inductive FdOp where
  | getFd (path mount : Str) (flags mode : Nat)
  | releaseFd (fd : Int)
  | forceRelease (path : Str)

def FdOp.apply (s : Descriptors) : FdOp → Option (Int × Descriptors)
  | .getFd path mount flags mode => s.getFd path.chars mount.chars flags mode
  | .releaseFd fd => s.releaseFd fd
  | .forceRelease path => some (s.forceRelease path.chars)

/-- Reading the name of the entry ends inside the entry. -/
def EndsInside (e : Bytes) : Prop := ∃ k, k < FdEntry.flags.off + 1 ∧ e k = 0

/-- What a call does as the table's users expect. `get_fd` gives a free entry,
filled with the path, the mount and offset 0, or -1 when a name is too long or
no entry is free; and no call leaves the table. -/
def Served (s : Descriptors) : FdOp → Prop
  | .getFd path mount flags mode => ∃ r s', s.getFd path.chars mount.chars flags mode = some (r, s') ∧
      (r = -1 ∧ (VFS_FDE_NAME_MAX_LEN < path.chars.length ∨
          VFS_FDE_NAME_MAX_LEN < mount.chars.length ∨ s.Full) ∨
        ∃ fd, fd < VFS_COMPAT_MAX_OPEN_FILES ∧ r = (fd : Int) ∧ s.fileLoaded fd = 0 ∧
          s'.fileLoaded fd = 1 ∧ Reads (s'.files fd) FdEntry.name path.chars ∧
          Reads (s'.files fd) FdEntry.mount mount.chars ∧ FdEntry.offset.get (s'.files fd) 0 = 0)
  | .releaseFd fd => ∃ r s', s.releaseFd fd = some (r, s')
  | .forceRelease _ => (∀ i, i < VFS_COMPAT_MAX_OPEN_FILES → EndsInside (s.files i)) ∧
      ∀ i, i < VFS_COMPAT_MAX_OPEN_DIRECTORIES → EndsInside (s.dirs i).fd

/-- When the code serves a call: `get_fd` does not follow the call that gave the
last entry, a path that fills its array comes without a mount, and the
descriptor released is not negative. -/
def Meets (s : Descriptors) : FdOp → Prop
  | .getFd path mount _ _ => VFS_FDE_NAME_MAX_LEN < path.chars.length ∨
      VFS_FDE_NAME_MAX_LEN < mount.chars.length ∨
      s.fileCursor ≠ VFS_COMPAT_MAX_OPEN_FILES ∧
        (path.chars.length = VFS_FDE_NAME_MAX_LEN → mount.chars = [] ∨ s.Full)
  | .releaseFd fd => 0 ≤ fd
  | .forceRelease _ => True

/-- The tables after a call. -/
def Next (s : Descriptors) (op : FdOp) (s' : Descriptors) : Prop := ∃ r, op.apply s = some (r, s')

/-- The cursor is at most one past the table, and every name ends inside its entry. -/
structure Sound (s : Descriptors) : Prop where
  cursor : s.fileCursor ≤ VFS_COMPAT_MAX_OPEN_FILES
  files : ∀ i, EndsInside (s.files i)
  dirs : ∀ i, EndsInside (s.dirs i).fd

theorem sound_initial : Sound initial where
  cursor := Nat.zero_le _
  files := fun _ => ⟨0, Nat.succ_pos _, rfl⟩
  dirs := fun _ => ⟨0, Nat.succ_pos _, rfl⟩

theorem endsInside_openEntry (hmount : mount.length ≤ VFS_FDE_NAME_MAX_LEN) :
    EndsInside (openEntry e path mount flags mode) := by
  have hreads : Reads (openEntry e path mount flags mode) FdEntry.mount mount := openEntry_mount hmount
  have hend := hreads mount.length (Nat.le_refl _)
  rw [List.getD_eq_getElem?_getD, List.getElem?_eq_none (Nat.le_refl _)] at hend
  refine ⟨FdEntry.mount + mount.length, ?_, hend⟩
  simp only [VFS_FDE_NAME_MAX_LEN] at hmount
  simp only [FdEntry.mount, FdEntry.flags]
  omega

/-- Closing an entry leaves its names. -/
theorem EndsInside.close (h : EndsInside e) : EndsInside (FdEntry.loaded.set e 0 0) := by
  obtain ⟨k, hk, he⟩ := h
  refine ⟨k, hk, (store_apply_out e (.inl ?_)).trans he⟩
  simp only [FdEntry.flags] at hk
  simp only [FdEntry.loaded]
  omega

theorem Sound.setFile (h : Sound s) {i : Nat} (he : EndsInside e) : Sound (s.setFile i e) where
  cursor := h.cursor
  files := fun j => by
    by_cases hj : j = i
    · rw [hj, setFile_same]
      exact he
    · rw [setFile_of_ne s e hj]
      exact h.files j
  dirs := h.dirs

theorem Sound.setDir (h : Sound s) {i : Nat} {d : Dir} (hd : EndsInside d.fd) :
    Sound (s.setDir i d) where
  cursor := h.cursor
  files := h.files
  dirs := fun j => by
    by_cases hj : j = i
    · rw [hj, setDir_same]
      exact hd
    · rw [setDir_of_ne s d hj]
      exact h.dirs j

theorem Sound.releaseFiles (h : Sound s) (path : List Byte) :
    Sound (Descriptors.releaseFiles path n s).2 := by
  induction n with
  | zero => exact h
  | succ n ih =>
    simp only [Descriptors.releaseFiles]
    split
    · exact ih.setFile (ih.files n).close
    · exact ih

theorem Sound.releaseDirs (h : Sound s) (path : List Byte) :
    Sound (Descriptors.releaseDirs path n s).2 := by
  induction n with
  | zero => exact h
  | succ n ih =>
    simp only [Descriptors.releaseDirs]
    split
    · exact ih.setDir (ih.dirs n).close
    · exact ih

theorem Sound.releaseBoth (h : Sound s) (path : List Byte) (n k : Nat) :
    Sound (Descriptors.releaseBoth path n k s).2 :=
  (h.releaseFiles path).releaseDirs path

/-- `get_fd` with names that fit and a cursor inside the table. -/
theorem getFd_spec (hcursor : s.fileCursor < VFS_COMPAT_MAX_OPEN_FILES)
    (hpath : path.length ≤ VFS_FDE_NAME_MAX_LEN) (hmount : mount.length ≤ VFS_FDE_NAME_MAX_LEN) :
    (∃ fd, fd < VFS_COMPAT_MAX_OPEN_FILES ∧ s.fileLoaded fd = 0 ∧
      s.getFd path mount flags mode = some ((fd : Int), { s.setFile fd
        (openEntry (s.files fd) path mount flags mode) with fileCursor := fd + 1 })) ∨
    (∃ c, c < VFS_COMPAT_MAX_OPEN_FILES ∧ s.Full ∧
      s.getFd path mount flags mode = some (-1, { s with fileCursor := c })) := by
  have heq : s.getFd path mount flags mode =
      getFdFrom path mount flags mode VFS_COMPAT_MAX_OPEN_FILES s := by
    unfold getFd
    rw [if_neg (mt strlen_gt_iff.mp (Nat.not_lt.mpr hpath)),
      if_neg (mt strlen_gt_iff.mp (Nat.not_lt.mpr hmount))]
  rw [heq]
  rcases getFdFrom_spec hcursor with h | ⟨c, hc, hseen, h⟩
  · exact .inl h
  · exact .inr ⟨c, hc, full_of_scan hcursor hseen, h⟩

/-- A name that does not fit is refused at once. -/
theorem getFd_long (h : VFS_FDE_NAME_MAX_LEN < path.length ∨ VFS_FDE_NAME_MAX_LEN < mount.length) :
    s.getFd path mount flags mode = some (-1, s) := by
  unfold getFd
  by_cases hpath : VFS_FDE_NAME_MAX_LEN < path.length
  · rw [if_pos (strlen_gt_iff.mpr hpath)]
  · rw [if_neg (mt strlen_gt_iff.mp hpath), if_pos (strlen_gt_iff.mpr (h.resolve_left hpath))]

/-- A cursor past the table is read before anything else. -/
theorem getFd_past (hcursor : s.fileCursor = VFS_COMPAT_MAX_OPEN_FILES)
    (hpath : path.length ≤ VFS_FDE_NAME_MAX_LEN) (hmount : mount.length ≤ VFS_FDE_NAME_MAX_LEN) :
    s.getFd path mount flags mode = none := by
  unfold getFd
  rw [if_neg (mt strlen_gt_iff.mp (Nat.not_lt.mpr hpath)),
    if_neg (mt strlen_gt_iff.mp (Nat.not_lt.mpr hmount)),
    show VFS_COMPAT_MAX_OPEN_FILES = 65535 + 1 from rfl, getFdFrom]
  exact if_pos (Nat.le_of_eq hcursor.symm)

theorem Sound.step (h : Sound s) (op : FdOp) {r : Int} (hstep : op.apply s = some (r, s')) :
    Sound s' := by
  cases op with
  | getFd path mount flags mode =>
    by_cases hlong : VFS_FDE_NAME_MAX_LEN < path.chars.length ∨
        VFS_FDE_NAME_MAX_LEN < mount.chars.length
    · rw [FdOp.apply, getFd_long hlong] at hstep
      cases hstep
      exact h
    · push Not at hlong
      rcases Nat.lt_or_eq_of_le h.cursor with hlt | heq
      · rcases getFd_spec hlt hlong.1 hlong.2 with ⟨fd, hfd, -, hget⟩ | ⟨c, hc, -, hget⟩
        · rw [FdOp.apply, hget] at hstep
          cases hstep
          have hend : EndsInside (openEntry (s.files fd) path.chars mount.chars flags mode) :=
            endsInside_openEntry hlong.2
          have hs := h.setFile (i := fd) hend
          exact ⟨hfd, hs.files, hs.dirs⟩
        · rw [FdOp.apply, hget] at hstep
          cases hstep
          exact ⟨Nat.le_of_lt hc, h.files, h.dirs⟩
      · rw [FdOp.apply, getFd_past heq hlong.1 hlong.2] at hstep
        cases hstep
  | releaseFd fd =>
    simp only [FdOp.apply, Descriptors.releaseFd] at hstep
    split at hstep
    · cases hstep
      exact h
    · split at hstep
      · cases hstep
      · cases hstep
        exact h.setFile (h.files fd.toNat).close
  | forceRelease path =>
    have hs' : (s.forceRelease path.chars).2 = s' := congrArg Prod.snd (Option.some.inj hstep)
    subst hs'
    exact h.releaseBoth path.chars _ _

/-- A call is served exactly when it meets the condition. -/
theorem served_iff_meets (h : Sound s) (op : FdOp) : Served s op ↔ Meets s op := by
  cases op with
  | getFd path mount flags mode =>
    by_cases hlong : VFS_FDE_NAME_MAX_LEN < path.chars.length ∨
        VFS_FDE_NAME_MAX_LEN < mount.chars.length
    · have hserved : Served s (.getFd path mount flags mode) :=
        ⟨-1, s, getFd_long hlong, .inl ⟨rfl, hlong.imp_right .inl⟩⟩
      exact iff_of_true hserved (hlong.imp_right .inl)
    · have hfit := hlong
      push Not at hfit
      rcases Nat.lt_or_eq_of_le h.cursor with hlt | heq
      · rcases getFd_spec hlt hfit.1 hfit.2 with ⟨fd, hfd, hfree, hget⟩ | ⟨c, hc, hfull, hget⟩
        · have hname : Reads (openEntry (s.files fd) path.chars mount.chars flags mode) FdEntry.name
              path.chars ↔ (path.chars.length = VFS_FDE_NAME_MAX_LEN → mount.chars = []) :=
            openEntry_name_iff mount.nulFree hfit.1 hfit.2
          have hnotFull : ¬ s.Full := fun hf => hf fd hfd hfree
          constructor
          · rintro ⟨r, s', hr, hserved⟩
            rw [hget] at hr
            cases hr
            refine .inr (.inr ⟨Nat.ne_of_lt hlt, fun hlen => .inl ?_⟩)
            rcases hserved with ⟨hneg, -⟩ | ⟨fd', -, hfd', -, -, hreads, -⟩
            · omega
            · rw [← Int.ofNat_inj.mp hfd'] at hreads
              simp only [setFile_same] at hreads
              exact hname.mp hreads hlen
          · intro hmeets
            have hok := hname.mpr fun hlen =>
              ((hmeets.resolve_left fun hl => hlong (.inl hl)).resolve_left fun hl =>
                hlong (.inr hl)).2 hlen |>.resolve_right hnotFull
            refine ⟨fd, _, hget, .inr ⟨fd, hfd, rfl, hfree, ?_, ?_, ?_, ?_⟩⟩ <;>
              simp only [Descriptors.fileLoaded, setFile_same]
            · exact openEntry_loaded hfit.1 hfit.2
            · exact hok
            · exact openEntry_mount hfit.2
            · exact openEntry_offset hfit.1 hfit.2
        · exact iff_of_true ⟨-1, _, hget, .inl ⟨rfl, .inr (.inr hfull)⟩⟩
            (.inr (.inr ⟨Nat.ne_of_lt hlt, fun _ => .inr hfull⟩))
      · refine iff_of_false ?_ ?_
        · rintro ⟨r, s', hr, -⟩
          rw [getFd_past heq hfit.1 hfit.2] at hr
          cases hr
        · rintro (hl | hl | ⟨hne, -⟩)
          · exact hlong (.inl hl)
          · exact hlong (.inr hl)
          · exact hne heq
  | releaseFd fd =>
    simp only [Served, Meets, Descriptors.releaseFd]
    by_cases hge : (VFS_COMPAT_MAX_OPEN_FILES : Int) ≤ fd
    · rw [if_pos hge]
      exact iff_of_true ⟨_, _, rfl⟩ (Int.le_trans (Int.natCast_nonneg _) hge)
    · rw [if_neg hge]
      by_cases hneg : fd < 0
      · rw [if_pos hneg]
        exact iff_of_false (fun ⟨_, _, hr⟩ => nomatch hr) (Int.not_le.mpr hneg)
      · rw [if_neg hneg]
        exact iff_of_true ⟨_, _, rfl⟩ (Int.not_lt.mp hneg)
  | forceRelease path => exact iff_of_true ⟨fun i _ => h.files i, fun i _ => h.dirs i⟩ trivial

/-- Every call of a run from the empty tables is served exactly when every call
meets the condition. -/
theorem descriptors_served_iff (ops : List FdOp) :
    Run.Throughout Next Served initial ops ↔ Run.Throughout Next Meets initial ops :=
  Run.throughout_iff Sound (fun _ op hs => served_iff_meets hs op)
    (fun _ op _ hs _ ⟨_, hr⟩ => hs.step op hr) sound_initial ops

/-! ## A name that fills its array -/

/-- A path of 256 bytes: `/aaa…`. -/
def fullName : Str where
  chars := slash :: List.replicate 255 0x61#8
  nulFree := by
    intro c hc
    rcases List.mem_cons.mp hc with rfl | hc
    · decide
    · rw [List.eq_of_mem_replicate hc]
      decide

theorem fullName_length : fullName.chars.length = VFS_FDE_NAME_MAX_LEN :=
  congrArg (· + 1) List.length_replicate

theorem not_full_initial : ¬ initial.Full := fun h =>
  h 0 (by decide) (by simp [fileLoaded, initial, Field.get, load, FdEntry.loaded])

/-- The first `get_fd` of a run passes the length check with a path of 256
bytes, and its entry reads as the path with the mount after it. -/
theorem not_descriptors_served : ¬ ∀ ops, Run.Throughout Next Served initial ops := by
  intro h
  have hserved := (h [.getFd fullName diskName 0 0]).1
  rcases (served_iff_meets sound_initial _).mp hserved with hlong | hlong | ⟨-, hfill⟩
  · exact absurd fullName_length (Nat.ne_of_gt hlong)
  · exact absurd hlong (by decide)
  · rcases hfill fullName_length with hmount | hfull
    · exact absurd hmount (by decide)
    · exact not_full_initial hfull

end Descriptors
end Vfs
