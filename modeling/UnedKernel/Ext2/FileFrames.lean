import UnedKernel.Ext2.Lookups
import UnedKernel.Ext2.Resize

/-! # Files outside the altered sectors

What an operation leaves of a file when the sectors that it alters hold neither
the inode nor the blocks of pointers nor the data of the file: the file can be
read as before, and the directories lead where they led. -/

namespace UnedKernel.Ext2
open ByteMem Word Indirect

/-- Of file `m` the sectors `S` hold neither the inode nor a block of pointers, nor the data of its
logical blocks in `data`. -/
structure Outside (S : Nat → Prop) (v : Volume) (m : Nat) (data : Nat → Prop) : Prop where
  inode : ∀ s, v.part.InodeSpan m s → ¬ S s
  along : ∀ k, k * v.part.blockSize < v.fileSize m → v.LogicalAlong (v.inodeBytes m)
    (fun b => ∀ s, v.part.BlockSpan b s → ¬ S s) (fun b => data k → ∀ s, v.part.BlockSpan b s → ¬ S s) k

section

variable {S : Nat → Prop} {v w : Volume} {m n k : Nat} {data : Nat → Prop}

/-- The way to a logical block depends on the fifteen pointers of the inode and on the blocks of
pointers. -/
theorem Volume.LogicalAlong.congr {a inode : Bytes} {T L : Nat → Prop} (hpointers : w.pointers = v.pointers)
    (hpointer : ∀ b, T b → ∀ i, i < v.pointers → w.pointer b i = v.pointer b i)
    (hblock : ∀ i, i < 15 → iBlock a i = iBlock inode i) (h : v.LogicalAlong inode T L k) :
    w.LogicalAlong a T L k := by
  have hroot {l i j : Nat} (hi : i < 15) (hj : j < v.pointers ^ l)
      (halong : Along v.pointer v.pointers T L l (fun k => iBlock inode (i + k)) j) :
      Along w.pointer v.pointers T L l (fun k => iBlock a (i + k)) j :=
    (Along.congr (r := 1) hpointer (fun j hj => by
      obtain rfl : j = 0 := by omega
      exact hblock i hi) (by rwa [Nat.one_mul]) halong).1
  rcases v.position_cases k with hk | ⟨j, hj, rfl⟩ | ⟨j, hj, rfl⟩ | ⟨j, rfl⟩
  · rw [logicalAlong_direct hk] at h ⊢
    rwa [hblock k (by omega)]
  · rw [logicalAlong_single hj] at h
    rw [logicalAlong_single (by rwa [hpointers]), hpointers]
    exact hroot (by omega) (by rwa [Nat.pow_one]) h
  · rw [logicalAlong_double hj] at h
    rw [← hpointers, logicalAlong_double (by rwa [hpointers]), hpointers]
    exact hroot (by omega) hj h
  · rw [logicalAlong_triple] at h
    rw [← hpointers, logicalAlong_triple, hpointers]
    exact ⟨h.1, hroot (by omega) h.1 h.2⟩

namespace Outside

theorem mono {data' : Nat → Prop} (h : Outside S v m data) (hdata : ∀ k, data' k → data k) :
    Outside S v m data' :=
  ⟨h.inode, fun k hk => (h.along k hk).mono (fun _ hb => hb) fun _ hb hk' => hb (hdata k hk')⟩

theorem inodeBytes (h : Outside S v m data) (hf : Readable v m) (ha : Alters S v w) {x : Nat}
    (hx : x < 100) : w.inodeBytes m x = v.inodeBytes m x :=
  ha.inodeBytes hf.mounted hf.fits h.inode hx

theorem field (h : Outside S v m data) (hf : Readable v m) (ha : Alters S v w) {f : Field}
    (hfield : f.Within 100) : f.get (w.inodeBytes m) 0 = f.get (v.inodeBytes m) 0 :=
  Field.get_congr hfield fun _ _ hx => h.inodeBytes hf ha (by omega)

theorem fileSize (h : Outside S v m data) (hf : Readable v m) (ha : Alters S v w) :
    w.fileSize m = v.fileSize m := h.field hf ha (f := InodeDescriptor.size) (by decide)

theorem iBlock (h : Outside S v m data) (hf : Readable v m) (ha : Alters S v w) {i : Nat} (hi : i < 15) :
    iBlock (w.inodeBytes m) i = iBlock (v.inodeBytes m) i :=
  iBlock_congr (fun _ hx => h.inodeBytes hf ha hx) hi

/-- The way to a logical block, with the blocks of pointers that a transfer reaches. -/
theorem way (h : Outside S v m data) (hf : Readable v m) (hk : k * v.part.blockSize < v.fileSize m) :
    v.LogicalAlong (v.inodeBytes m) (fun b => v.part.Reached b ∧ ∀ s, v.part.BlockSpan b s → ¬ S s)
      (fun b => v.part.Reached b ∧ (data k → ∀ s, v.part.BlockSpan b s → ¬ S s)) k :=
  (hf.reached k hk).and (h.along k hk)

theorem logicalBlock (h : Outside S v m data) (hf : Readable v m) (ha : Alters S v w)
    (hk : k * v.part.blockSize < v.fileSize m) :
    w.logicalBlock (w.inodeBytes m) k = v.logicalBlock (v.inodeBytes m) k :=
  (h.way hf hk).logicalBlock_eq ha.pointers
    (fun _ hb _ hi => ha.pointer hf.mounted hb.1 hb.2 hi) fun _ hi => h.iBlock hf ha hi

/-- The file can be read as before. -/
theorem readable (h : Outside S v m data) (hf : Readable v m) (ha : Alters S v w) : Readable w m := by
  have hl := ha.layout
  refine ⟨hl.mounted hf.mounted, ha.reliable hf.reliable, hl.inodeFits hf.fits, fun k hk => ?_⟩
  rw [h.fileSize hf ha, hl.blockSize] at hk
  have hreached {b : Nat} (hb : v.part.Reached b) : w.part.Reached b :=
    ⟨hb.pos, (hl.addressable b).mpr hb.addressable, hb.lt⟩
  exact ((h.way hf hk).congr ha.pointers (fun _ hb _ hi => ha.pointer hf.mounted hb.1 hb.2 hi)
    fun _ hi => h.iBlock hf ha hi).mono (fun _ hb => hreached hb.1) fun _ hb => hreached hb.1

/-- The data that lies outside is as before. -/
theorem fileBytes (h : Outside S v m data) (hf : Readable v m) (ha : Alters S v w) {x : Nat}
    (hx : x < v.fileSize m) (hdata : data (x / v.part.blockSize)) : w.fileBytes m x = v.fileBytes m x := by
  have hpos : 0 < v.part.blockSize := Nat.pos_of_ne_zero hf.mounted.blockSize_pos
  have hk : x / v.part.blockSize * v.part.blockSize < v.fileSize m :=
    Nat.lt_of_le_of_lt (Nat.div_mul_le_self _ _) hx
  obtain ⟨hb, hspan⟩ := (h.way hf hk).leaf
  have hlt := hf.mounted.blockSector_lt hb.lt
  have hsize := hf.mounted.blockSize_eq
  have hmod := Nat.mod_lt x hpos
  unfold Volume.fileBytes
  rw [ha.layout.blockSize, h.logicalBlock hf ha hk]
  unfold Partition.blockAddress
  rw [ha.layout.blockSector]
  have hsame := ha.block_eq hf.mounted hb.addressable (hspan hdata) hmod
  rwa [Sectors.window_eq (by omega), Sectors.window_eq (by omega)] at hsame

end Outside

variable {dir : Nat → Option (List Record)} {path : List Byte}

/-- Where all files that the directories lead to lie outside, but for the data of one that is no
directory, the directories stay. -/
theorem Directories.alters (h : Directories v dir) (hfile : dir n = none)
    (hout : ∀ m, Linked dir m → Outside S v m fun k => m = n → data k) (ha : Alters S v w) :
    Directories w dir := by
  have hne {m : Nat} {rs : List Record} (hdir : dir m = some rs) : m ≠ n := by
    rintro rfl
    rw [hfile] at hdir
    cases hdir
  refine ⟨fun m hm => (hout m hm).readable (h.readable m hm) ha, fun m hm => ?_, fun m rs hm hdir => ?_,
    fun m rs hm hdir => ?_⟩
  · rw [(hout m hm).field (h.readable m hm) ha (by decide)]
    exact h.typed m hm
  · rw [(hout m hm).fileSize (h.readable m hm) ha, ha.layout.blockSize]
    exact h.blocks m rs hm hdir
  · obtain ⟨hlaid, hspan⟩ := h.laid m rs hm hdir
    rw [(hout m hm).fileSize (h.readable m hm) ha]
    refine ⟨hlaid.congr fun x _ hx => ?_, hspan⟩
    exact (hout m hm).fileBytes (h.readable m hm) ha (by omega) fun heq => absurd heq (hne hdir)

/-- A path leads where it led when the sizes of the directories stay. -/
theorem Directories.walkFrom_eq (h : Directories v dir) (hblock : w.part.blockSize = v.part.blockSize)
    (hsize : ∀ m, Linked dir m → w.fileSize m = v.fileSize m) (hn : Linked dir n) (turns : Nat)
    (rest : List Byte) : walkFrom w dir turns n rest = walkFrom v dir turns n rest := by
  induction turns generalizing n rest with
  | zero => rfl
  | succ turns ih =>
    rw [walkFrom, walkFrom]
    cases strtok slash rest with
    | none => rfl
    | some t =>
      obtain ⟨_ | ⟨b, c⟩, rest⟩ := t
      · rfl
      · have hfound : found w dir n (b :: c) = found v dir n (b :: c) := by
          rw [found, found, hsize n hn, hblock]
        simp only [hfound]
        by_cases herror : found v dir n (b :: c) = EXT2_INO_PAP_ERROR ∨
            found v dir n (b :: c) = EXT2_INO_PAP_NOTFOUND
        · rw [if_pos herror, if_pos herror]
        · by_cases hzero : found v dir n (b :: c) = 0
          · rw [if_neg herror, if_neg herror, if_pos hzero, if_pos hzero]
          · rw [if_neg herror, if_neg herror, if_neg hzero, if_neg hzero]
            exact ih (h.linked_found hn herror hzero).1 rest

theorem Directories.walk_eq (h : Directories v dir) (hblock : w.part.blockSize = v.part.blockSize)
    (hsize : ∀ m, Linked dir m → w.fileSize m = v.fileSize m) : walk w dir path = walk v dir path :=
  h.walkFrom_eq hblock hsize .root _ _

end

end UnedKernel.Ext2
