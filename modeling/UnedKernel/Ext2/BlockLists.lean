import UnedKernel.Ext2.WholeReads

/-! # The list of a file's blocks

`ext2_load_block_list`, with the three functions of `ext2_inode.c` that list the
blocks below a pointer. -/

namespace UnedKernel.Ext2
open ByteMem Word Sectors Indirect

/-- `INODE_BLOCK_END`. -/
def INODE_BLOCK_END : Nat := 0xFFFFFFFF

/-- The blocks listed for a pointer, `none` for `EXT2_READ_FAILED`. The code appends them to
its buffer, which it does not compare with the room there. -/
abbrev ListLoader := Volume → Nat → Option (List Nat) × Volume

/-- A pointer to data stands for itself. -/
def loadPointer : ListLoader := fun v block => (some [block], v)

/-- The loop over a block of pointers from pointer `i` on, `n` pointers left. -/
def loadEntriesFrom (below : ListLoader) (table : Bytes) (v : Volume) (i : Nat) :
    Nat → Option (List Nat) × Volume
  | 0 => (some [], v)
  | n + 1 =>
    let block := load table (4 * i) 4
    if block = 0 ∨ block = INODE_BLOCK_END then (some [], v)
    else match below v block with
      | (none, v) => (none, v)
      | (some blocks, v) => match loadEntriesFrom below table v (i + 1) n with
        | (none, v) => (none, v)
        | (some rest, v) => (some (blocks ++ rest), v)

/-- A block of pointers. Block 0 is not read, and what the buffer holds is taken for it. -/
def loadTable (below : ListLoader) : ListLoader := fun v block =>
  let (buffer, v) := kmalloc v
  let (read, table, v) := readBlock v block buffer
  if read = EXT2_READ_FAILED then (none, v)
  else loadEntriesFrom below table v 0 (v.part.blockSize / 4)

def loadIndirectBlockList : ListLoader := loadTable loadPointer

def loadDoubleIndirectBlockList : ListLoader := loadTable loadIndirectBlockList

def loadTripleIndirectBlockList : ListLoader := loadTable loadDoubleIndirectBlockList

/-- The loop over the direct blocks from block `i` on, `n` blocks left. -/
def loadDirectFrom (inode : Bytes) (blockNumber : Nat) (list : List Nat) (i : Nat) : Nat → List Nat
  | 0 => list
  | n + 1 =>
    if blockNumber ≤ list.length then list
    else if 0 < iBlock inode i then
      loadDirectFrom inode blockNumber (list ++ [iBlock inode i]) (i + 1) n
    else loadDirectFrom inode blockNumber list (i + 1) n

/-- The stages after the direct blocks: each is left out when the list is long enough. -/
def loadStages (blockNumber : Nat) :
    List (ListLoader × Nat) → List Nat → Volume → Option (List Nat) × Volume
  | [], list, v => (some list, v)
  | (loader, block) :: stages, list, v =>
    if list.length < blockNumber then
      match loader v block with
      | (none, v) => (none, v)
      | (some more, v) => loadStages blockNumber stages (list ++ more) v
    else loadStages blockNumber stages list v

/-- `ext2_load_block_list`. For a file of no blocks `kmalloc` gives no list. -/
def loadBlockList (v : Volume) (inodeNumber : Nat) : Option (List Nat) × Volume :=
  match readInode v inodeNumber with
  | (none, v) => (none, v)
  | (some inode, v) =>
    let blockNumber := divideRoundedUp (InodeDescriptor.size.get inode 0) v.part.blockSize
    if blockNumber = 0 then (none, v)
    else
      let (_, v) := kmalloc v
      match loadStages blockNumber [(loadIndirectBlockList, iBlock inode 12),
          (loadDoubleIndirectBlockList, iBlock inode 13),
          (loadTripleIndirectBlockList, iBlock inode 14)] (loadDirectFrom inode blockNumber [] 0 12) v with
      | (none, v) => (none, v)
      | (some list, v) => if list.length ≠ blockNumber then (none, v) else (some list, v)

/-- The blocks that hold `size` bytes. -/
def Partition.blocksFor (p : Partition) (size : Nat) : Nat := (size + p.blockSize - 1) / p.blockSize

/-! ## Lists that begin as the file does -/

section

variable {f : Nat → Nat} {number cap size : Nat} {list more : List Nat}

/-- At most `cap` entries, those of the first `number` blocks among them in order. -/
structure Begins (f : Nat → Nat) (number cap : Nat) (list : List Nat) : Prop where
  length_le : list.length ≤ cap
  get : ∀ k, k < min number cap → list[k]? = some (f k)

namespace Begins

theorem nil : Begins f number 0 [] := ⟨Nat.le_refl 0, fun k hk => by omega⟩

theorem min_le (h : Begins f number cap list) : min number cap ≤ list.length := by
  by_contra hlt
  have hget := h.get (min number cap - 1) (by omega)
  have hlen := (List.getElem?_eq_some_iff.mp hget).1
  omega

/-- A stage that is left out. -/
theorem skip (h : Begins f number cap list) (hlen : number ≤ list.length) :
    Begins f number (cap + size) list := by
  have hle := h.length_le
  exact ⟨by omega, fun k hk => h.get k (by omega)⟩

/-- A stage goes on where the list ends. -/
theorem extend (h : Begins f number cap list) (hlen : list.length < number)
    (hsize : more.length ≤ size) (hmore : ∀ k, k < min (number - cap) size → more[k]? = some (f (cap + k))) :
    Begins f number (cap + size) (list ++ more) := by
  have hle := h.length_le
  have hmin := h.min_le
  have hcap : list.length = cap := by omega
  refine ⟨by rw [List.length_append]; omega, fun k hk => ?_⟩
  by_cases hin : k < cap
  · rw [List.getElem?_append_left (by omega)]
    exact h.get k (by omega)
  · rw [List.getElem?_append_right (by omega), hcap, hmore _ (by omega)]
    congr 2
    omega

/-- A list of as many entries as there are blocks is the list of the blocks. -/
theorem eq_map (h : Begins f number cap list) (hlen : list.length = number) :
    list = (List.range number).map f := by
  have hle := h.length_le
  refine List.ext_getElem? fun k => ?_
  by_cases hk : k < number
  · rw [h.get k (by omega), List.getElem?_map, List.getElem?_range hk]
    rfl
  · rw [List.getElem?_eq_none (by omega), List.getElem?_eq_none (by simp; omega)]

end Begins

end

/-! ## The lists below a pointer -/

section

variable {v w x : Volume} {loader below : ListLoader} {inode table : Bytes} {list : List Nat} {b n : Nat}

namespace Unchanged

theorem kmalloc (h : Unchanged v w) : Unchanged v (kmalloc w).2 := h.trans ⟨rfl, rfl, id⟩

theorem readBlock (h : Unchanged v w) (block : Nat) (buffer : Bytes) :
    Unchanged v (readBlock w block buffer).2.2 := by
  unfold Ext2.readBlock
  split
  · simp only [Disk.readDisk_eq]
    exact h.trans ⟨rfl, rfl, id⟩
  · exact h

end Unchanged

/-- A pointer that a list goes past. -/
def Listable (b : Nat) : Prop := 0 < b ∧ b ≠ INODE_BLOCK_END

/-- A block of pointers that a list goes through. -/
def Partition.Tabled (p : Partition) (b : Nat) : Prop := p.Reached b ∧ b ≠ INODE_BLOCK_END

/-- The loader lists the leaves of the tree of level `n` below a pointer, as far as the way to
them can be followed. -/
def Lists (v : Volume) (loader : ListLoader) (n : Nat) : Prop :=
  ∀ w b list x, Unchanged v w → loader w b = (some list, x) → Unchanged v x ∧
    list.length ≤ v.pointers ^ n ∧ ∀ m, m ≤ v.pointers ^ n →
      (∀ k, k < m → Along v.pointer v.pointers v.part.Tabled Listable n (fun _ => b) k) →
      ∀ k, k < m → list[k]? = some (leaf v.pointer v.pointers n (fun _ => b) k)

theorem lists_pointer (v : Volume) : Lists v loadPointer 0 := by
  intro w b list x hw h
  cases h
  refine ⟨hw, Nat.le_refl 1, fun m hm _ k hk => ?_⟩
  rw [Nat.pow_zero] at hm
  obtain rfl : k = 0 := by omega
  rfl

/-- The pointer itself is listed where something below it is. -/
theorem listable_root (h : Along v.pointer v.pointers v.part.Tabled Listable n (fun _ => b) 0) : Listable b := by
  cases n with
  | zero => exact h
  | succ n => exact ⟨h.1.1.pos, h.1.2⟩

/-- The loop from pointer `i` on lists the leaves below the pointers from there on. -/
theorem loadEntriesFrom_spec {roots : Nat → Nat} (hb : Lists v below n) (he : 0 < v.pointers)
    (hroots : ∀ k, load table (4 * k) 4 = roots k) {i r : Nat} (hw : Unchanged v w)
    (h : loadEntriesFrom below table w i r = (some list, x)) : Unchanged v x ∧
      list.length ≤ r * v.pointers ^ n ∧ ∀ m, m ≤ r * v.pointers ^ n →
      (∀ k, k < m → Along v.pointer v.pointers v.part.Tabled Listable n roots (i * v.pointers ^ n + k)) →
      ∀ k, k < m → list[k]? = some (leaf v.pointer v.pointers n roots (i * v.pointers ^ n + k)) := by
  have hpos : 0 < v.pointers ^ n := Nat.pow_pos he
  induction r generalizing w i list with
  | zero =>
    cases h
    exact ⟨hw, Nat.zero_le _, fun m hm _ k hk => by omega⟩
  | succ r ih =>
    have hcap : (r + 1) * v.pointers ^ n = v.pointers ^ n + r * v.pointers ^ n := by
      rw [Nat.succ_mul, Nat.add_comm]
    have hnext : (i + 1) * v.pointers ^ n = i * v.pointers ^ n + v.pointers ^ n := Nat.succ_mul i _
    simp only [loadEntriesFrom, hroots] at h
    split at h
    · -- the list ends here: nothing below the pointer can be followed
      rename_i hend
      cases h
      refine ⟨hw, Nat.zero_le _, fun m hm halong k hk => ?_⟩
      have hlistable := listable_root ((along_child hpos).mp (halong 0 (by omega)))
      unfold Listable at hlistable
      omega
    · cases hbelow : below w (roots i) with
      | mk blocks y =>
        rw [hbelow] at h
        cases blocks with
        | none => cases h
        | some blocks =>
          simp only at h
          obtain ⟨hy, hlen, hget⟩ := hb w _ _ _ hw hbelow
          cases hrest : loadEntriesFrom below table y (i + 1) r with
          | mk rest z =>
            rw [hrest] at h
            cases rest with
            | none => cases h
            | some rest =>
              cases h
              obtain ⟨hz, hlen', hget'⟩ := ih hy hrest
              refine ⟨hz, by rw [List.length_append]; omega, fun m hm halong k hk => ?_⟩
              have hleft (j : Nat) (hj : j < min m (v.pointers ^ n)) := hget (min m (v.pointers ^ n))
                (by omega) (fun k hk => (along_child (by omega)).mp (halong k (by omega))) j hj
              by_cases hin : k < v.pointers ^ n
              · have hentry := hleft k (by omega)
                rw [List.getElem?_append_left (List.getElem?_eq_some_iff.mp hentry).1, hentry,
                  leaf_child hin]
              · -- the tree below pointer `i` is listed in full
                have hlast := (List.getElem?_eq_some_iff.mp (hleft (v.pointers ^ n - 1) (by omega))).1
                have hfull : blocks.length = v.pointers ^ n := by omega
                have hentry := hget' (m - v.pointers ^ n) (by omega) (fun j hj => by
                  have := halong (v.pointers ^ n + j) (by omega)
                  rwa [hnext, Nat.add_assoc]) (k - v.pointers ^ n) (by omega)
                rw [List.getElem?_append_right (by omega), hfull, hentry, hnext, Nat.add_assoc,
                  Nat.add_sub_cancel' (by omega)]

theorem lists_table (hm : Mounted v.part) (hr : v.disk.Reliable) (hb : Lists v below n) :
    Lists v (loadTable below) (n + 1) := by
  intro w b list x hw h
  have hsize : v.part.blockSize / 4 = v.pointers := rfl
  have hread := hw.kmalloc.readBlock b (kmalloc w).1
  unfold loadTable at h
  simp only at h
  cases hreads : readBlock (kmalloc w).2 b (kmalloc w).1 with
  | mk read rest =>
    obtain ⟨table, y⟩ := rest
    rw [hreads] at hread
    simp only [hreads] at h
    split at h
    · cases h
    · rw [hread.part, hsize] at h
      obtain ⟨hx, hlen, hget⟩ := loadEntriesFrom_spec hb
        (Nat.lt_of_lt_of_le (by omega) hm.pointers_bounds.1) (fun _ => rfl) hread h
      rw [← Nat.pow_succ'] at hlen hget
      refine ⟨hx, hlen, fun m hm' halong k hk => ?_⟩
      have hlt {j : Nat} (hj : j < m) : j < v.pointers ^ (n + 1) := Nat.lt_of_lt_of_le hj hm'
      have hreached := ((along_root (hlt hk)).mp (halong k hk)).1.1
      have hblock := readBlock_reached (v := (kmalloc w).2) (kmalloc w).1 (hw.part ▸ hm)
        (hw.reliable hr) (hw.part.symm ▸ hreached)
      rw [hreads] at hblock
      have htable (i : Nat) (hi : i < v.pointers) : load table (4 * i) 4 = v.pointer b i := by
        obtain rfl : table = _ := congrArg (fun r => r.2.1) hblock
        have := hsize
        simp only [kmalloc, hw.part, hw.image]
        rw [load_copy_in _ _ (by omega) (by omega), Nat.sub_zero]
        rfl
      have hcongr (j : Nat) (hj : j < m) :
          Along v.pointer v.pointers v.part.Tabled Listable n (fun i => load table (4 * i) 4) j ∧
            leaf v.pointer v.pointers n (fun i => load table (4 * i) 4) j =
              leaf v.pointer v.pointers n (v.pointer b) j :=
        Along.congr (fun _ _ _ _ => rfl) htable (by rw [← Nat.pow_succ']; exact hlt hj)
          ((along_root (hlt hj)).mp (halong j hj)).2
      have hentry := hget m hm' (fun j hj => by
        rw [Nat.zero_mul, Nat.zero_add]
        exact (hcongr j hj).1) k hk
      rw [hentry, Nat.zero_mul, Nat.zero_add, (hcongr k hk).2, leaf_root (hlt hk)]

end

/-! ## `ext2_load_block_list` -/

section

variable {v w x : Volume} {loader : ListLoader} {inode : Bytes} {list list' : List Nat}
  {inodeNumber number cap i j n r : Nat}

/-- The way to a logical block can be followed by the lists. -/
def Followed (v : Volume) (inode : Bytes) (k : Nat) : Prop :=
  v.LogicalAlong inode v.part.Tabled Listable k

/-- The loop over the direct blocks passes none by. -/
theorem loadDirectFrom_begins (hr : i + r ≤ 12) (hway : ∀ k, k < number → Followed v inode k)
    (h : Begins (v.logicalBlock inode) number i list) :
    Begins (v.logicalBlock inode) number (i + r) (loadDirectFrom inode number list i r) := by
  induction r generalizing i list with
  | zero => exact h
  | succ r ih =>
    rw [loadDirectFrom, show i + (r + 1) = i + 1 + r by omega]
    by_cases hlen : number ≤ list.length
    · rw [if_pos hlen]
      exact Nat.add_assoc i 1 r ▸ h.skip hlen
    · have hmin := h.min_le
      have hnext := (Volume.logicalAlong_direct (by omega)).mp (hway i (by omega))
      rw [if_neg hlen, if_pos hnext.1]
      refine ih (by omega) (h.extend (by omega) (Nat.le_refl 1) fun k hk => ?_)
      obtain rfl : k = 0 := by omega
      rw [Volume.logicalBlock_direct (by omega)]
      rfl

/-- The list after a stage begins as the file does. -/
theorem Begins.stage (h : Begins (v.logicalBlock inode) number cap list) (hb : Lists v loader n)
    (hw : Unchanged v w) {stages : List (ListLoader × Nat)} (roots : Nat → Nat)
    (hleaf : ∀ k, k < v.pointers ^ n → k < number - cap → Along v.pointer v.pointers v.part.Tabled
      Listable n roots k ∧ v.logicalBlock inode (cap + k) = leaf v.pointer v.pointers n roots k)
    (hstage : loadStages number ((loader, roots 0) :: stages) list w = (some list', x)) :
    ∃ list'' w', Unchanged v w' ∧ loadStages number stages list'' w' = (some list', x) ∧
      Begins (v.logicalBlock inode) number (cap + v.pointers ^ n) list'' := by
  rw [loadStages] at hstage
  split at hstage
  · rename_i hlen
    cases hload : loader w (roots 0) with
    | mk more y =>
      rw [hload] at hstage
      cases more with
      | none => cases hstage
      | some more =>
        obtain ⟨hy, hsize, hget⟩ := hb _ _ _ _ hw hload
        simp only at hstage
        refine ⟨_, _, hy, hstage, h.extend hlen hsize fun k hk => ?_⟩
        have hentry := hget (min (number - cap) (v.pointers ^ n)) (by omega)
          (fun j hj => (along_first (by omega)).mp (hleaf j (by omega) (by omega)).1) k hk
        rw [hentry, (hleaf k (by omega) (by omega)).2]
        exact congrArg some (leaf_first (by omega)).symm
  · exact ⟨_, _, hw, hstage, h.skip (by omega)⟩

theorem loadDirectFrom_length_le (h : list.length ≤ number) :
    (loadDirectFrom inode number list i r).length ≤ number := by
  induction r generalizing i list with
  | zero => exact h
  | succ r ih =>
    rw [loadDirectFrom]
    split
    · exact h
    · split
      · exact ih (by rw [List.length_append, List.length_singleton]; omega)
      · exact ih h

/-- The rounding is exact where it does not wrap. -/
theorem divideRoundedUp_eq {x y : Nat} (hpos : 0 < y) (h : x + y ≤ 4294967296) :
    divideRoundedUp x y = (x + y - 1) / y := by
  have hdiv := Nat.div_add_mod x y
  unfold divideRoundedUp
  split
  · rw [u32_of_lt (by omega)]
  · refine (Nat.div_eq_of_lt_le ?_ ?_).symm
    · rw [Nat.mul_comm]
      omega
    · rw [Nat.succ_mul, Nat.mul_comm]
      omega

/-- Where the rounding does not wrap to nothing it is exact. -/
theorem divideRoundedUp_of_ne {x y : Nat} (hx : x < 4294967296) (hy : y < 4294967296)
    (h : divideRoundedUp x y ≠ 0) : divideRoundedUp x y = (x + y - 1) / y := by
  have hpos : 0 < y := Nat.pos_of_ne_zero fun h0 => h (by
    subst h0
    unfold divideRoundedUp
    rw [Nat.div_zero, Nat.div_zero, ite_self])
  by_cases hle : x + y ≤ 4294967296
  · exact divideRoundedUp_eq hpos hle
  · have hdiv := Nat.div_add_mod x y
    unfold divideRoundedUp at h ⊢
    split
    · rename_i hmod
      rw [if_pos hmod] at h
      refine absurd (Nat.div_eq_of_lt ?_) h
      unfold u32
      omega
    · refine (Nat.div_eq_of_lt_le ?_ ?_).symm
      · rw [Nat.mul_comm]
        omega
      · rw [Nat.succ_mul, Nat.mul_comm]
        omega

/-- `ext2_load_block_list` lists the logical blocks of the file in order. -/
theorem loadBlockList_spec (hm : Mounted v.part) (hr : v.disk.Reliable)
    (hread : (readInode v inodeNumber).1 = some inode)
    (hway : ∀ k, k < v.part.blocksFor (InodeDescriptor.size.get inode 0) → Followed v inode k)
    (h : loadBlockList v inodeNumber = (some list, x)) : Unchanged v x ∧
      divideRoundedUp (InodeDescriptor.size.get inode 0) v.part.blockSize =
        v.part.blocksFor (InodeDescriptor.size.get inode 0) ∧
      list = (List.range (v.part.blocksFor (InodeDescriptor.size.get inode 0))).map
        (v.logicalBlock inode) := by
  obtain ⟨y, hy⟩ : ∃ y, readInode v inodeNumber = (some inode, y) := ⟨_, Prod.ext hread rfl⟩
  have hsame := readInode_unchanged hm hr hy
  obtain ⟨hsize, hsize'⟩ := hm.pointers_bounds
  simp only [loadBlockList, hy, hsame.part] at h
  split at h
  · cases h
  · rename_i hnumber
    have hblocks : divideRoundedUp (InodeDescriptor.size.get inode 0) v.part.blockSize =
        v.part.blocksFor (InodeDescriptor.size.get inode 0) :=
      divideRoundedUp_of_ne (Field.get_lt inode) (by have := hm.blockSize_bounds; omega) hnumber
    rw [hblocks] at h
    obtain ⟨number, hn⟩ : ∃ number, v.part.blocksFor (InodeDescriptor.size.get inode 0) = number := ⟨_, rfl⟩
    rw [hblocks, hn]
    rw [hn] at h hway
    have hdirect : Begins (v.logicalBlock inode) number (0 + 12) (loadDirectFrom inode number [] 0 12) :=
      loadDirectFrom_begins (Nat.le_refl 12) hway .nil
    rw [Nat.zero_add] at hdirect
    split at h
    · cases h
    · rename_i list' z hstages
      have hlist₁ : Lists v loadIndirectBlockList 1 := lists_table hm hr (lists_pointer v)
      have hlist₂ : Lists v loadDoubleIndirectBlockList 2 := lists_table hm hr hlist₁
      have hlist₃ : Lists v loadTripleIndirectBlockList 3 := lists_table hm hr hlist₂
      obtain ⟨l₁, w₁, hw₁, hstages₁, hb₁⟩ := hdirect.stage hlist₁ hsame.kmalloc
        (fun i => iBlock inode (12 + i)) (fun k hk hk' => by
        rw [Nat.pow_one] at hk
        exact ⟨(Volume.logicalAlong_single hk).mp (hway _ (by omega)), Volume.logicalBlock_single hk⟩)
        hstages
      rw [Nat.pow_one] at hb₁
      obtain ⟨l₂, w₂, hw₂, hstages₂, hb₂⟩ := hb₁.stage hlist₂ hw₁ (fun i => iBlock inode (13 + i)) (fun k hk hk' =>
        ⟨(Volume.logicalAlong_double hk).mp (hway _ (by omega)), Volume.logicalBlock_double hk⟩) hstages₁
      obtain ⟨l₃, w₃, hw₃, hstages₃, hb₃⟩ := hb₂.stage hlist₃ hw₂ (fun i => iBlock inode (14 + i)) (fun k hk hk' =>
        ⟨(Volume.logicalAlong_triple.mp (hway _ (by omega))).2, Volume.logicalBlock_triple⟩) hstages₂
      rw [loadStages, Prod.mk.injEq, Option.some.injEq] at hstages₃
      obtain ⟨rfl, rfl⟩ := hstages₃
      split at h
      · cases h
      · rename_i hlen
        cases h
        exact ⟨hw₃, rfl, hb₃.eq_map (by simpa using hlen)⟩

end

/-! ## Files that can be read -/

section

variable {v w x : Volume} {a : Bytes} {list : List Nat} {b k n : Nat}

/-- A block that a transfer reaches lies below sector 2^31, and its number is no end mark. -/
theorem Partition.Reached.tabled {p : Partition} (h : p.Reached b) (hm : Mounted p) : p.Tabled b := by
  refine ⟨h, fun hend => ?_⟩
  have ha := h.addressable
  have hq := hm.blockSectors_ge
  have hq' := hm.blockSectors_le
  have hl := hm.lba
  subst hend
  have hlower : INODE_BLOCK_END * 2 ≤ INODE_BLOCK_END * p.blockSectors := Nat.mul_le_mul_left _ hq
  have hupper : INODE_BLOCK_END * p.blockSectors ≤ INODE_BLOCK_END * 2097152 := Nat.mul_le_mul_left _ hq'
  unfold Partition.Addressable Partition.ioSector Partition.blockSector sext32 at ha
  have hlba := Mounted.blockLba_lt p (b := INODE_BLOCK_END)
  unfold INODE_BLOCK_END at *
  split at ha <;> omega

/-- The logical blocks depend on the fifteen pointers of the inode and the blocks of pointers. -/
theorem Volume.LogicalAlong.logicalBlock_eq {inode : Bytes} {T L : Nat → Prop}
    (hpointers : w.pointers = v.pointers)
    (hpointer : ∀ b, T b → ∀ i, i < v.pointers → w.pointer b i = v.pointer b i)
    (hblock : ∀ i, i < 15 → iBlock a i = iBlock inode i) (h : v.LogicalAlong inode T L k) :
    w.logicalBlock a k = v.logicalBlock inode k := by
  have hroot {m i j : Nat} (hi : i < 15) (hj : j < v.pointers ^ m)
      (halong : Along v.pointer v.pointers T L m (fun k => iBlock inode (i + k)) j) :
      Indirect.leaf w.pointer v.pointers m (fun k => iBlock a (i + k)) j =
        Indirect.leaf v.pointer v.pointers m (fun k => iBlock inode (i + k)) j :=
    (Along.congr (r := 1) hpointer (fun j hj => by
      obtain rfl : j = 0 := by omega
      exact hblock i hi) (by rwa [Nat.one_mul]) halong).2
  rcases v.position_cases k with hk | ⟨j, hj, rfl⟩ | ⟨j, hj, rfl⟩ | ⟨j, rfl⟩
  · rw [logicalBlock_direct hk, logicalBlock_direct hk, hblock k (by omega)]
  · rw [logicalAlong_single hj] at h
    rw [logicalBlock_single hj, logicalBlock_single (by rwa [hpointers]), hpointers,
      hroot (by omega) (by rwa [Nat.pow_one]) h]
  · rw [logicalAlong_double hj] at h
    rw [logicalBlock_double hj, ← hpointers, logicalBlock_double (by rwa [hpointers]), hpointers,
      hroot (by omega) hj h]
  · rw [logicalAlong_triple] at h
    rw [logicalBlock_triple, ← hpointers, logicalBlock_triple, hpointers, hroot (by omega) h.1 h.2]

/-- The logical blocks of inode `n`. -/
def Volume.fileBlocks (v : Volume) (n : Nat) : List Nat :=
  (List.range (v.part.blocksFor (v.fileSize n))).map (v.logicalBlock (v.inodeBytes n))

@[simp] theorem Volume.length_fileBlocks : (v.fileBlocks n).length = v.part.blocksFor (v.fileSize n) := by
  rw [fileBlocks, List.length_map, List.length_range]

/-- A block is counted where some byte of the file lies in it. -/
theorem Mounted.lt_blocksFor {p : Partition} (hm : Mounted p) {size : Nat} :
    k < p.blocksFor size ↔ k * p.blockSize < size := by
  have hpos := hm.blockSize_bounds.1
  rw [Partition.blocksFor, Nat.lt_div_iff_mul_lt (by omega)]
  omega

namespace Readable

theorem followed (h : Readable v n) (hk : k < v.part.blocksFor (v.fileSize n)) :
    Followed v (v.inodeBytes n) k :=
  (h.reached k (h.mounted.lt_blocksFor.mp hk)).mono (fun _ hb => hb.tabled h.mounted)
    fun _ hb => ⟨hb.pos, (hb.tabled h.mounted).2⟩

/-- A list that `ext2_load_block_list` returns is that of the file's blocks. -/
theorem loadBlockList (h : Readable v n) (hload : loadBlockList v n = (some list, x)) :
    Unchanged v x ∧ list = v.fileBlocks n ∧
      divideRoundedUp (v.fileSize n) v.part.blockSize = v.part.blocksFor (v.fileSize n) := by
  obtain ⟨inode, w, hread, hw, hfield, hblock⟩ := h.readInode
  have hsize : InodeDescriptor.size.get inode 0 = v.fileSize n := hfield _ (by decide)
  have hway {k : Nat} (hk : k < v.part.blocksFor (v.fileSize n)) : Followed v inode k :=
    (h.followed hk).transfer ⟨rfl, rfl, id⟩ hblock
  obtain ⟨hx, hnumber, hlist⟩ := loadBlockList_spec h.mounted h.reliable (congrArg Prod.fst hread)
    (fun k hk => hway (hsize ▸ hk)) hload
  rw [hsize] at hlist hnumber
  refine ⟨hx, hlist.trans (List.map_congr_left fun k hk => ?_), hnumber⟩
  exact (h.followed (List.mem_range.mp hk)).logicalBlock_eq rfl (fun _ _ _ _ => rfl) hblock

/-- The blocks of a file of at most twelve are listed. -/
theorem loadBlockList_small (h : Readable v n) (hpos : 0 < v.fileSize n)
    (hsmall : v.part.blocksFor (v.fileSize n) ≤ 12)
    (hfits : v.fileSize n + v.part.blockSize ≤ 4294967296) : (Ext2.loadBlockList v n).1 ≠ none := by
  obtain ⟨inode, w, hread, hw, hfield, hblock⟩ := h.readInode
  have hsize : InodeDescriptor.size.get inode 0 = v.fileSize n := hfield _ (by decide)
  have hnumber : divideRoundedUp (v.fileSize n) v.part.blockSize = v.part.blocksFor (v.fileSize n) :=
    divideRoundedUp_eq (by have := h.blockSize_ge; omega) hfits
  have hzero : v.part.blocksFor (v.fileSize n) ≠ 0 :=
    Nat.ne_of_gt (h.mounted.lt_blocksFor.mpr (by rwa [Nat.zero_mul]))
  have hway (k : Nat) (hk : k < v.part.blocksFor (v.fileSize n)) : Followed v inode k :=
    (h.followed hk).transfer ⟨rfl, rfl, id⟩ hblock
  have hdirect : Begins (v.logicalBlock inode) (v.part.blocksFor (v.fileSize n)) (0 + 12)
      (loadDirectFrom inode (v.part.blocksFor (v.fileSize n)) [] 0 12) :=
    loadDirectFrom_begins (Nat.le_refl 12) hway .nil
  have hmin := hdirect.min_le
  have hlen : (loadDirectFrom inode (v.part.blocksFor (v.fileSize n)) [] 0 12).length ≤
      v.part.blocksFor (v.fileSize n) := loadDirectFrom_length_le (Nat.zero_le _)
  simp only [Ext2.loadBlockList, hread, hsize, hw.part, hnumber]
  rw [if_neg hzero]
  simp only [loadStages]
  rw [if_neg (by omega), if_neg (by omega), if_neg (by omega)]
  simp only
  rw [if_neg (by omega)]
  exact Option.some_ne_none _

end Readable

end

/-- One group of 4095 blocks. -/
def filePartition : Partition :=
  (smallPartition.setSuper Superblock.blocksPerGroup 4096).setSuper Superblock.blocksCount 4096

/-- A file of 13 blocks, 16 to 27 and 29, with its block of pointers in block 28. The first 29 blocks
are in use, and the padding is set. -/
def fileVolume : Volume where
  disk :=
    { image := fun a =>
        if a = 5 then 52
        else if 40 ≤ a ∧ a < 92 ∧ a % 4 = 0 then BitVec.ofNat 8 (16 + (a - 40) / 4)
        else if a = 28672 then 29
        else if 3072 ≤ a ∧ a < 3075 then 255
        else if a = 3075 then 31
        else if a = 3583 then 128
        else if 3584 ≤ a ∧ a < 4096 then 255
        else 0
      fails := fun _ => false
      clock := 0 }
  part := filePartition
  buffers := fun _ _ => 0
  allocated := 0

theorem mounted_filePartition : Mounted filePartition :=
  ⟨rfl, by decide +kernel, by decide, by decide +kernel, by decide +kernel, by decide +kernel,
    by decide +kernel⟩

theorem readable_fileVolume : Readable fileVolume 1 := by
  have hsize : fileVolume.part.blockSize = 1024 := by decide +kernel
  have hfile : fileVolume.fileSize 1 = 13312 := by decide +kernel
  have hsectors : filePartition.blockSectors = 2 := by decide +kernel
  have hreached (b : Nat) (hb : b < 64) (hpos : 0 < b) : fileVolume.part.Reached b := by
    refine ⟨hpos, mounted_filePartition.addressable ?_ ?_, by omega⟩
    · change b * fileVolume.part.blockSize < _
      rw [hsize]
      omega
    · change 0 + b * filePartition.blockSectors < _
      rw [hsectors]
      omega
  have hblock : ∀ k, k < 13 → 0 < iBlock (fileVolume.inodeBytes 1) k ∧
      iBlock (fileVolume.inodeBytes 1) k < 64 := by decide +kernel
  have hlast : fileVolume.pointer (iBlock (fileVolume.inodeBytes 1) 12) 0 = 29 := by decide +kernel
  refine ⟨mounted_filePartition, fun _ => rfl, ⟨by decide +kernel, by decide +kernel⟩, fun k hk => ?_⟩
  rw [hsize, hfile] at hk
  by_cases hk12 : k < 12
  · exact (Volume.logicalAlong_direct hk12).mpr (hreached _ (hblock k (by omega)).2 (hblock k (by omega)).1)
  · obtain rfl : k = 12 + 0 := by omega
    refine (Volume.logicalAlong_single (by decide +kernel)).mpr ?_
    simp only [Along, Nat.zero_div, Nat.zero_mod]
    exact ⟨hreached _ (hblock 12 (by omega)).2 (hblock 12 (by omega)).1,
      by rw [Nat.add_zero, hlast]; exact hreached _ (by omega) (by omega)⟩

end UnedKernel.Ext2
