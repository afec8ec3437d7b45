import UnedKernel.Ext2.BlockTransfers

/-! # Reading bytes of an inode

`ext2_read_inode_bytes`: a first block read in part, whole blocks, and a last
block read in part. -/

namespace UnedKernel.Ext2
open ByteMem Word Sectors

/-- `ext2_read_inode_blocks` of one inode: the volume, the destination, the count and the
blocks to skip. -/
abbrev BlockReader := Volume → Bytes → Nat → Nat → Int × Bytes × Volume

/-- `DIVIDE_ROUNDED_UP` of a 64-bit operand. -/
def divideRoundedUp64 (x y : Nat) : Nat := if x % y ≠ 0 then u64 (x + y - 1) / y else x / y

/-- A 64-bit word as an `int64_t`. -/
def int64 (x : Nat) : Int := if x < 9223372036854775808 then x else x - 18446744073709551616

/-- The variables of `ext2_read_inode_bytes`: `pos` is how far `destination_buffer` moved. -/
structure ByteRead where
  vol : Volume
  dest : Bytes
  pos : Nat
  skipBlocks : Nat
  readBytes : Nat

section reads

variable (readBlocks : BlockReader) (size : Nat)

/-- The first block, from `skipBytes` on. `false` is a failure. -/
def readFirst (skipBytes : Nat) (s : ByteRead) : Bool × ByteRead :=
  if skipBytes = 0 then (true, s)
  else
    let (temp, vol) := kmalloc s.vol
    let (result, temp, vol) := readBlocks vol temp 1 s.skipBlocks
    if result ≠ 1 then (false, { s with vol := vol })
    else (true, { vol := vol
                  dest := copy s.dest s.pos temp skipBytes (size - skipBytes)
                  pos := s.pos + (size - skipBytes)
                  skipBlocks := u64 (s.skipBlocks + 1)
                  readBytes := u64 (s.readBytes + (size - skipBytes)) })

/-- `blocks - 1` whole blocks, when bytes remain. -/
def readWhole (count blocks : Nat) (s : ByteRead) : Bool × ByteRead :=
  if 0 < int64 (sub64 count s.readBytes) then
    let (result, part, vol) :=
      readBlocks s.vol (fun x => s.dest (s.pos + x)) (sub64 blocks 1) s.skipBlocks
    let dest : Bytes := fun x => if x < s.pos then s.dest x else part (x - s.pos)
    if result = EXT2_READ_FAILED ∨ result < 0 then (false, { s with vol := vol, dest := dest })
    else (true, { vol := vol
                  dest := dest
                  pos := s.pos + result.toNat * size
                  skipBlocks := u64 (s.skipBlocks + result.toNat)
                  readBytes := u64 (s.readBytes + result.toNat * size) })
  else (true, s)

/-- The first bytes of one more block, when bytes remain. -/
def readLast (count : Nat) (s : ByteRead) : Bool × ByteRead :=
  if 0 < int64 (sub64 count s.readBytes) then
    let (temp, vol) := kmalloc s.vol
    let (result, temp, vol) := readBlocks vol temp 1 s.skipBlocks
    if result ≠ 1 then (false, { s with vol := vol })
    else (true, { s with vol := vol
                         dest := copy s.dest s.pos temp 0 (sub64 count s.readBytes)
                         readBytes := u64 (s.readBytes + sub64 count s.readBytes) })
  else (true, s)

/-- `ext2_read_inode_bytes` over `ext2_read_inode_blocks`: the result, the destination and
the volume. -/
def readInodeBytesBy (v : Volume) (dest : Bytes) (count skip : Nat) : Int × Bytes × Volume :=
  let size := v.part.blockSize
  let blocks := divideRoundedUp64 count size
  let (ok, s) := readFirst readBlocks size (skip % size) ⟨v, dest, 0, skip / size, 0⟩
  if ok then
    let (ok, s) := readWhole readBlocks size count blocks s
    if ok then
      let (ok, s) := readLast readBlocks count s
      (if ok then (s.readBytes : Int) else EXT2_READ_FAILED, s.dest, s.vol)
    else (EXT2_READ_FAILED, s.dest, s.vol)
  else (EXT2_READ_FAILED, s.dest, s.vol)

end reads

/-- `ext2_read_inode_bytes`. -/
def readInodeBytes (v : Volume) (inodeNumber : Nat) (dest : Bytes) (count skip : Nat) :
    Int × Bytes × Volume :=
  readInodeBytesBy (fun v => readInodeBlocks v inodeNumber) v dest count skip

/-! ## The bytes read -/

/-- What is asked of `ext2_read_inode_blocks`, in the states `good`: it returns the count
and fills the destination with the blocks of `file`, of which there are `blocks`. -/
structure Delivers (readBlocks : BlockReader) (size : Nat) (file : Bytes) (blocks : Nat)
    (good : Volume → Prop) : Prop where
  heap : ∀ v, good v → good (kmalloc v).2
  reads : ∀ v dest count skip, good v → skip + count ≤ blocks →
    (readBlocks v dest count skip).1 = count ∧ good (readBlocks v dest count skip).2.2 ∧
      ∀ x, (readBlocks v dest count skip).2.1 x =
        if x < count * size then file (skip * size + x) else dest x

section reads

variable {readBlocks : BlockReader} {size fileSize count skip : Nat} {file dest : Bytes}
  {good : Volume → Prop} {v : Volume} {s : ByteRead}

/-- The first `n` bytes of the file from `skip` on are in the destination. -/
structure Filled (file dest : Bytes) (skip : Nat) (good : Volume → Prop) (s : ByteRead) (n : Nat) :
    Prop where
  good : good s.vol
  pos : s.pos = n
  readBytes : s.readBytes = n
  dest : ∀ x, s.dest x = if x < n then file (skip + x) else dest x

theorem int64_pos_iff {x : Nat} (hx : x < 9223372036854775808) (hc : count < 9223372036854775808) :
    0 < int64 (sub64 count x) ↔ x < count := by
  unfold int64 sub64 u64
  split <;> omega

theorem readFirst_spec {blocks : Nat} (hd : Delivers readBlocks size file blocks good)
    (hs : Filled file dest skip good s 0) (hsize : 1024 ≤ size) (hsize' : size < 4294967296)
    (hskip : skip % size ≠ 0) (hat : s.skipBlocks = skip / size) (hblocks : skip / size < blocks)
    (hlt : skip < 4294967296) :
    ∃ s', readFirst readBlocks size (skip % size) s = (true, s') ∧
      Filled file dest skip good s' (size - skip % size) ∧ s'.skipBlocks = skip / size + 1 := by
  have hmod := Nat.mod_lt skip (show 0 < size by omega)
  have hdiv : skip / size ≤ skip := Nat.div_le_self _ _
  obtain ⟨hresult, hgood, htemp⟩ := hd.reads _ (kmalloc s.vol).1 1 s.skipBlocks (hd.heap _ hs.good)
    (by omega)
  unfold readFirst
  rw [if_neg hskip]
  simp only [hresult]
  rw [if_neg (by simp)]
  refine ⟨_, rfl, ⟨hgood, ?_, ?_, fun x => ?_⟩, ?_⟩
  · rw [hs.pos, Nat.zero_add]
  · rw [hs.readBytes, Nat.zero_add]
    exact u64_of_lt (by omega)
  · have hfile := Nat.div_add_mod skip size
    rw [Nat.mul_comm] at hfile
    simp only [hs.pos]
    by_cases hx : x < size - skip % size
    · rw [copy_apply_in _ _ (Nat.zero_le x) (by omega), htemp, if_pos (by omega), if_pos hx, hat]
      congr 1
      omega
    · rw [copy_apply_out _ _ (by omega), if_neg hx, hs.dest, if_neg (Nat.not_lt_zero x)]
  · simp only [hat]
    exact u64_of_lt (by omega)

theorem readWhole_spec {blocks m n : Nat} (hd : Delivers readBlocks size file blocks good)
    (hs : Filled file dest skip good s n) (hat : skip + n = s.skipBlocks * size)
    (hblocks : s.skipBlocks + m ≤ blocks) (hlt : n + m * size < 18446744073709551616)
    (hm : m < 4294967294) (hs64 : s.skipBlocks < 4294967296)
    (hn : n < count) (hcount : count < 4294967296) :
    ∃ s', readWhole readBlocks size count (m + 1) s = (true, s') ∧
      Filled file dest skip good s' (n + m * size) ∧ s'.skipBlocks = s.skipBlocks + m := by
  obtain ⟨hresult, hgood, hpart⟩ := hd.reads s.vol (fun x => s.dest (s.pos + x)) m s.skipBlocks
    hs.good hblocks
  have hne : ¬ ((m : Int) = EXT2_READ_FAILED ∨ (m : Int) < 0) := by
    unfold EXT2_READ_FAILED
    omega
  unfold readWhole
  rw [hs.readBytes, if_pos ((int64_pos_iff (by omega) (by omega)).mpr hn),
    sub64_of_le (show 1 ≤ m + 1 by omega) (by omega), Nat.add_sub_cancel]
  simp only [hresult]
  rw [if_neg hne]
  simp only [Int.toNat_natCast]
  refine ⟨_, rfl, ⟨hgood, by rw [hs.pos], u64_of_lt hlt, fun x => ?_⟩, u64_of_lt (by omega)⟩
  rw [hs.pos] at hpart ⊢
  simp only
  by_cases hx : x < n
  · rw [if_pos hx, hs.dest, if_pos hx, if_pos (by omega)]
  · rw [if_neg hx, hpart]
    by_cases hin : x < n + m * size
    · rw [if_pos (by omega), if_pos hin, ← hat]
      congr 1
      omega
    · rw [if_neg (by omega), if_neg hin, Nat.add_sub_cancel' (by omega), hs.dest, if_neg hx]

theorem readLast_spec {blocks n : Nat} (hd : Delivers readBlocks size file blocks good)
    (hs : Filled file dest skip good s n) (hat : skip + n = s.skipBlocks * size)
    (hblocks : s.skipBlocks < blocks) (hn : n < count) (hcount : count < 4294967296)
    (hrest : count - n ≤ size) :
    ∃ s', readLast readBlocks count s = (true, s') ∧ s'.readBytes = count ∧ good s'.vol ∧
      ∀ x, s'.dest x = if x < count then file (skip + x) else dest x := by
  obtain ⟨hresult, hgood, htemp⟩ := hd.reads _ (kmalloc s.vol).1 1 s.skipBlocks (hd.heap _ hs.good)
    hblocks
  unfold readLast
  rw [hs.readBytes, if_pos ((int64_pos_iff (by omega) (by omega)).mpr hn)]
  simp only [hresult]
  rw [if_neg (by simp), sub64_of_le (Nat.le_of_lt hn) (by omega), Nat.add_sub_cancel' (by omega)]
  refine ⟨_, rfl, u64_of_lt (by omega), hgood, fun x => ?_⟩
  simp only [hs.pos]
  by_cases hx : n ≤ x ∧ x < n + (count - n)
  · rw [copy_apply_in _ _ hx.1 hx.2, htemp, if_pos (by omega), if_pos (by omega), ← hat]
    congr 1
    omega
  · rw [copy_apply_out _ _ (by omega), hs.dest]
    by_cases hlt : x < n
    · rw [if_pos hlt, if_pos (by omega)]
    · rw [if_neg hlt, if_neg (by omega)]

/-- Without bytes remaining the later stages do nothing. -/
theorem readWhole_done {blocks n : Nat} (hn : s.readBytes = n) (h : count ≤ n)
    (hlt : n < 9223372036854775808) :
    readWhole readBlocks size count blocks s = (true, s) := by
  unfold readWhole
  rw [hn, if_neg]
  rw [int64_pos_iff hlt (by omega)]
  omega

theorem readLast_done {n : Nat} (hn : s.readBytes = n) (h : count ≤ n)
    (hlt : n < 9223372036854775808) : readLast readBlocks count s = (true, s) := by
  unfold readLast
  rw [hn, if_neg]
  rw [int64_pos_iff hlt (by omega)]
  omega

theorem divideRoundedUp64_eq {x y : Nat} (hx : x < 9223372036854775808) (hy : y < 4294967296)
    (hpos : 0 < y) : divideRoundedUp64 x y = (x + y - 1) / y := by
  have hdiv := Nat.div_add_mod x y
  unfold divideRoundedUp64
  split
  · rw [u64_of_lt (by omega)]
  · refine (Nat.div_eq_of_lt_le ?_ ?_).symm
    · rw [Nat.mul_comm]
      omega
    · rw [Nat.succ_mul, Nat.mul_comm]
      omega

/-- The last block begins before the end and ends at or after it. -/
theorem ceil_succ (hsize : 0 < size) (hcount : 0 < count) : ∃ m,
    (count + size - 1) / size = m + 1 ∧ m * size < count ∧ count ≤ (m + 1) * size := by
  have hceil := Nat.div_add_mod (count + size - 1) size
  have hceil' := Nat.mod_lt (count + size - 1) hsize
  rw [Nat.mul_comm] at hceil
  cases hm : (count + size - 1) / size with
  | zero => rw [hm] at hceil; omega
  | succ m => rw [hm, Nat.succ_mul] at hceil; exact ⟨m, rfl, by omega, by rw [Nat.succ_mul]; omega⟩

/-- How many bytes the stages before the last account for. -/
def overrun (size count skip : Nat) : Nat :=
  if skip % size = 0 then 0 else max 1 ((count + size - 1) / size) * size - skip % size

/-- The first bytes of the file from `skip` on are read: `count` of them, or as many as
the first two stages read. -/
theorem readInodeBytesBy_spec (hsize : 1024 ≤ v.part.blockSize) (hfile : fileSize < 4294967296)
    (hd : Delivers readBlocks v.part.blockSize file
      ((fileSize + v.part.blockSize - 1) / v.part.blockSize) good) (hv : good v)
    (hrange : skip + count ≤ fileSize) (dest : Bytes) :
    ∃ n : Nat, (readInodeBytesBy readBlocks v dest count skip).1 = n ∧
      n = max count (overrun v.part.blockSize count skip) ∧
      good (readInodeBytesBy readBlocks v dest count skip).2.2 ∧
      ∀ x, (readInodeBytesBy readBlocks v dest count skip).2.1 x =
        if x < n then file (skip + x) else dest x := by
  obtain ⟨size, hs⟩ : ∃ size, v.part.blockSize = size := ⟨_, rfl⟩
  have hsize' : v.part.blockSize < 4294967296 := u32_lt _
  rw [hs] at hsize hsize' hd ⊢
  have hmod := Nat.mod_lt skip (show 0 < size by omega)
  have hdiv := Nat.div_add_mod skip size
  have hblocks := Nat.div_add_mod (fileSize + size - 1) size
  have hblocks' := Nat.mod_lt (fileSize + size - 1) (show 0 < size by omega)
  rw [Nat.mul_comm] at hdiv hblocks
  -- the first block
  obtain ⟨s, n, hrun, hfilled, hn, hat⟩ : ∃ s n,
      readFirst readBlocks size (skip % size) ⟨v, dest, 0, skip / size, 0⟩ = (true, s) ∧
      Filled file dest skip good s n ∧ (n = if skip % size = 0 then 0 else size - skip % size) ∧
      skip + n = s.skipBlocks * size := by
    have hzero : Filled file dest skip good ⟨v, dest, 0, skip / size, 0⟩ 0 :=
      ⟨hv, rfl, rfl, fun x => by rw [if_neg (Nat.not_lt_zero x)]⟩
    by_cases hskip : skip % size = 0
    · exact ⟨_, 0, by rw [readFirst, if_pos hskip], hzero, by rw [if_pos hskip], by simp only; omega⟩
    · obtain ⟨s, hrun, hfilled, hat⟩ := readFirst_spec hd hzero hsize hsize' hskip rfl
        (by
          refine Nat.lt_of_mul_lt_mul_right (a := size) ?_
          omega) (by omega)
      exact ⟨s, _, hrun, hfilled, by rw [if_neg hskip], by rw [hat, Nat.succ_mul]; omega⟩
  unfold readInodeBytesBy
  simp only [hs, hrun, ite_true, divideRoundedUp64_eq (show count < 9223372036854775808 by omega) hsize'
    (show 0 < size by omega)]
  by_cases hlt : n < count
  · -- whole blocks
    obtain ⟨m, hm, hlower, hupper⟩ := ceil_succ (show 0 < size by omega) (show 0 < count by omega)
    rw [Nat.succ_mul] at hupper
    have hle : m * 1024 ≤ m * size := Nat.mul_le_mul_left m hsize
    have hnsize : n ≤ size := by
      rw [hn]
      split <;> omega
    have hle' : s.skipBlocks ≤ s.skipBlocks * size := Nat.le_mul_of_pos_right _ (by omega)
    have hadd : (s.skipBlocks + m) * size = skip + n + m * size := by rw [Nat.add_mul, hat]
    have hover : overrun size count skip = if skip % size = 0 then 0 else n + m * size := by
      unfold overrun
      rw [hm, Nat.max_eq_right (by omega), Nat.succ_mul, hn]
      split <;> omega
    obtain ⟨s', hrun', hfilled', hat'⟩ := readWhole_spec hd hfilled hat
      (by
        refine Nat.le_of_lt_succ (Nat.lt_of_mul_lt_mul_right (a := size) ?_)
        rw [hadd, Nat.succ_mul]
        omega) (by omega) (by omega) (by omega) hlt (by omega)
    simp only [hm, hrun', ite_true]
    by_cases hlt' : n + m * size < count
    · -- the last block
      obtain ⟨s'', hrun'', hread, hgood, hdest⟩ := readLast_spec hd hfilled' (by rw [hat', hadd]; omega)
        (by
          refine Nat.lt_of_mul_lt_mul_right (a := size) ?_
          rw [hat', hadd]
          omega) hlt' (by omega) (by omega)
      simp only [hrun'', ite_true]
      refine ⟨count, by rw [hread], ?_, hgood, hdest⟩
      rw [hover]
      split <;> omega
    · rw [readLast_done hfilled'.readBytes (by omega) (by omega)]
      simp only [ite_true]
      refine ⟨n + m * size, by rw [hfilled'.readBytes], ?_, hfilled'.good, hfilled'.dest⟩
      rw [hover]
      split at hn
      · omega
      · rw [if_neg ‹_›]
        omega
  · -- the first block holds all
    rw [readWhole_done hfilled.readBytes (by omega) (by split at hn <;> omega)]
    simp only [ite_true]
    rw [readLast_done hfilled.readBytes (by omega) (by split at hn <;> omega)]
    simp only [ite_true]
    refine ⟨n, by rw [hfilled.readBytes], ?_, hfilled.good, hfilled.dest⟩
    unfold overrun
    split at hn
    · rw [if_pos ‹_›]
      omega
    · have hone : (count + size - 1) / size ≤ 1 :=
        Nat.le_of_lt_succ (Nat.div_lt_of_lt_mul (by omega))
      rw [if_neg ‹_›, Nat.max_eq_left hone]
      omega

/-- `ext2_read_inode_bytes` fills exactly the requested bytes. -/
structure ReadsBytes (readBlocks : BlockReader) (v : Volume) (file dest : Bytes)
    (count skip : Nat) : Prop where
  result : (readInodeBytesBy readBlocks v dest count skip).1 = count
  filled : ∀ k, k < count → (readInodeBytesBy readBlocks v dest count skip).2.1 k = file (skip + k)
  others : ∀ k, count ≤ k → (readInodeBytesBy readBlocks v dest count skip).2.1 k = dest k

/-- Over blocks as the file has them, exactly the requested bytes are filled when and only
when the range starts at a block or reaches the end of the first two stages. -/
theorem readInodeBytes_exact_iff (hsize : 1024 ≤ v.part.blockSize) (hfile : fileSize < 4294967296)
    (hd : Delivers readBlocks v.part.blockSize file
      ((fileSize + v.part.blockSize - 1) / v.part.blockSize) good) (hv : good v)
    (hrange : skip + count ≤ fileSize) :
    ReadsBytes readBlocks v file dest count skip ↔ skip % v.part.blockSize = 0 ∨
      max 1 ((count + v.part.blockSize - 1) / v.part.blockSize) * v.part.blockSize ≤
        count + skip % v.part.blockSize := by
  obtain ⟨n, hresult, hn, -, hdest⟩ := readInodeBytesBy_spec hsize hfile hd hv hrange dest
  have hmod := Nat.mod_lt skip (show 0 < v.part.blockSize by omega)
  have hge : v.part.blockSize ≤
      max 1 ((count + v.part.blockSize - 1) / v.part.blockSize) * v.part.blockSize :=
    Nat.le_mul_of_pos_left _ (by omega)
  have hexact : n = count ↔ skip % v.part.blockSize = 0 ∨
      max 1 ((count + v.part.blockSize - 1) / v.part.blockSize) * v.part.blockSize ≤
        count + skip % v.part.blockSize := by
    rw [hn]
    unfold overrun
    split <;> omega
  rw [← hexact]
  constructor
  · intro h
    have hcount := h.result
    rw [hresult] at hcount
    exact_mod_cast hcount
  · intro h
    subst h
    exact ⟨hresult, fun k hk => by rw [hdest, if_pos hk], fun k hk => by rw [hdest, if_neg (by omega)]⟩

end reads
/-! ## Over the blocks of a small file -/

section small

variable {v w : Volume} {n blocks : Nat}

/-- Inode `n` on the disk, where `ext2_read_inode` looks for it. -/
def Volume.inodeBytes (v : Volume) (n : Nat) : Bytes := fun x =>
  window v.disk.image (sext32 (v.part.inodeLba n)) (v.part.inodeOffset n + x)

/-- The bytes of the logical blocks of inode `n`. -/
def Volume.fileBytes (v : Volume) (n : Nat) : Bytes := fun x =>
  v.disk.image (v.part.blockAddress (v.logicalBlock (v.inodeBytes n) (x / v.part.blockSize)) +
    x % v.part.blockSize)

/-- The fields of an inode lie where they are read whole. -/
structure InodeFits (p : Partition) (n : Nat) : Prop where
  size : 100 ≤ p.inodeSize
  offset : p.inodeOffset n + 100 ≤ p.blockSize

theorem readInode_prefix (hm : Mounted v.part) (hr : v.disk.Reliable) (hfits : InodeFits v.part n) :
    ∃ inode w, readInode v n = (some inode, w) ∧ Unchanged v w ∧
      ∀ x, x < 100 → inode x = v.inodeBytes n x := by
  obtain ⟨hsize, hoffset⟩ := hfits
  have hread := hm.readDisk_block (kmalloc v).1 (v.part.inodeLba n) hr
  simp only [readInode, kmalloc, hm.transferLength] at hread ⊢
  simp only [hread]
  rw [if_neg hm.blockSize_pos, if_neg (by omega)]
  refine ⟨_, _, rfl, ⟨rfl, rfl, id⟩, fun x hx => ?_⟩
  rw [copy_apply_in _ _ (by omega) (by omega), copy_apply_in _ _ (by omega) (by omega),
    Nat.sub_zero, Nat.zero_add]
  rfl

/-- The pointers of an inode are among its first 100 bytes. -/
theorem iBlock_congr {a b : Bytes} (h : ∀ x, x < 100 → a x = b x) {i : Nat} (hi : i < 15) :
    iBlock a i = iBlock b i := load_congr fun k hk => h _ (by omega)

/-- `ext2_read_inode_blocks` delivers the direct blocks. -/
theorem delivers_readInodeBlocks (hm : Mounted v.part) (hr : v.disk.Reliable)
    (hfits : InodeFits v.part n) (hblocks : blocks ≤ 12)
    (hreached : ∀ i, i < blocks → v.part.Reached (iBlock (v.inodeBytes n) i)) :
    Delivers (fun v => readInodeBlocks v n) v.part.blockSize (v.fileBytes n) blocks
      (Unchanged v) := by
  refine ⟨fun w hw => hw.trans ⟨rfl, rfl, id⟩, fun w dest count skip hw hrange => ?_⟩
  by_cases hcount : count = 0
  · subst hcount
    exact ⟨rfl, hw, fun x => by rw [Nat.zero_mul, if_neg (Nat.not_lt_zero x)]; rfl⟩
  · have hpart := hw.part
    obtain ⟨inode, w', hread, hw', hbegins⟩ := readInode_prefix (n := n) (hpart ▸ hm)
      (hw.reliable hr) (hpart.symm ▸ hfits)
    have hblock {k : Nat} (hk : k < 12) : iBlock inode k = iBlock (v.inodeBytes n) k := by
      refine iBlock_congr (fun x hx => ?_) (by omega)
      rw [hbegins x hx, Volume.inodeBytes, Volume.inodeBytes, hw.part, hw.image]
    obtain ⟨⟨hresult, hdest⟩, hsame⟩ := readInodeBlocks_spec dest (hpart ▸ hm)
      (hw.reliable hr) hread hw' (show skip < 12 by omega) (show 0 < count by omega) (by omega)
      fun k hk => (Volume.logicalAlong_direct (by omega)).mpr
        (by rw [hblock (by omega), hpart]; exact hreached _ (by omega))
    refine ⟨hresult, hw.trans hsame, fun x => ?_⟩
    rw [hdest, hpart]
    split
    · rename_i hx
      have hpos : 0 < v.part.blockSize := Nat.pos_of_ne_zero hm.blockSize_pos
      have hdiv : x / v.part.blockSize < count := Nat.div_lt_of_lt_mul (by rwa [Nat.mul_comm])
      rw [Volume.logicalBlock_direct (by omega), hblock (by omega), hw.image, Volume.fileBytes,
        Nat.mul_comm skip, Nat.mul_add_div hpos, Nat.mul_add_mod,
        Volume.logicalBlock_direct (by omega)]
    · rfl

end small

theorem delivers_treeVolume : Delivers (fun v => readInodeBlocks v 1) treeVolume.part.blockSize
    (treeVolume.fileBytes 1)
    ((4096 + treeVolume.part.blockSize - 1) / treeVolume.part.blockSize) (Unchanged treeVolume) := by
  have hblocks : (4096 + treeVolume.part.blockSize - 1) / treeVolume.part.blockSize = 4 := by
    decide +kernel
  have hreached : ∀ i, i < 4 → 0 < iBlock (treeVolume.inodeBytes 1) i ∧
      treeVolume.part.Addressable (iBlock (treeVolume.inodeBytes 1) i) := by decide +kernel
  rw [hblocks]
  exact delivers_readInodeBlocks mounted_smallPartition (fun _ => rfl)
    ⟨by decide +kernel, by decide +kernel⟩ (by omega)
    fun i hi => ⟨(hreached i hi).1, (hreached i hi).2, load_lt _ 4 _⟩

/-- The end of block 0 and block 1. -/
theorem readInodeBytes_exact_iff_tree :
    ReadsBytes (fun v => readInodeBlocks v 1) treeVolume (treeVolume.fileBytes 1) (fun _ => 0)
      1548 500 :=
  (readInodeBytes_exact_iff (by decide +kernel) (by decide) delivers_treeVolume ⟨rfl, rfl, id⟩
    (show 500 + 1548 ≤ 4096 by decide)).mpr (.inr (by decide +kernel))

/-- One byte inside block 0. -/
theorem readInodeBytes_not_exact : ¬ ∀ readBlocks v file fileSize good dest count skip,
    1024 ≤ v.part.blockSize → fileSize < 4294967296 →
    Delivers readBlocks v.part.blockSize file
      ((fileSize + v.part.blockSize - 1) / v.part.blockSize) good → good v →
    skip + count ≤ fileSize → ReadsBytes readBlocks v file dest count skip := by
  intro h
  have hreads := h _ treeVolume _ 4096 _ (fun _ => 0) 1 1 (by decide +kernel) (by decide)
    delivers_treeVolume ⟨rfl, rfl, id⟩ (by decide)
  obtain ⟨n, hresult, hn, -⟩ := readInodeBytesBy_spec (by decide +kernel) (by decide)
    delivers_treeVolume ⟨rfl, rfl, id⟩ (show 1 + 1 ≤ 4096 by decide) fun _ => 0
  have hover : overrun treeVolume.part.blockSize 1 1 = 1023 := by decide +kernel
  have hone := hresult.symm.trans hreads.result
  rw [hn, hover] at hone
  exact absurd hone (by decide)

end UnedKernel.Ext2
