import UnedKernel.Ext2.ByteReads

/-! # Writing bytes of an inode

`ext2_write_inode_bytes`: a first block rewritten in part, whole blocks, and a
last block rewritten in part. -/

namespace UnedKernel.Ext2
open ByteMem Word

/-- `ext2_write_inode_blocks` of one inode: the volume, the source, the count and the blocks
to skip. -/
abbrev BlockWriter := Volume → Bytes → Nat → Nat → Int × Volume

/-- The variables of `ext2_write_inode_bytes`: `pos` is how far `source_buffer` moved, and
`sourceEnd` how far the source was read. -/
structure ByteWrite where
  vol : Volume
  pos : Nat
  skipBlocks : Nat
  writtenBytes : Nat
  sourceEnd : Nat

section writes

variable (readBlocks : BlockReader) (writeBlocks : BlockWriter) (size : Nat) (source : Bytes)

/-- One block read, overwritten from `offset` on by `n` bytes of the source, and written back.
`false` is a failure. -/
def rewriteBlock (offset start n : Nat) (s : ByteWrite) : Bool × ByteWrite :=
  let (temp, vol) := kmalloc s.vol
  let (result, temp, vol) := readBlocks vol temp 1 s.skipBlocks
  if result ≠ 1 then (false, { s with vol := vol })
  else
    let (result, vol) := writeBlocks vol (copy temp offset source start n) 1 s.skipBlocks
    (decide (result = 1), { s with vol := vol, sourceEnd := max s.sourceEnd (start + n) })

/-- The first block, from `skipBytes` on: as many bytes are copied. -/
def writeFirst (skipBytes : Nat) (s : ByteWrite) : Bool × ByteWrite :=
  if skipBytes = 0 then (true, s)
  else
    let (ok, s) := rewriteBlock readBlocks writeBlocks source skipBytes s.pos skipBytes s
    if ok then (true, { s with pos := s.pos + (size - skipBytes)
                               skipBlocks := u64 (s.skipBlocks + 1)
                               writtenBytes := u64 (s.writtenBytes + (size - skipBytes)) })
    else (false, s)

/-- `blocks - 1` whole blocks, when bytes remain. -/
def writeWhole (count blocks : Nat) (s : ByteWrite) : Bool × ByteWrite :=
  if 0 < int64 (sub64 count s.writtenBytes) then
    let (result, vol) :=
      writeBlocks s.vol (fun x => source (s.pos + x)) (sub64 blocks 1) s.skipBlocks
    let sourceEnd := max s.sourceEnd (s.pos + sub64 blocks 1 * size)
    if result = EXT2_WRITE_FAILED ∨ result < 0 then
      (false, { s with vol := vol, sourceEnd := sourceEnd })
    else (true, { s with vol := vol
                         skipBlocks := u64 (s.skipBlocks + result.toNat)
                         writtenBytes := u64 (s.writtenBytes + result.toNat * size)
                         sourceEnd := sourceEnd })
  else (true, s)

/-- The first bytes of one more block, when bytes remain. -/
def writeLast (count : Nat) (s : ByteWrite) : Bool × ByteWrite :=
  if 0 < int64 (sub64 count s.writtenBytes) then
    let remaining := sub64 count s.writtenBytes
    let (ok, s) :=
      rewriteBlock readBlocks writeBlocks source 0 (s.pos + s.writtenBytes) remaining s
    if ok then (true, { s with writtenBytes := u64 (s.writtenBytes + remaining) }) else (false, s)
  else (true, s)

/-- `ext2_write_inode_bytes` over the transfers of blocks: the result and the variables. -/
def writeInodeBytesBy (v : Volume) (inodeNumber count skip : Nat) : Int × ByteWrite :=
  let size := v.part.blockSize
  let (inode, vol) := readInode v inodeNumber
  let blocks := divideRoundedUp64 count size
  let s : ByteWrite := ⟨vol, 0, skip / size, 0, 0⟩
  if inode.isNone then (EXT2_WRITE_FAILED, s)
  else
    let (ok, s) := writeFirst readBlocks writeBlocks size source (skip % size) s
    if ok then
      let (ok, s) := writeWhole writeBlocks size source count blocks s
      if ok then
        let (ok, s) := writeLast readBlocks writeBlocks source count s
        (if ok then (s.writtenBytes : Int) else EXT2_WRITE_FAILED, s)
      else (EXT2_WRITE_FAILED, s)
    else (EXT2_WRITE_FAILED, s)

end writes

/-- `ext2_write_inode_bytes`. -/
def writeInodeBytes (v : Volume) (inodeNumber : Nat) (source : Bytes) (count skip : Nat) :
    Int × Volume :=
  let (result, s) := writeInodeBytesBy (fun v => readInodeBlocks v inodeNumber)
    (fun v => writeInodeBlocks v inodeNumber) source v inodeNumber count skip
  (result, s.vol)

/-! ## The bytes written -/

/-- What is asked of the transfers of blocks, in the states `good`: they return the count, a
read fills the destination with the content, and a write replaces it. The content is that of
`blocks` blocks. -/
structure TransfersBlocks (readBlocks : BlockReader) (writeBlocks : BlockWriter)
    (inodeNumber size blocks : Nat) (good : Volume → Prop) (content : Volume → Bytes) : Prop where
  heap : ∀ v, good v → good (kmalloc v).2 ∧ content (kmalloc v).2 = content v
  inode : ∀ v, good v → ∃ inode w, readInode v inodeNumber = (some inode, w) ∧ good w ∧
    content w = content v
  reads : ∀ v dest count skip, good v → skip + count ≤ blocks →
    (readBlocks v dest count skip).1 = count ∧ good (readBlocks v dest count skip).2.2 ∧
      content (readBlocks v dest count skip).2.2 = content v ∧
      ∀ x, x < count * size → (readBlocks v dest count skip).2.1 x = content v (skip * size + x)
  writes : ∀ v source count skip, good v → skip + count ≤ blocks →
    (writeBlocks v source count skip).1 = count ∧ good (writeBlocks v source count skip).2 ∧
      ∀ x, x < blocks * size → content (writeBlocks v source count skip).2 x =
        if skip * size ≤ x ∧ x < (skip + count) * size then source (x - skip * size)
        else content v x

section writes

variable {readBlocks : BlockReader} {writeBlocks : BlockWriter}
  {inodeNumber size blocks count skip : Nat} {good : Volume → Prop} {content : Volume → Bytes}
  {source file : Bytes} {v : Volume} {s : ByteWrite}

/-- The content of the blocks is now that of `file`. -/
structure Holds (blocks size : Nat) (good : Volume → Prop) (content : Volume → Bytes)
    (file : Bytes) (v : Volume) : Prop where
  good : good v
  content : ∀ x, x < blocks * size → content v x = file x

theorem rewriteBlock_spec (source : Bytes) (offset start n : Nat)
    (ht : TransfersBlocks readBlocks writeBlocks inodeNumber size blocks good content)
    (hs : Holds blocks size good content file s.vol) (hblock : s.skipBlocks < blocks) :
    ∃ w, rewriteBlock readBlocks writeBlocks source offset start n s =
        (true, { s with vol := w, sourceEnd := max s.sourceEnd (start + n) }) ∧
      Holds blocks size good content (fun x =>
        if s.skipBlocks * size + offset ≤ x ∧ x < s.skipBlocks * size + min size (offset + n) then
          source (start + (x - (s.skipBlocks * size + offset)))
        else file x) w := by
  obtain ⟨hheap, hsame⟩ := ht.heap _ hs.good
  obtain ⟨hread, hgood, hkept, htemp⟩ := ht.reads _ (kmalloc s.vol).1 1 s.skipBlocks hheap hblock
  obtain ⟨hwrite, hgood', hcontent⟩ := ht.writes _ (copy (readBlocks (kmalloc s.vol).2
    (kmalloc s.vol).1 1 s.skipBlocks).2.1 offset source start n) 1 s.skipBlocks hgood hblock
  unfold rewriteBlock
  simp only [hread, Nat.cast_one, ne_eq, not_true_eq_false, if_false, hwrite, decide_true]
  refine ⟨_, rfl, hgood', fun x hx => ?_⟩
  have hmul : (s.skipBlocks + 1) * size = s.skipBlocks * size + size := Nat.succ_mul _ _
  rw [hcontent x hx, hkept, hsame]
  by_cases hin : s.skipBlocks * size ≤ x ∧ x < (s.skipBlocks + 1) * size
  · rw [if_pos hin]
    by_cases hcopy : offset ≤ x - s.skipBlocks * size ∧ x - s.skipBlocks * size < offset + n
    · rw [copy_apply_in _ _ hcopy.1 hcopy.2, if_pos (by omega)]
      congr 1
      omega
    · rw [copy_apply_out _ _ (by omega), htemp _ (by omega), hsame, if_neg (by omega),
        Nat.add_sub_cancel' hin.1, hs.content x hx]
  · rw [if_neg hin, if_neg (by omega), hs.content x hx]

theorem writeWhole_spec (source : Bytes) {m n : Nat}
    (ht : TransfersBlocks readBlocks writeBlocks inodeNumber size blocks good content)
    (hs : Holds blocks size good content file s.vol) (hwritten : s.writtenBytes = n) (hn : n < count)
    (hcount : count < 9223372036854775808) (hblocks : s.skipBlocks + m ≤ blocks)
    (hlt : n + m * size < 18446744073709551616) (hm : m < 4294967293)
    (hskip : s.skipBlocks < 4294967296) :
    ∃ w, writeWhole writeBlocks size source count (m + 1) s =
        (true, { s with vol := w
                        skipBlocks := s.skipBlocks + m
                        writtenBytes := n + m * size
                        sourceEnd := max s.sourceEnd (s.pos + m * size) }) ∧
      Holds blocks size good content (fun x =>
        if s.skipBlocks * size ≤ x ∧ x < (s.skipBlocks + m) * size then
          source (s.pos + (x - s.skipBlocks * size))
        else file x) w := by
  obtain ⟨hwrite, hgood, hcontent⟩ :=
    ht.writes s.vol (fun x => source (s.pos + x)) m s.skipBlocks hs.good hblocks
  have hne : ¬ ((m : Int) = EXT2_WRITE_FAILED ∨ (m : Int) < 0) := by
    unfold EXT2_WRITE_FAILED
    omega
  unfold writeWhole
  rw [hwritten, if_pos ((int64_pos_iff (by omega) hcount).mpr hn),
    sub64_of_le (show 1 ≤ m + 1 by omega) (by omega), Nat.add_sub_cancel]
  simp only [hwrite]
  rw [if_neg hne, Int.toNat_natCast, u64_of_lt hlt, u64_of_lt (by omega)]
  refine ⟨_, rfl, hgood, fun x hx => ?_⟩
  rw [hcontent x hx]
  split
  · rfl
  · exact hs.content x hx

/-- A write that replaces exactly the requested bytes, and reads no others of the source. -/
structure Splices (blocks size count skip : Nat) (content : Volume → Bytes) (source before : Bytes)
    (r : Int × ByteWrite) : Prop where
  result : r.1 = count
  content : ∀ x, x < blocks * size →
    content r.2.vol x = if skip ≤ x ∧ x < skip + count then source (x - skip) else before x
  source : r.2.sourceEnd ≤ count

theorem readsInode (ht : TransfersBlocks readBlocks writeBlocks inodeNumber size blocks good content)
    (hv : good v) : ∃ inode w, readInode v inodeNumber = (some inode, w) ∧
      Holds blocks size good content (content v) w := by
  obtain ⟨inode, w, hread, hgood, hsame⟩ := ht.inode v hv
  exact ⟨inode, w, hread, hgood, fun x _ => by rw [hsame]⟩

theorem writeInodeBytesBy_eq {inode : Bytes} {w : Volume} {s s' s'' : ByteWrite}
    (hs : v.part.blockSize = size) (hread : readInode v inodeNumber = (some inode, w))
    (hfirst : writeFirst readBlocks writeBlocks size source (skip % size)
      ⟨w, 0, skip / size, 0, 0⟩ = (true, s))
    (hwhole : writeWhole writeBlocks size source count (divideRoundedUp64 count size) s = (true, s'))
    (hlast : writeLast readBlocks writeBlocks source count s' = (true, s'')) :
    writeInodeBytesBy readBlocks writeBlocks source v inodeNumber count skip =
      ((s''.writtenBytes : Int), s'') := by
  unfold writeInodeBytesBy
  simp only [hs, hread, Option.isNone_some, Bool.false_eq_true, if_false, hfirst, if_true, hwhole,
    hlast]

/-- Without bytes remaining the later stages do nothing. -/
theorem writeWhole_done {n m : Nat} (hn : s.writtenBytes = n) (h : count ≤ n)
    (hlt : n < 9223372036854775808) : writeWhole writeBlocks size source count m s = (true, s) := by
  unfold writeWhole
  rw [hn, if_neg]
  rw [int64_pos_iff hlt (by omega)]
  omega

theorem writeLast_done {n : Nat} (hn : s.writtenBytes = n) (h : count ≤ n)
    (hlt : n < 9223372036854775808) :
    writeLast readBlocks writeBlocks source count s = (true, s) := by
  unfold writeLast
  rw [hn, if_neg]
  rw [int64_pos_iff hlt (by omega)]
  omega

theorem writeLast_spec (source : Bytes) {n : Nat}
    (ht : TransfersBlocks readBlocks writeBlocks inodeNumber size blocks good content)
    (hs : Holds blocks size good content file s.vol) (hwritten : s.writtenBytes = n) (hn : n < count)
    (hcount : count < 9223372036854775808) (hblock : s.skipBlocks < blocks) :
    ∃ w, writeLast readBlocks writeBlocks source count s =
        (true, { s with vol := w
                        writtenBytes := count
                        sourceEnd := max s.sourceEnd (s.pos + n + (count - n)) }) ∧
      Holds blocks size good content (fun x =>
        if s.skipBlocks * size ≤ x ∧ x < s.skipBlocks * size + min size (count - n) then
          source (s.pos + n + (x - s.skipBlocks * size))
        else file x) w := by
  obtain ⟨w, hrun, hholds⟩ := rewriteBlock_spec source 0 (s.pos + n) (count - n) ht hs hblock
  unfold writeLast
  rw [hwritten, if_pos ((int64_pos_iff (by omega) hcount).mpr hn),
    sub64_of_le (Nat.le_of_lt hn) (by omega)]
  simp only [hrun, if_true]
  rw [hwritten, Nat.add_sub_cancel' (Nat.le_of_lt hn), u64_of_lt (by omega)]
  simp only [Nat.add_zero, Nat.zero_add] at hholds
  exact ⟨w, rfl, hholds⟩

section stages

variable (hsize : 1024 ≤ size) (hsize' : size ≤ 1073741824) (hblocks : blocks < 4294967293)
  (ht : TransfersBlocks readBlocks writeBlocks inodeNumber size blocks good content)
  (hs : v.part.blockSize = size) (hv : good v) (hrange : skip + count ≤ blocks * size)

include hsize hsize' hblocks ht hs hv hrange

/-- A write that starts at a block replaces exactly the requested bytes. -/
theorem writeInodeBytesBy_aligned (source : Bytes) (hskip : skip % size = 0) :
    Splices blocks size count skip content source (content v)
      (writeInodeBytesBy readBlocks writeBlocks source v inodeNumber count skip) := by
  obtain ⟨inode, w, hread, hholds⟩ := readsInode ht hv
  have hdiv := Nat.div_add_mod skip size
  rw [Nat.mul_comm, hskip, Nat.add_zero] at hdiv
  have hmax : blocks * size ≤ 4294967293 * 1073741824 := Nat.mul_le_mul (by omega) hsize'
  have hfirst : writeFirst readBlocks writeBlocks size source (skip % size) ⟨w, 0, skip / size, 0, 0⟩ =
      (true, ⟨w, 0, skip / size, 0, 0⟩) := by rw [writeFirst, if_pos hskip]
  by_cases hcount : count = 0
  · subst hcount
    have hzero : 0 < 9223372036854775808 := by decide
    rw [writeInodeBytesBy_eq hs hread hfirst (writeWhole_done rfl (Nat.le_refl 0) hzero)
      (writeLast_done rfl (Nat.le_refl 0) hzero)]
    exact ⟨rfl, fun x hx => by rw [if_neg (by omega), hholds.content x hx], Nat.le_refl 0⟩
  obtain ⟨m, hceil, hlower, hupper⟩ := ceil_succ (show 0 < size by omega) (Nat.pos_of_ne_zero hcount)
  rw [Nat.succ_mul] at hupper
  have hadd : (skip / size + m) * size = skip + m * size := by rw [Nat.add_mul, hdiv]
  have hin : skip / size + m < blocks := by
    refine Nat.lt_of_mul_lt_mul_right (a := size) ?_
    rw [hadd]
    omega
  have hpos := Nat.zero_le (skip / size)
  obtain ⟨w', hwhole, hholds'⟩ := writeWhole_spec source (m := m) (n := 0)
    (s := ⟨w, 0, skip / size, 0, 0⟩) ht hholds rfl (Nat.pos_of_ne_zero hcount)
    (show count < 9223372036854775808 by omega) (Nat.le_of_lt hin)
    (show 0 + m * size < 18446744073709551616 by omega) (show m < 4294967293 by omega)
    (show skip / size < 4294967296 by omega)
  obtain ⟨w'', hlast, hholds''⟩ := writeLast_spec source (n := 0 + m * size)
    (s := ⟨w', 0, skip / size + m, 0 + m * size, max 0 (0 + m * size)⟩) ht hholds' rfl
    (show 0 + m * size < count by omega) (by omega) hin
  rw [← hceil, ← divideRoundedUp64_eq (by omega) (by omega) (by omega)] at hwhole
  rw [writeInodeBytesBy_eq hs hread hfirst hwhole hlast]
  refine ⟨rfl, fun x hx => ?_, ?_⟩
  · rw [hholds''.content x hx]
    simp only [hadd, hdiv]
    by_cases hwhole : skip ≤ x ∧ x < skip + m * size
    · rw [if_neg (by omega), if_pos hwhole, if_pos (by omega), Nat.zero_add]
    by_cases hlast : skip + m * size ≤ x ∧ x < skip + count
    · rw [if_pos (by omega), if_pos (by omega),
        show 0 + (0 + m * size) + (x - (skip + m * size)) = x - skip by omega]
    · rw [if_neg (by omega), if_neg hwhole, if_neg (by omega)]
  · simp only
    omega

/-- The first block, from `skip` on: what is copied ends too soon, or runs on behind the block. -/
theorem writeFirst_spec (source : Bytes) (hskip : skip % size ≠ 0) :
    ∃ inode w w', readInode v inodeNumber = (some inode, w) ∧
      writeFirst readBlocks writeBlocks size source (skip % size) ⟨w, 0, skip / size, 0, 0⟩ =
        (true, ⟨w', size - skip % size, skip / size + 1, size - skip % size, skip % size⟩) ∧
      Holds blocks size good content (fun x =>
        if skip ≤ x ∧ x < skip / size * size + min size (skip % size + skip % size) then
          source (x - skip)
        else content v x) w' := by
  obtain ⟨inode, w, hread, hholds⟩ := readsInode ht hv
  have hdiv := Nat.div_add_mod skip size
  rw [Nat.mul_comm] at hdiv
  have hin : skip / size < blocks := by
    refine Nat.lt_of_mul_lt_mul_right (a := size) ?_
    omega
  obtain ⟨w', hrun, hholds'⟩ := rewriteBlock_spec source (skip % size) 0 (skip % size)
    (s := ⟨w, 0, skip / size, 0, 0⟩) ht hholds hin
  refine ⟨inode, w, w', hread, ?_, hholds'.good, fun x hx => ?_⟩
  · unfold writeFirst
    rw [if_neg hskip]
    simp only [hrun, if_true, Nat.zero_add, Nat.zero_max]
    rw [u64_of_lt (by omega), u64_of_lt (by omega)]
  · rw [hholds'.content x hx]
    simp only [hdiv, Nat.zero_add]

end stages

/-- What the first two stages leave is the requested content when the bytes that the first
misses are in the file already. -/
theorem first_stages_iff (source file after : Bytes) {first skipBytes bulk limit : Nat}
    (hskip : skip = first + skipBytes) (hbytes : skipBytes < size)
    (hcount : count = size - skipBytes + bulk) (hlimit : skip + count ≤ limit)
    (hafter : ∀ x, x < limit → after x =
      if first + size ≤ x ∧ x < first + size + bulk then
        source (size - skipBytes + (x - (first + size)))
      else if skip ≤ x ∧ x < first + min size (skipBytes + skipBytes) then source (x - skip)
      else file x) :
    (∀ x, x < limit → after x = if skip ≤ x ∧ x < skip + count then source (x - skip) else file x) ↔
      ∀ j, skipBytes ≤ j → j < size - skipBytes → source j = file (skip + j) := by
  constructor
  · intro h j hj hj'
    have hbyte := h (skip + j) (by omega)
    rw [hafter _ (by omega), if_neg (by omega), if_neg (by omega), if_pos (by omega),
      Nat.add_sub_cancel_left] at hbyte
    exact hbyte.symm
  · intro h x hx
    rw [hafter x hx]
    by_cases hbulk : first + size ≤ x ∧ x < first + size + bulk
    · rw [if_pos hbulk, if_pos (by omega),
        show size - skipBytes + (x - (first + size)) = x - skip by omega]
    rw [if_neg hbulk]
    by_cases hcopied : skip ≤ x ∧ x < first + min size (skipBytes + skipBytes)
    · rw [if_pos hcopied, if_pos (by omega)]
    rw [if_neg hcopied]
    by_cases hmissed : skip ≤ x ∧ x < skip + count
    · rw [if_pos hmissed, h (x - skip) (by omega) (by omega), Nat.add_sub_cancel' hmissed.1]
    · rw [if_neg hmissed]

section stages

variable (hsize : 1024 ≤ size) (hsize' : size ≤ 1073741824) (hblocks : blocks < 4294967293)
  (ht : TransfersBlocks readBlocks writeBlocks inodeNumber size blocks good content)
  (hs : v.part.blockSize = size) (hv : good v) (hrange : skip + count ≤ blocks * size)

include hsize hsize' hblocks ht hs hv hrange

/-- A write that starts inside a block replaces the requested bytes when it ends with one. -/
theorem writeInodeBytesBy_unaligned (hskip : skip % size ≠ 0) :
    Splices blocks size count skip content source (content v)
        (writeInodeBytesBy readBlocks writeBlocks source v inodeNumber count skip) ↔
      (skip + count) % size = 0 ∧ skip % size ≤ count ∧
        ∀ j, skip % size ≤ j → j < size - skip % size → source j = content v (skip + j) := by
  obtain ⟨inode, w, w', hread, hfirst, hholds⟩ := writeFirst_spec hsize hsize' hblocks
    ht hs hv hrange source hskip
  have hmod := Nat.mod_lt skip (show 0 < size by omega)
  have hdiv := Nat.div_add_mod skip size
  rw [Nat.mul_comm] at hdiv
  have hmax : blocks * size ≤ 4294967293 * 1073741824 := Nat.mul_le_mul (by omega) hsize'
  have hpos := Nat.zero_le (skip / size)
  have hend := Nat.div_add_mod (skip + count) size
  rw [Nat.mul_comm] at hend
  by_cases hshort : count ≤ size - skip % size
  · -- the first block holds all
    rw [writeInodeBytesBy_eq hs hread hfirst (writeWhole_done rfl hshort (by simp only; omega))
      (writeLast_done rfl hshort (by simp only; omega))]
    have hexact (hcount : count = size - skip % size + 0) := first_stages_iff source (content v)
      (content w') hdiv.symm hmod hcount hrange fun x hx => by
        rw [hholds.content x hx, if_neg (show ¬ (skip / size * size + size ≤ x ∧
          x < skip / size * size + size + 0) by omega)]
    constructor
    · rintro ⟨hresult, hcontent, hsource⟩
      have hcount : count = size - skip % size + 0 := by simpa using hresult.symm
      refine ⟨?_, hsource, (hexact hcount).mp hcontent⟩
      rw [show skip + count = (skip / size + 1) * size by rw [Nat.succ_mul]; omega, Nat.mul_mod_left]
    · rintro ⟨haligned, hsource, hfile⟩
      rw [haligned, Nat.add_zero] at hend
      have hcount : count = size - skip % size + 0 := by
        have hlast : skip / size < (skip + count) / size := by
          refine Nat.lt_of_mul_lt_mul_right (a := size) ?_
          omega
        have hmul := Nat.mul_le_mul_right size (Nat.succ_le_of_lt hlast)
        rw [Nat.succ_mul] at hmul
        omega
      exact ⟨by rw [hcount]; rfl, (hexact hcount).mpr hfile, hsource⟩
  obtain ⟨m, hceil, hlower, hupper⟩ := ceil_succ (show 0 < size by omega) (show 0 < count by omega)
  rw [Nat.succ_mul] at hupper
  have hsucc : (skip / size + 1) * size = skip / size * size + size := Nat.succ_mul _ _
  have hadd : (skip / size + 1 + m) * size = skip / size * size + size + m * size := by
    rw [Nat.add_mul, hsucc]
  have hin : skip / size + m < blocks := by
    refine Nat.lt_of_mul_lt_mul_right (a := size) ?_
    rw [Nat.add_mul]
    omega
  obtain ⟨w'', hwhole, hholds'⟩ := writeWhole_spec source (m := m) (n := size - skip % size)
    (s := ⟨w', size - skip % size, skip / size + 1, size - skip % size, skip % size⟩) ht hholds rfl
    (Nat.not_le.mp hshort) (show count < 9223372036854775808 by omega)
    (show skip / size + 1 + m ≤ blocks by omega)
    (show size - skip % size + m * size < 18446744073709551616 by omega)
    (show m < 4294967293 by omega) (show skip / size + 1 < 4294967296 by omega)
  rw [← hceil, ← divideRoundedUp64_eq (by omega) (by omega) (by omega)] at hwhole
  simp only [hsucc, hadd] at hwhole hholds'
  by_cases hlong : count ≤ size - skip % size + m * size
  · -- the whole blocks hold the rest
    rw [writeInodeBytesBy_eq hs hread hfirst hwhole (writeLast_done rfl hlong (by simp only; omega))]
    have hexact (hcount : count = size - skip % size + m * size) := first_stages_iff source
      (content v) (content w'') hdiv.symm hmod hcount hrange hholds'.content
    constructor
    · rintro ⟨hresult, hcontent, hsource⟩
      have hcount : count = size - skip % size + m * size := Int.ofNat_inj.mp hresult.symm
      have hcopied : max (skip % size) (size - skip % size + m * size) ≤ count := hsource
      refine ⟨?_, by omega, (hexact hcount).mp hcontent⟩
      rw [show skip + count = (skip / size + 1 + m) * size by omega, Nat.mul_mod_left]
    · rintro ⟨haligned, hsource, hfile⟩
      rw [haligned, Nat.add_zero] at hend
      have hcount : count = size - skip % size + m * size := by
        have hlast : skip / size + m < (skip + count) / size := by
          refine Nat.lt_of_mul_lt_mul_right (a := size) ?_
          rw [Nat.add_mul]
          omega
        have hmul := Nat.mul_le_mul_right size (Nat.succ_le_of_lt hlast)
        rw [Nat.succ_mul, Nat.add_mul] at hmul
        omega
      refine ⟨by rw [hcount], (hexact hcount).mpr hfile, ?_⟩
      simp only
      omega
  · -- one more block is rewritten, from too far on in the source
    obtain ⟨w₃, hlast, -⟩ := writeLast_spec source (n := size - skip % size + m * size)
      (s := ⟨w'', size - skip % size, skip / size + 1 + m, size - skip % size + m * size,
        max (skip % size) (size - skip % size + m * size)⟩) ht hholds' rfl (Nat.not_le.mp hlong)
      (show count < 9223372036854775808 by omega) (by
        refine Nat.lt_of_mul_lt_mul_right (a := size) ?_
        simp only [hadd]
        omega)
    rw [writeInodeBytesBy_eq hs hread hfirst hwhole hlast]
    constructor
    · rintro ⟨-, -, hsource⟩
      simp only at hsource
      omega
    · rintro ⟨haligned, -, -⟩
      rw [haligned, Nat.add_zero] at hend
      have hlower' : skip / size + 1 + m < (skip + count) / size := by
        refine Nat.lt_of_mul_lt_mul_right (a := size) ?_
        rw [hadd]
        omega
      have hmul := Nat.mul_le_mul_right size (Nat.succ_le_of_lt hlower')
      rw [Nat.succ_mul, hadd] at hmul
      omega

end stages

end writes

/-! ## Over blocks in a row -/

/-- Reads of blocks of `size` bytes that stand in a row from the start of the disk. -/
def readRow (size : Nat) : BlockReader := fun v dest count skip =>
  (count, fun x => if x < count * size then v.disk.image (skip * size + x) else dest x, v)

/-- Writes of these blocks. -/
def writeRow (size : Nat) : BlockWriter := fun v source count skip =>
  let image : Bytes := fun x =>
    if skip * size ≤ x ∧ x < (skip + count) * size then source (x - skip * size) else v.disk.image x
  (count, { v with disk := { v.disk with image := image } })

theorem transfersBlocks_row (size blocks : Nat) :
    TransfersBlocks (readRow size) (writeRow size) 1 size blocks
      (fun w => w.part = smallPartition ∧ w.disk.Reliable) fun w => w.disk.image where
  heap _ hv := ⟨hv, rfl⟩
  inode v hv := by
    obtain ⟨inode, w, hread, hw, -⟩ := readInode_prefix (n := 1) (hv.1 ▸ mounted_smallPartition) hv.2
      (hv.1 ▸ ⟨by decide +kernel, by decide +kernel⟩)
    exact ⟨inode, w, hread, ⟨hw.part.trans hv.1, hw.reliable hv.2⟩, hw.image⟩
  reads v dest count skip hv _ := ⟨rfl, hv, rfl, fun x hx => if_pos hx⟩
  writes v source count skip hv _ := ⟨rfl, hv, fun x _ => rfl⟩

end UnedKernel.Ext2
