import UnedKernel.Ext2.Inode
import UnedKernel.Lib.Indirect

/-! # The blocks of an inode

`ext2_block.c`: four readers and four writers that walk the direct blocks and
the single, double and triple indirect trees, passing on a count of blocks still
to skip. A writer walks as the reader of its level does; only the transfer of a
block differs. -/

namespace UnedKernel.Ext2
open ByteMem Word

/-- The state of a walk: the volume, the caller's buffer and `*skip`. -/
structure Walk where
  vol : Volume
  buffer : Bytes
  skip : Nat

/-- A transfer between a block and the caller's buffer at a position. -/
abbrev Transfer := Walk → Nat → Nat → Int × Walk

def readAt : Transfer := fun w block pos =>
  let (r, part, vol) := readBlock w.vol block fun x => w.buffer (pos + x)
  (r, { w with vol := vol, buffer := fun x => if x < pos then w.buffer x else part (x - pos) })

def writeAt : Transfer := fun w block pos =>
  let (r, vol) := writeBlock w.vol block fun x => w.buffer (pos + x)
  (r, { w with vol := vol })

/-- A walk over `max` blocks into position `pos` for at most `count` blocks. -/
abbrev BlockWalk := (blocks : Nat → Nat) → (max pos count : Nat) → Walk → Int × Walk

/-- The loop over direct blocks, from block `i` on, `n` turns to go and `done`
blocks transferred. -/
def directFrom (transfer : Transfer) (failed : Int) (size : Nat) (blocks : Nat → Nat)
    (count : Nat) : Nat → Nat → Nat → Nat → Walk → Int × Walk
  | 0, _, _, done, w => (done, w)
  | n + 1, i, pos, done, w =>
    if 0 < w.skip then
      directFrom transfer failed size blocks count n (i + 1) pos done { w with skip := w.skip - 1 }
    else
      let (r, w) := transfer w (blocks i) pos
      if r = failed then (failed, w)
      else if r = 0 then (done, w)
      else
        let done := u64 (done + r.toNat)
        if done = count then (done, w)
        else directFrom transfer failed size blocks count n (i + 1) (pos + size) done w

/-- The loop over blocks of pointers. `walk` is the walk of the level below and
`wrap` the width of the counter. -/
def indirectFrom (walk : BlockWalk) (failed : Int) (wrap : Nat → Nat) (size : Nat)
    (blocks : Nat → Nat) (count : Nat) : Nat → Nat → Nat → Nat → Walk → Int × Walk
  | 0, _, _, done, w => (done, w)
  | n + 1, i, pos, done, w =>
    let (fresh, vol) := kmalloc w.vol
    let (read, table, vol) := readBlock vol (blocks i) fresh
    if read ≤ 0 then (failed, { w with vol := vol })
    else
      let (r, w) := walk (fun k => load table (4 * k) 4) (size / 4) pos (sub64 count done)
        { w with vol := vol }
      if r = failed ∨ r = 0 then (r, w)
      else
        let done := wrap (done + r.toNat)
        if done = count then (done, w)
        else indirectFrom walk failed wrap size blocks count n (i + 1) (pos + r.toNat * size) done w

def directWalk (transfer : Transfer) (failed : Int) : BlockWalk := fun blocks max pos count w =>
  directFrom transfer failed w.vol.part.blockSize blocks count max 0 pos 0 w

def indirectWalk (walk : BlockWalk) (failed : Int) (wrap : Nat → Nat) : BlockWalk :=
  fun blocks max pos count w =>
    indirectFrom walk failed wrap w.vol.part.blockSize blocks count max 0 pos 0 w

def readDirectBlocks : BlockWalk := directWalk readAt EXT2_READ_FAILED

/-- Counts in a `uint64_t`, the two levels above it in a `uint32_t`. -/
def readIndirectBlocks : BlockWalk := indirectWalk readDirectBlocks EXT2_READ_FAILED u64

def readDoubleIndirectBlocks : BlockWalk := indirectWalk readIndirectBlocks EXT2_READ_FAILED u32

def readTripleIndirectBlocks : BlockWalk :=
  indirectWalk readDoubleIndirectBlocks EXT2_READ_FAILED u32

def writeDirectBlocks : BlockWalk := directWalk writeAt EXT2_WRITE_FAILED

def writeIndirectBlocks : BlockWalk := indirectWalk writeDirectBlocks EXT2_WRITE_FAILED u64

def writeDoubleIndirectBlocks : BlockWalk := indirectWalk writeIndirectBlocks EXT2_WRITE_FAILED u32

def writeTripleIndirectBlocks : BlockWalk :=
  indirectWalk writeDoubleIndirectBlocks EXT2_WRITE_FAILED u32

/-- `i_block[i]`. -/
def iBlock (inode : Bytes) (i : Nat) : Nat := load inode (40 + 4 * i) 4

/-- The stages of a transfer of an inode's blocks: each is left for the next
when blocks remain, and one that transfers nothing ends the whole. -/
def stagesFrom (failed : Int) (size count : Nat) :
    List ((pos count : Nat) → Walk → Int × Walk) → Nat → Nat → Walk → Int × Walk
  | [], _, _, w => (failed, w)
  | stage :: stages, pos, done, w =>
    let (r, w) := stage pos (sub64 count done) w
    if r = failed ∨ r = 0 then (r, w)
    else
      let done := u32 (done + r.toNat)
      if count ≤ done then (done, w)
      else stagesFrom failed size count stages (pos + r.toNat * size) done w

/-- The four stages over the pointers of an inode. -/
def inodeStages (direct indirect double triple : BlockWalk) (inode : Bytes) :
    List ((pos count : Nat) → Walk → Int × Walk) :=
  [direct (iBlock inode) 12, indirect (fun i => iBlock inode (12 + i)) 1,
   double (fun i => iBlock inode (13 + i)) 1, triple (fun i => iBlock inode (14 + i)) 1]

def inodeBlocks (failed : Int) (direct indirect double triple : BlockWalk) (v : Volume)
    (inodeNumber : Nat) (buffer : Bytes) (count skip : Nat) : Int × Walk :=
  if count = 0 then (0, ⟨v, buffer, skip⟩)
  else match readInode v inodeNumber with
    | (none, v) => (failed, ⟨v, buffer, skip⟩)
    | (some inode, v) => stagesFrom failed v.part.blockSize count
        (inodeStages direct indirect double triple inode) 0 0 ⟨v, buffer, skip⟩

/-- `ext2_read_inode_blocks`: the result, the destination and the volume. -/
def readInodeBlocks (v : Volume) (inodeNumber : Nat) (destination : Bytes) (count skip : Nat) :
    Int × Bytes × Volume :=
  let (r, w) := inodeBlocks EXT2_READ_FAILED readDirectBlocks readIndirectBlocks
    readDoubleIndirectBlocks readTripleIndirectBlocks v inodeNumber destination count skip
  (r, w.buffer, w.vol)

/-- `ext2_write_inode_blocks`. -/
def writeInodeBlocks (v : Volume) (inodeNumber : Nat) (source : Bytes) (count skip : Nat) :
    Int × Volume :=
  let (r, w) := inodeBlocks EXT2_WRITE_FAILED writeDirectBlocks writeIndirectBlocks
    writeDoubleIndirectBlocks writeTripleIndirectBlocks v inodeNumber source count skip
  (r, w.vol)

end UnedKernel.Ext2
