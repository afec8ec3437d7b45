import UnedKernel.Lib.Bitmap
import UnedKernel.Lib.Word

/-! # The physical page allocator

`memory.c`. The allocator keeps one bit for each page of the biggest usable
chunk of the memory map, and `request_page` walks it with a cursor that
survives between calls. The bitmap is the memory at `bitfield`: bytes past its
last entry are whatever the chunk holds there, and the code does read them. -/

namespace UnedKernel.Memory
open ByteMem Bitmap Word

/-- `panic(message)`: the kernel stops. -/
structure Panic where
  message : String
  deriving DecidableEq, Repr

abbrev PAGESIZE : Nat := 4096

/-- `struct system_memory`. -/
structure SystemMemory where
  totalAvailablePages : Nat
  firstAvailablePageAddr : Nat
  lastAvailablePageAddress : Nat
  totalMemory : Nat
  totalPages : Nat
  bitfield : Bytes
  freeMemory : Nat
  lockedMemory : Nat
  reservedMemory : Nat

/-- `memory`, with the static variables of `request_page`. -/
structure PageAllocator where
  memory : SystemMemory
  lastRequested : Nat
  statisticsRequested : Nat

/-- `ADDR_TO_PAGE`. -/
def addrToPage (x : Nat) : Nat := x >>> 12

/-- `ALIGN_ADDR`, in 64-bit arithmetic. -/
def alignAddr (x : Nat) : Nat :=
  if x % PAGESIZE ≠ 0 then u64 (x + PAGESIZE) / PAGESIZE * PAGESIZE else x

namespace SystemMemory

/-- `GET_PAGE_BIT`. -/
def pageBit (m : SystemMemory) (x : Nat) : Bool := bit m.bitfield x

def setPageBit (m : SystemMemory) (address : Nat) : Except Panic SystemMemory :=
  if addrToPage address > m.totalAvailablePages then
    .error ⟨"set_page_bit: address out of bounds"⟩
  else
    let m' := { m with bitfield := setBit m.bitfield (addrToPage address) }
    if !m'.pageBit (addrToPage address) then .error ⟨"set_page_bit: bit not set"⟩
    else .ok m'

def clearPageBit (m : SystemMemory) (address : Nat) : Except Panic SystemMemory :=
  if addrToPage address > m.totalAvailablePages then
    .error ⟨"clear_page_bit: address out of bounds"⟩
  else .ok { m with bitfield := clearBit m.bitfield (addrToPage address) }

def getPageBit (m : SystemMemory) (address : Nat) : Except Panic Bool :=
  if addrToPage address > m.totalAvailablePages then
    .error ⟨"get_page_bit: address out of bounds"⟩
  else .ok (m.pageBit (addrToPage address))

/-- The common body of `reserve_page` and `lock_page`: take a clear page. -/
def takePage (already : Panic) (account : SystemMemory → SystemMemory) (m : SystemMemory)
    (address : Nat) : Except Panic SystemMemory := do
  if (← m.getPageBit address) = true then throw already
  let m ← m.setPageBit address
  return account m

/-- The common body of `unreserve_page` and `unlock_page`: give a set page back. -/
def givePage (notTaken : Panic) (account : SystemMemory → SystemMemory) (m : SystemMemory)
    (address : Nat) : Except Panic SystemMemory := do
  if (← m.getPageBit address) = false then throw notTaken
  let m ← m.clearPageBit address
  return account m

def reservePage : SystemMemory → Nat → Except Panic SystemMemory :=
  takePage ⟨"Page already reserved!"⟩ fun m =>
    { m with
      freeMemory := sub64 m.freeMemory PAGESIZE
      reservedMemory := u64 (m.reservedMemory + PAGESIZE) }

def unreservePage : SystemMemory → Nat → Except Panic SystemMemory :=
  givePage ⟨"Page not reserved!"⟩ fun m =>
    { m with
      freeMemory := u64 (m.freeMemory + PAGESIZE)
      reservedMemory := sub64 m.reservedMemory PAGESIZE }

def lockPage : SystemMemory → Nat → Except Panic SystemMemory :=
  takePage ⟨"Page already locked!"⟩ fun m =>
    { m with
      freeMemory := sub64 m.freeMemory PAGESIZE
      lockedMemory := u64 (m.lockedMemory + PAGESIZE) }

/-- `unlock_page` moves both counters the way `lock_page` does. -/
def unlockPage : SystemMemory → Nat → Except Panic SystemMemory :=
  givePage ⟨"Page not locked!"⟩ fun m =>
    { m with
      freeMemory := sub64 m.freeMemory PAGESIZE
      lockedMemory := u64 (m.lockedMemory + PAGESIZE) }

/-- The loop of `reserve_pages`, from page `i` on, `n` pages. -/
def reservePagesFrom (address : Nat) : Nat → Nat → SystemMemory → Except Panic SystemMemory
  | _, 0, m => .ok m
  | i, n + 1, m => do
    let m ← m.reservePage (u64 (address + i <<< 12))
    reservePagesFrom address (i + 1) n m

def reservePages (m : SystemMemory) (address pages : Nat) : Except Panic SystemMemory :=
  if address ≥ 9223372036854775808 then .error ⟨"NEGATIVE"⟩
  else reservePagesFrom address 0 pages m

/-- The common loop of `unreserve_pages`, `lock_pages` and `unlock_pages`, from page `i` on,
`n` pages. -/
def eachPageFrom (page : SystemMemory → Nat → Except Panic SystemMemory) (address : Nat) :
    Nat → Nat → SystemMemory → Except Panic SystemMemory
  | _, 0, m => .ok m
  | i, n + 1, m => do
    let m ← page m (u64 (address + i <<< 12))
    eachPageFrom page address (i + 1) n m

def unreservePages (m : SystemMemory) (address pages : Nat) : Except Panic SystemMemory :=
  eachPageFrom unreservePage address 0 pages m

def lockPages (m : SystemMemory) (address pages : Nat) : Except Panic SystemMemory :=
  eachPageFrom lockPage address 0 pages m

def unlockPages (m : SystemMemory) (address pages : Nat) : Except Panic SystemMemory :=
  eachPageFrom unlockPage address 0 pages m

/-- `if (last_requested >= memory->total_available_pages) last_requested = 0;` -/
def wrapCursor (m : SystemMemory) (lastRequested : Nat) : Nat :=
  if lastRequested ≥ m.totalAvailablePages then 0 else lastRequested

/-- The `while` of `request_page`, run for at most `fuel` tests of the bitmap.
The bit is tested before the bound, and the cursor put back to 0 is advanced
before it is tested. -/
def requestPageScan (m : SystemMemory) (first : Nat) : Nat → Nat → Option (Except Panic Nat)
  | 0, _ => none
  | fuel + 1, lastRequested =>
    if m.pageBit lastRequested = true then
      if m.wrapCursor lastRequested = first then some (.error ⟨"No free pages available!"⟩)
      else requestPageScan m first fuel (u64 (m.wrapCursor lastRequested + 1))
    else some (.ok lastRequested)

end SystemMemory

namespace PageAllocator

/-- `request_page`. `none` means that the scan is still running after `fuel` tests. -/
def requestPage (fuel : Nat) (s : PageAllocator) : Option (Except Panic (Nat × PageAllocator)) :=
  (s.memory.requestPageScan (sub64 s.lastRequested 1) fuel s.lastRequested).map fun r => do
    let lastRequested ← r
    let memory ← s.memory.lockPage (u64 (lastRequested <<< 12))
    if memory.pageBit lastRequested = false then throw ⟨"Page not reserved!"⟩
    return (u64 (memory.firstAvailablePageAddr + lastRequested <<< 12),
      { memory := memory, lastRequested := lastRequested
        statisticsRequested := u64 (s.statisticsRequested + 1) })

/-- `request_page` ends with `r`. -/
def RequestPageReturns (s : PageAllocator) (r : Except Panic (Nat × PageAllocator)) : Prop :=
  ∃ fuel, s.requestPage fuel = some r

/-- `free_page`. -/
def freePage (s : PageAllocator) (addr : Nat) : Except Panic PageAllocator := do
  let normalicedAddress := sub64 addr s.memory.firstAvailablePageAddr
  if addr < s.memory.firstAvailablePageAddr then throw ⟨"Page below active range"⟩
  if s.memory.pageBit (normalicedAddress >>> 12) = false then throw ⟨"page was not locked"⟩
  let memory ← s.memory.unlockPage normalicedAddress
  if memory.pageBit (normalicedAddress >>> 12) = true then throw ⟨"Page not freed!"⟩
  return { s with memory := memory }

end PageAllocator

/-! ## Contiguous pages -/

/-- `memory`, with the static variables of `request_contiguous_pages`. -/
structure ContiguousAllocator where
  memory : SystemMemory
  lastRequested : Nat
  statisticsRequested : Nat

namespace SystemMemory

/-- The `for` of `request_contiguous_pages`: lock `n` pages from the cursor on. -/
def lockContiguous : Nat → SystemMemory → Nat → Except Panic (SystemMemory × Nat)
  | 0, m, lastRequested => .ok (m, lastRequested)
  | n + 1, m, lastRequested =>
    if m.pageBit lastRequested = true then .error ⟨"Page already reserved!"⟩
    else do
      let m ← m.lockPage (u64 (lastRequested <<< 12))
      lockContiguous n m (u64 (lastRequested + 1))

/-- The `for` of `free_contiguous_pages`, from page `i` on, `n` pages. -/
def unlockContiguous (normalicedAddress : Nat) : Nat → Nat → SystemMemory → Except Panic SystemMemory
  | _, 0, m => .ok m
  | i, n + 1, m =>
    if m.pageBit (u64 (normalicedAddress >>> 12 + i)) = false then .error ⟨"Page was not locked!"⟩
    else do
      let m ← m.unlockPage (u64 (normalicedAddress + i <<< 12))
      unlockContiguous normalicedAddress (i + 1) n m

/-- `free_contiguous_pages`. -/
def freeContiguousPages (m : SystemMemory) (address num : Nat) : Except Panic SystemMemory := do
  let normalicedAddress := sub64 address m.firstAvailablePageAddr
  if address < m.firstAvailablePageAddr then throw ⟨"Page below active range!"⟩
  let m ← unlockContiguous normalicedAddress 0 num m
  if m.pageBit (normalicedAddress >>> 12) = true then throw ⟨"Page not freed"⟩
  return m

end SystemMemory

namespace ContiguousAllocator

/-- `request_contiguous_pages`. `none` means that the scan, which is that of `request_page`,
is still running after `fuel` tests. The address is that of the page before the cursor at
the start of the call. -/
def requestContiguousPages (fuel : Nat) (s : ContiguousAllocator) (num : Nat) :
    Option (Except Panic (Nat × ContiguousAllocator)) :=
  let first := sub64 s.lastRequested 1
  let last := sub64 s.lastRequested 1
  (s.memory.requestPageScan first fuel s.lastRequested).map fun r => do
    let lastRequested ← r
    let (memory, lastRequested) ← SystemMemory.lockContiguous num s.memory lastRequested
    return (u64 (memory.firstAvailablePageAddr + last <<< 12),
      { memory := memory, lastRequested := lastRequested
        statisticsRequested := u64 (s.statisticsRequested + num) })

/-- `request_contiguous_pages` ends with `r`. -/
def Returns (s : ContiguousAllocator) (num : Nat) (r : Except Panic (Nat × ContiguousAllocator)) :
    Prop :=
  ∃ fuel, s.requestContiguousPages fuel num = some r

end ContiguousAllocator

/-! ## Initialisation -/

/-- The types of the memory map that `memory_cb.h` tells apart. -/
abbrev MEMMAP_USABLE : Nat := 0

/-- An entry of the boot loader's memory map. -/
structure MemmapEntry where
  base : Nat
  length : Nat
  type : Nat

/-- `struct chunk_data`. -/
structure ChunkData where
  addr : Nat
  size : Nat

/-- `get_total_memory_cb`. -/
def getTotalMemoryCb (total : Nat) (e : MemmapEntry) : Nat := u64 (total + e.length)

/-- `init_memory_cb`: keep the first of the longest usable entries. -/
def initMemoryCb (chunk : ChunkData) (e : MemmapEntry) : ChunkData :=
  if e.type = MEMMAP_USABLE ∧ e.length > chunk.size then ⟨e.base, e.length⟩ else chunk

/-- `sizeof(struct system_memory)`: nine packed 64-bit fields. -/
abbrev sizeofSystemMemory : Nat := 72

/-- The entries of the bitmap of `n` pages. -/
def bitfieldEntries (n : Nat) : Nat := if n % 8 = 0 then n >>> 3 else n >>> 3 + 1

/-- `init_memory`, on the memory map and on what the bytes at `bitfield` hold
before it. The first 100 bytes are overwritten by the test of the bit macros;
only the bytes of the bitmap are then cleared. -/
def initMemory (memoryMap : List MemmapEntry) (ram : Bytes) : Except Panic PageAllocator :=
  let totalMemory := memoryMap.foldl getTotalMemoryCb 0
  let biggest := memoryMap.foldl initMemoryCb ⟨0, 0⟩
  let firstAvailable := alignAddr biggest.addr
  let lastAvailable := alignAddr (u64 (biggest.addr + biggest.size))
  let availablePages := sub64 lastAvailable firstAvailable >>> 12
  let entries := bitfieldEntries availablePages
  if biggest.size < entries + sizeofSystemMemory + 3 <<< 12 then
    .error ⟨"init_memory: not enough memory for memory bitfield"⟩
  else
    let memory : SystemMemory :=
      { totalAvailablePages := availablePages
        firstAvailablePageAddr := firstAvailable
        lastAvailablePageAddress := lastAvailable
        totalMemory := totalMemory
        totalPages := totalMemory >>> 12
        bitfield := fill (fill ram 0 100 0x55) 0 entries 0
        freeMemory := sub64 lastAvailable firstAvailable
        lockedMemory := 0
        reservedMemory := 0 }
    let usedSpace := (entries + sizeofSystemMemory + 3 <<< 12) >>> 12
    (memory.reservePages 0 usedSpace).map fun memory =>
      { memory := memory, lastRequested := 0, statisticsRequested := 0 }

/-- `used_space`, the pages `init_memory` reserves at the bottom of the chunk. -/
def usedSpace (m : SystemMemory) : Nat :=
  (bitfieldEntries m.totalAvailablePages + sizeofSystemMemory + 3 <<< 12) >>> 12

end UnedKernel.Memory
