import UnedKernel.Lib.BitField
import UnedKernel.Lib.Radix
import UnedKernel.Lib.Word
import UnedKernel.Memory.Pages

/-! # The page tables

`paging.c`. Physical memory is seen as its page frames, each with 512 entries
of 64 bits; a table at physical address `a` is frame `a >> 12`. The kernel
reaches a frame through its map at `IDENTITY_MAP_START` or at its physical
address: both are the same frame. -/

namespace UnedKernel.Memory
open BitField Radix Word

/-- `struct page_directory_entry` and `struct page_table_entry`: the fields the
code uses lie at the same bits of both. -/
abbrev Entry := BitVec 64

namespace Entry

def present (e : Entry) : Nat := field e 0 1
def writeable (e : Entry) : Nat := field e 1 1
def userAccess (e : Entry) : Nat := field e 2 1
def cacheDisabled (e : Entry) : Nat := field e 4 1
def pagePpn (e : Entry) : Nat := field e 12 28
def executionDisabled (e : Entry) : Nat := field e 63 1

def setPresent (e : Entry) (v : Nat) : Entry := setField e 0 1 v
def setWriteable (e : Entry) (v : Nat) : Entry := setField e 1 1 v
def setUserAccess (e : Entry) (v : Nat) : Entry := setField e 2 1 v
def setCacheDisabled (e : Entry) (v : Nat) : Entry := setField e 4 1 v
def setPagePpn (e : Entry) (v : Nat) : Entry := setField e 12 28 v
def setExecutionDisabled (e : Entry) (v : Nat) : Entry := setField e 63 1 v

end Entry

/-- The frames of physical memory, as tables of entries. -/
abbrev Frames := Store Nat Nat Entry

/-- Physical memory, and the physical addresses that the successive calls of
`request_page` return. -/
structure PagingState where
  mem : Frames
  supply : Nat → Nat
  next : Nat

/-- `struct page_map_index`. -/
structure PageMapIndex where
  PDP_i : Nat
  PD_i : Nat
  PT_i : Nat
  P_i : Nat

def addressToMap (address : Nat) : PageMapIndex :=
  { P_i := address >>> 12 % 512
    PT_i := address >>> 12 >>> 9 % 512
    PD_i := address >>> 12 >>> 9 >>> 9 % 512
    PDP_i := address >>> 12 >>> 9 >>> 9 >>> 9 % 512 }

abbrev PAGE_WRITE_BIT : Nat := 1
abbrev PAGE_USER_BIT : Nat := 2
abbrev PAGE_NX_BIT : Nat := 4
abbrev PAGE_CACHE_DISABLE : Nat := 8

/-- `virtual_to_physical`, with 0 for `NULL`. -/
def virtualToPhysical (m : Frames) (pml4 v : Nat) : Nat :=
  let map := addressToMap v
  let pde := m pml4 map.PDP_i
  if pde.present = 0 then 0
  else
    let pdp := pde.pagePpn
    let pde := m pdp map.PD_i
    if pde.present = 0 then 0
    else
      let pd := pde.pagePpn
      let pde := m pd map.PT_i
      if pde.present = 0 then 0
      else
        let pt := pde.pagePpn
        let pte := m pt map.P_i
        if pte.present = 0 then 0 else pte.pagePpn <<< 12

/-- The block that `map_memory_hh` repeats for each level: the table under entry
`i` of `table`, made from a zeroed page when the entry is not present. -/
def enterTable (s : PagingState) (table i : Nat) : Nat × PagingState :=
  let pde := s.mem table i
  if pde.present = 0 then
    let page := s.supply s.next
    let pde := (((pde.setPagePpn (page >>> 12)).setPresent 1).setWriteable 1).setUserAccess 1
    (page >>> 12,
      { s with mem := (s.mem.fill (page >>> 12) 0).set table i pde, next := s.next + 1 })
  else (pde.pagePpn, s)

/-- `map_memory_hh`. -/
def mapMemoryHh (s : PagingState) (pml4 virtualMemory physicalMemory flags : Nat) :
    Except Panic PagingState :=
  if virtualMemory % PAGESIZE ≠ 0 then
    .error ⟨"map_memory: virtual_memory must be aligned to 0x1000"⟩
  else if physicalMemory % PAGESIZE ≠ 0 then
    .error ⟨"map_memory: physical_memory must be aligned to 0x1000"⟩
  else
    let map := addressToMap virtualMemory
    let (pdp, s) := enterTable s pml4 map.PDP_i
    let (pd, s) := enterTable s pdp map.PD_i
    let (pt, s) := enterTable s pd map.PT_i
    let pte := s.mem pt map.P_i
    let pte := (pte.setPagePpn (physicalMemory >>> 12)).setPresent 1
    let pte := pte.setWriteable (flags &&& PAGE_WRITE_BIT)
    let pte := pte.setUserAccess ((flags &&& PAGE_USER_BIT) >>> 1)
    let pte := pte.setExecutionDisabled ((flags &&& PAGE_NX_BIT) >>> 2)
    let pte := pte.setCacheDisabled ((flags &&& PAGE_CACHE_DISABLE) >>> 3)
    .ok { s with mem := s.mem.set pt map.P_i pte }

/-- `unmap_current_memory`, with the directory that `get_pml4` returns. -/
def unmapCurrentMemory (m : Frames) (pml4 virtualAddress : Nat) : Frames :=
  let map := addressToMap virtualAddress
  let pde := m pml4 map.PDP_i
  if pde.present = 0 then m
  else
    let pdp := pde.pagePpn
    let pde := m pdp map.PD_i
    if pde.present = 0 then m
    else
      let pd := pde.pagePpn
      let pde := m pd map.PT_i
      if pde.present = 0 then m
      else
        let pt := pde.pagePpn
        m.set pt map.P_i ((m pt map.P_i).setPresent 0)

/-- The table that the three upper levels lead to, read without a test of `present`. -/
def tableOf (m : Frames) (pml4 : Nat) (map : PageMapIndex) : Nat :=
  (m (m (m pml4 map.PDP_i).pagePpn map.PD_i).pagePpn map.PT_i).pagePpn

/-- `set_page_perms_hh`. -/
def setPagePermsHh (m : Frames) (pml4 address permissions : Nat) : Frames :=
  let map := addressToMap address
  let pt := tableOf m pml4 map
  let pte := (m pt map.P_i).setWriteable (permissions &&& 1)
  let pte := pte.setUserAccess ((permissions &&& 2) >>> 1)
  let pte := pte.setExecutionDisabled ((permissions &&& 4) >>> 2)
  let pte := pte.setCacheDisabled ((permissions &&& 8) >>> 3)
  m.set pt map.P_i pte

/-- `get_page_perms_hh`. -/
def getPagePermsHh (m : Frames) (pml4 address : Nat) : Nat :=
  let map := addressToMap address
  let pte := m (tableOf m pml4 map) map.P_i
  pte.writeable ||| pte.userAccess <<< 1 ||| pte.executionDisabled <<< 2 |||
    pte.cacheDisabled <<< 3

/-- The loop of `mprotect_hh`: `n` pages from address `i` on. -/
def setPermsFrom (pml4 permissions : Nat) : Nat → Nat → Frames → Frames
  | _, 0, m => m
  | i, n + 1, m => setPermsFrom pml4 permissions (i + PAGESIZE) n
      (setPagePermsHh m pml4 i permissions)

/-- `mprotect_hh`: from the page of `address` to the end rounded up. -/
def mprotectHh (m : Frames) (pml4 address size permissions : Nat) : Frames :=
  let start := address / PAGESIZE * PAGESIZE
  let stop := u64 (u64 (address + size) + 4095) / PAGESIZE * PAGESIZE
  setPermsFrom pml4 permissions start ((stop - start) / PAGESIZE) m

end UnedKernel.Memory
