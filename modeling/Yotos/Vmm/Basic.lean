import Yotos.Library.Bytes
import Yotos.Pmm.Basic

/-!
# Virtual memory

`kernel/vmm.c`: two-level page tables that live in frames of the physical allocator.
`vmm_init` builds the directory with paging off, through physical addresses. After it
the tables are reached only through the recursive window: entry 1023 of the directory
points to the directory itself, so that `0xFFFFF000` is the directory and
`0xFFC00000 + 4096 * i` the table of its entry `i`. Every such access goes through the
walk of the MMU, `mmu`, and is a page fault (`none`) where the walk finds no page.

Entries and addresses are natural numbers below `2 ^ 32`. The kernel runs with
`CR0.WP` clear, so a supervisor access needs a present page only. The accessed and
dirty bits and the TLB are not modelled.
-/

namespace Yotos

namespace Vmm

open Bytes

/-- `PAGE_SIZE`. -/
def pageSize : ℕ := 4096

/-- `PAGE_PRESENT`. -/
def pagePresent : ℕ := 1

/-- `PAGE_WRITABLE`. -/
def pageWritable : ℕ := 2

/-- `PAGE_USER`. -/
def pageUser : ℕ := 4

/-- `PD_INDEX`. -/
def pdIndex (addr : ℕ) : ℕ := addr >>> 22

/-- `PT_INDEX`. -/
def ptIndex (addr : ℕ) : ℕ := addr >>> 12 &&& 0x3FF

/-- `PAGE_OFFSET`. -/
def pageOffset (addr : ℕ) : ℕ := addr &&& 0xFFF

/-- `ENTRY_GET_FRAME`, the top 20 bits. -/
def entryGetFrame (entry : ℕ) : ℕ := entry &&& 0xFFFFF000

/-- `ENTRY_HAS_FLAG`. -/
def entryHasFlag (entry flag : ℕ) : Bool := entry &&& flag != 0

/-- The recursive window: the page table of directory entry `pdIdx`. -/
def tableWindow (pdIdx : ℕ) : ℕ := 0xFFC00000 + pdIdx * pageSize

/-- The recursive window: the directory. -/
def directoryWindow : ℕ := 0xFFFFF000

/-- The entry that maps a page: `(phys & ~0xFFF) | flags | PAGE_PRESENT`. -/
def pageEntry (phys flags : ℕ) : ℕ := entryGetFrame phys ||| flags ||| pagePresent

end Vmm

/-- The frame allocator, the physical memory, and the directory loaded in `CR3`. -/
structure Vmm where
  pmm : Pmm
  memory : Bytes
  cr3 : ℕ

namespace Vmm

open Bytes

/-! ### The MMU -/

/-- The physical address of `virt`, `none` when the walk meets an absent entry. -/
def mmu (m : Bytes) (cr3 virt : ℕ) : Option ℕ :=
  let pde := load32 m (cr3 + 4 * pdIndex virt)
  if entryHasFlag pde pagePresent then
    let pte := load32 m (entryGetFrame pde + 4 * ptIndex virt)
    if entryHasFlag pte pagePresent then some (entryGetFrame pte + pageOffset virt) else none
  else none

def read32 (virt : ℕ) (s : Vmm) : Option ℕ :=
  (mmu s.memory s.cr3 virt).map (load32 s.memory)

def write32 (virt v : ℕ) (s : Vmm) : Option Vmm :=
  (mmu s.memory s.cr3 virt).map fun phys => { s with memory := store32 s.memory phys v }

/-- The byte loop of `memset` through the MMU. -/
def memset (dest : ℕ) (value : UInt8) : (size : ℕ) → Vmm → Option Vmm
  | 0, s => some s
  | size + 1, s =>
      (mmu s.memory s.cr3 dest).bind fun phys =>
        memset (dest + 1) value size { s with memory := store8 s.memory phys value }

/-! ### Mapping and unmapping -/

/-- The first half of `vmm_map_page`: the table is there afterwards, unless the flag
is `false`. -/
def ensureTable (pdIdx flags : ℕ) (s : Vmm) : Option (Bool × Vmm) := do
  let pde ← read32 (directoryWindow + 4 * pdIdx) s
  if !entryHasFlag pde pagePresent then
    let (newTable, pmm) := Pmm.pmmngrAllocBlock s.pmm
    if newTable = 0 then
      return (false, { s with pmm := pmm })
    let s ← write32 (directoryWindow + 4 * pdIdx)
      (newTable ||| pagePresent ||| pageWritable ||| (flags &&& pageUser)) { s with pmm := pmm }
    let s ← memset (tableWindow pdIdx) 0 pageSize s
    return (true, s)
  else if entryHasFlag flags pageUser then
    let pde ← read32 (directoryWindow + 4 * pdIdx) s
    let s ← write32 (directoryWindow + 4 * pdIdx) (pde ||| pageUser) s
    return (true, s)
  else
    return (true, s)

def vmmMapPage (virt phys flags : ℕ) (s : Vmm) : Option Vmm := do
  let (ok, s) ← ensureTable (pdIndex virt) flags s
  if ok then
    write32 (tableWindow (pdIndex virt) + 4 * ptIndex virt) (pageEntry phys flags) s
  else
    return s

/-- `vmm_alloc_page`: the address, `0` standing for `NULL`. -/
def vmmAllocPage (virt flags : ℕ) (s : Vmm) : Option (ℕ × Vmm) := do
  let (phys, pmm) := Pmm.pmmngrAllocBlock s.pmm
  if phys = 0 then
    return (0, { s with pmm := pmm })
  let s ← vmmMapPage virt phys flags { s with pmm := pmm }
  return (virt, s)

def vmmUnmapPage (virt : ℕ) (s : Vmm) : Option Vmm := do
  let pde ← read32 (directoryWindow + 4 * pdIndex virt) s
  if !entryHasFlag pde pagePresent then
    return s
  let pte ← read32 (tableWindow (pdIndex virt) + 4 * ptIndex virt) s
  if !entryHasFlag pte pagePresent then
    return s
  let s ← write32 (tableWindow (pdIndex virt) + 4 * ptIndex virt) 0 s
  return { s with pmm := Pmm.pmmngrFreeBlock (entryGetFrame pte) s.pmm }

/-! ### Building the directory, with paging off -/

/-- The first half of `vmm_early_identity_map`. A new table is not cleared. -/
def earlyTable (dir pdIdx : ℕ) (s : Vmm) : Bool × Vmm :=
  if !entryHasFlag (load32 s.memory (dir + 4 * pdIdx)) pagePresent then
    let (newTable, pmm) := Pmm.pmmngrAllocBlock s.pmm
    if newTable = 0 then
      (false, { s with pmm := pmm })
    else
      (true,
        { s with
          pmm := pmm
          memory := store32 s.memory (dir + 4 * pdIdx)
            (newTable ||| pagePresent ||| pageWritable) })
  else (true, s)

def vmmEarlyIdentityMap (dir virt phys flags : ℕ) (s : Vmm) : Vmm :=
  let (ok, s) := earlyTable dir (pdIndex virt) s
  if ok then
    let pt := entryGetFrame (load32 s.memory (dir + 4 * pdIndex virt))
    { s with memory := store32 s.memory (pt + 4 * ptIndex virt) (pageEntry phys flags) }
  else s

/-- The loop of `vmm_map_kernel`, with `pages` pages left from `addr` on. Irreducible,
since it is called with literal bounds. -/
@[irreducible] def vmmMapKernelLoop (dir : ℕ) : (pages addr : ℕ) → Vmm → Vmm
  | 0, _, s => s
  | pages + 1, addr, s =>
      vmmMapKernelLoop dir pages (addr + pageSize)
        (vmmEarlyIdentityMap dir addr addr (pagePresent ||| pageWritable) s)

/-- `vmm_map_kernel`: the pages of `[0x1000, 0x400000)`. -/
def vmmMapKernel (dir : ℕ) (s : Vmm) : Vmm :=
  vmmMapKernelLoop dir 1023 0x1000 s

/-- `vmm_init` on the memory and the allocator that boot leaves. -/
def vmmInit (memory : Bytes) (pmm : Pmm) : Vmm :=
  let (dir, pmm) := Pmm.pmmngrAllocBlock pmm
  let memory := fill memory dir 0 pageSize
  let memory := store32 memory (dir + 4 * 1023) (dir ||| pagePresent ||| pageWritable)
  vmmMapKernel dir { pmm := pmm, memory := memory, cr3 := dir }

end Vmm

end Yotos
