import Yotos.Library.Packed
import Mathlib.Data.List.Range
import Mathlib.Algebra.Group.Nat.Defs

/-!
# The physical memory manager

`kernel/pmm.c`: one bit per 4 KiB frame, packed in 32-bit words, together with
the counter of used frames and the number of frames managed. A set bit is an
allocated frame. The bitmap is modelled as an unbounded array of words, since
the code indexes it without a bound: words past its end are whatever memory
follows `kernel_end`.

The multiboot memory map is the list of its entries. `uint32_t` parameters
truncate the 64-bit fields of an entry, and `int` counters never overflow here
because a 32-bit address has at most `2 ^ 20` frames below it.
-/

namespace Yotos

namespace Pmm

/-- `PMMNGR_BLOCK_SIZE`: frames are 4 KiB. -/
def pmmngrBlockSize : ℕ := 4096

/-- `PMMNGR_BLOCKS_PER_BYTE`. -/
def pmmngrBlocksPerByte : ℕ := 8

/-- `MULTIBOOT_MEMORY_AVAILABLE`. -/
def multibootMemoryAvailable : UInt32 := 1

/-- `multiboot_mmap_entry_t`, without the stride field `size`. -/
structure MultibootMmapEntry where
  addr : UInt64
  len : UInt64
  type : UInt32
  deriving DecidableEq

end Pmm

/-- The static variables of `pmm.c`. -/
structure Pmm where
  memorySize : ℕ
  usedBlocks : ℕ
  maxBlocks : ℕ
  memoryMap : ℕ → BitVec 32

namespace Pmm

def pmmngrGetFreeBlockCount (s : Pmm) : ℕ :=
  (2 ^ 32 - s.usedBlocks + s.maxBlocks) % 2 ^ 32

def pmmngrGetBitmapSize (s : Pmm) : ℕ :=
  (s.maxBlocks + pmmngrBlocksPerByte - 1) / pmmngrBlocksPerByte

/-- `_mmngr_used_blocks++`. -/
def incUsedBlocks (s : Pmm) : Pmm :=
  { s with usedBlocks := (s.usedBlocks + 1) % 2 ^ 32 }

/-- `_mmngr_used_blocks--`. -/
def decUsedBlocks (s : Pmm) : Pmm :=
  { s with usedBlocks := (2 ^ 32 - 1 + s.usedBlocks) % 2 ^ 32 }

/-- `_mmngr_memory_map[bit_n / 32] |= (1 << (bit_n % 32))`. -/
def mmapSet (s : Pmm) (bitN : ℕ) : Pmm :=
  { s with memoryMap := Packed.insert s.memoryMap bitN }

/-- `_mmngr_memory_map[bit_n / 32] &= ~(1 << (bit_n % 32))`. -/
def mmapUnset (s : Pmm) (bitN : ℕ) : Pmm :=
  { s with memoryMap := Packed.erase s.memoryMap bitN }

/-- `_mmngr_memory_map[bit_n / 32] & (1 << (bit_n % 32))`, as a truth value. -/
def mmapTest (s : Pmm) (bitN : ℕ) : Bool :=
  s.memoryMap (bitN / 32) &&& 1#32 <<< (bitN % 32) != 0#32

/-- The two nested loops of `mmap_first_free`, with `words` words left from word
`i` on. The result `-1` is `none`. -/
def mmapFirstFreeFrom (s : Pmm) : (words i : ℕ) → Option ℕ
  | 0, _ => none
  | words + 1, i =>
      if s.memoryMap i != 0xffffffff#32 then
        match (List.range 32).find? fun j => s.memoryMap i &&& 1#32 <<< j == 0#32 with
        | some j => some (i * 4 * 8 + j)
        | none => mmapFirstFreeFrom s words (i + 1)
      else
        mmapFirstFreeFrom s words (i + 1)

def mmapFirstFree (s : Pmm) : Option ℕ :=
  mmapFirstFreeFrom s (s.maxBlocks / 32) 0

/-- `memset(map, 0xff, n)`: the low `n - 4 * i` bytes of word `i` become `0xff`. -/
def memsetOnes (map : ℕ → BitVec 32) (n : ℕ) : ℕ → BitVec 32 :=
  fun i => map i ||| BitVec.ofNat 32 (2 ^ (8 * min 4 (n - 4 * i)) - 1)

/-- `pmmngr_init` over the memory content `map` found at the bitmap address. -/
def pmmngrInit (memSize : ℕ) (map : ℕ → BitVec 32) : Pmm where
  memorySize := memSize
  usedBlocks := memSize / 4
  maxBlocks := memSize / 4
  memoryMap := memsetOnes map (memSize / 4 / pmmngrBlocksPerByte)

/-- The loop of `pmmngr_init_region`: `blocks` frames from `align` on are freed. -/
def pmmngrInitRegionLoop : (blocks align : ℕ) → Pmm → Pmm
  | 0, _, s => s
  | blocks + 1, align, s =>
      let s' := if mmapTest s align then decUsedBlocks s else s
      pmmngrInitRegionLoop blocks (align + 1) (mmapUnset s' align)

def pmmngrInitRegion (base size : ℕ) (s : Pmm) : Pmm :=
  pmmngrInitRegionLoop (size / pmmngrBlockSize) (base / pmmngrBlockSize) s

/-- The loop of `pmmngr_deinit_region`: `blocks` frames from `align` on are
marked used. Irreducible, since `kernel.c` calls it with literal bounds. -/
@[irreducible] def pmmngrDeinitRegionLoop : (blocks align : ℕ) → Pmm → Pmm
  | 0, _, s => s
  | blocks + 1, align, s =>
      let s' := if !mmapTest s align then incUsedBlocks s else s
      pmmngrDeinitRegionLoop blocks (align + 1) (mmapSet s' align)

def pmmngrDeinitRegion (base size : ℕ) (s : Pmm) : Pmm :=
  pmmngrDeinitRegionLoop (size / pmmngrBlockSize) (base / pmmngrBlockSize) s

/-- `pmmngr_alloc_block`: the frame's address, `0` standing for `NULL`. -/
def pmmngrAllocBlock (s : Pmm) : ℕ × Pmm :=
  if pmmngrGetFreeBlockCount s = 0 then
    (0, s)
  else
    match mmapFirstFree s with
    | none => (0, s)
    | some frame =>
        (frame * pmmngrBlockSize % 2 ^ 32, incUsedBlocks (mmapSet s frame))

def pmmngrFreeBlock (p : ℕ) (s : Pmm) : Pmm :=
  decUsedBlocks (mmapUnset s (p / pmmngrBlockSize))

/-- One round of the loop of `pmm_init_available_regions`: the 64-bit fields are
passed to `uint32_t` parameters. -/
def pmmInitAvailableRegion (s : Pmm) (entry : MultibootMmapEntry) : Pmm :=
  if entry.type = multibootMemoryAvailable then
    pmmngrInitRegion (entry.addr.toNat % 2 ^ 32) (entry.len.toNat % 2 ^ 32) s
  else s

def pmmInitAvailableRegions (mmap : List MultibootMmapEntry) (s : Pmm) : Pmm :=
  mmap.foldl pmmInitAvailableRegion s

/-- `deinit_special_regions` of `kernel.c`. -/
def deinitSpecialRegions (s : Pmm) : Pmm :=
  pmmngrDeinitRegion 0x0 0x400000 s

/-- The three calls of `kmain` that set the allocator up. -/
def boot (memSize : ℕ) (map : ℕ → BitVec 32) (mmap : List MultibootMmapEntry) : Pmm :=
  deinitSpecialRegions (pmmInitAvailableRegions mmap (pmmngrInit memSize map))

end Pmm

end Yotos
