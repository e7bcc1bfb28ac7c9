import Yotos.Library.Bytes
import Yotos.Pmm.Basic

/-!
# The kernel heap

`kernel/kheap.c`: a first-fit allocator over one mapped megabyte. Every block
starts with a 16-byte header `block_header_t` (size, free flag, links to the next
and the previous header), and the blocks are found by following the `next` links
from `heap_start_ptr`. The heap is modelled as the byte memory it lives in, so a
header is nothing but the bytes at its address and two headers may in principle
overlap. Address arithmetic is modulo `2 ^ 32`.

The walk along the `next` links is bounded by `kheapWalkFuel`, one more than the
number of headers that fit the heap; a longer walk can only run in a circle, and
`kmalloc` does not return then (`none`).
-/

namespace Yotos

/-- `align_up` of `utils.h`. -/
def alignUp (value alignment : UInt32) : UInt32 :=
  (value + alignment - 1) &&& ~~~(alignment - 1)

namespace Kheap

open Bytes

/-- `KHEAP_FIXED_SIZE`. -/
def kheapFixedSize : ℕ := 1024 * 1024

/-- `sizeof(block_header_t)`. -/
def headerSize : ℕ := 16

def kheapWalkFuel : ℕ := kheapFixedSize / headerSize + 1

/-! The fields of the header at address `p`. -/

def size (m : Bytes) (p : ℕ) : ℕ := load32 m p

def isFree (m : Bytes) (p : ℕ) : Bool := m (p + 4) != 0

def next (m : Bytes) (p : ℕ) : ℕ := load32 m (p + 8)

def prev (m : Bytes) (p : ℕ) : ℕ := load32 m (p + 12)

def setSize (m : Bytes) (p v : ℕ) : Bytes := store32 m p v

def setIsFree (m : Bytes) (p : ℕ) (v : UInt8) : Bytes := store8 m (p + 4) v

def setNext (m : Bytes) (p v : ℕ) : Bytes := store32 m (p + 8) v

def setPrev (m : Bytes) (p v : ℕ) : Bytes := store32 m (p + 12) v

/-- `heap_start` in `kheap_init`: the first page after the kernel and the frame
bitmap. -/
def heapStart (kernelEnd bitmapSize : UInt32) : ℕ :=
  (alignUp (kernelEnd + bitmapSize) 4096).toNat

/-- The header that `kheap_init` writes once the pages are mapped. -/
def kheapInit (start : ℕ) (m : Bytes) : Bytes :=
  setPrev (setNext (setIsFree (setSize m start (kheapFixedSize - headerSize)) start 1) start 0)
    start 0

/-- The split in `kmalloc`: the tail of block `current` becomes a new free block. -/
def splitBlock (m : Bytes) (current n : ℕ) : Bytes :=
  let newBlock := (current + headerSize + n) % 2 ^ 32
  let m := setSize m newBlock ((2 ^ 32 - headerSize + (2 ^ 32 - n + size m current)) % 2 ^ 32)
  let m := setIsFree m newBlock 1
  let m := setNext m newBlock (next m current)
  let m := setPrev m newBlock current
  let m := if next m current ≠ 0 then setPrev m (next m current) newBlock else m
  let m := setNext m current newBlock
  setSize m current n

/-- The loop of `kmalloc`, from header `current` on. -/
def kmallocLoop (n : ℕ) : (fuel current : ℕ) → Bytes → Option (ℕ × Bytes)
  | 0, _, _ => none
  | fuel + 1, current, m =>
      if current = 0 then
        some (0, m)
      else if isFree m current ∧ n ≤ size m current then
        let m := if (n + headerSize + 1) % 2 ^ 32 ≤ size m current then
            splitBlock m current n else m
        some ((current + headerSize) % 2 ^ 32, setIsFree m current 0)
      else
        kmallocLoop n fuel (next m current) m

/-- `kmalloc`, with `start` for `heap_start_ptr`: the payload address, `0` standing
for `NULL`. -/
def kmalloc (start n : ℕ) (m : Bytes) : Option (ℕ × Bytes) :=
  kmallocLoop n kheapWalkFuel start m

/-- The first half of `kfree`: absorb the next block when it is free. -/
def coalesceNext (m : Bytes) (header : ℕ) : Bytes :=
  if next m header ≠ 0 ∧ isFree m (next m header) then
    let m := setSize m header ((size m header + (headerSize + size m (next m header))) % 2 ^ 32)
    let m := setNext m header (next m (next m header))
    if next m header ≠ 0 then setPrev m (next m header) header else m
  else m

/-- The second half of `kfree`: let the previous block absorb this one when it is
free. -/
def coalescePrev (m : Bytes) (header : ℕ) : Bytes :=
  if prev m header ≠ 0 ∧ isFree m (prev m header) then
    let m := setSize m (prev m header)
      ((size m (prev m header) + (headerSize + size m header)) % 2 ^ 32)
    let m := setNext m (prev m header) (next m header)
    if next m header ≠ 0 then setPrev m (next m header) (prev m header) else m
  else m

def kfree (ptr : ℕ) (m : Bytes) : Bytes :=
  if ptr = 0 then m
  else
    let header := (2 ^ 32 - headerSize + ptr) % 2 ^ 32
    coalescePrev (coalesceNext (setIsFree m header 1) header) header

end Kheap

end Yotos
