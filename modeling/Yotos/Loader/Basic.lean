import Yotos.Library.Access
import Yotos.Library.Outcome
import Yotos.Fat16.File
import Yotos.Vmm.Basic

/-!
# Loading a program

`kernel/elf.c` and the first and last part of a process in `kernel/process.c`:
`elf_load` reads the headers of a file, takes a page for every page that a segment
touches, copies the file's bytes there and clears the rest; `process_create` adds the
user stack, and `process_free` unmaps the pages it finds recorded.

The loader writes through the MMU, so an access to a page that is not mapped is a page
fault, and the kernel is stuck there. The same stands for a call that does not return.
`log` is not part of the kernel: it keeps the pages asked for and the bytes written.

The heap and the disk are kept beside `vmm.memory`, so that a store outside the pages of the
program does not reach them here. The results are about runs without such a store, or up to
the first one. Only `not_noLeak`, on what a program finds in its stack pages, is also about
files that write over kernel pages below the page tables: there such a store changes
`vmm.memory`, and the heap and the disk of the model stay as they were.
-/

namespace Yotos

namespace Loader

open Bytes Library
open Fat16 (Fs VfsNode)
open Kheap (kmalloc kfree)
open Vmm (pageSize pagePresent pageWritable pageUser)

structure Kernel where
  vmm : Vmm
  fs : Fs
  log : List (Access ℕ UInt8)

/-! ### The calls of the loader -/

/-- `vfs_read`. The dispatch tables of directories have no `read`. -/
def vfsRead (node : VfsNode) (offset size : ℕ) (buf : Bytes) (fs : Fs) :
    Option (ℤ × Bytes × Fs) :=
  if node.flags &&& Fat16.vfsFile = 0 then some (-1, buf, fs)
  else
    match node.ops with
    | .file => Fat16.fat16VfsRead node offset size buf fs
    | .dir => some (-1, buf, fs)
    | .root => some (-1, buf, fs)

def readFile (node : VfsNode) (offset size : ℕ) (buf : Bytes) (k : Kernel) :
    Outcome Kernel (ℤ × Bytes) :=
  match vfsRead node offset size buf k.fs with
  | none => .stuck k
  | some (got, buf, fs) => .done (got, buf) { k with fs := fs }

/-- `vmm_alloc_page` with the flags of a user page. -/
def allocPage (v : ℕ) (k : Kernel) : Outcome Kernel ℕ :=
  let k := { k with log := k.log ++ [.map v] }
  match Vmm.vmmAllocPage v (pagePresent ||| pageWritable ||| pageUser) k.vmm with
  | none => .stuck k
  | some (p, vmm) => .done p { k with vmm := vmm }

/-- A store of one byte through the MMU. -/
def storeByte (v : ℕ) (x : UInt8) (k : Kernel) : Outcome Kernel Unit :=
  match Vmm.mmu k.vmm.memory k.vmm.cr3 v with
  | none => .stuck k
  | some phys =>
      .done () { k with
        vmm := { k.vmm with memory := store8 k.vmm.memory phys x }
        log := k.log ++ [.write v x] }

def malloc (n : ℕ) (k : Kernel) : Outcome Kernel ℕ :=
  match kmalloc k.fs.heapStart n k.fs.heap with
  | none => .stuck k
  | some (p, heap) => .done p { k with fs := { k.fs with heap := heap } }

def free (p : ℕ) (k : Kernel) : Kernel :=
  { k with fs := { k.fs with heap := kfree p k.fs.heap } }

/-- `vmm_unmap_page`. -/
def unmapPage (v : ℕ) (k : Kernel) : Outcome Kernel Unit :=
  match Vmm.vmmUnmapPage v k.vmm with
  | none => .stuck k
  | some vmm => .done () { k with vmm := vmm }

/-! ### Headers -/

/-- `sizeof(Elf32_Ehdr)`. -/
def ehdrSize : ℕ := 52

/-- `sizeof(Elf32_Phdr)`. -/
def phdrSize : ℕ := 32

/-- The checks on the header `e` of a file. -/
def ehdrOk (e : Bytes) : Bool :=
  e 0 = 0x7F ∧ e 1 = 0x45 ∧ e 2 = 0x4C ∧ e 3 = 0x46 ∧ load16 e 16 = 2 ∧ load16 e 18 = 3

def eEntry (e : Bytes) : ℕ := load32 e 24

def ePhnum (e : Bytes) : ℕ := load16 e 44

/-- The offset of program header `i` in the file. -/
def phdrOffset (e : Bytes) (i : ℕ) : ℕ := (load32 e 28 + i * load16 e 42) % 2 ^ 32

/-- `Elf32_Phdr`, as far as the loader looks at it. -/
structure Phdr where
  pType : ℕ
  pOffset : ℕ
  pVaddr : ℕ
  pFilesz : ℕ
  pMemsz : ℕ
  deriving DecidableEq

def Phdr.ofBytes (e : Bytes) : Phdr where
  pType := load32 e 0
  pOffset := load32 e 4
  pVaddr := load32 e 8
  pFilesz := load32 e 16
  pMemsz := load32 e 20

/-- A segment to load: `PT_LOAD` and not empty. -/
def Phdr.Loadable (ph : Phdr) : Prop := ¬ (ph.pType ≠ 1 ∨ ph.pMemsz = 0)

instance (ph : Phdr) : Decidable ph.Loadable := inferInstanceAs (Decidable (¬ _))

/-- `seg_start`. -/
def Phdr.segStart (ph : Phdr) : ℕ := ph.pVaddr / pageSize * pageSize

/-- `seg_end`, a 32-bit sum. -/
def Phdr.segEnd (ph : Phdr) : ℕ :=
  (ph.pVaddr + ph.pMemsz + pageSize - 1) % 2 ^ 32 / pageSize * pageSize

/-- The values of `vaddr` in the loop over the pages of a segment. -/
def Phdr.pages (ph : Phdr) : List ℕ :=
  (List.range ((ph.segEnd - ph.segStart) / pageSize)).map fun i => ph.segStart + pageSize * i

/-! ### `elf_load` -/

/-- The loop that takes pages: whether all could be had, and the addresses recorded, at
most `max`. -/
def mapPages (max : ℕ) : (vaddrs pages : List ℕ) → Kernel → Outcome Kernel (Bool × List ℕ)
  | [], pages, k => .done (true, pages) k
  | v :: vaddrs, pages, k =>
      (allocPage v k).bind fun p k =>
        if p = 0 then .done (false, pages) k
        else mapPages max vaddrs (if pages.length < max then pages ++ [v] else pages) k

/-- The loop `dst[j] = buf[j]`, with `n` bytes left from `j` on. -/
def storeBytes (dst : ℕ) (buf : Bytes) : (n j : ℕ) → Kernel → Outcome Kernel Unit
  | 0, _, k => .done () k
  | n + 1, j, k =>
      (storeByte ((dst + j) % 2 ^ 32) (buf j) k).bind fun _ k => storeBytes dst buf n (j + 1) k

/-- The loop that copies a segment, 512 bytes at a time. Each round copies at least one,
so `p_filesz` bounds their number. -/
def copySegment (node : VfsNode) (ph : Phdr) :
    (fuel remaining readOff : ℕ) → Bytes → Kernel → Outcome Kernel Bool
  | 0, remaining, _, _, k => if 0 < remaining then .stuck k else .done true k
  | fuel + 1, remaining, readOff, buf, k =>
      if 0 < remaining then
        (readFile node ((ph.pOffset + readOff) % 2 ^ 32) (min remaining 512) buf k).bind
          fun (got, buf) k =>
            if got ≤ 0 then .done false k
            else
              (storeBytes ((ph.pVaddr + readOff) % 2 ^ 32) buf got.toNat 0 k).bind fun _ k =>
                copySegment node ph fuel ((2 ^ 32 + remaining - got.toNat) % 2 ^ 32)
                  ((readOff + got.toNat) % 2 ^ 32) buf k
      else .done true k

/-- The memory beyond the file's bytes, `bss` of `elf_load`. -/
def clearBss (ph : Phdr) (k : Kernel) : Outcome Kernel Unit :=
  if ph.pFilesz < ph.pMemsz then
    storeBytes ((ph.pVaddr + ph.pFilesz) % 2 ^ 32) (fun _ => 0) (ph.pMemsz - ph.pFilesz) 0 k
  else .done () k

/-- The body of the loop of `elf_load` for a segment to load. -/
def loadSegment (node : VfsNode) (max : ℕ) (ph : Phdr) (pages : List ℕ) (k : Kernel) :
    Outcome Kernel (Bool × List ℕ) :=
  (mapPages max ph.pages pages k).bind fun (ok, pages) k =>
    if ok then
      (copySegment node ph ph.pFilesz ph.pFilesz 0 (fun _ => 0) k).bind fun ok k =>
        if ok then (clearBss ph k).bind fun _ k => .done (true, pages) k
        else .done (false, pages) k
    else .done (false, pages) k

/-- The loop of `elf_load`, with `n` program headers left from number `i` on. -/
def loadPhdrs (node : VfsNode) (max : ℕ) (ehdr : Bytes) :
    (n i : ℕ) → List ℕ → Kernel → Outcome Kernel (Bool × List ℕ)
  | 0, _, pages, k => .done (true, pages) k
  | n + 1, i, pages, k =>
      (readFile node (phdrOffset ehdr i) phdrSize (fun _ => 0) k).bind fun (got, buf) k =>
        if got ≠ phdrSize then .done (false, pages) k
        else if (Phdr.ofBytes buf).Loadable then
          (loadSegment node max (Phdr.ofBytes buf) pages k).bind fun (ok, pages) k =>
            if ok then loadPhdrs node max ehdr n (i + 1) pages k else .done (false, pages) k
        else loadPhdrs node max ehdr n (i + 1) pages k

/-- `elf_load`: the entry point, `0` for an error, and the pages recorded. -/
def elfLoad (node : VfsNode) (max : ℕ) (pages : List ℕ) (k : Kernel) :
    Outcome Kernel (ℕ × List ℕ) :=
  (readFile node 0 ehdrSize (fun _ => 0) k).bind fun (got, ehdr) k =>
    if got ≠ ehdrSize then .done (0, pages) k
    else if ehdrOk ehdr then
      (loadPhdrs node max ehdr (ePhnum ehdr) 0 pages k).bind fun (ok, pages) k =>
        .done (if ok then eEntry ehdr else 0, pages) k
    else .done (0, pages) k

/-! ### Processes -/

/-- `PROCESS_MAX_PAGES`. -/
def processMaxPages : ℕ := 64

/-- `PROCESS_KSTACK_SIZE`. -/
def processKstackSize : ℕ := 8192

/-- `USER_STACK_VIRT`. -/
def userStackVirt : ℕ := 0xBFFFF000

/-- `USER_STACK_PAGES`. -/
def userStackPages : ℕ := 4

/-- `USER_STACK_TOP`. -/
def userStackTop : ℕ := 0xC0000000

/-- `sizeof(process_t)`. -/
def processSize : ℕ := 280

/-- `process_t`, with the heap address it lives at. `mappedPages` stands for
`mapped_pages` up to `mapped_count`. -/
structure Process where
  entry : ℕ
  stackTop : ℕ
  exitCode : ℤ
  kstack : ℕ
  kstackTop : ℕ
  mappedPages : List ℕ
  addr : ℕ

/-- The values of `vaddr` in the loop over the pages of the stack. -/
def stackPages : List ℕ := (List.range userStackPages).map fun i => userStackVirt - i * pageSize

/-- `process_create`, from the allocation of the kernel stack on. -/
def createWith (node : VfsNode) (proc kstack : ℕ) (k : Kernel) :
    Outcome Kernel (Option Process) :=
  (elfLoad node processMaxPages [] k).bind fun (entry, pages) k =>
    if entry = 0 then .done none (free proc (free kstack k))
    else
      (mapPages processMaxPages stackPages pages k).bind fun (ok, pages) k =>
        if ok then
          .done (some {
            entry := entry
            stackTop := userStackTop - 4
            exitCode := 0
            kstack := kstack
            kstackTop := (kstack + processKstackSize) % 2 ^ 32
            mappedPages := pages
            addr := proc }) k
        else .done none (free proc (free kstack k))

/-- `process_create`. -/
def processCreate (node : VfsNode) (k : Kernel) : Outcome Kernel (Option Process) :=
  (malloc processSize k).bind fun proc k =>
    if proc = 0 then .done none k
    else
      (malloc processKstackSize k).bind fun kstack k =>
        if kstack = 0 then .done none (free proc k) else createWith node proc kstack k

/-- The loop of `process_free`. -/
def unmapPages : (pages : List ℕ) → Kernel → Outcome Kernel Unit
  | [], k => .done () k
  | v :: pages, k => (unmapPage v k).bind fun _ k => unmapPages pages k

/-- `process_free`. -/
def processFree (proc : Process) (k : Kernel) : Outcome Kernel Unit :=
  (unmapPages proc.mappedPages k).bind fun _ k => .done () (free proc.addr (free proc.kstack k))

end Loader

end Yotos
