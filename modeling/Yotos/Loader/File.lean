import Yotos.Fat16.Contents
import Yotos.Kheap.Live
import Yotos.Loader.Basic

/-!
# Program files

What the loader sees of a file: its bytes, read through `vfs_read`, and the list of
segments that it comes to. A read needs a buffer of one cluster in the heap, which it
gives back.
-/

namespace Yotos

namespace Loader

open Bytes Library Kheap
open Fat16 (Fs VfsNode ReadsAs fat16VfsRead)

variable {fs : Fs} {node : VfsNode} {content buf : Bytes} {bs : List Block} {offset size : ℕ}

/-- `node` is an open file with these bytes, and the heap holds blocks. -/
structure Opened (fs : Fs) (node : VfsNode) (content : Bytes) (bs : List Block) : Prop where
  file : node.flags &&& Fat16.vfsFile ≠ 0
  ops : node.ops = .file
  size_lt : node.size < 2 ^ 32
  reads : ReadsAs fs node content
  placed : Placed fs.heapStart
  heap : Represents fs.heap fs.heapStart bs

/-- The heap has room for the buffer of a read. -/
def ReadRoom (fs : Fs) (bs : List Block) : Prop := Room fs.bpb.clusterBytes bs

/-- Another heap at the same place. -/
theorem Opened.withHeap (h : Opened fs node content bs) {heap : Bytes} {bs' : List Block}
    (hheap : Represents heap fs.heapStart bs') :
    Opened { fs with heap := heap } node content bs' :=
  ⟨h.file, h.ops, h.size_lt, h.reads, h.placed, hheap⟩

/-- What `fat16_vfs_read` does to the heap, when it returns. -/
theorem fat16VfsRead_heap {ret : ℤ} {out : Bytes} {fs' : Fs}
    (h : fat16VfsRead node offset size buf fs = some (ret, out, fs')) :
    fs' = fs ∨ ∃ p heap, kmalloc fs.heapStart fs.bpb.clusterBytes fs.heap = some (p, heap) ∧
      fs' = { fs with heap := if p = 0 then heap else kfree p heap } := by
  unfold fat16VfsRead at h
  split_ifs at h with hmounted hsize
  · obtain ⟨-, -, rfl⟩ := Prod.mk.inj (Option.some.inj h) |>.imp_right Prod.mk.inj
    exact Or.inl rfl
  · dsimp only at h
    split at h
    · simp only [Option.some.injEq, Prod.mk.injEq] at h
      exact Or.inl h.2.2.symm
    · obtain ⟨⟨p, heap⟩, hmalloc, h⟩ := Option.bind_eq_some_iff.1 h
      refine Or.inr ⟨p, heap, hmalloc, ?_⟩
      dsimp only at h
      split_ifs at h with hp
      · simp only [Option.some.injEq, Prod.mk.injEq] at h
        rw [if_pos hp]
        exact h.2.2.symm
      · obtain ⟨⟨n, out'⟩, -, h⟩ := Option.map_eq_some_iff.1 h
        simp only [Prod.mk.injEq] at h
        rw [if_neg hp]
        exact h.2.2.symm
  · simp only [Option.some.injEq, Prod.mk.injEq] at h
    exact Or.inl h.2.2.symm

/-- Without a buffer nothing is read, and the heap stays as it is. -/
theorem fat16VfsRead_null (node : VfsNode) (offset size : ℕ) (buf : Bytes)
    (hmalloc : kmalloc fs.heapStart fs.bpb.clusterBytes fs.heap = some (0, fs.heap)) :
    ∃ ret out, fat16VfsRead node offset size buf fs = some (ret, out, fs) ∧ ret ≤ 0 := by
  unfold fat16VfsRead
  split_ifs with hmounted hsize
  · exact ⟨0, buf, rfl, Int.le_refl 0⟩
  · dsimp only
    split
    · exact ⟨0, buf, rfl, Int.le_refl 0⟩
    · rw [hmalloc]
      exact ⟨-1, buf, rfl, by decide⟩
  · exact ⟨-1, buf, rfl, by decide⟩

/-- `vfs_read` of a program file, in pieces: as many bytes as there are, or none without
a buffer. The live blocks of the heap are the same afterwards. -/
theorem Opened.vfsRead (h : Opened fs node content bs) (offset : ℕ) (hsize : size ≤ 512)
    (buf : Bytes) :
    ∃ got out heap bs', vfsRead node offset size buf fs =
        some (got, out, { fs with heap := heap }) ∧
      Opened { fs with heap := heap } node content bs' ∧ SameLive fs.heapStart bs bs' ∧
      (ReadRoom fs bs' ↔ ReadRoom fs bs) ∧
      ((got ≤ 0 ∧ ¬ ReadRoom fs bs) ∨
        (ReadRoom fs bs ∧ got = (min size (node.size - offset) : ℕ) ∧
          ∀ x < min size (node.size - offset), out x = content (offset + x))) := by
  have hcall : Loader.vfsRead node offset size buf fs = fat16VfsRead node offset size buf fs := by
    rw [Loader.vfsRead, if_neg h.file, h.ops]
  rw [hcall]
  by_cases hroom : ReadRoom fs bs
  · have hspc := fs.bpb.spc_lt
    have hfit : min size (node.size - offset) + fs.bpb.clusterBytes ≤ 2 ^ 32 := by
      rw [Fat16.Bpb.clusterBytes]
      omega
    obtain ⟨p, heap, hmalloc, hp⟩ : ∃ p heap,
        kmalloc fs.heapStart fs.bpb.clusterBytes fs.heap = some (p, heap) ∧ p ≠ 0 := by
      rcases kmalloc_spec fs.bpb.clusterBytes h.placed h.heap with
        ⟨hno, -⟩ | ⟨_, _, _, heap, -, -, -, heq, -⟩
      · obtain ⟨b, hmem, hfits⟩ := hroom
        exact absurd hfits (hno b hmem)
      · exact ⟨_, heap, heq, by omega⟩
    obtain ⟨out, heap', hread, hbytes⟩ := h.reads fs.heapStart fs.heap heap p offset size buf
      hmalloc hp hfit
    have hint : Fat16.toInt (min size (node.size - offset)) =
        (min size (node.size - offset) : ℕ) := by
      rw [Fat16.toInt, if_pos (by omega)]
    obtain ⟨bs', hrep, hroom', hsame⟩ := kmalloc_kfree h.placed h.heap hmalloc hp
    rcases fat16VfsRead_heap hread with heq | ⟨p', heap'', hmalloc', heq⟩
    · have hheap : heap' = fs.heap := congrArg Fs.heap heq
      refine ⟨_, out, heap', bs, hread, h.withHeap (hheap ▸ h.heap), .refl _ _, Iff.rfl,
        Or.inr ⟨hroom, hint, hbytes⟩⟩
    · dsimp only at hmalloc'
      rw [hmalloc] at hmalloc'
      obtain ⟨rfl, rfl⟩ := Prod.mk.inj (Option.some.inj hmalloc')
      rw [if_neg hp] at heq
      have hheap : heap' = kfree p heap := congrArg Fs.heap heq
      exact ⟨_, out, heap', bs', hread, h.withHeap (hheap ▸ hrep), hsame,
        iff_of_true hroom' hroom, Or.inr ⟨hroom, hint, hbytes⟩⟩
  · obtain ⟨ret, out, hread, hret⟩ := fat16VfsRead_null node offset size buf
      ((kmalloc_null_iff h.placed h.heap).2 hroom)
    exact ⟨ret, out, fs.heap, bs, hread, h, .refl _ _, Iff.rfl, Or.inl ⟨hret, hroom⟩⟩

/-! ### The segments of a file -/

/-- The header of the file is there and as it should be. -/
def HeaderOk (content : Bytes) (size : ℕ) : Prop := ehdrSize ≤ size ∧ ehdrOk content = true

/-- Program header `i` lies in the file. -/
def PhdrInFile (content : Bytes) (size i : ℕ) : Prop := phdrOffset content i + phdrSize ≤ size

instance : Decidable (HeaderOk content size) := inferInstanceAs (Decidable (_ ∧ _))

instance (i : ℕ) : Decidable (PhdrInFile content size i) := inferInstanceAs (Decidable (_ ≤ _))

def phdrAt (content : Bytes) (i : ℕ) : Phdr :=
  .ofBytes fun x => content (phdrOffset content i + x)

/-- The bytes of a segment that the file has. -/
def Phdr.fileBytes (size : ℕ) (ph : Phdr) : ℕ := min ph.pFilesz (size - ph.pOffset)

/-- The file has all of them. -/
def Phdr.Whole (size : ℕ) (ph : Phdr) : Prop := ph.fileBytes size = ph.pFilesz

instance (ph : Phdr) : Decidable (ph.Whole size) := inferInstanceAs (Decidable (_ = _))

/-- The segments that the program headers from number `i` on come to: up to the first
header outside the file, or the first segment that is cut off. -/
def segmentsFrom (content : Bytes) (size : ℕ) : (n i : ℕ) → List Phdr
  | 0, _ => []
  | n + 1, i =>
      if PhdrInFile content size i then
        if (phdrAt content i).Loadable then
          phdrAt content i ::
            if (phdrAt content i).Whole size then segmentsFrom content size n (i + 1) else []
        else segmentsFrom content size n (i + 1)
      else []

/-- The segments that `elf_load` comes to. -/
def segments (content : Bytes) (size : ℕ) : List Phdr :=
  if HeaderOk content size then segmentsFrom content size (ePhnum content) 0 else []

/-- The file is complete: its headers and its segments are there, and its entry point
does not look like an error. -/
structure Accepted (content : Bytes) (size : ℕ) : Prop where
  header : HeaderOk content size
  phdrs : ∀ i < ePhnum content, PhdrInFile content size i ∧
    ((phdrAt content i).Loadable → (phdrAt content i).Whole size)
  entry : eEntry content ≠ 0

/-- The segments of the program headers. -/
def loadables (content : Bytes) : List Phdr :=
  ((List.range (ePhnum content)).map (phdrAt content)).filter fun ph => ph.Loadable

theorem Phdr.ofBytes_congr {e e' : Bytes} (h : ∀ x < phdrSize, e' x = e x) :
    Phdr.ofBytes e' = Phdr.ofBytes e := by
  have hload : ∀ o, o + 4 ≤ phdrSize → load32 e' o = load32 e o := fun o ho =>
    load32_congr fun x _ hx => h x (by omega)
  unfold phdrSize at hload
  rw [Phdr.ofBytes, Phdr.ofBytes, hload 0 (by omega), hload 4 (by omega), hload 8 (by omega),
    hload 16 (by omega), hload 20 (by omega)]

theorem mem_segmentsFrom {n i : ℕ} {ph : Phdr} (h : ph ∈ segmentsFrom content size n i) :
    ∃ j, i ≤ j ∧ j < i + n ∧ ph = phdrAt content j ∧ ph.Loadable := by
  induction n generalizing i with
  | zero => cases h
  | succ n ih =>
      rw [segmentsFrom] at h
      have hrest : ph ∈ segmentsFrom content size n (i + 1) →
          ∃ j, i ≤ j ∧ j < i + (n + 1) ∧ ph = phdrAt content j ∧ ph.Loadable := by
        intro h
        obtain ⟨j, hj, hj', heq, hload⟩ := ih h
        exact ⟨j, by omega, by omega, heq, hload⟩
      split_ifs at h with hin hload hwhole
      · rcases List.mem_cons.1 h with rfl | h
        · exact ⟨i, le_rfl, by omega, rfl, hload⟩
        · exact hrest h
      · rcases List.mem_cons.1 h with rfl | h
        · exact ⟨i, le_rfl, by omega, rfl, hload⟩
        · cases h
      · exact hrest h
      · cases h

theorem mem_segments {ph : Phdr} (h : ph ∈ segments content size) :
    ∃ i < ePhnum content, ph = phdrAt content i ∧ ph.Loadable := by
  rw [segments] at h
  split_ifs at h
  · obtain ⟨j, -, hj, heq, hload⟩ := mem_segmentsFrom h
    exact ⟨j, by omega, heq, hload⟩
  · cases h

theorem segmentsFrom_of_complete {n i : ℕ}
    (h : ∀ j, i ≤ j → j < i + n → PhdrInFile content size j ∧
      ((phdrAt content j).Loadable → (phdrAt content j).Whole size)) :
    segmentsFrom content size n i =
      ((List.range' i n).map (phdrAt content)).filter fun ph => ph.Loadable := by
  induction n generalizing i with
  | zero => rfl
  | succ n ih =>
      have hrest := @ih (i + 1) fun j hj hj' => h j (by omega) (by omega)
      obtain ⟨hin, hwhole⟩ := h i le_rfl (by omega)
      rw [segmentsFrom, if_pos hin, List.range'_succ, List.map_cons, List.filter_cons]
      by_cases hload : (phdrAt content i).Loadable
      · rw [if_pos hload, if_pos (hwhole hload), hrest, if_pos (decide_eq_true hload)]
      · rw [if_neg hload, hrest, if_neg (by simpa using hload)]

/-- For a complete file these are all its segments. -/
theorem Accepted.segments_eq (h : Accepted content size) :
    segments content size = loadables content := by
  rw [segments, if_pos h.header, segmentsFrom_of_complete fun j _ hj => h.phdrs j (by omega),
    loadables, List.range_eq_range']

/-- A segment that is cut off is the last one. -/
theorem eq_nil_of_not_whole {ph : Phdr} {xs ys : List Phdr} (hwhole : ¬ ph.Whole size) {n i : ℕ}
    (h : segmentsFrom content size n i = xs ++ ph :: ys) : ys = [] := by
  induction n generalizing i xs with
  | zero =>
      rw [segmentsFrom] at h
      simp at h
  | succ n ih =>
      rw [segmentsFrom] at h
      split_ifs at h with hin hload hw
      · cases xs with
        | nil =>
            obtain ⟨rfl, -⟩ := List.cons.inj h
            exact absurd hw hwhole
        | cons x xs => exact ih (List.cons.inj h).2
      · cases xs with
        | nil => exact (List.cons.inj h).2.symm
        | cons x xs =>
            have := (List.cons.inj h).2
            simp at this
      · exact ih h
      · simp at h

theorem Accepted.whole (h : Accepted content size) {ph : Phdr} (hph : ph ∈ segments content size) :
    ph.Whole size := by
  obtain ⟨i, hi, rfl, hload⟩ := mem_segments hph
  exact (h.phdrs i hi).2 hload

/-- Without it the list of segments ends there. -/
theorem segments_of_not_whole {ph : Phdr} {xs ys : List Phdr} (hwhole : ¬ ph.Whole size)
    (h : segments content size = xs ++ ph :: ys) : ys = [] := by
  rw [segments] at h
  split_ifs at h
  · exact eq_nil_of_not_whole hwhole h
  · simp at h

/-! ### A small program -/

/-- The `n` low bytes of a value. -/
def leBytes (n value : ℕ) : List UInt8 := (List.range n).map fun i => UInt8.ofNat (value / 256 ^ i)

/-- A file of headers only, with its entry point at 4 MiB. -/
def programFile (phs : List Phdr) : List UInt8 :=
  [0x7F, 0x45, 0x4C, 0x46] ++ List.replicate 12 0 ++ leBytes 2 2 ++ leBytes 2 3 ++ leBytes 4 1 ++
    leBytes 4 0x400000 ++ leBytes 4 ehdrSize ++ List.replicate 8 0 ++ leBytes 2 ehdrSize ++
    leBytes 2 phdrSize ++ leBytes 2 phs.length ++ List.replicate 6 0 ++
    phs.flatMap fun ph => leBytes 4 ph.pType ++ leBytes 4 ph.pOffset ++ leBytes 4 ph.pVaddr ++
      leBytes 4 ph.pVaddr ++ leBytes 4 ph.pFilesz ++ leBytes 4 ph.pMemsz ++ leBytes 4 7 ++
      leBytes 4 4096

/-- The small volume, with the file `A` in its first data cluster. -/
def programVolume (file : List UInt8) : Fat16.Disk := fun a =>
  if 1536 ≤ a ∧ a < 1536 + file.length then file.getD (a - 1536) 0
  else Fat16.smallVolume 2 (UInt8.ofNat file.length) 0 a

def programNode (file : List UInt8) : VfsNode := Fat16.smallNode 2 (UInt8.ofNat file.length) 0

def programContent (file : List UInt8) : Bytes :=
  Fat16.byteAt Fat16.smallBpb (programVolume file) [2]

/-- The heap after `kheap_init`. -/
def initialBlocks : List Block := [⟨kheapFixedSize - headerSize, true⟩]

theorem size_programNode {file : List UInt8} (hfile : file.length < 256) :
    (programNode file).size = file.length := by
  have hsize : (programNode file).size = _ := if_neg (by
    rw [Fat16.isDirectory_small]
    decide)
  rw [hsize, Fat16.fileSize_small, UInt8.toNat_ofNat']
  exact Nat.mod_eq_of_lt hfile

/-- A file on the small volume is open on a fresh heap. -/
theorem opened_program {file : List UInt8} (hfile : file.length < 256) :
    Opened (Fat16.mountedFs (programVolume file)) (programNode file) (programContent file)
      initialBlocks := by
  have hsize := size_programNode hfile
  have hbpb : (Fat16.mountedFs (programVolume file)).bpb = Fat16.smallBpb := by
    simp [Fat16.mountedFs, Fat16.Bpb.ofSector, load16, load32, programVolume, Fat16.smallVolume]
  have hplaced : Placed (Fat16.mountedFs (programVolume file)).heapStart :=
    (⟨by decide, by decide⟩ : Placed 0x111000)
  have hchain : Fat16.ClusterChain Fat16.smallBpb (Fat16.clusterTop Fat16.smallBpb)
      (programVolume file) 2 [2] := by
    refine Chain.single ⟨le_rfl, by decide⟩ ?_
    have hlow : ∀ a, 516 ≤ a → a < 518 →
        programVolume file a = Fat16.smallVolume 2 (UInt8.ofNat file.length) 0 a :=
      fun a _ _ => if_neg (by omega)
    have hentry : Fat16.fatAt Fat16.smallBpb (programVolume file) 2 =
        Fat16.fatAt Fat16.smallBpb (Fat16.smallVolume 2 (UInt8.ofNat file.length) 0) 2 :=
      load16_congr hlow
    rw [hentry, Fat16.fatAt_small (by decide) (by decide)]
    exact Nat.le_of_ble_eq_true rfl
  have hinode : (programNode file).inode = 2 := Fat16.firstCluster_small 2 _ 0
  have hfileChain : Fat16.FileChain Fat16.smallBpb (Fat16.clusterTop Fat16.smallBpb)
      (programVolume file) (programNode file).inode [2] := by
    rw [hinode]
    exact (Fat16.fileChain_of_two_le le_rfl).2 ⟨by simp, hchain⟩
  have hflags : (programNode file).flags = Fat16.vfsFile := if_neg (by
    rw [Fat16.isDirectory_small]
    decide)
  have hops : (programNode file).ops = .file := if_neg (by
    rw [Fat16.isDirectory_small]
    decide)
  have hreads : ReadsAs (Fat16.mountedFs (programVolume file)) (programNode file) _ :=
    Fat16.readsAs_byteAt (hbpb.symm ▸ Fat16.layout_small.geometry) rfl (hbpb.symm ▸ hfileChain)
    (by rw [hinode]; decide) (by
      rw [hbpb, hsize, show Fat16.smallBpb.clusterBytes = 512 by decide, List.length_singleton]
      omega)
  rw [hbpb] at hreads
  exact ⟨by rw [hflags]; decide, hops, by omega, hreads, hplaced, represents_kheapInit hplaced _⟩

end Loader

end Yotos
