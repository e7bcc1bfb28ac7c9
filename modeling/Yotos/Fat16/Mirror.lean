import Yotos.Fat16.Create
import Yotos.Library.Latest

/-!
# The two copies of the table

With `fat_count = 2` every update goes to both copies, and `fat_entry` reads the first
one. The calls of `fat_set_entry` that the operations make are listed beside them, as
`allocCalls` and so on: cluster and value, in order. `TableRun` says that the table
changed by such calls alone, so that an entry holds the value of the last call for it
and equal copies stay equal. It needs every call to be for an entry of the first copy:
what lies past it is the second one.
-/

namespace Yotos

namespace Fat16

open Bytes Kheap Library

/-- The calls of `fat_set_entry` in `fat_alloc_cluster`. -/
def allocCalls (b : Bpb) (d : Disk) : List (ℕ × ℕ) :=
  match findFreeCluster b d with
  | some cluster => [(cluster % 65536, 0xFFFF)]
  | none => []

/-- Those in `fat_free_chain`. -/
def freeChainCalls (b : Bpb) : (fuel cluster : ℕ) → Disk → List (ℕ × ℕ)
  | 0, _, _ => []
  | fuel + 1, cluster, d =>
      if isCluster cluster then
        (cluster, 0) :: freeChainCalls b fuel (fatEntry b d cluster) (fatSetEntry b d cluster 0)
      else []

/-- Those in the walk of `fat16_vfs_write`. -/
def extendWalkCalls (b : Bpb) : (n cluster : ℕ) → Disk → List (ℕ × ℕ)
  | 0, _, _ => []
  | n + 1, cluster, d =>
      let next := fatEntry b d cluster
      if isCluster next then extendWalkCalls b n next d
      else
        let (nc, d') := fatAllocCluster b d
        if nc = 0 then allocCalls b d
        else
          allocCalls b d ++ (cluster, nc) :: extendWalkCalls b n nc (fatSetEntry b d' cluster nc)

/-- Those in the loop of `fat16_vfs_write`. -/
def writeLoopCalls (b : Bpb) (inode offset size : ℕ) (buf : Bytes) :
    (fuel bytesWritten : ℕ) → (cbuf : Bytes) → Disk → List (ℕ × ℕ)
  | 0, _, _, _ => []
  | fuel + 1, bytesWritten, cbuf, d =>
      if bytesWritten < size then
        let curOff := (offset + bytesWritten) % 2 ^ 32
        let innerOff := curOff % b.clusterBytes
        extendWalkCalls b (curOff / b.clusterBytes) (inode % 65536) d ++
          match extendWalk b (curOff / b.clusterBytes) (inode % 65536) d with
          | (false, _, _) => []
          | (true, cluster, d) =>
              let cbuf := readCluster b d cluster cbuf
              let n := min (size - bytesWritten) (b.clusterBytes - innerOff)
              let cbuf := copy cbuf innerOff buf bytesWritten n
              writeLoopCalls b inode offset size buf fuel (bytesWritten + n) cbuf
                (writeCluster b d cluster cbuf)
      else []

/-- Those in `fat16_vfs_write`. -/
def writeCalls (node : VfsNode) (offset size : ℕ) (buf : Bytes) (fs : Fs) : List (ℕ × ℕ) :=
  if fs.mounted = false ∨ size = 0 then []
  else
    let (inode, d) :=
      if node.inode % 65536 < 2 then fatAllocCluster fs.bpb fs.disk else (node.inode, fs.disk)
    let calls := if node.inode % 65536 < 2 then allocCalls fs.bpb fs.disk else []
    if inode = 0 then calls
    else
      match kmalloc fs.heapStart fs.bpb.clusterBytes fs.heap with
      | none => calls
      | some (cbuf, heap) =>
          if cbuf = 0 then calls
          else calls ++ writeLoopCalls fs.bpb inode offset size buf size 0 (fun x => heap (cbuf + x)) d

/-- Those in `fat16_vfs_create`. -/
def createCalls (fuel : ℕ) (node : VfsNode) (name : List UInt8) (flags : UInt32) (fs : Fs) :
    List (ℕ × ℕ) :=
  if fs.mounted then
    if flags &&& vfsDir ≠ 0 then
      let (cluster, d) := fatAllocCluster fs.bpb fs.disk
      if cluster = 0 then allocCalls fs.bpb fs.disk
      else
        let d := initDirCluster fs.bpb d cluster node.inode
        match fat16WriteDirEntry fuel fs.bpb d node.inode name cluster 0 0x10 with
        | some (false, d) => allocCalls fs.bpb fs.disk ++ freeChainCalls fs.bpb fuel cluster d
        | _ => allocCalls fs.bpb fs.disk
    else []
  else []

/-- The two copies of the table hold the same bytes. -/
def CopiesAgree (b : Bpb) (d : Disk) : Prop :=
  ∀ x < 512 * b.fatSize, d (512 * (b.fatLba + b.fatSize) + x) = d (512 * b.fatLba + x)

/-- A volume with two copies of the table, of at most 65536 entries. -/
structure Mirrored (b : Bpb) : Prop where
  spc_pos : 1 ≤ b.spc
  fatCount : b.fatCount = 2
  fatSize_pos : 1 ≤ b.fatSize
  fatSize_le : b.fatSize ≤ 256

/-- From `d` to `d'` the table changed by the calls in `log`. -/
structure TableRun (b : Bpb) (d : Disk) (log : List (ℕ × ℕ)) (d' : Disk) : Prop where
  fat : ∀ c < 256 * b.fatSize, fatAt b d' c = (latest log c).getD (fatAt b d c)
  copies : CopiesAgree b d → CopiesAgree b d'

variable {b : Bpb} {d d' d'' : Disk} {log log' : List (ℕ × ℕ)} {c v : ℕ}

theorem Mirrored.fatCount_toNat (hb : Mirrored b) : b.fatCount.toNat = 2 := by
  rw [hb.fatCount]
  rfl

theorem Mirrored.geometry (hb : Mirrored b) : Geometry b 0 where
  spc_pos := hb.spc_pos
  fatCount_pos := by
    rw [hb.fatCount_toNat]
    omega
  fatSize_pos := hb.fatSize_pos
  top_le_mark := Nat.zero_le _
  top_le_table := Nat.zero_le _

theorem Mirrored.rootDirLba_eq (hb : Mirrored b) : b.rootDirLba = b.fatLba + 2 * b.fatSize := by
  rw [Bpb.rootDirLba, hb.fatCount_toNat]

theorem Mirrored.lt (hb : Mirrored b) (hc : c < 256 * b.fatSize) : c < 65536 := by
  have := hb.fatSize_le
  omega

namespace TableRun

theorem refl (b : Bpb) (d : Disk) : TableRun b d [] d := ⟨fun _ _ => rfl, id⟩

theorem trans (h : TableRun b d log d') (h' : TableRun b d' log' d'') :
    TableRun b d (log ++ log') d'' where
  fat c hc := by rw [h'.fat c hc, h.fat c hc, getD_latest_append]
  copies hagree := h'.copies (h.copies hagree)

/-- What is written behind the table. -/
theorem of_outside (hb : Mirrored b) (h : ∀ x < 512 * b.rootDirLba, d' x = d x) :
    TableRun b d [] d' where
  fat c hc := fatAt_congr hb.geometry hc h
  copies hagree x hx := by
    have hroot := hb.rootDirLba_eq
    rw [h _ (by omega), h _ (by omega)]
    exact hagree x hx

/-- One call, for an entry of the first copy. -/
theorem fatSetEntry (hb : Mirrored b) (d : Disk) (hc : c < 256 * b.fatSize) (hv : v < 65536) :
    TableRun b d [(c, v)] (fatSetEntry b d c v) where
  fat k hk := by
    by_cases heq : k = c
    · subst heq
      rw [fatAt_fatSetEntry_self (hb.lt hc) hc hv, latest_singleton_self]
      rfl
    · rw [fatAt_fatSetEntry_of_ne (hb.lt hc) hk heq, latest_singleton_of_ne (Ne.symm heq)]
      rfl
  copies hagree x hx := by
    have hcount := hb.fatCount_toNat
    have hlow : 512 * (b.fatLba + b.fatSize) + x = 512 * b.fatLba + x + 512 * b.fatSize := by omega
    have hstore (m : Bytes) (a y : ℕ) (hne : y ≠ a ∧ y ≠ a + 1) : store16 m a v y = m y := by
      rw [store16, store8_of_ne _ _ hne.2, store8_of_ne _ _ hne.1]
    rw [fatSetEntry_eq (hb.lt hc)]
    dsimp only
    rw [if_pos (by omega), hlow]
    have hagree := hagree x hx
    rw [hlow] at hagree
    have haddr : fatAddr b c = 512 * b.fatLba + 2 * c := rfl
    by_cases hin : 512 * b.fatLba + x = fatAddr b c ∨ 512 * b.fatLba + x = fatAddr b c + 1
    · -- the two bytes of the entry, in either copy
      rw [store16_of_apart _ _ (show 512 * b.fatLba + x < fatAddr b c + 512 * b.fatSize ∨ _ by
        omega)]
      rcases hin with hfirst | hsecond
      · rw [hfirst, store16, store16, store8_of_ne _ _ (by omega), store8_self,
          store8_of_ne _ _ (by omega), store8_self]
      · rw [hsecond, show fatAddr b c + 1 + 512 * b.fatSize = fatAddr b c + 512 * b.fatSize + 1 by
          omega, store16, store16, store8_self, store8_self]
    · rw [hstore _ _ _ (by omega), hstore _ _ _ (by omega), hstore _ _ _ (by omega),
        hstore _ _ _ (by omega)]
      exact hagree

end TableRun

end Fat16

end Yotos
