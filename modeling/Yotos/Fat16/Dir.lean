import Yotos.Fat16.Name
import Yotos.Fat16.Table
import Yotos.Kheap.Basic

/-!
# Directories

A directory is a sequence of sectors of 16 entries: the fixed root region for inode
0, otherwise the clusters of a chain. `fat16_vfs_readdir`, `fat16_vfs_finddir` and
`fat16_write_dir_entry` run over it with the same two loops, `scanDir` here, and
differ in what they do with an entry. The outer loop ends with the directory; its
sectors are counted by `fuel`, and `none` stands for a run of more sectors, which a
cyclic chain would give.

A volume with `sectors_per_cluster = 0` makes the driver divide by zero. The model's
results assume that this is not so.
-/

namespace Yotos

namespace Fat16

open Bytes Kheap

/-- The dispatch tables. -/
inductive VfsOps where
  | file
  | dir
  | root
  deriving DecidableEq, Repr

/-- `vfs_node_t`, with the heap address it lives at. -/
structure VfsNode where
  name : List UInt8
  flags : UInt32
  size : ℕ
  inode : ℕ
  ops : VfsOps
  dirLba : ℕ
  dirIndex : ℕ
  addr : ℕ
  deriving DecidableEq, Repr

/-- `VFS_FILE`. -/
def vfsFile : UInt32 := 0x01

/-- `VFS_DIR`. -/
def vfsDir : UInt32 := 0x02

/-- `sizeof(vfs_node_t)`. -/
def vfsNodeSize : ℕ := 152

/-- `vfs_dirent_t`. -/
structure VfsDirent where
  name : List UInt8
  inode : ℕ
  flags : UInt32
  deriving DecidableEq, Repr

/-- `fat16_root_node`. -/
def fat16RootNode : VfsNode where
  name := "fat16-root".toUTF8.toList
  flags := vfsDir
  size := 0
  inode := 0
  ops := .root
  dirLba := 0
  dirIndex := 0
  addr := 0

/-! The fields of the directory entry `e`. -/

def attributes (e : Bytes) : UInt8 := e 11

def firstCluster (e : Bytes) : ℕ := load16 e 26

def fileSize (e : Bytes) : ℕ := load32 e 28

/-- `FAT16_ATTR_VOLUME_ID`. -/
def isVolumeId (e : Bytes) : Bool := attributes e &&& 0x08 ≠ 0

/-- `FAT16_ATTR_DIRECTORY`. -/
def isDirectory (e : Bytes) : Bool := attributes e &&& 0x10 ≠ 0

/-- The loop over `n` links that `fat16_vfs_read` and `dir_sector_lba` share: `none`
when the chain ends before. -/
def skipClusters (b : Bpb) (d : Disk) : (n cluster : ℕ) → Option ℕ
  | 0, cluster => some cluster
  | n + 1, cluster =>
      if isCluster cluster then skipClusters b d n (fatEntry b d cluster) else none

/-- `dir_sector_lba` for a node with this inode. -/
def dirSectorLba (b : Bpb) (d : Disk) (inode n : ℕ) : ℕ :=
  if inode = 0 then
    if b.rootDirSectors ≤ n then 0 else b.rootDirLba + n
  else
    match skipClusters b d (n / b.spc) (inode % 65536) with
    | none => 0
    | some cluster => if isCluster cluster then b.clusterLba cluster + n % b.spc else 0

/-- What the body of the loops does with an entry: go on, or return. -/
inductive Visit (σ α : Type*) where
  | next (s : σ)
  | done (r : Option α)

/-- The inner loop, over `n` entries from entry `i` on. -/
def scanSector {σ α : Type*} (visit : ℕ → Bytes → σ → Visit σ α) (sector : Bytes) :
    (n i : ℕ) → σ → Visit σ α
  | 0, _, s => .next s
  | n + 1, i, s =>
      match visit i (fun x => sector (32 * i + x)) s with
      | .next s => scanSector visit sector n (i + 1) s
      | .done r => .done r

/-- The outer loop, from sector `n` on, a 32-bit number. The inner result is `none` for
a return of `NULL` or `-1`. -/
def scanDir {σ α : Type*} (b : Bpb) (d : Disk) (inode : ℕ)
    (visit : (lba : ℕ) → ℕ → Bytes → σ → Visit σ α) : (fuel n : ℕ) → σ → Option (Option α)
  | 0, _, _ => none
  | fuel + 1, n, s =>
      let lba := dirSectorLba b d inode n
      if lba = 0 then some none
      else
        match scanSector (visit lba) (readSector d lba) 16 0 s with
        | .next s => scanDir b d inode visit fuel ((n + 1) % 2 ^ 32) s
        | .done r => some r

/-- `skip_entry`. -/
def skipEntry (e : Bytes) : ℕ :=
  if e 0 = 0x00 then 2
  else if e 0 = 0xE5 then 1
  else if attributes e = 0x0F then 1
  else 0

/-- The loop body of `fat16_vfs_readdir`; the state is `valid`. -/
def readdirVisit (index : ℕ) (_lba _i : ℕ) (e : Bytes) (valid : ℕ) : Visit ℕ VfsDirent :=
  if skipEntry e = 2 then .done none
  else if skipEntry e = 1 then .next valid
  else if isVolumeId e then .next valid
  else if e 0 = 0x2E then .next valid
  else if valid = index then
    .done (some ⟨format83 e, firstCluster e, if isDirectory e then vfsDir else vfsFile⟩)
  else .next ((valid + 1) % 2 ^ 32)

/-- `fat16_vfs_readdir`. -/
def fat16VfsReaddir (fuel : ℕ) (node : VfsNode) (index : ℕ) (fs : Fs) :
    Option (Option VfsDirent) :=
  if fs.mounted then scanDir fs.bpb fs.disk node.inode (readdirVisit index) fuel 0 0
  else some none

/-- The loop body of `fat16_vfs_finddir` up to the entry that matches: the entry with
its sector and index. -/
def finddirVisit (name : List UInt8) (lba i : ℕ) (e : Bytes) (_ : Unit) :
    Visit Unit (Bytes × ℕ × ℕ) :=
  if skipEntry e = 2 then .done none
  else if skipEntry e = 1 then .next ()
  else if isVolumeId e then .next ()
  else if nameMatch e name then .done (some (e, lba, i))
  else .next ()

/-- The node that `fat16_vfs_finddir` fills in. -/
def nodeOf (e : Bytes) (lba i addr : ℕ) : VfsNode where
  name := format83 e
  flags := if isDirectory e then vfsDir else vfsFile
  size := if isDirectory e then 0 else fileSize e
  inode := firstCluster e
  ops := if isDirectory e then .dir else .file
  dirLba := lba
  dirIndex := i
  addr := addr

/-- `fat16_vfs_finddir`. -/
def fat16VfsFinddir (fuel : ℕ) (node : VfsNode) (name : List UInt8) (fs : Fs) :
    Option (Option VfsNode × Fs) :=
  if fs.mounted then
    (scanDir fs.bpb fs.disk node.inode (finddirVisit name) fuel 0 ()).bind fun
      | none => some (none, fs)
      | some (e, lba, i) =>
          (kmalloc fs.heapStart vfsNodeSize fs.heap).map fun (addr, heap) =>
            if addr = 0 then (none, { fs with heap := heap })
            else (some (nodeOf e lba i addr), { fs with heap := heap })
  else some (none, fs)

/-- `fat16_vfs_close`. -/
def fat16VfsClose (node : VfsNode) (fs : Fs) : Fs :=
  { fs with heap := kfree node.addr fs.heap }

/-- The search of `fat16_write_dir_entry`: the first slot whose entry is free. -/
def freeSlotVisit (lba i : ℕ) (e : Bytes) (_ : Unit) : Visit Unit (ℕ × ℕ) :=
  if e 0 = 0x00 ∨ e 0 = 0xE5 then .done (some (lba, i)) else .next ()

/-- The entry that `fat16_write_dir_entry` and, for the dot entries,
`fat16_vfs_create` fill in. -/
def newEntry (name83 ext83 : Bytes) (first size : ℕ) (attr : UInt8) : Bytes :=
  store32 (store16 (fun x =>
    if x < 8 then name83 x else if x < 11 then ext83 (x - 8) else if x = 11 then attr else 0)
    26 first) 28 size

/-- `fat16_write_dir_entry`: whether the entry was written. -/
def fat16WriteDirEntry (fuel : ℕ) (b : Bpb) (d : Disk) (inode : ℕ) (name : List UInt8)
    (first size : ℕ) (attr : UInt8) : Option (Bool × Disk) :=
  match formatName83 name with
  | none => some (false, d)
  | some (name83, ext83) =>
      (scanDir b d inode freeSlotVisit fuel 0 ()).map fun
        | none => (false, d)
        | some (lba, i) =>
            (true, writeSector d lba (copy (readSector d lba) (32 * i)
              (newEntry name83 ext83 first size attr) 0 32))

/-- The first sector of a new directory: the entries `.` and `..`. -/
def dotSector (cluster parent : ℕ) : Bytes :=
  let dot := newEntry (fun x => if x = 0 then 0x2E else 0x20) (fun _ => 0x20) cluster 0 0x10
  let dotdot := newEntry (fun x => if x < 2 then 0x2E else 0x20) (fun _ => 0x20)
    (parent % 65536) 0 0x10
  copy (copy (fun _ => 0) 0 dot 0 32) 32 dotdot 0 32

/-- The cluster of a new directory, zeroed and with its dot entries. -/
def initDirCluster (b : Bpb) (d : Disk) (cluster parent : ℕ) : Disk :=
  let lba := b.clusterLba cluster
  let d := (List.range b.spc).foldl (fun d s => writeSector d (lba + s) fun _ => 0) d
  writeSector d lba (dotSector cluster parent)

/-- `fat16_vfs_create`. -/
def fat16VfsCreate (fuel : ℕ) (node : VfsNode) (name : List UInt8) (flags : UInt32) (fs : Fs) :
    Option (Option VfsNode × Fs) :=
  if fs.mounted then
    if flags &&& vfsDir ≠ 0 then
      let (cluster, d) := fatAllocCluster fs.bpb fs.disk
      if cluster = 0 then some (none, { fs with disk := d })
      else
        let d := initDirCluster fs.bpb d cluster node.inode
        (fat16WriteDirEntry fuel fs.bpb d node.inode name cluster 0 0x10).bind fun
          | (true, d) => fat16VfsFinddir fuel node name { fs with disk := d }
          | (false, d) =>
              (fatFreeChain fs.bpb fuel cluster d).map fun d => (none, { fs with disk := d })
    else
      (fat16WriteDirEntry fuel fs.bpb fs.disk node.inode name 0 0 0x20).bind fun
        | (true, d) => fat16VfsFinddir fuel node name { fs with disk := d }
        | (false, d) => some (none, { fs with disk := d })
  else some (none, fs)

end Fat16

end Yotos
