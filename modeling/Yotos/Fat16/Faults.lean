import Yotos.Library.Traced
import Yotos.Fat16.CreateRun

/-!
# A drive whose reads fail

`ata_read_sector` leaves a zeroed buffer when the drive reports an error, and tells its
callers nothing. Here `faults` says which of the reads of a call fail, and the functions of
`fs/fat16.c` that take part in `fat16_vfs_create` and `fat16_vfs_write` are those of the
other modules with every read made through it. Writes succeed.

The log of a call holds the disk after every sector write, and where a buffer from a failed
read is used for more than its own bytes: a sector that is written back though its other
bytes are not the disk's, and a cluster taken because its table entry was not read. The
callers cannot see `failed`; it goes into the log only. Without faults the functions are
those of the other modules.
-/

namespace Yotos

namespace Fat16

open Bytes Kheap Library

namespace Faulty

/-- The drive, and how many sectors were read so far. -/
structure Drive where
  disk : Disk
  reads : ℕ

/-- What a call logs. -/
inductive Event
  /-- A sector was written, and the disk is `d` now. -/
  | wrote (d : Disk)
  /-- The read before sector `lba` was written back with `n` new bytes from `x` on failed. -/
  | blind (lba x n : ℕ)
  /-- The cluster was taken for free after a failed read of its entry. -/
  | offer (cluster : ℕ)
  /-- The directory slot at byte address `a` is filled or updated next. -/
  | fill (a : ℕ)

abbrev Run (α : Type*) := Traced Drive Event α

/-- A buffer that was read, and whether the read failed. -/
structure Sector where
  bytes : Bytes
  failed : Bool

variable (faults : ℕ → Bool)

/-- `ata_read_sector`. -/
def ataReadSector (lba : ℕ) (s : Drive) : Run Sector :=
  .ret ⟨if faults s.reads then fun _ => 0 else readSector s.disk lba, faults s.reads⟩
    { s with reads := s.reads + 1 }

/-- `ata_write_sector`. -/
def ataWriteSector (lba : ℕ) (buf : Bytes) (s : Drive) : Run Unit :=
  .note [.wrote (writeSector s.disk lba buf)] () { s with disk := writeSector s.disk lba buf }

/-- A sector that was read is written with `n` new bytes from `x` on. -/
def writeBack (lba x n : ℕ) (failed : Bool) (buf : Bytes) (s : Drive) : Run Unit :=
  (ataWriteSector lba buf s).bind (.note (if failed then [.blind lba x n] else []))

/-- One copy of the table in `fat_set_entry`. -/
def setEntryIn (sector within value : ℕ) (s : Drive) : Run Unit :=
  (ataReadSector faults sector s).bind fun r =>
    writeBack sector within 2 r.failed (store16 r.bytes within value)

/-- `fat_entry`. -/
def fatEntry (b : Bpb) (cluster : ℕ) (s : Drive) : Run ℕ :=
  let byteOff := 2 * cluster
  (ataReadSector faults (b.fatLba + byteOff / 512) s).bind fun r =>
    .ret (load16 r.bytes (byteOff % 512))

/-- `fat_set_entry`. -/
def fatSetEntry (b : Bpb) (cluster value : ℕ) (s : Drive) : Run Unit :=
  let byteOff := 2 * cluster
  (setEntryIn faults (b.fatLba + byteOff / 512) (byteOff % 512) value s).bind fun _ s =>
    if 1 < b.fatCount.toNat then
      setEntryIn faults (b.fatLba + b.fatSize + byteOff / 512) (byteOff % 512) value s
    else .ret () s

/-- The inner loop of `fat_alloc_cluster`, over the entries in sector `i` of the table. -/
def searchSector (buf : Bytes) (i : ℕ) : Option ℕ :=
  (List.range 256).findSome? fun j =>
    let cluster := 256 * i + j
    if cluster < 2 then none
    else if load16 buf (2 * j) = 0 then some cluster
    else none

/-- The two loops of `fat_alloc_cluster`, over `n` sectors of the table from sector `i` on. -/
def findFreeCluster (b : Bpb) : (n i : ℕ) → Drive → Run (Option ℕ)
  | 0, _, s => .ret none s
  | n + 1, i, s =>
      (ataReadSector faults (b.fatLba + i) s).bind fun r s =>
        match searchSector r.bytes i with
        | some cluster =>
            .note (if r.failed then [.offer (cluster % 65536)] else []) (some cluster) s
        | none => findFreeCluster b n (i + 1) s

/-- `fat_alloc_cluster`. -/
def fatAllocCluster (b : Bpb) (s : Drive) : Run ℕ :=
  (findFreeCluster faults b b.fatSize 0 s).bind fun found s =>
    match found with
    | some cluster =>
        (fatSetEntry faults b (cluster % 65536) 0xFFFF s).bind fun _ => .ret (cluster % 65536)
    | none => .ret 0 s

/-- `fat_free_chain`. -/
def fatFreeChain (b : Bpb) : (fuel cluster : ℕ) → Drive → Run Unit
  | 0, cluster, s => .lift (if isCluster cluster then none else some ()) s
  | fuel + 1, cluster, s =>
      if isCluster cluster then
        (fatEntry faults b cluster s).bind fun next s =>
          (fatSetEntry faults b cluster 0 s).bind fun _ => fatFreeChain b fuel next
      else .ret () s

/-- `n` sectors from `lba` on into the buffer. -/
def readSectors (lba : ℕ) : (n : ℕ) → Bytes → Drive → Run Bytes
  | 0, buf, s => .ret buf s
  | n + 1, buf, s =>
      (readSectors lba n buf s).bind fun buf s =>
        (ataReadSector faults (lba + n) s).bind fun r => .ret (copy buf (512 * n) r.bytes 0 512)

/-- `read_cluster`. -/
def readCluster (b : Bpb) (cluster : ℕ) (buf : Bytes) (s : Drive) : Run Bytes :=
  readSectors faults (b.clusterLba cluster) b.spc buf s

/-- `n` sectors of the buffer to `lba`. -/
def writeSectors (lba : ℕ) (buf : Bytes) : (n : ℕ) → Drive → Run Unit
  | 0, s => .ret () s
  | n + 1, s =>
      (writeSectors lba buf n s).bind fun _ => ataWriteSector (lba + n) fun x => buf (512 * n + x)

/-- The walk of `fat16_vfs_write` to a cluster of the chain, which is extended where it
ends. -/
def extendWalk (b : Bpb) : (n cluster : ℕ) → Drive → Run (Bool × ℕ)
  | 0, cluster, s => .ret (true, cluster) s
  | n + 1, cluster, s =>
      (fatEntry faults b cluster s).bind fun next s =>
        if isCluster next then extendWalk b n next s
        else
          (fatAllocCluster faults b s).bind fun nc s =>
            if nc = 0 then .ret (false, cluster) s
            else (fatSetEntry faults b cluster nc s).bind fun _ => extendWalk b n nc

/-- The loop of `fat16_vfs_write`. -/
def writeLoop (b : Bpb) (inode offset size : ℕ) (buf : Bytes) :
    (fuel bytesWritten : ℕ) → (cbuf : Bytes) → Drive → Run ℕ
  | 0, bytesWritten, _, s => .lift (if bytesWritten < size then none else some bytesWritten) s
  | fuel + 1, bytesWritten, cbuf, s =>
      if bytesWritten < size then
        let curOff := (offset + bytesWritten) % 2 ^ 32
        let innerOff := curOff % b.clusterBytes
        (extendWalk faults b (curOff / b.clusterBytes) (inode % 65536) s).bind fun walk s =>
          if walk.1 then
            (readCluster faults b walk.2 cbuf s).bind fun cbuf s =>
              let n := min (size - bytesWritten) (b.clusterBytes - innerOff)
              let cbuf := copy cbuf innerOff buf bytesWritten n
              (writeSectors (b.clusterLba walk.2) cbuf b.spc s).bind fun _ =>
                writeLoop b inode offset size buf fuel (bytesWritten + n) cbuf
          else .ret bytesWritten s
      else .ret bytesWritten s

/-- The last step of `fat16_vfs_write`. -/
def updateEntry (node : VfsNode) (s : Drive) : Run Unit :=
  (ataReadSector faults node.dirLba s).bind fun r s =>
    let dsec := store16 r.bytes (32 * node.dirIndex + 26) node.inode
    let dsec := store32 dsec (32 * node.dirIndex + 28) node.size
    (Traced.note [.fill (512 * node.dirLba + 32 * node.dirIndex)] () s).bind fun _ =>
      writeBack node.dirLba (32 * node.dirIndex) 32 r.failed dsec

/-- `fat16_vfs_write`. -/
def fat16VfsWrite (node : VfsNode) (offset size : ℕ) (buf : Bytes) (fs : Fs) (s : Drive) :
    Run (ℤ × VfsNode × Fs) :=
  if fs.mounted = false ∨ size = 0 then .ret (0, node, { fs with disk := s.disk }) s
  else
    (if node.inode % 65536 < 2 then fatAllocCluster faults fs.bpb s
      else .ret node.inode s).bind fun inode s =>
    if inode = 0 then .ret (-1, node, { fs with disk := s.disk }) s
    else
      let node := { node with inode := inode }
      (Traced.lift (kmalloc fs.heapStart fs.bpb.clusterBytes fs.heap) s).bind fun p s =>
        if p.1 = 0 then .ret (-1, node, { fs with disk := s.disk, heap := p.2 }) s
        else
          (writeLoop faults fs.bpb node.inode offset size buf size 0 (fun x => p.2 (p.1 + x))
            s).bind fun bytesWritten s =>
          let newSize := (offset + bytesWritten) % 2 ^ 32
          let node := { node with size := max node.size newSize }
          (updateEntry faults node s).bind fun _ s =>
            .ret (toInt bytesWritten, node, { fs with disk := s.disk, heap := kfree p.1 p.2 }) s

/-- The loop over `n` links in `dir_sector_lba`. -/
def skipClusters (b : Bpb) : (n cluster : ℕ) → Drive → Run (Option ℕ)
  | 0, cluster, s => .ret (some cluster) s
  | n + 1, cluster, s =>
      if isCluster cluster then (fatEntry faults b cluster s).bind fun next => skipClusters b n next
      else .ret none s

/-- `dir_sector_lba`. -/
def dirSectorLba (b : Bpb) (inode n : ℕ) (s : Drive) : Run ℕ :=
  if inode = 0 then .ret (if b.rootDirSectors ≤ n then 0 else b.rootDirLba + n) s
  else
    (skipClusters faults b (n / b.spc) (inode % 65536) s).bind fun cluster =>
      .ret <| match cluster with
        | none => 0
        | some cluster => if isCluster cluster then b.clusterLba cluster + n % b.spc else 0

/-- The loops over a directory, which return the buffer that the entry is in as well. -/
def scanDir {α : Type*} (b : Bpb) (inode : ℕ) (visit : (lba : ℕ) → ℕ → Bytes → Unit → Visit Unit α) :
    (fuel n : ℕ) → Drive → Run (Option (α × Sector))
  | 0, _, s => .lift none s
  | fuel + 1, n, s =>
      (dirSectorLba faults b inode n s).bind fun lba s =>
        if lba = 0 then .ret none s
        else
          (ataReadSector faults lba s).bind fun r s =>
            match scanSector (visit lba) r.bytes 16 0 () with
            | .next _ => scanDir b inode visit fuel ((n + 1) % 2 ^ 32) s
            | .done a => .ret (a.map fun a => (a, r)) s

/-- `fat16_write_dir_entry`. -/
def fat16WriteDirEntry (fuel : ℕ) (b : Bpb) (inode : ℕ) (name : List UInt8) (first size : ℕ)
    (attr : UInt8) (s : Drive) : Run Bool :=
  match formatName83 name with
  | none => .ret false s
  | some p =>
      (scanDir faults b inode freeSlotVisit fuel 0 s).bind fun slot s =>
        match slot with
        | none => .ret false s
        | some ((lba, i), r) =>
            let sector := copy r.bytes (32 * i) (newEntry p.1 p.2 first size attr) 0 32
            (Traced.note [.fill (512 * lba + 32 * i)] () s).bind fun _ s =>
              (writeBack lba (32 * i) 32 r.failed sector s).bind fun _ => .ret true

/-- `fat16_vfs_finddir`. -/
def fat16VfsFinddir (fuel : ℕ) (node : VfsNode) (name : List UInt8) (fs : Fs) (s : Drive) :
    Run (Option VfsNode × Fs) :=
  if fs.mounted then
    (scanDir faults fs.bpb node.inode (finddirVisit name) fuel 0 s).bind fun found s =>
      match found with
      | none => .ret (none, { fs with disk := s.disk }) s
      | some ((e, lba, i), _) =>
          (Traced.lift (kmalloc fs.heapStart vfsNodeSize fs.heap) s).bind fun p s =>
            .ret (if p.1 = 0 then none else some (nodeOf e lba i p.1),
              { fs with disk := s.disk, heap := p.2 }) s
  else .ret (none, { fs with disk := s.disk }) s

/-- The cluster of a new directory, zeroed and with its dot entries. -/
def initDirCluster (b : Bpb) (cluster parent : ℕ) (s : Drive) : Run Unit :=
  (writeSectors (b.clusterLba cluster) (fun _ => 0) b.spc s).bind fun _ =>
    ataWriteSector (b.clusterLba cluster) (dotSector cluster parent)

/-- `fat16_vfs_create`. -/
def fat16VfsCreate (fuel : ℕ) (node : VfsNode) (name : List UInt8) (flags : UInt32) (fs : Fs)
    (s : Drive) : Run (Option VfsNode × Fs) :=
  if fs.mounted then
    if flags &&& vfsDir ≠ 0 then
      (fatAllocCluster faults fs.bpb s).bind fun cluster s =>
        if cluster = 0 then .ret (none, { fs with disk := s.disk }) s
        else
          (initDirCluster fs.bpb cluster node.inode s).bind fun _ s =>
            (fat16WriteDirEntry faults fuel fs.bpb node.inode name cluster 0 0x10 s).bind fun ok s =>
              if ok then fat16VfsFinddir faults fuel node name fs s
              else
                (fatFreeChain faults fs.bpb fuel cluster s).bind fun _ s =>
                  .ret (none, { fs with disk := s.disk }) s
    else
      (fat16WriteDirEntry faults fuel fs.bpb node.inode name 0 0 0x20 s).bind fun ok s =>
        if ok then fat16VfsFinddir faults fuel node name fs s
        else .ret (none, { fs with disk := s.disk }) s
  else .ret (none, { fs with disk := s.disk }) s

/-- What the buffer of a read holds. -/
theorem ataReadSector_bind {α : Type*} (lba : ℕ) (s : Drive) (f : Sector → Drive → Run α) :
    (ataReadSector faults lba s).bind f =
      f ⟨if faults s.reads then fun _ => 0 else readSector s.disk lba, faults s.reads⟩
        { s with reads := s.reads + 1 } := rfl

/-! ## Without faults -/

section NoFaults

variable {α β : Type*} {r : Run α} {f : α → Drive → Run β} {a : α} {d : Disk}
  {o : Option (β × Disk)}

/-- No read fails. -/
def noFaults (_ : ℕ) : Bool := false

/-- The result and the disk at the end, without the log. -/
def outcome (r : Run α) : Option (α × Disk) := r.value.map fun a => (a, r.state.disk)

theorem outcome_ret (a : α) (s : Drive) : outcome (.ret a s) = some (a, s.disk) := rfl

theorem outcome_note_bind (es : List Event) (a : α) (s : Drive) :
    outcome ((Traced.note es a s).bind f) = outcome (f a s) := rfl

theorem outcome_bind (hr : outcome r = some (a, d))
    (hf : ∀ s, s.disk = d → outcome (f a s) = o) : outcome (r.bind f) = o := by
  obtain ⟨a', hvalue, heq⟩ := Option.map_eq_some_iff.1 hr
  obtain ⟨rfl, hdisk⟩ := Prod.mk.inj heq
  rw [Traced.bind_of_some hvalue]
  exact hf r.state hdisk

theorem outcome_bind_of_none (hr : outcome r = none) : outcome (r.bind f) = none := by
  rw [Traced.bind_of_none (Option.map_eq_none_iff.1 hr)]
  rfl

theorem outcome_fatEntry (b : Bpb) (cluster : ℕ) (s : Drive) :
    outcome (fatEntry noFaults b cluster s) = some (Fat16.fatEntry b s.disk cluster, s.disk) := rfl

theorem outcome_fatSetEntry (b : Bpb) (cluster value : ℕ) (s : Drive) :
    outcome (fatSetEntry noFaults b cluster value s) =
      some ((), Fat16.fatSetEntry b s.disk cluster value) := by
  by_cases hcount : 1 < b.fatCount.toNat
  · simp only [fatSetEntry, Fat16.fatSetEntry, hcount, if_true]
    rfl
  · simp only [fatSetEntry, Fat16.fatSetEntry, hcount, if_false]
    rfl

theorem outcome_searchSectors (b : Bpb) (n i : ℕ) (s : Drive) :
    outcome (findFreeCluster noFaults b n i s) =
      some ((List.range' i n).findSome? fun k =>
        searchSector (readSector s.disk (b.fatLba + k)) k, s.disk) := by
  induction n generalizing i s with
  | zero => rfl
  | succ n ih =>
      rw [findFreeCluster, List.range'_succ, List.findSome?_cons, ataReadSector, Traced.ret_bind]
      simp only [noFaults, Bool.false_eq_true, if_false]
      cases searchSector (readSector s.disk (b.fatLba + i)) i with
      | none => exact ih (i + 1) _
      | some cluster => rfl

theorem outcome_findFreeCluster (b : Bpb) (s : Drive) :
    outcome (findFreeCluster noFaults b b.fatSize 0 s) =
      some (Fat16.findFreeCluster b s.disk, s.disk) := by
  rw [outcome_searchSectors, ← List.range_eq_range']
  rfl

theorem outcome_fatAllocCluster (b : Bpb) (s : Drive) :
    outcome (fatAllocCluster noFaults b s) = some (Fat16.fatAllocCluster b s.disk) := by
  refine outcome_bind (outcome_findFreeCluster b s) fun s₁ h₁ => ?_
  rw [Fat16.fatAllocCluster]
  cases Fat16.findFreeCluster b s.disk with
  | none => rw [outcome_ret, h₁]
  | some cluster =>
      refine outcome_bind (outcome_fatSetEntry b (cluster % 65536) 0xFFFF s₁) fun s₂ h₂ => ?_
      rw [outcome_ret, h₂, h₁]

theorem outcome_fatFreeChain (b : Bpb) (fuel cluster : ℕ) (s : Drive) :
    outcome (fatFreeChain noFaults b fuel cluster s) =
      (Fat16.fatFreeChain b fuel cluster s.disk).map fun d => ((), d) := by
  induction fuel generalizing cluster s with
  | zero =>
      rw [fatFreeChain, Fat16.fatFreeChain]
      split_ifs <;> rfl
  | succ fuel ih =>
      rw [fatFreeChain, Fat16.fatFreeChain]
      split_ifs
      · refine outcome_bind (outcome_fatEntry b cluster s) fun s₁ h₁ => ?_
        refine outcome_bind (outcome_fatSetEntry b cluster 0 s₁) fun s₂ h₂ => ?_
        rw [ih, h₂, h₁]
      · rfl

theorem outcome_readSectors (lba n : ℕ) (buf : Bytes) (s : Drive) :
    outcome (readSectors noFaults lba n buf s) =
      some ((List.range n).foldl
        (fun buf i => copy buf (512 * i) (readSector s.disk (lba + i)) 0 512) buf, s.disk) := by
  induction n with
  | zero => rfl
  | succ n ih =>
      refine outcome_bind ih fun s' hs => ?_
      rw [List.range_succ, List.foldl_append, ← hs]
      rfl

theorem outcome_readCluster (b : Bpb) (cluster : ℕ) (buf : Bytes) (s : Drive) :
    outcome (readCluster noFaults b cluster buf s) =
      some (Fat16.readCluster b s.disk cluster buf, s.disk) :=
  outcome_readSectors (b.clusterLba cluster) b.spc buf s

theorem outcome_writeSectors (lba : ℕ) (buf : Bytes) (n : ℕ) (s : Drive) :
    outcome (writeSectors lba buf n s) =
      some ((), (List.range n).foldl
        (fun d i => writeSector d (lba + i) fun x => buf (512 * i + x)) s.disk) := by
  induction n with
  | zero => rfl
  | succ n ih =>
      refine outcome_bind ih fun s' hs => ?_
      rw [List.range_succ, List.foldl_append, ← hs]
      rfl

theorem outcome_extendWalk (b : Bpb) (n cluster : ℕ) (s : Drive) :
    outcome (extendWalk noFaults b n cluster s) =
      some (((Fat16.extendWalk b n cluster s.disk).1, (Fat16.extendWalk b n cluster s.disk).2.1),
        (Fat16.extendWalk b n cluster s.disk).2.2) := by
  induction n generalizing cluster s with
  | zero => rfl
  | succ n ih =>
      rw [Fat16.extendWalk]
      refine outcome_bind (outcome_fatEntry b cluster s) fun s₁ h₁ => ?_
      by_cases hnext : isCluster (Fat16.fatEntry b s.disk cluster) = true
      · simp only [hnext, if_true]
        rw [ih, h₁]
      simp only [hnext, Bool.false_eq_true, if_false]
      have halloc := outcome_fatAllocCluster b s₁
      rw [h₁] at halloc
      generalize Fat16.fatAllocCluster b s.disk = p at halloc ⊢
      obtain ⟨nc, d⟩ := p
      refine outcome_bind halloc fun s₂ h₂ => ?_
      by_cases hfull : nc = 0
      · simp only [hfull, if_true]
        rw [outcome_ret, h₂]
      · simp only [hfull, if_false]
        refine outcome_bind (outcome_fatSetEntry b cluster nc s₂) fun s₃ h₃ => ?_
        rw [ih, h₃, h₂]

theorem outcome_writeLoop (b : Bpb) (inode offset size : ℕ) (buf : Bytes)
    (fuel bytesWritten : ℕ) (cbuf : Bytes) (s : Drive) :
    outcome (writeLoop noFaults b inode offset size buf fuel bytesWritten cbuf s) =
      Fat16.writeLoop b inode offset size buf fuel bytesWritten cbuf s.disk := by
  induction fuel generalizing bytesWritten cbuf s with
  | zero =>
      rw [writeLoop, Fat16.writeLoop]
      split_ifs <;> rfl
  | succ fuel ih =>
      rw [writeLoop, Fat16.writeLoop]
      split_ifs
      swap
      · rfl
      have hwalk := outcome_extendWalk b ((offset + bytesWritten) % 2 ^ 32 / b.clusterBytes)
        (inode % 65536) s
      dsimp only
      generalize Fat16.extendWalk b ((offset + bytesWritten) % 2 ^ 32 / b.clusterBytes)
        (inode % 65536) s.disk = walk at hwalk ⊢
      obtain ⟨ok, cluster, d⟩ := walk
      refine outcome_bind hwalk fun s₁ h₁ => ?_
      obtain rfl : s₁.disk = d := h₁
      cases ok with
      | false => rfl
      | true =>
          simp only [if_true]
          refine outcome_bind (outcome_readCluster b cluster cbuf s₁) fun s₂ h₂ => ?_
          refine outcome_bind (outcome_writeSectors _ _ b.spc s₂) fun s₃ h₃ => ?_
          rw [ih, h₃, h₂]
          rfl

theorem outcome_updateEntry (node : VfsNode) (s : Drive) :
    outcome (updateEntry noFaults node s) = some ((), Fat16.updateEntry s.disk node) := rfl

/-- Without faults the call is the one of the other modules. -/
theorem outcome_fat16VfsWrite (node : VfsNode) (offset size : ℕ) (buf : Bytes) (fs : Fs)
    (n : ℕ) : outcome (fat16VfsWrite noFaults node offset size buf fs ⟨fs.disk, n⟩) =
      (Fat16.fat16VfsWrite node offset size buf fs).map fun r => (r, r.2.2.disk) := by
  rw [fat16VfsWrite, Fat16.fat16VfsWrite]
  by_cases hguard : fs.mounted = false ∨ size = 0
  · rw [if_pos hguard, if_pos hguard]
    rfl
  rw [if_neg hguard, if_neg hguard]
  -- the first cluster
  have hfirst : outcome (if node.inode % 65536 < 2 then
        fatAllocCluster noFaults fs.bpb ⟨fs.disk, n⟩ else .ret node.inode ⟨fs.disk, n⟩) =
      some (if node.inode % 65536 < 2 then Fat16.fatAllocCluster fs.bpb fs.disk
        else (node.inode, fs.disk)) := by
    split_ifs
    · exact outcome_fatAllocCluster fs.bpb ⟨fs.disk, n⟩
    · rfl
  generalize (if node.inode % 65536 < 2 then Fat16.fatAllocCluster fs.bpb fs.disk
    else (node.inode, fs.disk)) = p at hfirst ⊢
  obtain ⟨inode, d⟩ := p
  refine outcome_bind hfirst fun s₁ h₁ => ?_
  obtain rfl : s₁.disk = d := h₁
  dsimp only
  by_cases hinode : inode = 0
  · simp only [hinode, if_true]
    rfl
  simp only [hinode, if_false]
  cases kmalloc fs.heapStart fs.bpb.clusterBytes fs.heap with
  | none => rfl
  | some p =>
      obtain ⟨cbuf, heap⟩ := p
      rw [Traced.lift_some_bind, Option.bind_some]
      by_cases hcbuf : cbuf = 0
      · simp only [hcbuf, if_true]
        rfl
      simp only [hcbuf, if_false]
      have hloop := outcome_writeLoop fs.bpb inode offset size buf size 0
        (fun x => heap (cbuf + x)) s₁
      cases hwrite : Fat16.writeLoop fs.bpb inode offset size buf size 0
          (fun x => heap (cbuf + x)) s₁.disk with
      | none => exact outcome_bind_of_none (hloop.trans hwrite)
      | some p =>
          refine outcome_bind (hloop.trans hwrite) fun s₂ h₂ => ?_
          refine outcome_bind (outcome_updateEntry _ s₂) fun s₃ h₃ => ?_
          rw [outcome_ret, h₃, h₂]
          rfl

theorem outcome_skipClusters (b : Bpb) (n cluster : ℕ) (s : Drive) :
    outcome (skipClusters noFaults b n cluster s) =
      some (Fat16.skipClusters b s.disk n cluster, s.disk) := by
  induction n generalizing cluster s with
  | zero => rfl
  | succ n ih =>
      rw [skipClusters, Fat16.skipClusters]
      split_ifs
      · refine outcome_bind (outcome_fatEntry b cluster s) fun s₁ h₁ => ?_
        rw [ih, h₁]
      · rfl

theorem outcome_dirSectorLba (b : Bpb) (inode n : ℕ) (s : Drive) :
    outcome (dirSectorLba noFaults b inode n s) =
      some (Fat16.dirSectorLba b s.disk inode n, s.disk) := by
  rw [dirSectorLba, Fat16.dirSectorLba]
  split_ifs
  · rfl
  · rfl
  · refine outcome_bind (outcome_skipClusters b _ _ s) fun s₁ h₁ => ?_
    rw [outcome_ret]
    exact congrArg (fun disk => some (_, disk)) h₁

/-- For a body whose results name the sector, the buffer is that sector's. -/
theorem outcome_scanDir (b : Bpb) (inode : ℕ) {visit : (lba : ℕ) → ℕ → Bytes → Unit → Visit Unit α}
    (lbaOf : α → ℕ) (hvisit : ∀ lba i e a, visit lba i e () = .done (some a) → lbaOf a = lba)
    (fuel n : ℕ) (s : Drive) : outcome (scanDir noFaults b inode visit fuel n s) =
      (Fat16.scanDir b s.disk inode visit fuel n ()).map fun r =>
        (r.map fun a => (a, ⟨readSector s.disk (lbaOf a), false⟩), s.disk) := by
  induction fuel generalizing n s with
  | zero => rfl
  | succ fuel ih =>
      rw [scanDir, Fat16.scanDir]
      refine outcome_bind (outcome_dirSectorLba b inode n s) fun s₁ h₁ => ?_
      split_ifs with hend
      · rw [outcome_ret, h₁]
        rfl
      rw [ataReadSector, Traced.ret_bind, h₁]
      simp only [noFaults, Bool.false_eq_true, if_false]
      cases hsector : scanSector (visit (Fat16.dirSectorLba b s.disk inode n))
          (readSector s.disk (Fat16.dirSectorLba b s.disk inode n)) 16 0 () with
      | next _ => exact ih _ _
      | done a =>
          cases a with
          | none => rfl
          | some a =>
              obtain ⟨i, _, -, -, hdone⟩ := scanSector_returned hsector
              simp [outcome, Traced.ret, Traced.lift, hvisit _ _ _ _ hdone]

theorem outcome_fat16WriteDirEntry (fuel : ℕ) (b : Bpb) (inode : ℕ) (name : List UInt8)
    (first size : ℕ) (attr : UInt8) (s : Drive) :
    outcome (fat16WriteDirEntry noFaults fuel b inode name first size attr s) =
      Fat16.fat16WriteDirEntry fuel b s.disk inode name first size attr := by
  rw [fat16WriteDirEntry, Fat16.fat16WriteDirEntry]
  cases formatName83 name with
  | none => rfl
  | some p =>
      obtain ⟨name83, ext83⟩ := p
      have hvisit : ∀ lba i e a, freeSlotVisit lba i e () = .done (some a) → a.1 = lba := by
        intro lba i e a ha
        rw [freeSlotVisit_eq] at ha
        split_ifs at ha
        obtain rfl := Option.some.inj (Visit.done.inj ha)
        rfl
      have hscan := outcome_scanDir b inode Prod.fst hvisit fuel 0 s
      cases hslot : Fat16.scanDir b s.disk inode freeSlotVisit fuel 0 () with
      | none =>
          rw [hslot] at hscan
          exact outcome_bind_of_none hscan
      | some slot =>
          rw [hslot] at hscan
          refine outcome_bind hscan fun s₁ h₁ => ?_
          rcases slot with _ | ⟨lba, i⟩
          · rw [Option.map_none, outcome_ret, h₁]
            rfl
          · rw [Option.map_some, ← h₁]
            rfl

theorem outcome_fat16VfsFinddir (fuel : ℕ) (node : VfsNode) (name : List UInt8) (fs : Fs)
    (s : Drive) : outcome (fat16VfsFinddir noFaults fuel node name fs s) =
      (Fat16.fat16VfsFinddir fuel node name { fs with disk := s.disk }).map fun r => (r, s.disk) := by
  rw [fat16VfsFinddir, Fat16.fat16VfsFinddir]
  split_ifs
  swap
  · rfl
  have hvisit : ∀ lba i e a, finddirVisit name lba i e () = .done (some a) → a.2.1 = lba := by
    intro lba i e a ha
    rw [finddirVisit_eq] at ha
    split_ifs at ha
    · cases ha
    · obtain rfl := Option.some.inj (Visit.done.inj ha)
      rfl
  have hscan := outcome_scanDir fs.bpb node.inode (fun a : Bytes × ℕ × ℕ => a.2.1) hvisit fuel 0 s
  cases hfound : Fat16.scanDir fs.bpb s.disk node.inode (finddirVisit name) fuel 0 () with
  | none =>
      rw [hfound] at hscan
      exact outcome_bind_of_none hscan
  | some found =>
      rw [hfound] at hscan
      refine outcome_bind hscan fun s₁ h₁ => ?_
      rcases found with _ | ⟨e, lba, i⟩
      · rw [Option.map_none, outcome_ret, h₁]
        rfl
      · rw [Option.map_some, Option.bind_some]
        cases kmalloc fs.heapStart vfsNodeSize fs.heap with
        | none => rfl
        | some p =>
            obtain ⟨addr, heap⟩ := p
            by_cases haddr : addr = 0 <;> simp [outcome_ret, haddr, h₁]

theorem outcome_initDirCluster (b : Bpb) (cluster parent : ℕ) (s : Drive) :
    outcome (initDirCluster b cluster parent s) =
      some ((), Fat16.initDirCluster b s.disk cluster parent) := by
  refine outcome_bind (outcome_writeSectors _ _ b.spc s) fun s₁ h₁ => ?_
  rw [Fat16.initDirCluster, ← h₁]
  rfl

/-- Without faults the call is the one of the other modules. -/
theorem outcome_fat16VfsCreate (fuel : ℕ) (node : VfsNode) (name : List UInt8) (flags : UInt32)
    (fs : Fs) (n : ℕ) : outcome (fat16VfsCreate noFaults fuel node name flags fs ⟨fs.disk, n⟩) =
      (Fat16.fat16VfsCreate fuel node name flags fs).map fun r => (r, r.2.disk) := by
  -- the lookup at the end
  have hlookup (s : Drive) : outcome (fat16VfsFinddir noFaults fuel node name fs s) =
      (Fat16.fat16VfsFinddir fuel node name { fs with disk := s.disk }).map
        fun r => (r, r.2.disk) := by
    rw [outcome_fat16VfsFinddir]
    refine Option.map_congr fun r hr => ?_
    rw [(fat16VfsFinddir_disk hr).1]
  rw [fat16VfsCreate, Fat16.fat16VfsCreate]
  split_ifs with hmounted hdir
  · have halloc := outcome_fatAllocCluster fs.bpb ⟨fs.disk, n⟩
    dsimp only at halloc ⊢
    generalize Fat16.fatAllocCluster fs.bpb fs.disk = p at halloc ⊢
    obtain ⟨cluster, d⟩ := p
    refine outcome_bind halloc fun s₁ h₁ => ?_
    obtain rfl : s₁.disk = d := h₁
    dsimp only
    split_ifs with hfull
    · rfl
    refine outcome_bind (outcome_initDirCluster fs.bpb cluster node.inode s₁) fun s₂ h₂ => ?_
    rw [← h₂]
    have hwrite := outcome_fat16WriteDirEntry fuel fs.bpb node.inode name cluster 0 0x10 s₂
    cases hentry : Fat16.fat16WriteDirEntry fuel fs.bpb s₂.disk node.inode name cluster 0 0x10 with
    | none => exact outcome_bind_of_none (hwrite.trans hentry)
    | some p =>
        obtain ⟨ok, d⟩ := p
        refine outcome_bind (hwrite.trans hentry) fun s₃ h₃ => ?_
        obtain rfl : s₃.disk = d := h₃
        cases ok with
        | true => exact hlookup s₃
        | false =>
            have hfree := outcome_fatFreeChain fs.bpb fuel cluster s₃
            cases hchain : Fat16.fatFreeChain fs.bpb fuel cluster s₃.disk with
            | none =>
                rw [hchain] at hfree
                simp only [Bool.false_eq_true, if_false, Option.bind_some, hchain, Option.map_none]
                exact outcome_bind_of_none hfree
            | some d =>
                rw [hchain] at hfree
                simp only [Bool.false_eq_true, if_false, Option.bind_some, hchain, Option.map_some]
                refine outcome_bind hfree fun s₄ h₄ => ?_
                rw [outcome_ret, h₄]
  · have hwrite := outcome_fat16WriteDirEntry fuel fs.bpb node.inode name 0 0 0x20 ⟨fs.disk, n⟩
    cases hentry : Fat16.fat16WriteDirEntry fuel fs.bpb fs.disk node.inode name 0 0 0x20 with
    | none => exact outcome_bind_of_none (hwrite.trans hentry)
    | some p =>
        obtain ⟨ok, d⟩ := p
        refine outcome_bind (hwrite.trans hentry) fun s₃ h₃ => ?_
        obtain rfl : s₃.disk = d := h₃
        cases ok with
        | true => exact hlookup s₃
        | false => rfl
  · rfl

end NoFaults

end Faulty

end Fat16

end Yotos
