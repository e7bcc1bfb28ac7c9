import Yotos.Fat16.Lookup
import Yotos.Fat16.Regions
import Yotos.Kheap.Safety
import Yotos.Library.Orbit

/-!
# Directory scans that end

`fat16_vfs_readdir`, `fat16_vfs_finddir` and `fat16_write_dir_entry` scan a directory
sector by sector until `dir_sector_lba` reports its end. Nothing in the driver bounds
the chain of a subdirectory, which comes from the disk: on a cyclic chain without an
end-of-directory mark the lookup of a name that is not there runs for ever. The walk
along a chain is `fatEntry` iterated, and by the pigeonhole principle it meets
everything it ever meets within the first 65536 clusters, so that the 32-bit sector
number does not get in the way.
-/

namespace Yotos

namespace Fat16

open Bytes Kheap Library

/-- Cluster `m` of the chain that starts at a directory's inode. -/
def chainCluster (b : Bpb) (d : Disk) (inode m : ℕ) : ℕ := (fatEntry b d)^[m] (inode % 65536)

/-- The directory comes to an end: it is the root, or its chain reaches a value that is
no cluster, a cluster on sector 0 (which stands for no sector), or a cluster with an
end-of-directory mark. -/
def DirStops (b : Bpb) (d : Disk) (inode : ℕ) : Prop :=
  inode = 0 ∨ ∃ m, isCluster (chainCluster b d inode m) = false ∨
    b.clusterLba (chainCluster b d inode m) = 0 ∨
    ∃ j < 16 * b.spc, d (clusterAddr b (chainCluster b d inode m) + 32 * j) = 0

/-- The three scans of a directory return, whatever they look for. -/
structure Terminates (fs : Fs) (node : VfsNode) : Prop where
  readdir : ∀ index, ∃ fuel, fat16VfsReaddir fuel node index fs ≠ none
  finddir : ∀ name, 0 ∉ name → ∃ fuel, fat16VfsFinddir fuel node name fs ≠ none
  writeDirEntry : ∀ name first size attr, ∃ fuel,
    fat16WriteDirEntry fuel fs.bpb fs.disk node.inode name first size attr ≠ none

variable {b : Bpb} {d : Disk} {dir c n m : ℕ}

theorem chainCluster_lt (b : Bpb) (d : Disk) (inode m : ℕ) :
    chainCluster b d inode m < 65536 := by
  unfold chainCluster
  cases m with
  | zero => exact Nat.mod_lt _ (by omega)
  | succ m =>
      rw [Function.iterate_succ_apply']
      exact load16_lt _ _

theorem skipClusters_eq_iterate {x : ℕ} (h : skipClusters b d n c = some x) :
    (fatEntry b d)^[n] c = x := by
  induction n generalizing c with
  | zero => exact Option.some.inj h
  | succ n ih =>
      rw [skipClusters] at h
      split_ifs at h
      exact ih h

theorem skipClusters_of_forall (h : ∀ i < n, isCluster ((fatEntry b d)^[i] c) = true) :
    skipClusters b d n c = some ((fatEntry b d)^[n] c) := by
  induction n generalizing c with
  | zero => rfl
  | succ n ih =>
      have hfirst : isCluster c = true := h 0 (by omega)
      rw [skipClusters, if_pos hfirst]
      exact ih fun i hi => h (i + 1) (by omega)

/-- A sector of a subdirectory is missing, or lies in the cluster that the chain has
reached. -/
theorem dirSectorLba_eq_chainCluster (hdir : dir ≠ 0) (n : ℕ) :
    dirSectorLba b d dir n = 0 ∨
      dirSectorLba b d dir n = b.clusterLba (chainCluster b d dir (n / b.spc)) + n % b.spc := by
  rw [dirSectorLba, if_neg hdir]
  cases hskip : skipClusters b d (n / b.spc) (dir % 65536) with
  | none => exact Or.inl rfl
  | some x =>
      obtain rfl := skipClusters_eq_iterate hskip
      dsimp only
      split_ifs
      · exact Or.inr rfl
      · exact Or.inl rfl

/-- There is no sector in what is no cluster. -/
theorem dirSectorLba_of_not_isCluster (hdir : dir ≠ 0)
    (h : isCluster (chainCluster b d dir (n / b.spc)) = false) : dirSectorLba b d dir n = 0 := by
  rw [dirSectorLba, if_neg hdir]
  cases hskip : skipClusters b d (n / b.spc) (dir % 65536) with
  | none => rfl
  | some x =>
      obtain rfl := skipClusters_eq_iterate hskip
      dsimp only
      rw [if_neg]
      exact Bool.eq_false_iff.1 h

/-! ## A directory that stops -/

/-- A sector number where every scan stops. -/
def StopSector (b : Bpb) (d : Disk) (dir n : ℕ) : Prop :=
  dirSectorLba b d dir n = 0 ∨ ∃ i < 16, d (512 * dirSectorLba b d dir n + 32 * i) = 0

theorem DirStops.exists_stopSector (hspc : 1 ≤ b.spc) (h : DirStops b d dir) :
    ∃ n < 2 ^ 32, StopSector b d dir n := by
  by_cases hdir : dir = 0
  · subst hdir
    refine ⟨b.rootDirSectors, ?_, Or.inl (by rw [dirSectorLba_root, if_pos le_rfl])⟩
    have hcount := b.rootEntryCount.toNat_lt
    unfold Bpb.rootDirSectors
    omega
  · obtain ⟨m, hm⟩ := h.resolve_left hdir
    obtain ⟨i, hi, heq⟩ := exists_iterate_lt (chainCluster_lt b d dir) m
    have hmul := Nat.mul_le_mul (show i ≤ 65535 by omega) (Nat.le_of_lt_succ b.spc_lt)
    have hcluster : chainCluster b d dir i = chainCluster b d dir m := heq
    rw [← hcluster] at hm
    have hdiv : i * b.spc / b.spc = i := Nat.mul_div_cancel i hspc
    have hlba := dirSectorLba_eq_chainCluster (b := b) (d := d) hdir (i * b.spc)
    rw [hdiv, Nat.mul_mod_left, Nat.add_zero] at hlba
    rcases hm with hm | hm | ⟨j, hj, hzero⟩
    · exact ⟨i * b.spc, by omega, Or.inl (dirSectorLba_of_not_isCluster hdir (hdiv.symm ▸ hm))⟩
    · exact ⟨i * b.spc, by omega, Or.inl (hlba.elim id fun h => h.trans hm)⟩
    · have hlt : j / 16 < b.spc := by omega
      have hquot : (i * b.spc + j / 16) / b.spc = i := by
        rw [Nat.mul_comm, Nat.mul_add_div hspc, Nat.div_eq_of_lt hlt, Nat.add_zero]
      have hrem : (i * b.spc + j / 16) % b.spc = j / 16 := by
        rw [Nat.mul_comm, Nat.mul_add_mod, Nat.mod_eq_of_lt hlt]
      have hspc' := b.spc_lt
      refine ⟨i * b.spc + j / 16, by omega, ?_⟩
      rcases dirSectorLba_eq_chainCluster (b := b) (d := d) hdir (i * b.spc + j / 16) with
        hend | hsector
      · exact Or.inl hend
      · rw [hquot, hrem] at hsector
        refine Or.inr ⟨j % 16, Nat.mod_lt _ (by omega), ?_⟩
        rw [hsector, ← hzero, clusterAddr]
        refine congrArg d ?_
        omega

/-- A loop body that returns at an end-of-directory mark lets the scan return. -/
theorem scanDir_of_stopSector {σ α : Type*} {visit : (lba : ℕ) → ℕ → Bytes → σ → Visit σ α}
    (hspc : 1 ≤ b.spc) (hn : n < 2 ^ 32) (hstop : StopSector b d dir n)
    (hvisit : ∀ lba i e s, e 0 = 0 → ∃ r, visit lba i e s = .done r) (s : σ) :
    ∃ r, scanDir b d dir visit (n + 1) 0 s = some r := by
  refine scanDir_isSome hspc (by omega) ?_ s
  rw [Nat.zero_add]
  rcases hstop with hend | ⟨i, hi, hzero⟩
  · exact Or.inl hend
  · refine Or.inr ⟨i, hi, fun s => hvisit _ _ _ s ?_⟩
    rw [entryAt, slotAddr, show (16 * n + i) / 16 = n by omega,
      show (16 * n + i) % 16 = i by omega, Nat.add_zero]
    exact hzero

theorem readdirVisit_done (index lba i : ℕ) (e : Bytes) (valid : ℕ) (h : e 0 = 0) :
    ∃ r, readdirVisit index lba i e valid = .done r :=
  ⟨none, if_pos (skipEntry_eq_two.2 h)⟩

theorem finddirVisit_done (name : List UInt8) (lba i : ℕ) (e : Bytes) (u : Unit) (h : e 0 = 0) :
    ∃ r, finddirVisit name lba i e u = .done r :=
  ⟨none, if_pos (skipEntry_eq_two.2 h)⟩

theorem freeSlotVisit_done (lba i : ℕ) (e : Bytes) (u : Unit) (h : e 0 = 0) :
    ∃ r, freeSlotVisit lba i e u = .done r :=
  ⟨some (lba, i), if_pos (Or.inl h)⟩

/-- `kmalloc` returns on a heap that holds blocks. -/
theorem kmalloc_isSome {m : Bytes} {start : ℕ} {bs : List Block} (hp : Placed start)
    (h : Represents m start bs) (n : ℕ) : ∃ r, kmalloc start n m = some r := by
  rcases kmalloc_spec n hp h with ⟨-, heq⟩ | ⟨_, _, _, _, -, -, -, heq, -⟩
  · exact ⟨_, heq⟩
  · exact ⟨_, heq⟩

theorem terminates_of_dirStops {fs : Fs} {node : VfsNode} {bs : List Block}
    (hmounted : fs.mounted = true) (hspc : 1 ≤ fs.bpb.spc) (hp : Placed fs.heapStart)
    (hheap : Represents fs.heap fs.heapStart bs) (h : DirStops fs.bpb fs.disk node.inode) :
    Terminates fs node := by
  obtain ⟨n, hn, hstop⟩ := h.exists_stopSector hspc
  constructor
  case readdir =>
    intro index
    obtain ⟨r, hr⟩ := scanDir_of_stopSector hspc hn hstop (readdirVisit_done index) 0
    exact ⟨n + 1, by rw [fat16VfsReaddir, if_pos hmounted, hr]; simp⟩
  case finddir =>
    intro name _
    obtain ⟨r, hr⟩ := scanDir_of_stopSector hspc hn hstop (finddirVisit_done name) ()
    refine ⟨n + 1, ?_⟩
    rw [fat16VfsFinddir, if_pos hmounted, hr, Option.bind_some]
    rcases r with _ | ⟨e, lba, i⟩
    · simp
    · obtain ⟨a, ha⟩ := kmalloc_isSome hp hheap vfsNodeSize
      dsimp only
      rw [ha]
      simp
  case writeDirEntry =>
    intro name first size attr
    obtain ⟨r, hr⟩ := scanDir_of_stopSector hspc hn hstop freeSlotVisit_done ()
    refine ⟨n + 1, ?_⟩
    rw [fat16WriteDirEntry]
    cases formatName83 name with
    | none => simp
    | some p =>
        dsimp only
        rw [hr]
        simp

/-! ## A directory that does not -/

/-- Every sector number of an endless directory names a sector of its chain. -/
theorem dirSectorLba_of_not_dirStops (h : ¬ DirStops b d dir) (n : ℕ) :
    dirSectorLba b d dir n = b.clusterLba (chainCluster b d dir (n / b.spc)) + n % b.spc ∧
      dirSectorLba b d dir n ≠ 0 := by
  simp only [DirStops, not_or, not_exists, Bool.not_eq_false, not_and] at h
  obtain ⟨hdir, hchain⟩ := h
  have hskip : skipClusters b d (n / b.spc) (dir % 65536) =
      some (chainCluster b d dir (n / b.spc)) :=
    skipClusters_of_forall fun i _ => (hchain i).1
  have heq : dirSectorLba b d dir n =
      b.clusterLba (chainCluster b d dir (n / b.spc)) + n % b.spc := by
    rw [dirSectorLba, if_neg hdir, hskip]
    exact if_pos (hchain _).1
  have hpos := (hchain (n / b.spc)).2.1
  exact ⟨heq, by omega⟩

theorem entryAt_of_not_dirStops (hspc : 1 ≤ b.spc) (h : ¬ DirStops b d dir) (k : ℕ) :
    entryAt d (slotAddr b d dir k) 0 ≠ 0 := by
  have hsector := (dirSectorLba_of_not_dirStops h (k / 16)).1
  simp only [DirStops, not_or, not_exists, Bool.not_eq_false, not_and] at h
  have hmod := Nat.mod_lt (k / 16) hspc
  have hne := (h.2 (k / 16 / b.spc)).2.2 (16 * (k / 16 % b.spc) + k % 16) (by omega)
  rw [entryAt, slotAddr, hsector]
  rw [clusterAddr] at hne
  refine fun hzero => hne (hzero.symm.trans (congrArg d ?_)).symm
  omega

/-- A name too long for any entry. -/
def longName : List UInt8 := List.replicate 13 0x41

theorem nameMatch_longName (e : Bytes) : nameMatch e longName = false := by
  rw [Bool.eq_false_iff, Ne, nameMatch_iff (by decide)]
  intro heq
  have hlen := congrArg List.length heq
  have hle := format83_length_le e
  rw [List.length_map, show (longName.map toUpper).length = 13 by decide] at hlen
  omega

/-- The lookup of a long name never returns. -/
theorem finddir_eq_none_of_not_dirStops {fs : Fs} {node : VfsNode} (hmounted : fs.mounted = true)
    (hspc : 1 ≤ fs.bpb.spc) (h : ¬ DirStops fs.bpb fs.disk node.inode) (fuel : ℕ) :
    fat16VfsFinddir fuel node longName fs = none := by
  have hscan : scanDir fs.bpb fs.disk node.inode (finddirVisit longName) fuel 0 () = none := by
    refine scanDir_eq_none hspc (fun n => (dirSectorLba_of_not_dirStops h n).2) ?_ fuel 0 ()
    refine fun k _ => ⟨(), ?_⟩
    rw [slotVisit, finddirVisit_eq, if_neg (entryAt_of_not_dirStops hspc h k), if_neg]
    rintro ⟨-, hmatch⟩
    rw [nameMatch_longName] at hmatch
    exact Bool.noConfusion hmatch
  rw [fat16VfsFinddir, if_pos hmounted, hscan, Option.bind_none]

/-- On every mounted image with `sectors_per_cluster >= 1`, the scans of a directory
return for every index and every name exactly when the directory comes to an end. -/
theorem terminates_iff_dirStops (fs : Fs) (node : VfsNode) (bs : List Block)
    (hmounted : fs.mounted = true) (hspc : 1 ≤ fs.bpb.spc) (hp : Placed fs.heapStart)
    (hheap : Represents fs.heap fs.heapStart bs) :
    Terminates fs node ↔ DirStops fs.bpb fs.disk node.inode := by
  refine ⟨fun h => ?_, terminates_of_dirStops hmounted hspc hp hheap⟩
  by_contra hnot
  obtain ⟨fuel, hfuel⟩ := h.finddir longName (by decide)
  exact hfuel (finddir_eq_none_of_not_dirStops hmounted hspc hnot fuel)

theorem placed_mountedFs (d : Disk) : Placed (mountedFs d).heapStart := by
  have hp : Placed 0x111000 := ⟨by decide, by decide⟩
  exact hp

theorem represents_mountedFs (d : Disk) :
    Represents (mountedFs d).heap (mountedFs d).heapStart [⟨kheapFixedSize - headerSize, true⟩] :=
  represents_kheapInit (placed_mountedFs d) _

/-- The small volume with a directory `D` whose cluster 2 is linked to itself and holds
deleted entries only. -/
def loopDisk : Disk := fun a =>
  if a = 516 then 2
  else if a = 1024 then 0x44 else if 1024 < a ∧ a < 1035 then 0x20 else if a = 1035 then 0x10
  else if a = 1050 then 2
  else if 1536 ≤ a ∧ a < 2048 then 0xE5
  else smallBoot a

def loopNode : VfsNode := nodeOf (entryAt loopDisk 1024) 2 0 0

/-- The same volume, but cluster 2 is the last one of the directory. -/
def endingDisk : Disk := fun a => if a = 516 ∨ a = 517 then 0xFF else loopDisk a

/-- The directory `D` is scanned to the end of its chain, though no entry marks an end. -/
theorem terminates_endingDisk :
    Terminates (mountedFs endingDisk) (nodeOf (entryAt endingDisk 1024) 2 0 0) := by
  have hinode : (nodeOf (entryAt endingDisk 1024) 2 0 0).inode = 2 := by decide +kernel
  have hend : isCluster (chainCluster (mountedFs endingDisk).bpb endingDisk 2 1) = false := by
    decide +kernel
  refine (terminates_iff_dirStops _ _ _ rfl (by decide +kernel) (placed_mountedFs _)
    (represents_mountedFs _)).2 ?_
  rw [hinode]
  exact Or.inr ⟨1, Or.inl hend⟩

theorem chainCluster_loopDisk (m : ℕ) : chainCluster (Bpb.ofSector loopDisk) loopDisk 2 m = 2 := by
  have hnext : fatEntry (Bpb.ofSector loopDisk) loopDisk 2 = 2 := by decide
  exact Function.iterate_fixed hnext m

theorem not_dirStops_loopDisk : ¬ DirStops (Bpb.ofSector loopDisk) loopDisk 2 := by
  rintro (hzero | ⟨m, hm⟩)
  · omega
  · rw [chainCluster_loopDisk] at hm
    rcases hm with hm | hm | ⟨j, hj, hzero⟩
    · exact absurd hm (by decide)
    · exact absurd hm (by decide)
    · revert j
      decide

theorem isDir_loopDisk : IsDir (Bpb.ofSector loopDisk) loopDisk 2 := by
  have hslot : HasSlot (Bpb.ofSector loopDisk) loopDisk 0 0 := by
    unfold HasSlot
    decide
  have haddr : slotAddr (Bpb.ofSector loopDisk) loopDisk 0 0 = 1024 := by decide
  have hlive : LiveSlot (Bpb.ofSector loopDisk) loopDisk 0 0 := by
    refine ⟨hslot, fun j hj => absurd hj (Nat.not_lt_zero j), ?_⟩
    rw [haddr]
    decide
  have hchild := IsDir.child IsDir.root hlive
  rw [haddr, show firstCluster (entryAt loopDisk 1024) = 2 by decide] at hchild
  exact hchild (by decide) (by decide)

/-- The image is accepted and the directory is reached from the root, and looking a name
up in it does not return. -/
theorem not_terminates_loopDisk :
    fat16Init (unmounted loopDisk) = (0, mountedFs loopDisk) ∧ (mountedFs loopDisk).bpb.spc = 1 ∧
      IsDir (mountedFs loopDisk).bpb loopDisk loopNode.inode ∧
      ¬ Terminates (mountedFs loopDisk) loopNode := by
  have hinode : loopNode.inode = 2 := by decide
  have hspc : (mountedFs loopDisk).bpb.spc = 1 := by decide
  refine ⟨fat16Init_unmounted (by decide) (by decide) (by decide), hspc, ?_, fun h => ?_⟩
  · rw [hinode]
    exact isDir_loopDisk
  · obtain ⟨fuel, hfuel⟩ := h.finddir longName (by decide)
    have hstops : ¬ DirStops (mountedFs loopDisk).bpb (mountedFs loopDisk).disk loopNode.inode := by
      rw [hinode]
      exact not_dirStops_loopDisk
    exact hfuel (finddir_eq_none_of_not_dirStops rfl hspc.ge hstops fuel)

end Fat16

end Yotos
