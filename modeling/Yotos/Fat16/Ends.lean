import Yotos.Fat16.Listing
import Yotos.Fat16.Walk
import Yotos.Kheap.Holding
import Yotos.Library.Lifetime

/-!
# Lookups in directories that end

`fat16_vfs_finddir` on a directory whose chain ends, whatever else is on the volume. It
returns, and it returns a node for the entry that the name stands for, if there is one
and the heap has room for the node. `fat16VfsFinddirLog` is what it does with nodes.
-/

namespace Yotos

namespace Fat16

open Bytes Kheap Library

variable {b : Bpb} {d : Disk} {dir n m k fuel : ℕ} {name : List UInt8}

/-- Every directory that names lead to from the root ends. -/
def DirsEnd (b : Bpb) (d : Disk) : Prop :=
  ∀ names q, Walk b d 0 names q → ∃ n, dirSectorLba b d q n = 0

/-! ## The end of a directory -/

theorem isCluster_of_skipClusters {c x : ℕ} (h : skipClusters b d n c = some x) :
    ∀ i < n, isCluster ((fatEntry b d)^[i] c) = true := by
  induction n generalizing c with
  | zero => exact fun i hi => absurd hi (Nat.not_lt_zero i)
  | succ n ih =>
      rw [skipClusters] at h
      split_ifs at h with hc
      intro i hi
      cases i with
      | zero => exact hc
      | succ i => exact ih h i (by omega)

theorem Layout.dataLba_pos (hb : Layout b) : 0 < b.dataLba := by
  have hmul := Nat.mul_le_mul hb.fatCount_pos hb.fatSize_pos
  unfold Bpb.dataLba Bpb.rootDirLba
  omega

/-- A subdirectory has the sectors of the clusters before its chain stops. -/
theorem dirSectorLba_ne_zero_iff (hb : Layout b) (hdir : dir ≠ 0) :
    dirSectorLba b d dir n ≠ 0 ↔ ∀ i ≤ n / b.spc, isCluster (chainCluster b d dir i) = true := by
  constructor
  · intro h
    rw [dirSectorLba, if_neg hdir] at h
    cases hskip : skipClusters b d (n / b.spc) (dir % 65536) with
    | none => simp [hskip] at h
    | some x =>
        rw [hskip] at h
        dsimp only at h
        have heq := skipClusters_eq_iterate hskip
        intro i hi
        rcases Nat.eq_or_lt_of_le hi with rfl | hlt
        · rw [chainCluster, heq]
          by_contra hno
          exact h (if_neg hno)
        · exact isCluster_of_skipClusters hskip i hlt
  · intro h
    have hskip : skipClusters b d (n / b.spc) (dir % 65536) =
        some (chainCluster b d dir (n / b.spc)) :=
      skipClusters_of_forall fun i hi => h i hi.le
    have hlast := h _ le_rfl
    rw [dirSectorLba, if_neg hdir, hskip]
    simp only [hlast, if_true]
    have hpos := hb.dataLba_pos
    obtain ⟨htwo, hlt⟩ := isCluster_iff.1 hlast
    rw [b.clusterLba_of_two_le htwo (chainCluster_lt b d dir _)]
    omega

/-- Past its end a directory has no sectors. -/
theorem dirSectorLba_eq_zero_of_le (hb : Layout b) (hnm : n ≤ m) (h : dirSectorLba b d dir n = 0) :
    dirSectorLba b d dir m = 0 := by
  by_cases hdir : dir = 0
  · subst hdir
    have hmul := Nat.mul_le_mul hb.fatCount_pos hb.fatSize_pos
    rw [dirSectorLba_root] at h ⊢
    split_ifs at h with hend
    · rw [if_pos (hend.trans hnm)]
    · unfold Bpb.rootDirLba at h
      omega
  · by_contra hne
    have hall := (dirSectorLba_ne_zero_iff hb hdir).1 hne
    exact (dirSectorLba_ne_zero_iff hb hdir).2
      (fun i hi => hall i (hi.trans (Nat.div_le_div_right hnm))) h

/-! ## The scan -/

/-- A scan for a name of a directory that ends: it finds nothing, or the entry. -/
theorem finddir_scan_cases (hb : Layout b) (hends : ∃ n, dirSectorLba b d dir n = 0)
    {r : Option (Bytes × ℕ × ℕ)} (h : scanDir b d dir (finddirVisit name) fuel 0 () = some r) :
    (r = none ∧ ∀ k, ¬ Found b d dir name k) ∨ ∃ k, Found b d dir name k ∧
      r = some (entryAt d (slotAddr b d dir k), dirSectorLba b d dir (k / 16), k % 16) := by
  obtain ⟨e, he, hend, -⟩ := exists_first_end hb.spc_pos hends
  -- a slot where the loop goes on is not the end of the directory, and no entry of the name
  have hskip {j : ℕ} (hnext : slotVisit b d dir (finddirVisit name) j () = .next ()) :
      d (slotAddr b d dir j) ≠ 0 ∧ ¬ (Visible (entryAt d (slotAddr b d dir j)) ∧
        nameMatch (entryAt d (slotAddr b d dir j)) name = true) := by
    rw [slotVisit, finddirVisit_eq] at hnext
    split_ifs at hnext with hzero hmatch
    exact ⟨hzero, hmatch⟩
  rcases scanDir_result hb.spc_pos (Nat.zero_le e) (by omega) hend h with
    ⟨k, -, hsectors, hdone, hbefore⟩ | ⟨rfl, e', -, hend', -, hbefore⟩
  · rw [slotVisit, finddirVisit_eq] at hdone
    split_ifs at hdone with hzero hmatch
    · obtain rfl := Visit.done.inj hdone
      refine Or.inl ⟨rfl, fun j hj => ?_⟩
      rcases Nat.lt_trichotomy j k with hlt | rfl | hgt
      · exact (hskip (hbefore j (Nat.zero_le _) hlt)).2 ⟨hj.live.visible, hj.named⟩
      · exact hj.live.visible.first_ne_zero hzero
      · exact hj.live.before k hgt hzero
    · obtain rfl := Visit.done.inj hdone
      refine Or.inr ⟨k, ⟨⟨hsectors _ (Nat.zero_le _) le_rfl, fun j hj => ?_, hmatch.1⟩, hmatch.2,
        fun j hj hlive => ?_⟩, rfl⟩
      · exact (hskip (hbefore j (Nat.zero_le _) hj)).1
      · rw [Bool.eq_false_iff]
        exact fun hnamed => (hskip (hbefore j (Nat.zero_le _) hj)).2 ⟨hlive.visible, hnamed⟩
  · refine Or.inl ⟨rfl, fun j hj => ?_⟩
    rcases Nat.lt_or_ge j (16 * e') with hlt | hge
    · exact (hskip (hbefore j (Nat.zero_le _) hlt)).2 ⟨hj.live.visible, hj.named⟩
    · exact hj.live.has (dirSectorLba_eq_zero_of_le hb (by omega) hend')

/-! ## The lookup -/

/-- The node of slot `k` of a directory. -/
def slotNode (b : Bpb) (d : Disk) (dir k addr : ℕ) : VfsNode :=
  nodeOf (entryAt d (slotAddr b d dir k)) (dirSectorLba b d dir (k / 16)) (k % 16) addr

/-- What `fat16_vfs_finddir` does with nodes. -/
def fat16VfsFinddirLog (fuel : ℕ) (node : VfsNode) (name : List UInt8) (fs : Fs) :
    List (Event ℕ) :=
  if fs.mounted then
    match scanDir fs.bpb fs.disk node.inode (finddirVisit name) fuel 0 () with
    | some (some _) =>
        match kmalloc fs.heapStart vfsNodeSize fs.heap with
        | some (addr, _) => if addr = 0 then [.refuse] else [.make addr]
        | none => []
    | _ => []
  else []

/-- How a lookup in a directory that ends returns: there is no entry, or no room for its
node, or the node is a new one. -/
inductive FinddirOutcome (fs : Fs) (dir : ℕ) (name : List UInt8) (L : Set (ℕ × Block)) :
    Option VfsNode → Fs → List (Event ℕ) → Prop
  | absent (h : ∀ k, ¬ Found fs.bpb fs.disk dir name k) : FinddirOutcome fs dir name L none fs []
  | refused {k : ℕ} (h : Found fs.bpb fs.disk dir name k)
      (hnull : kmalloc fs.heapStart vfsNodeSize fs.heap = some (0, fs.heap)) :
      FinddirOutcome fs dir name L none fs [.refuse]
  | found {k addr : ℕ} {heap : Bytes} {blk : Block} (h : Found fs.bpb fs.disk dir name k)
      (hne : addr ≠ 0) (hsize : blk.size ≤ vfsNodeSize + 16) (hfresh : ∀ c, (addr, c) ∉ L)
      (hheap : Holding heap fs.heapStart (insert (addr, blk) L)) :
      FinddirOutcome fs dir name L (some (slotNode fs.bpb fs.disk dir k addr))
        { fs with heap := heap } [.make addr]

theorem fat16VfsFinddir_outcome {fs fs' : Fs} {node : VfsNode} {r : Option VfsNode}
    {L : Set (ℕ × Block)} (hb : Layout fs.bpb) (hmounted : fs.mounted = true)
    (hp : Placed fs.heapStart) (hheap : Holding fs.heap fs.heapStart L)
    (hends : ∃ n, dirSectorLba fs.bpb fs.disk node.inode n = 0)
    (h : fat16VfsFinddir fuel node name fs = some (r, fs')) :
    FinddirOutcome fs node.inode name L r fs' (fat16VfsFinddirLog fuel node name fs) := by
  rw [fat16VfsFinddir, if_pos hmounted] at h
  rw [fat16VfsFinddirLog, if_pos hmounted]
  obtain ⟨s, hscan, h⟩ := Option.bind_eq_some_iff.1 h
  rw [hscan]
  rcases finddir_scan_cases hb hends hscan with ⟨rfl, habsent⟩ | ⟨k, hfound, rfl⟩
  · simp only [Option.some.injEq, Prod.mk.injEq] at h
    obtain ⟨rfl, rfl⟩ := h
    exact .absent habsent
  · rcases hheap.kmalloc hp vfsNodeSize with hnull | ⟨p, heap, blk, hmalloc, hne, -, hsize,
        hfresh, hheap'⟩
    · simp only [hnull, Option.map_some, if_true, Option.some.injEq, Prod.mk.injEq] at h
      obtain ⟨rfl, rfl⟩ := h
      simp only [hnull, if_true]
      exact .refused hfound hnull
    · simp only [hmalloc, Option.map_some, hne, if_false, Option.some.injEq, Prod.mk.injEq] at h
      obtain ⟨rfl, rfl⟩ := h
      simp only [hmalloc, hne, if_false]
      exact .found hfound hne hsize hfresh hheap'

/-- The lookup returns. -/
theorem fat16VfsFinddir_isSome {fs : Fs} {node : VfsNode} {L : Set (ℕ × Block)}
    (hspc : 1 ≤ fs.bpb.spc) (hp : Placed fs.heapStart)
    (hheap : Holding fs.heap fs.heapStart L)
    (hends : ∃ n, dirSectorLba fs.bpb fs.disk node.inode n = 0) (hfuel : 2 ^ 28 < fuel)
    (name : List UInt8) : ∃ r, fat16VfsFinddir fuel node name fs = some r := by
  rw [fat16VfsFinddir]
  split_ifs
  · obtain ⟨e, he, hend, hbefore⟩ := exists_first_end hspc hends
    rw [scanDir_eq_scanSlots hspc (by omega) hend hbefore (Nat.zero_add e) (by omega),
      Option.bind_some]
    rcases Visit.result _ with _ | ⟨x, lba, i⟩
    · exact ⟨_, rfl⟩
    · dsimp only
      rcases hheap.kmalloc hp vfsNodeSize with hnull | ⟨p, heap, blk, hmalloc, -⟩
      · exact ⟨_, by rw [hnull, Option.map_some]⟩
      · exact ⟨_, by rw [hmalloc, Option.map_some]⟩
  · exact ⟨_, rfl⟩

/-! ## A volume with a directory -/

section Small

variable {q : ℕ}

/-- A volume of the size of the small one. The root has the directory `D` on cluster 2,
which holds its dot entries and behind them the empty file `AB`. -/
def dirVolume : Disk := fun a =>
  if a < 512 then smallBoot a
  else if a < 1024 then 0xFF
  else if a < 1056 then
    newEntry (fun x => if x = 0 then 0x44 else 0x20) (fun _ => 0x20) 2 0 0x10 (a - 1024)
  else if a < 1536 then 0
  else if a < 1600 then dotSector 2 0 (a - 1536)
  else if a < 1632 then
    newEntry (fun x => if x = 0 then 0x41 else if x = 1 then 0x42 else 0x20) (fun _ => 0x20)
      0 0 0x20 (a - 1600)
  else 0

theorem mountedFs_dirVolume : (mountedFs dirVolume).bpb = smallBpb := by
  simp [mountedFs, Bpb.ofSector, load16, load32, dirVolume]

/-- The directory is one sector. -/
theorem dirSectorLba_dirVolume (n : ℕ) :
    dirSectorLba smallBpb dirVolume 2 n = if n = 0 then 3 else 0 := by
  rcases Nat.eq_zero_or_pos n with rfl | hpos
  · decide
  · rw [if_neg (by omega)]
    by_contra hne
    have hcluster := (dirSectorLba_ne_zero_iff layout_small (by omega)).1 hne 1
      (by rw [show smallBpb.spc = 1 by decide, Nat.div_one]; exact hpos)
    exact absurd hcluster (by decide)

theorem slotAddr_dirVolume (hk : k < 16) : slotAddr smallBpb dirVolume 2 k = 1536 + 32 * k := by
  rw [slotAddr, dirSectorLba_dirVolume, if_pos (by omega)]
  omega

theorem hasSlot_dirVolume : HasSlot smallBpb dirVolume 2 k ↔ k < 16 := by
  rw [HasSlot, dirSectorLba_dirVolume]
  split_ifs
  · exact iff_of_true (by omega) (by omega)
  · exact iff_of_false (by omega) (by omega)

theorem liveSlot_root_dirVolume : LiveSlot smallBpb dirVolume 0 k ↔ k = 0 := by
  constructor
  · intro h
    by_contra hk
    have hlt := hasSlot_small.1 h.has
    have hfirst := h.visible.first_ne_zero
    rw [slotAddr_small hlt] at hfirst
    refine hfirst ?_
    simp only [entryAt, dirVolume]
    repeat rw [if_neg (by omega)]
    rw [if_pos (by omega)]
  · rintro rfl
    exact ⟨hasSlot_small.2 (by omega), fun j hj => absurd hj (Nat.not_lt_zero j), by
      rw [slotAddr_small (by omega)]; decide +kernel, by
      rw [slotAddr_small (by omega)]; decide +kernel⟩

theorem dirVolume_zero {x : ℕ} (h : 1056 ≤ x ∧ x < 1536 ∨ 1632 ≤ x) : dirVolume x = 0 := by
  simp only [dirVolume]
  split_ifs <;> first | omega | rfl

theorem liveSlot_dirVolume : LiveSlot smallBpb dirVolume 2 k ↔ k < 3 := by
  constructor
  · intro h
    by_contra hk
    have hlt := hasSlot_dirVolume.1 h.has
    have hfirst := h.visible.first_ne_zero
    rw [slotAddr_dirVolume hlt] at hfirst
    exact hfirst (dirVolume_zero (by omega))
  · intro hk
    have haddr : ∀ j < 3, slotAddr smallBpb dirVolume 2 j = 1536 + 32 * j :=
      fun j hj => slotAddr_dirVolume (by omega)
    have hentry : ∀ j < 3, dirVolume (1536 + 32 * j) ≠ 0 ∧
        skipEntry (entryAt dirVolume (1536 + 32 * j)) = 0 ∧
        isVolumeId (entryAt dirVolume (1536 + 32 * j)) = false := by decide +kernel
    refine ⟨hasSlot_dirVolume.2 (by omega), fun j hj => ?_, ?_⟩
    · rw [haddr j (by omega)]
      exact (hentry j (by omega)).1
    · rw [haddr k hk]
      exact (hentry k hk).2

/-- The directory entries of the volume: `D`, and the dot entries of `D`. -/
theorem subdirs_dirVolume (hq : q = 0 ∨ q = 2) (hlive : LiveSlot smallBpb dirVolume q k)
    (hisDir : isDirectory (entryAt dirVolume (slotAddr smallBpb dirVolume q k)) = true) :
    (q = 0 ∧ k = 0) ∨ (q = 2 ∧ k < 2) := by
  rcases hq with rfl | rfl
  · exact Or.inl ⟨rfl, liveSlot_root_dirVolume.1 hlive⟩
  · refine Or.inr ⟨rfl, ?_⟩
    by_contra hk
    have hlt := liveSlot_dirVolume.1 hlive
    obtain rfl : k = 2 := by omega
    rw [slotAddr_dirVolume (by omega)] at hisDir
    exact absurd hisDir (by decide +kernel)

theorem entry_root_dirVolume :
    isDot (entryAt dirVolume (slotAddr smallBpb dirVolume 0 0)) = false ∧
      isDirectory (entryAt dirVolume (slotAddr smallBpb dirVolume 0 0)) = true ∧
      firstCluster (entryAt dirVolume (slotAddr smallBpb dirVolume 0 0)) = 2 := by
  rw [slotAddr_small (by omega)]
  decide +kernel

theorem entry_dirVolume (hk : k < 2) :
    isDot (entryAt dirVolume (slotAddr smallBpb dirVolume 2 k)) = true ∧
      isDirectory (entryAt dirVolume (slotAddr smallBpb dirVolume 2 k)) = true ∧
      format83 (entryAt dirVolume (slotAddr smallBpb dirVolume 2 k)) = List.replicate (k + 1) 0x2E ∧
      firstCluster (entryAt dirVolume (slotAddr smallBpb dirVolume 2 k)) = if k = 0 then 2 else 0 := by
  rw [slotAddr_dirVolume (by omega)]
  have hentry : ∀ j < 2, isDot (entryAt dirVolume (1536 + 32 * j)) = true ∧
      isDirectory (entryAt dirVolume (1536 + 32 * j)) = true ∧
      format83 (entryAt dirVolume (1536 + 32 * j)) = List.replicate (j + 1) 0x2E ∧
      firstCluster (entryAt dirVolume (1536 + 32 * j)) = if j = 0 then 2 else 0 := by
    decide +kernel
  exact hentry k hk

theorem walk_dirVolume {p : ℕ} {names : List (List UInt8)}
    (h : Walk smallBpb dirVolume p names q) (hp : p = 0 ∨ p = 2) : q = 0 ∨ q = 2 := by
  induction h with
  | nil => exact hp
  | cons hfound hisDir _ ih =>
      apply ih
      rcases subdirs_dirVolume hp hfound.live hisDir with ⟨rfl, rfl⟩ | ⟨rfl, hk⟩
      · exact Or.inr entry_root_dirVolume.2.2
      · rw [(entry_dirVolume hk).2.2.2]
        split_ifs
        · exact Or.inr rfl
        · exact Or.inl rfl

theorem dirsEnd_dirVolume : DirsEnd smallBpb dirVolume := by
  intro names q hwalk
  rcases walk_dirVolume hwalk (Or.inl rfl) with rfl | rfl
  · exact ⟨1, by rw [dirSectorLba_small, if_neg (by omega)]⟩
  · exact ⟨1, by rw [dirSectorLba_dirVolume, if_neg (by omega)]⟩

theorem isDir_dirVolume (h : IsDir smallBpb dirVolume q) : q = 0 ∨ q = 2 := by
  induction h with
  | root => exact Or.inl rfl
  | child _ hlive hisDir _ ih =>
      rcases subdirs_dirVolume ih hlive hisDir with ⟨rfl, rfl⟩ | ⟨rfl, hk⟩
      · exact Or.inr entry_root_dirVolume.2.2
      · rw [(entry_dirVolume hk).2.2.2]
        split_ifs
        · exact Or.inr rfl
        · exact Or.inl rfl

/-- `D` is below the root. -/
theorem found_root_dirVolume : Found smallBpb dirVolume 0 [0x44] 0 :=
  ⟨liveSlot_root_dirVolume.2 rfl, by rw [slotAddr_small (by omega)]; decide +kernel,
    fun j hj => absurd hj (Nat.not_lt_zero j)⟩

theorem found_dirVolume {name : List UInt8} (hk : k < 3)
    (hname : ∀ j ≤ k, nameMatch (entryAt dirVolume (1536 + 32 * j)) name = decide (j = k)) :
    Found smallBpb dirVolume 2 name k := by
  refine ⟨liveSlot_dirVolume.2 hk, ?_, fun j hj _ => ?_⟩
  · rw [slotAddr_dirVolume (by omega), hname k le_rfl]
    exact decide_eq_true rfl
  · rw [slotAddr_dirVolume (by omega), hname j hj.le]
    exact decide_eq_false hj.ne

theorem walk_root_dirVolume : Walk smallBpb dirVolume 0 [[0x44]] 2 :=
  walk_singleton.2 ⟨0, found_root_dirVolume, entry_root_dirVolume.2⟩

end Small
end Fat16

end Yotos
