import Mathlib.Logic.Relation
import Yotos.Fat16.CreateRun

/-!
# The copies of the table over runs

Every call of `fat16_vfs_create` and `fat16_vfs_write`, on nodes that lookups have
returned, keeps the two copies of the table equal, whether it succeeds or not. The
volume has to be `Confined`: the chains of its directories and files lie within the
table, have no free cluster, and no file has a cluster of a directory. That counts every
entry in a slot of a directory, also those behind the first zero one: filling that slot
brings them to light. Without either condition the driver comes to follow a first
cluster past the table, and writes an entry for it into the second copy alone.
-/

namespace Yotos

namespace Fat16

open Bytes Kheap Library Relation

variable {b : Bpb} {d : Disk} {D F : Set ℕ} {c q x a : ℕ}

/-- The clusters that the links of the table lead to from cluster `c` on. -/
inductive Visits (b : Bpb) (d : Disk) (c : ℕ) : ℕ → Prop
  | start : Visits b d c c
  | next {x : ℕ} (h : Visits b d c x) (hx : isCluster (fatAt b d x) = true) :
      Visits b d c (fatAt b d x)

/-- The cluster is an entry of the table, and in use. -/
def InTable (b : Bpb) (d : Disk) (x : ℕ) : Prop := x < 256 * b.fatSize ∧ fatAt b d x ≠ 0

/-- The root, and the directories of the entries in any slot of these. -/
inductive KnownDir (b : Bpb) (d : Disk) : ℕ → Prop
  | root : KnownDir b d 0
  | entry {q k : ℕ} (hq : KnownDir b d q) (hk : HasSlot b d q k)
      (hvisible : Visible (entryAt d (slotAddr b d q k)))
      (hisDir : isDirectory (entryAt d (slotAddr b d q k)) = true) :
      KnownDir b d (firstCluster (entryAt d (slotAddr b d q k)))

/-- `c` is the first cluster in a file's entry. -/
def FileStart (b : Bpb) (d : Disk) (c : ℕ) : Prop :=
  ∃ q k, KnownDir b d q ∧ HasSlot b d q k ∧ Visible (entryAt d (slotAddr b d q k)) ∧
    isDirectory (entryAt d (slotAddr b d q k)) = false ∧
    firstCluster (entryAt d (slotAddr b d q k)) = c

/-- The chains stay within the table and have no free cluster, and no file has a cluster
of a directory. -/
structure Confined (b : Bpb) (d : Disk) : Prop where
  dirs : ∀ q x, KnownDir b d q → isCluster q = true → Visits b d q x → InTable b d x
  files : ∀ c x, FileStart b d c → 2 ≤ c → Visits b d c x → InTable b d x
  apart : ∀ q c x, KnownDir b d q → isCluster q = true → Visits b d q x → FileStart b d c →
    2 ≤ c → ¬ Visits b d c x

/-- The same for the chains of the live entries alone, which may share clusters. -/
structure LiveConfined (b : Bpb) (d : Disk) : Prop where
  dirs : ∀ q x, IsDir b d q → isCluster q = true → Visits b d q x → InTable b d x
  files : ∀ q k x, IsDir b d q → LiveSlot b d q k →
    isDirectory (entryAt d (slotAddr b d q k)) = false →
    2 ≤ firstCluster (entryAt d (slotAddr b d q k)) →
    Visits b d (firstCluster (entryAt d (slotAddr b d q k))) x → InTable b d x

theorem Visits.two_le (h : Visits b d c x) (hc : 2 ≤ c) : 2 ≤ x := by
  cases h with
  | start => exact hc
  | next _ hx => exact (isCluster_iff.1 hx).1

theorem Visits.isCluster (h : Visits b d c x) (hc : isCluster c = true) :
    Fat16.isCluster x = true := by
  cases h with
  | start => exact hc
  | next _ hx => exact hx

theorem skipClusters_succ (b : Bpb) (d : Disk) (n c : ℕ) : skipClusters b d (n + 1) c =
    (skipClusters b d n c).bind fun x =>
      if isCluster x then some (fatEntry b d x) else none := by
  induction n generalizing c with
  | zero => rfl
  | succ n ih =>
      rw [skipClusters]
      split_ifs with hc
      · rw [ih, skipClusters, if_pos hc]
      · rw [skipClusters, if_neg hc, Option.bind_none]

/-- The loop over the links reaches what is visited. -/
theorem Visits.exists_skip (h : Visits b d c x) (hc : Fat16.isCluster c = true) :
    ∃ n, skipClusters b d n c = some x := by
  induction h with
  | start => exact ⟨0, rfl⟩
  | @next x h _ ih =>
      obtain ⟨n, hn⟩ := ih
      have hx := h.isCluster hc
      have hlt := (isCluster_iff.1 hx).2
      refine ⟨n + 1, ?_⟩
      rw [skipClusters_succ, hn, Option.bind_some, if_pos hx, fatEntry_eq (by omega)]

/-- A slot of 32 bytes in a visited cluster is one of the directory. -/
theorem exists_slot_of_visits (hspc : 1 ≤ b.spc) (hb : Geometry b 0) (hq : isCluster q = true)
    (h : Visits b d q x) (ha : a % 32 = 0) (hin : InCluster b x a) :
    ∃ k, HasSlot b d q k ∧ slotAddr b d q k = a := by
  obtain ⟨n, hskip⟩ := h.exists_skip hq
  have hx := h.isCluster hq
  obtain ⟨htwo, hlt⟩ := isCluster_iff.1 hq
  obtain ⟨y, rfl⟩ := Nat.exists_eq_add_of_le hin.1
  have hy : y < 512 * b.spc := by
    have := hin.2
    rw [Bpb.clusterBytes] at this
    omega
  have hmod : y % 32 = 0 := by
    rw [clusterAddr] at ha
    omega
  have hsector : (n * b.spc + y / 512) / b.spc = n ∧ (n * b.spc + y / 512) % b.spc = y / 512 := by
    have hlt' : y / 512 < b.spc := by omega
    rw [Nat.mul_comm, Nat.mul_add_div hspc, Nat.div_eq_of_lt hlt', Nat.mul_add_mod,
      Nat.mod_eq_of_lt hlt']
    exact ⟨rfl, rfl⟩
  have hlba : dirSectorLba b d q (n * b.spc + y / 512) = b.clusterLba x + y / 512 := by
    rw [dirSectorLba, if_neg (by omega), hsector.1, hsector.2, Nat.mod_eq_of_lt (by omega), hskip]
    dsimp only
    rw [if_pos hx]
  have hdiv : (16 * (n * b.spc + y / 512) + y % 512 / 32) / 16 = n * b.spc + y / 512 := by omega
  have hpos : b.clusterLba x ≠ 0 := by
    have hroot := hb.rootDirLba_pos
    have hdata : b.rootDirLba ≤ b.dataLba := Nat.le_add_right _ _
    have hxlt := (isCluster_iff.1 hx).2
    rw [b.clusterLba_of_two_le (isCluster_iff.1 hx).1 (by omega)]
    omega
  refine ⟨16 * (n * b.spc + y / 512) + y % 512 / 32, ?_, ?_⟩
  · rw [HasSlot, hdiv, hlba]
    omega
  · rw [slotAddr, hdiv, hlba, clusterAddr]
    omega

theorem exists_slot_of_root (hb : Geometry b 0) (ha : a % 32 = 0)
    (hin : 512 * b.rootDirLba ≤ a ∧ a < 512 * b.dataLba) :
    ∃ k, HasSlot b d 0 k ∧ slotAddr b d 0 k = a := by
  obtain ⟨y, rfl⟩ := Nat.exists_eq_add_of_le hin.1
  have hroot := hb.rootDirLba_pos
  have hy : y < 512 * b.rootDirSectors := by
    have := hin.2
    rw [Bpb.dataLba] at this
    omega
  refine ⟨y / 32, ?_, ?_⟩
  · rw [HasSlot, dirSectorLba_root, if_neg (by omega)]
    omega
  · rw [slotAddr, dirSectorLba_root, if_neg (by omega)]
    omega

/-- The clusters that the directories and the files visit. -/
theorem Confined.guarded (hb : Mirrored b) (h : Confined b d) :
    Guarded b {x | ∃ q, KnownDir b d q ∧ isCluster q = true ∧ Visits b d q x}
      {x | ∃ c, FileStart b d c ∧ 2 ≤ c ∧ Visits b d c x} d := by
  refine ⟨?_, ?_, ?_, ?_, fun a ha harea hvisible => ?_⟩
  · rintro x (⟨q, hq, hcluster, hx⟩ | ⟨c, hc, htwo, hx⟩)
    · obtain ⟨hlt, hused⟩ := h.dirs q x hq hcluster hx
      exact ⟨hx.two_le (isCluster_iff.1 hcluster).1, hlt, hused⟩
    · obtain ⟨hlt, hused⟩ := h.files c x hc htwo hx
      exact ⟨hx.two_le htwo, hlt, hused⟩
  · rintro x ⟨q, hq, hcluster, hx⟩ hnext
    exact ⟨q, hq, hcluster, hx.next hnext⟩
  · rintro x ⟨c, hc, htwo, hx⟩ hnext
    exact ⟨c, hc, htwo, hx.next hnext⟩
  · rintro x ⟨q, hq, hcluster, hx⟩ ⟨c, hc, htwo, hx'⟩
    exact h.apart q c x hq hcluster hx hc htwo hx'
  · have hslot : ∃ q k, KnownDir b d q ∧ HasSlot b d q k ∧ slotAddr b d q k = a := by
      rcases harea with hroot | ⟨x, ⟨q, hq, hcluster, hx⟩, hin⟩
      · obtain ⟨k, hk, haddr⟩ := exists_slot_of_root (d := d) hb.geometry ha hroot
        exact ⟨0, k, KnownDir.root, hk, haddr⟩
      · obtain ⟨k, hk, haddr⟩ := exists_slot_of_visits hb.spc_pos hb.geometry hcluster hx ha hin
        exact ⟨q, k, hq, hk, haddr⟩
    obtain ⟨q, k, hq, hk, rfl⟩ := hslot
    rw [Leads]
    split_ifs with hisDir
    · exact fun hcluster => ⟨_, hq.entry hk hvisible hisDir, hcluster, Visits.start⟩
    · rw [Bool.not_eq_true] at hisDir
      exact fun htwo => ⟨_, ⟨q, k, hq, hk, hvisible, hisDir, rfl⟩, htwo, Visits.start⟩

/-! ## Runs -/

/-- The file system, the nodes that the callers hold, and the calls of `fat_set_entry` so
far. -/
structure LogState where
  fs : Fs
  nodes : List VfsNode
  log : List (ℕ × ℕ)

/-- One call, on nodes that were returned by earlier ones. Any number of nodes may stand
for one file. -/
inductive LogStep : LogState → LogState → Prop
  | write {fs fs' : Fs} {node node' : VfsNode} {before after : List VfsNode}
      {log : List (ℕ × ℕ)} {offset size : ℕ} {buf : Bytes} {ret : ℤ}
      (hfile : node.flags = vfsFile)
      (hrun : fat16VfsWrite node offset size buf fs = some (ret, node', fs')) :
      LogStep ⟨fs, before ++ node :: after, log⟩
        ⟨fs', before ++ node' :: after, log ++ writeCalls node offset size buf fs⟩
  | create {fs fs' : Fs} {dir : VfsNode} {nodes : List VfsNode} {log : List (ℕ × ℕ)}
      {fuel : ℕ} {name : List UInt8} {flags : UInt32} {r : Option VfsNode} (hmem : dir ∈ nodes)
      (hdir : dir.flags = vfsDir)
      (hrun : fat16VfsCreate fuel dir name flags fs = some (r, fs')) :
      LogStep ⟨fs, nodes, log⟩ ⟨fs', r.toList ++ nodes, log ++ createCalls fuel dir name flags fs⟩
  | finddir {fs fs' : Fs} {dir : VfsNode} {nodes : List VfsNode} {log : List (ℕ × ℕ)}
      {fuel : ℕ} {name : List UInt8} {r : Option VfsNode} (hmem : dir ∈ nodes)
      (hdir : dir.flags = vfsDir) (hrun : fat16VfsFinddir fuel dir name fs = some (r, fs')) :
      LogStep ⟨fs, nodes, log⟩ ⟨fs', r.toList ++ nodes, log⟩
  | close {fs : Fs} {node : VfsNode} {before after : List VfsNode} {log : List (ℕ × ℕ)} :
      LogStep ⟨fs, before ++ node :: after, log⟩ ⟨fat16VfsClose node fs, before ++ after, log⟩
  | kernel {fs : Fs} {nodes : List VfsNode} {log : List (ℕ × ℕ)} (start : ℕ) (heap : Bytes) :
      LogStep ⟨fs, nodes, log⟩ ⟨{ fs with heapStart := start, heap := heap }, nodes, log⟩

/-- The invariant of a run that started on the disk `d`. -/
structure LogInv (b : Bpb) (d : Disk) (t : LogState) : Prop where
  bpb : t.fs.bpb = b
  table : TableRun b d t.log t.fs.disk
  guarded : ∃ D F, Guarded b D F t.fs.disk ∧ ∀ n ∈ t.nodes, Held b D F t.fs.disk n

theorem LogInv.step (hb : Mirrored b) {t t' : LogState} (h : LogInv b d t) (hstep : LogStep t t') :
    LogInv b d t' := by
  obtain ⟨rfl, htable, D, F, hguarded, hheld⟩ := h
  cases hstep with
  | @write fs fs' node node' before after log offset size buf ret hfile hrun =>
      dsimp only at *
      obtain ⟨hbpb, F', hwrote, hnode'⟩ :=
        fat16VfsWrite_run hb hguarded (hheld node (by simp)) hfile hrun
      refine ⟨hbpb, htable.trans hwrote.table, D, F', hwrote.guarded, fun n hn => ?_⟩
      rcases List.mem_append.1 hn with hbefore | hafter
      · exact (hheld n (List.mem_append_left _ hbefore)).run hwrote
      · rcases List.mem_cons.1 hafter with rfl | hafter
        · exact hnode'
        · exact (hheld n (by simp [hafter])).run hwrote
  | @create fs fs' dir nodes log fuel name flags r hmem hdir hrun =>
      dsimp only at *
      obtain ⟨hbpb, D', hcreated, hfound⟩ :=
        fat16VfsCreate_run hb hguarded (hheld dir hmem) hdir hrun
      refine ⟨hbpb, htable.trans hcreated.table, D', F, hcreated.guarded, fun n hn => ?_⟩
      rcases List.mem_append.1 hn with hnew | hold
      · exact hfound n (Option.mem_toList.1 hnew)
      · exact (hheld n hold).run hcreated
  | @finddir fs fs' dir nodes log fuel name r hmem hdir hrun =>
      dsimp only at *
      obtain ⟨hdisk, hbpb, -⟩ := fat16VfsFinddir_disk hrun
      refine ⟨hbpb, by rwa [hdisk], D, F, by rwa [hdisk], fun n hn => ?_⟩
      rw [hdisk]
      rcases List.mem_append.1 hn with hnew | hold
      · obtain rfl := Option.mem_toList.1 hnew
        exact fat16VfsFinddir_held hb hguarded (hheld dir hmem) hdir hrun
      · exact hheld n hold
  | @close fs node before after log =>
      refine ⟨rfl, htable, D, F, hguarded, fun n hn => hheld n ?_⟩
      rcases List.mem_append.1 hn with hbefore | hafter
      · exact List.mem_append_left _ hbefore
      · exact List.mem_append_right _ (List.mem_cons_of_mem _ hafter)
  | kernel => exact ⟨rfl, htable, D, F, hguarded, hheld⟩

theorem LogInv.run (hb : Mirrored b) {t t' : LogState} (h : LogInv b d t)
    (hrun : ReflTransGen LogStep t t') : LogInv b d t' := by
  induction hrun with
  | refl => exact h
  | tail _ hstep ih => exact ih.step hb hstep

/-- The root node is held on every guarded volume. -/
theorem held_fat16RootNode : Held b D F d fat16RootNode where
  inode_lt := by decide
  dir _ hcluster := by cases hcluster
  file hfile := by cases hfile
  slot hfile := by cases hfile

/-- On a confined volume with two equal copies of the table, after any calls: the copies
are equal, and `fat_entry` returns the value of the last call of `fat_set_entry` for the
cluster, or the value from the start where there was none. -/
theorem copiesAgree_of_run {t t' : LogState} (hb : Mirrored t.fs.bpb)
    (hconf : Confined t.fs.bpb t.fs.disk) (hagree : CopiesAgree t.fs.bpb t.fs.disk)
    (hnodes : t.nodes = [fat16RootNode]) (hlog : t.log = []) (hrun : ReflTransGen LogStep t t') :
    CopiesAgree t'.fs.bpb t'.fs.disk ∧
      ∀ c < 256 * t.fs.bpb.fatSize, fatEntry t'.fs.bpb t'.fs.disk c =
        (latest t'.log c).getD (fatEntry t.fs.bpb t.fs.disk c) := by
  have hinv : LogInv t.fs.bpb t.fs.disk t := by
    refine ⟨rfl, ?_, _, _, hconf.guarded hb, fun n hn => ?_⟩
    · rw [hlog]
      exact TableRun.refl _ _
    · rw [hnodes] at hn
      obtain rfl := List.mem_singleton.1 hn
      exact held_fat16RootNode
  obtain ⟨hbpb, htable, -⟩ := hinv.run hb hrun
  rw [hbpb]
  refine ⟨htable.copies hagree, fun c hc => ?_⟩
  rw [fatEntry_eq (hb.lt hc), fatEntry_eq (hb.lt hc)]
  exact htable.fat c hc

/-! ## A small volume with two copies -/

section Small

variable {used k : ℕ} {root : Bytes}

/-- A boot record for one reserved sector, two FATs of one sector, 16 root entries and 11
sectors in all: 7 data clusters. -/
def mirrorBoot : Bytes := fun a =>
  if a = 510 then 0x55 else if a = 511 then 0xAA
  else if a = 0x0C then 2 else if a = 0x0D then 1 else if a = 0x0E then 1
  else if a = 0x10 then 2 else if a = 0x11 then 16 else if a = 0x13 then 11
  else if a = 0x16 then 1 else 0

/-- The volume with this root directory, the first `used` data clusters in use and zero. -/
def mirrorVolume (used : ℕ) (root : Bytes) : Disk := fun a =>
  if a < 512 then mirrorBoot a
  else if a < 1536 then if a % 512 < 4 + 2 * used then 0xFF else 0
  else if a < 2048 then root (a - 1536)
  else 0

abbrev mirrorBpb : Bpb := Bpb.ofSector mirrorBoot

theorem mirrored_mirrorBpb : Mirrored mirrorBpb := ⟨by decide, by decide, by decide, by decide⟩

theorem mountedFs_mirrorVolume (used : ℕ) (root : Bytes) :
    (mountedFs (mirrorVolume used root)).bpb = mirrorBpb := by
  simp [mountedFs, Bpb.ofSector, load16, load32, mirrorVolume]

theorem copiesAgree_mirrorVolume (used : ℕ) (root : Bytes) :
    CopiesAgree mirrorBpb (mirrorVolume used root) := by
  intro x hx
  have hsize : mirrorBpb.fatSize = 1 := by decide
  have hlba : mirrorBpb.fatLba = 1 := by decide
  have htable : ∀ y, 512 ≤ y → y < 1536 →
      mirrorVolume used root y = if y % 512 < 4 + 2 * used then 0xFF else 0 := fun y hy hy' => by
    rw [mirrorVolume, if_neg (by omega), if_pos hy']
  rw [hsize] at hx
  rw [hsize, hlba, htable _ (by omega) (by omega), htable _ (by omega) (by omega),
    show (512 * (1 + 1) + x) % 512 = (512 * 1 + x) % 512 by omega]

/-- The root directory is one sector. -/
theorem hasSlot_mirror {d : Disk} : HasSlot mirrorBpb d 0 k ↔ k < 16 := by
  rw [HasSlot, dirSectorLba_root, show mirrorBpb.rootDirSectors = 1 by decide,
    show mirrorBpb.rootDirLba = 3 by decide]
  split_ifs <;> omega

theorem slotAddr_mirror {d : Disk} (hk : k < 16) :
    slotAddr mirrorBpb d 0 k = 1536 + 32 * k := by
  rw [slotAddr, dirSectorLba_root, show mirrorBpb.rootDirSectors = 1 by decide,
    show mirrorBpb.rootDirLba = 3 by decide, if_neg (by omega)]
  omega

theorem entryAt_mirror (hk : k < 16) {x : ℕ} (hx : x < 32) :
    entryAt (mirrorVolume used root) (1536 + 32 * k) x = root (32 * k + x) := by
  rw [entryAt, mirrorVolume, if_neg (by omega), if_neg (by omega), if_pos (by omega)]
  refine congrArg root ?_
  omega

/-- An empty volume. -/
theorem confined_empty : Confined mirrorBpb (mirrorVolume 0 fun _ => 0) := by
  have hslot : ∀ k, HasSlot mirrorBpb (mirrorVolume 0 fun _ => 0) 0 k →
      ¬ Visible (entryAt (mirrorVolume 0 fun _ => 0)
        (slotAddr mirrorBpb (mirrorVolume 0 fun _ => 0) 0 k)) := by
    intro k hk hvisible
    have hlt := hasSlot_mirror.1 hk
    rw [slotAddr_mirror hlt] at hvisible
    exact hvisible.first_ne_zero (entryAt_mirror hlt (by omega))
  have hdir : ∀ q, KnownDir mirrorBpb (mirrorVolume 0 fun _ => 0) q → q = 0 := by
    intro q hq
    induction hq with
    | root => rfl
    | entry _ hk hvisible _ ih =>
        subst ih
        exact absurd hvisible (hslot _ hk)
  have hfile : ∀ c, ¬ FileStart mirrorBpb (mirrorVolume 0 fun _ => 0) c := by
    rintro c ⟨q, k, hq, hk, hvisible, -⟩
    obtain rfl := hdir q hq
    exact hslot k hk hvisible
  refine ⟨fun q x hq hcluster _ => ?_, fun c x hc _ _ => absurd hc (hfile c),
    fun q c x _ _ _ hc _ => absurd hc (hfile c)⟩
  obtain rfl := hdir q hq
  cases hcluster

/-- The empty volume after a file `A` was created and a byte written to it. -/
theorem copiesAgree_of_run_small : ∃ t', ReflTransGen LogStep
      ⟨mountedFs (mirrorVolume 0 fun _ => 0), [fat16RootNode], []⟩ t' ∧
    t'.log = [(2, 0xFFFF)] ∧ CopiesAgree t'.fs.bpb t'.fs.disk ∧
    fatEntry t'.fs.bpb t'.fs.disk 2 = 0xFFFF := by
  have hret : ((fat16VfsCreate 2 fat16RootNode [0x41] vfsFile
      (mountedFs (mirrorVolume 0 fun _ => 0))).bind fun r => r.1.bind fun node =>
        (fat16VfsWrite node 0 1 (fun _ => 0x42) r.2).map fun _ =>
          (node.flags, createCalls 2 fat16RootNode [0x41] vfsFile
            (mountedFs (mirrorVolume 0 fun _ => 0)) ++ writeCalls node 0 1 (fun _ => 0x42) r.2)) =
      some (vfsFile, [(2, 0xFFFF)]) := by
    decide +kernel
  obtain ⟨⟨r, fs₁⟩, hcreate, hret⟩ := Option.bind_eq_some_iff.1 hret
  obtain ⟨node, rfl, hret⟩ := Option.bind_eq_some_iff.1 hret
  obtain ⟨⟨ret, node', fs₂⟩, hwrite, hret⟩ := Option.map_eq_some_iff.1 hret
  obtain ⟨hfile, hcalls⟩ := Prod.mk.inj hret
  have hfirst : LogStep ⟨mountedFs (mirrorVolume 0 fun _ => 0), [fat16RootNode], []⟩
      ⟨fs₁, [node, fat16RootNode], createCalls 2 fat16RootNode [0x41] vfsFile
        (mountedFs (mirrorVolume 0 fun _ => 0))⟩ :=
    .create (List.mem_singleton.2 rfl) rfl hcreate
  have hsecond : LogStep ⟨fs₁, [] ++ node :: [fat16RootNode], createCalls 2 fat16RootNode [0x41]
        vfsFile (mountedFs (mirrorVolume 0 fun _ => 0))⟩
      ⟨fs₂, [] ++ node' :: [fat16RootNode], createCalls 2 fat16RootNode [0x41] vfsFile
        (mountedFs (mirrorVolume 0 fun _ => 0)) ++ writeCalls node 0 1 (fun _ => 0x42) fs₁⟩ :=
    .write hfile hwrite
  dsimp only at hcalls
  rw [hcalls] at hsecond
  have hrun := (ReflTransGen.single hfirst).tail hsecond
  have hbpb := mountedFs_mirrorVolume 0 fun _ => 0
  have hb : Mirrored (mountedFs (mirrorVolume 0 fun _ => 0)).bpb := by
    rw [hbpb]
    exact mirrored_mirrorBpb
  have hconf : Confined (mountedFs (mirrorVolume 0 fun _ => 0)).bpb
      (mountedFs (mirrorVolume 0 fun _ => 0)).disk := by
    rw [hbpb]
    exact confined_empty
  have hequal : CopiesAgree (mountedFs (mirrorVolume 0 fun _ => 0)).bpb
      (mountedFs (mirrorVolume 0 fun _ => 0)).disk := by
    rw [hbpb]
    exact copiesAgree_mirrorVolume 0 fun _ => 0
  have hin : 2 < 256 * (mountedFs (mirrorVolume 0 fun _ => 0)).bpb.fatSize := by
    rw [hbpb]
    decide
  obtain ⟨hagree, hentry⟩ := copiesAgree_of_run hb hconf hequal rfl rfl hrun
  refine ⟨_, hrun, rfl, hagree, ?_⟩
  rw [hentry 2 hin]
  rfl

/-- The entry of a file or a directory with a name of one letter. -/
def letterEntry (letter : UInt8) (first : ℕ) (attr : UInt8) : Bytes :=
  newEntry (fun x => if x = 0 then letter else 0x20) (fun _ => 0x20) first 0 attr

/-- A root directory whose first slot is zero, with a stale entry `G` behind it. -/
def staleRoot : Bytes := copy (fun _ => 0) 32 (letterEntry 0x47 300 0x20) 0 32

/-- A root directory with a directory `D` and a file `F` on the same cluster. -/
def sharedRoot : Bytes :=
  copy (copy (fun _ => 0) 0 (letterEntry 0x44 2 0x10) 0 32) 32 (letterEntry 0x46 2 0x20) 0 32

theorem liveConfined_stale : LiveConfined mirrorBpb (mirrorVolume 0 staleRoot) := by
  have hzero : mirrorVolume 0 staleRoot 1536 = 0 := by decide +kernel
  have hlive : ∀ k, ¬ LiveSlot mirrorBpb (mirrorVolume 0 staleRoot) 0 k := by
    intro k hk
    rcases Nat.eq_zero_or_pos k with rfl | hpos
    · have hfirst := hk.visible.first_ne_zero
      rw [slotAddr_mirror (by omega)] at hfirst
      exact hfirst hzero
    · have hbefore := hk.before 0 hpos
      rw [slotAddr_mirror (by omega)] at hbefore
      exact hbefore hzero
  have hdir : ∀ q, IsDir mirrorBpb (mirrorVolume 0 staleRoot) q → q = 0 := by
    intro q hq
    induction hq with
    | root => rfl
    | child _ hk _ _ ih =>
        subst ih
        exact absurd hk (hlive _)
  refine ⟨fun q x hq hcluster _ => ?_, fun q k x hq hk _ _ _ => ?_⟩
  · obtain rfl := hdir q hq
    cases hcluster
  · obtain rfl := hdir q hq
    exact absurd hk (hlive k)

theorem liveConfined_shared : LiveConfined mirrorBpb (mirrorVolume 1 sharedRoot) := by
  have hmark : fatAt mirrorBpb (mirrorVolume 1 sharedRoot) 2 = 0xFFFF := by decide +kernel
  have hvisits : ∀ x, Visits mirrorBpb (mirrorVolume 1 sharedRoot) 2 x → x = 2 := by
    intro x hx
    induction hx with
    | start => rfl
    | next _ hnext ih =>
        rw [ih, hmark] at hnext
        cases hnext
  have htwo : InTable mirrorBpb (mirrorVolume 1 sharedRoot) 2 := by
    refine ⟨by decide, ?_⟩
    rw [hmark]
    omega
  -- the slots past the second one are zero
  have hslot : ∀ k, LiveSlot mirrorBpb (mirrorVolume 1 sharedRoot) 0 k →
      firstCluster (entryAt (mirrorVolume 1 sharedRoot)
        (slotAddr mirrorBpb (mirrorVolume 1 sharedRoot) 0 k)) = 2 := by
    intro k hk
    have hlt := hasSlot_mirror.1 hk.has
    have hne := hk.visible.first_ne_zero
    rw [slotAddr_mirror hlt] at hne ⊢
    rcases Nat.lt_or_ge k 2 with hsmall | hge
    · have hcases : k = 0 ∨ k = 1 := by omega
      rcases hcases with rfl | rfl
      · decide +kernel
      · decide +kernel
    · rw [entryAt_mirror hlt (by omega), sharedRoot, copy_of_apart _ _ _ (by omega),
        copy_of_apart _ _ _ (by omega)] at hne
      exact absurd rfl hne
  have hsub : ∀ k, ¬ LiveSlot mirrorBpb (mirrorVolume 1 sharedRoot) 2 k := by
    intro k hk
    have hchain : ClusterChain mirrorBpb 3 (mirrorVolume 1 sharedRoot) 2 [2] := by
      refine Chain.single ⟨by omega, by omega⟩ ?_
      rw [hmark]
      exact Nat.le_of_ble_eq_true rfl
    have hgeo : Geometry mirrorBpb 3 := ⟨by decide, by decide, by decide, by decide, by decide⟩
    obtain ⟨haddr, hfits⟩ := slot_of_single hgeo ⟨by omega, by omega⟩ hchain hk.has
    have hcluster : clusterAddr mirrorBpb 2 = 2048 := by decide
    have hne := hk.visible.first_ne_zero
    rw [haddr, hcluster, entryAt, mirrorVolume, if_neg (by omega), if_neg (by omega),
      if_neg (by omega)] at hne
    exact hne rfl
  have hdir : ∀ q, IsDir mirrorBpb (mirrorVolume 1 sharedRoot) q → q = 0 ∨ q = 2 := by
    intro q hq
    induction hq with
    | root => exact Or.inl rfl
    | child _ hk _ _ ih =>
        rcases ih with rfl | rfl
        · exact Or.inr (hslot _ hk)
        · exact absurd hk (hsub _)
  refine ⟨fun q x hq hcluster hx => ?_, fun q k x hq hk _ _ hx => ?_⟩
  · rcases hdir q hq with rfl | rfl
    · cases hcluster
    · rw [hvisits x hx]
      exact htwo
  · rcases hdir q hq with rfl | rfl
    · rw [hslot k hk] at hx
      rw [hvisits x hx]
      exact htwo
    · exact absurd hk (hsub k)

/-- The copies differ in an entry. -/
theorem not_copiesAgree_of_byte (hx : x < 512 * b.fatSize)
    (hne : d (512 * (b.fatLba + b.fatSize) + x) ≠ d (512 * b.fatLba + x)) : ¬ CopiesAgree b d :=
  fun h => hne (h x hx)

/-- The live entries of the disk are confined and its copies agree, and a run makes them
differ. -/
def DriftsApart (d : Disk) : Prop :=
  LiveConfined mirrorBpb d ∧ CopiesAgree mirrorBpb d ∧
    ∃ t', ReflTransGen LogStep ⟨mountedFs d, [fat16RootNode], []⟩ t' ∧
      ¬ CopiesAgree t'.fs.bpb t'.fs.disk

/-- Confined live entries are not enough: the stale entry comes to light when the slot
before it is filled, and a write to the file puts one into the directory. Either way the
driver then extends the chain of a file whose first cluster is past the table. -/
theorem not_copiesAgree_of_liveConfined :
    DriftsApart (mirrorVolume 0 staleRoot) ∧ DriftsApart (mirrorVolume 1 sharedRoot) := by
  -- entry 44
  have hdiffer : ∀ {fs : Fs}, fs.bpb = mirrorBpb → fs.disk (1024 + 88) ≠ fs.disk (512 + 88) →
      ¬ CopiesAgree fs.bpb fs.disk := by
    intro fs hbpb hne
    rw [hbpb]
    refine not_copiesAgree_of_byte (show 88 < 512 * mirrorBpb.fatSize by decide) ?_
    rwa [show 512 * (mirrorBpb.fatLba + mirrorBpb.fatSize) + 88 = 1024 + 88 by decide,
      show 512 * mirrorBpb.fatLba + 88 = 512 + 88 by decide]
  constructor
  · refine ⟨liveConfined_stale, copiesAgree_mirrorVolume 0 staleRoot, ?_⟩
    have hret : ((fat16VfsCreate 2 fat16RootNode [0x41] vfsFile
        (mountedFs (mirrorVolume 0 staleRoot))).bind fun r =>
          (fat16VfsCreate 2 fat16RootNode [0x47] vfsFile r.2).bind fun r' => r'.1.bind fun node =>
            (fat16VfsWrite node 512 1 (fun _ => 0) r'.2).map fun w =>
              (node.flags, w.2.2.bpb, decide (w.2.2.disk (1024 + 88) ≠ w.2.2.disk (512 + 88)))) =
        some (vfsFile, mirrorBpb, true) := by
      decide +kernel
    obtain ⟨⟨r, fs₁⟩, hfirst, hret⟩ := Option.bind_eq_some_iff.1 hret
    obtain ⟨⟨r', fs₂⟩, hsecond, hret⟩ := Option.bind_eq_some_iff.1 hret
    obtain ⟨node, rfl, hret⟩ := Option.bind_eq_some_iff.1 hret
    obtain ⟨⟨ret, node', fs₃⟩, hwrite, hret⟩ := Option.map_eq_some_iff.1 hret
    simp only [Prod.mk.injEq] at hret
    obtain ⟨hfile, hbpb, hne⟩ := hret
    have hstart : [] ++ node :: (r.toList ++ [fat16RootNode]) =
        (some node).toList ++ (r.toList ++ [fat16RootNode]) := rfl
    have hrun₁ : ReflTransGen LogStep
        ⟨mountedFs (mirrorVolume 0 staleRoot), [fat16RootNode], []⟩
        ⟨fs₁, r.toList ++ [fat16RootNode],
          [] ++ createCalls 2 fat16RootNode [0x41] vfsFile (mountedFs (mirrorVolume 0 staleRoot))⟩ :=
      .single (.create (List.mem_singleton.2 rfl) rfl hfirst)
    have hrun₂ := hrun₁.tail (.create (by simp) rfl hsecond)
    rw [← hstart] at hrun₂
    exact ⟨_, hrun₂.tail (.write hfile hwrite), hdiffer hbpb (of_decide_eq_true hne)⟩
  · refine ⟨liveConfined_shared, copiesAgree_mirrorVolume 1 sharedRoot, ?_⟩
    have hret : ((fat16VfsFinddir 2 fat16RootNode [0x46]
        (mountedFs (mirrorVolume 1 sharedRoot))).bind fun r => r.1.bind fun node =>
          (fat16VfsWrite node 0 32 (letterEntry 0x47 300 0x20) r.2).bind fun w =>
            (fat16VfsFinddir 2 fat16RootNode [0x44] w.2.2).bind fun r' => r'.1.bind fun dir =>
              (fat16VfsFinddir 2 dir [0x47] r'.2).bind fun r'' => r''.1.bind fun stray =>
                (fat16VfsWrite stray 512 1 (fun _ => 0) r''.2).map fun w' =>
                  (node.flags, dir.flags, stray.flags, w'.2.2.bpb,
                    decide (w'.2.2.disk (1024 + 88) ≠ w'.2.2.disk (512 + 88)))) =
        some (vfsFile, vfsDir, vfsFile, mirrorBpb, true) := by
      decide +kernel
    obtain ⟨⟨r, fs₁⟩, hfile, hret⟩ := Option.bind_eq_some_iff.1 hret
    obtain ⟨node, rfl, hret⟩ := Option.bind_eq_some_iff.1 hret
    obtain ⟨⟨ret, node', fs₂⟩, hwrite, hret⟩ := Option.bind_eq_some_iff.1 hret
    obtain ⟨⟨r', fs₃⟩, hdir, hret⟩ := Option.bind_eq_some_iff.1 hret
    obtain ⟨dir, rfl, hret⟩ := Option.bind_eq_some_iff.1 hret
    obtain ⟨⟨r'', fs₄⟩, hstray, hret⟩ := Option.bind_eq_some_iff.1 hret
    obtain ⟨stray, rfl, hret⟩ := Option.bind_eq_some_iff.1 hret
    obtain ⟨⟨ret', stray', fs₅⟩, hlast, hret⟩ := Option.map_eq_some_iff.1 hret
    simp only [Prod.mk.injEq] at hret
    obtain ⟨hfileFlags, hdirFlags, hstrayFlags, hbpb, hne⟩ := hret
    have hrun₁ : ReflTransGen LogStep
        ⟨mountedFs (mirrorVolume 1 sharedRoot), [fat16RootNode], []⟩
        ⟨fs₁, [] ++ node :: [fat16RootNode], []⟩ :=
      .single (.finddir (List.mem_singleton.2 rfl) rfl hfile)
    have hrun₂ := hrun₁.tail (.write hfileFlags hwrite)
    have hrun₃ := hrun₂.tail (.finddir (by simp) rfl hdir)
    have hrun₄ := hrun₃.tail (.finddir (by simp) hdirFlags hstray)
    have hstart : (some stray).toList ++ ((some dir).toList ++ ([] ++ node' :: [fat16RootNode])) =
        [] ++ stray :: dir :: node' :: [fat16RootNode] := rfl
    rw [hstart] at hrun₄
    exact ⟨_, hrun₄.tail (.write hstrayFlags hlast), hdiffer hbpb (of_decide_eq_true hne)⟩

end Small

end Fat16

end Yotos
