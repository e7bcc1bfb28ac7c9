import Yotos.Fat16.CreateRun
import Yotos.Fat16.Ends

/-!
# What it takes to make an entry

`fat16_vfs_create` writes an entry if the name fits, the directory has a free slot, and,
for a directory, there is a cluster for it. Nothing is asked of the volume here: the
directory may have any chain on which the search for the slot returns.
`fat16VfsCreateMakes` tells whether the call writes an entry, whatever the lookup at its
end says.
-/

namespace Yotos

namespace Fat16

open Bytes Kheap Library

/-- Whether `fat16_vfs_create` writes an entry. -/
def fat16VfsCreateMakes (fuel : ℕ) (node : VfsNode) (name : List UInt8) (flags : UInt32) (fs : Fs) :
    Option Bool :=
  if fs.mounted then
    if flags &&& vfsDir ≠ 0 then
      let (cluster, d) := fatAllocCluster fs.bpb fs.disk
      if cluster = 0 then some false
      else (fat16WriteDirEntry fuel fs.bpb (initDirCluster fs.bpb d cluster node.inode) node.inode
        name cluster 0 0x10).map Prod.fst
    else (fat16WriteDirEntry fuel fs.bpb fs.disk node.inode name 0 0 0x20).map Prod.fst
  else some false

/-- The disk on which the slot for the new entry is looked for: for a directory, its
cluster has been taken and initialised. -/
def slotDisk (b : Bpb) (d : Disk) (dir : ℕ) (flags : UInt32) : Disk :=
  if flags &&& vfsDir ≠ 0 then
    initDirCluster b (fatAllocCluster b d).2 (fatAllocCluster b d).1 dir
  else d

/-- An entry of this name can be made in directory `dir`. -/
structure Creatable (b : Bpb) (d : Disk) (dir : ℕ) (name : List UInt8) (flags : UInt32) : Prop where
  named : formatName83 name ≠ none
  cluster : flags &&& vfsDir ≠ 0 → (fatAllocCluster b d).1 ≠ 0
  slot : ∃ k, HasSlot b (slotDisk b d dir flags) dir k ∧
    IsFree (entryAt (slotDisk b d dir flags) (slotAddr b (slotDisk b d dir flags) dir k))

variable {b : Bpb} {d d' : Disk} {dir n fuel : ℕ} {name : List UInt8} {flags : UInt32}

theorem formatName83_length_le {name : List UInt8} (h : formatName83 name ≠ none) :
    name.length ≤ 12 := by
  unfold formatName83 at h
  dsimp only at h
  split_ifs at h with hbase hext
  · exact absurd rfl h
  · exact absurd rfl h
  · have hsplit := congrArg List.length (List.takeWhile_append_dropWhile (p := (· ≠ 0x2E)) (l := name))
    rw [List.length_append] at hsplit
    rw [List.length_drop] at hext
    omega

/-- A scan that returns nothing has come to the end of the directory, if its body does
not return nothing. -/
theorem exists_end_of_scanDir {σ α : Type*} {visit : (lba : ℕ) → ℕ → Bytes → σ → Visit σ α} {s : σ}
    (hvisit : ∀ lba i e s, visit lba i e s ≠ .done none)
    (h : scanDir b d dir visit fuel n s = some none) : ∃ m, dirSectorLba b d dir m = 0 := by
  induction fuel generalizing n s with
  | zero => cases h
  | succ fuel ih =>
      rw [scanDir] at h
      split_ifs at h with hend
      · exact ⟨n, hend⟩
      · cases hsector : scanSector (visit (dirSectorLba b d dir n))
          (readSector d (dirSectorLba b d dir n)) 16 0 s with
        | next s' =>
            rw [hsector] at h
            exact ih h
        | done r =>
            rw [hsector] at h
            obtain rfl := Option.some.inj h
            obtain ⟨i, s', -, -, hdone⟩ := scanSector_returned hsector
            exact absurd hdone (hvisit _ _ _ _)

theorem freeSlotVisit_ne (lba i : ℕ) (e : Bytes) (u : Unit) :
    freeSlotVisit lba i e u ≠ .done none := by
  rw [freeSlotVisit_eq]
  split_ifs <;> simp

/-- `fat16_write_dir_entry` finds a free slot if there is one. -/
theorem fat16WriteDirEntry_iff (hb : Layout b) {first size : ℕ} {attr : UInt8} {ok : Bool}
    (h : fat16WriteDirEntry fuel b d dir name first size attr = some (ok, d')) :
    ok = true ↔ formatName83 name ≠ none ∧
      ∃ k, HasSlot b d dir k ∧ IsFree (entryAt d (slotAddr b d dir k)) := by
  unfold fat16WriteDirEntry at h
  cases hname : formatName83 name with
  | none =>
      rw [hname] at h
      obtain ⟨rfl, rfl⟩ := Prod.mk.inj (Option.some.inj h)
      simp
  | some p =>
      obtain ⟨name83, ext83⟩ := p
      rw [hname] at h
      obtain ⟨r, hscan, h⟩ := Option.map_eq_some_iff.1 h
      cases r with
      | none =>
          obtain ⟨rfl, rfl⟩ := Prod.mk.inj h
          obtain ⟨e, he, hend, -⟩ :=
            exists_first_end hb.spc_pos (exists_end_of_scanDir freeSlotVisit_ne hscan)
          refine iff_of_false Bool.false_ne_true ?_
          rintro ⟨-, k, hk, hfree⟩
          rcases scanDir_result hb.spc_pos (Nat.zero_le e) (by omega) hend hscan with
            ⟨j, -, -, hdone, -⟩ | ⟨-, e', -, hend', -, hbefore⟩
          · exact freeSlotVisit_ne _ _ _ _ hdone
          · rcases Nat.lt_or_ge k (16 * e') with hlt | hge
            · have hnext := hbefore k (Nat.zero_le _) hlt
              rw [slotVisit, freeSlotVisit_eq, if_pos hfree] at hnext
              cases hnext
            · exact hk (dirSectorLba_eq_zero_of_le hb (by omega) hend')
      | some p =>
          obtain ⟨lba, i⟩ := p
          obtain ⟨rfl, rfl⟩ := Prod.mk.inj h
          refine iff_of_true rfl ⟨by simp, ?_⟩
          rcases scanDir_returned hb.spc_pos hscan with hnone | ⟨m, j, _, hsector, hj, hdone⟩
          · cases hnone
          · rw [freeSlotVisit_eq] at hdone
            split_ifs at hdone with hfree
            have hdiv : (16 * m + j) / 16 = m := by omega
            have hmod : (16 * m + j) % 16 = j := by omega
            refine ⟨16 * m + j, ?_, ?_⟩
            · rwa [HasSlot, hdiv]
            · rwa [slotAddr, hdiv, hmod]

/-- When the call writes an entry. -/
theorem fat16VfsCreateMakes_iff {fs : Fs} {node : VfsNode} {made : Bool} (hb : Layout fs.bpb)
    (hmounted : fs.mounted = true)
    (h : fat16VfsCreateMakes fuel node name flags fs = some made) :
    made = true ↔ Creatable fs.bpb fs.disk node.inode name flags := by
  rw [fat16VfsCreateMakes, if_pos hmounted] at h
  by_cases hdir : flags &&& vfsDir ≠ 0
  · rw [if_pos hdir] at h
    dsimp only at h
    split_ifs at h with hfull
    · obtain rfl := Option.some.inj h
      exact iff_of_false Bool.false_ne_true fun hcreate => hcreate.cluster hdir hfull
    · obtain ⟨⟨ok, d'⟩, hwrite, rfl⟩ := Option.map_eq_some_iff.1 h
      have hdisk : slotDisk fs.bpb fs.disk node.inode flags = initDirCluster fs.bpb
          (fatAllocCluster fs.bpb fs.disk).2 (fatAllocCluster fs.bpb fs.disk).1 node.inode :=
        if_pos hdir
      rw [fat16WriteDirEntry_iff hb hwrite]
      constructor
      · exact fun ⟨hnamed, hslot⟩ => ⟨hnamed, fun _ => hfull, hdisk.symm ▸ hslot⟩
      · exact fun hcreate => ⟨hcreate.named, hdisk ▸ hcreate.slot⟩
  · rw [if_neg hdir] at h
    obtain ⟨⟨ok, d'⟩, hwrite, rfl⟩ := Option.map_eq_some_iff.1 h
    have hdisk : slotDisk fs.bpb fs.disk node.inode flags = fs.disk := if_neg hdir
    rw [fat16WriteDirEntry_iff hb hwrite]
    constructor
    · exact fun ⟨hnamed, hslot⟩ => ⟨hnamed, fun h => absurd h hdir, hdisk.symm ▸ hslot⟩
    · exact fun hcreate => ⟨hcreate.named, hdisk ▸ hcreate.slot⟩

/-- Without an entry the call fails, and a call for a file has not changed anything. -/
theorem fat16VfsCreate_of_not_makes {fs fs' : Fs} {node : VfsNode} {r : Option VfsNode}
    (h : fat16VfsCreateMakes fuel node name flags fs = some false)
    (hrun : fat16VfsCreate fuel node name flags fs = some (r, fs')) :
    r = none ∧ (flags &&& vfsDir = 0 → fs' = fs) := by
  unfold fat16VfsCreateMakes at h
  unfold fat16VfsCreate at hrun
  dsimp only at h hrun
  split_ifs at h hrun with hmounted hdir hfull
  · obtain ⟨rfl, rfl⟩ := Prod.mk.inj (Option.some.inj hrun)
    exact ⟨rfl, fun hfile => absurd hfile hdir⟩
  · obtain ⟨⟨ok, d'⟩, hwrite, rfl⟩ := Option.map_eq_some_iff.1 h
    rw [hwrite] at hrun
    obtain ⟨d'', -, hrun⟩ := Option.map_eq_some_iff.1 hrun
    obtain ⟨rfl, rfl⟩ := Prod.mk.inj hrun
    exact ⟨rfl, fun hfile => absurd hfile hdir⟩
  · obtain ⟨⟨ok, d'⟩, hwrite, rfl⟩ := Option.map_eq_some_iff.1 h
    rw [hwrite] at hrun
    obtain ⟨rfl, rfl⟩ := Prod.mk.inj (Option.some.inj hrun)
    refine ⟨rfl, fun _ => ?_⟩
    unfold fat16WriteDirEntry at hwrite
    cases hname : formatName83 name with
    | none =>
        rw [hname] at hwrite
        obtain ⟨-, rfl⟩ := Prod.mk.inj (Option.some.inj hwrite)
        rfl
    | some p =>
        rw [hname] at hwrite
        obtain ⟨r, -, hwrite⟩ := Option.map_eq_some_iff.1 hwrite
        cases r with
        | none =>
            obtain ⟨-, rfl⟩ := Prod.mk.inj hwrite
            rfl
        | some p => exact absurd (Prod.mk.inj hwrite).1 (by simp)
  · obtain ⟨rfl, rfl⟩ := Prod.mk.inj (Option.some.inj hrun)
    exact ⟨rfl, fun _ => rfl⟩

end Fat16

end Yotos
