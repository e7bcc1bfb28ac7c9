import Yotos.Fat16.Guarded

/-!
# Writes on a guarded volume

The walk of `fat16_vfs_write` stays in the clusters of its file and links free ones
behind them, so that its calls of `fat_set_entry` are for entries of the table. Its data
go to those clusters and to the file's own slot. A node is `Held` as long as the volume
is guarded, whatever other nodes of the same file do.
-/

namespace Yotos

namespace Fat16

open Bytes Kheap Library

variable {b : Bpb} {d d' d'' : Disk} {D D' F F' F'' : Set ℕ} {log log' : List (ℕ × ℕ)}
  {a c x v n inode offset size fuel : ℕ}

/-! ## Chains -/

/-- An operation on a file's chain: no byte of the directories changes. -/
structure FileRun (b : Bpb) (D F : Set ℕ) (d : Disk) (log : List (ℕ × ℕ)) (F' : Set ℕ)
    (d' : Disk) : Prop where
  guarded : Guarded b D F' d'
  files : F ⊆ F'
  table : TableRun b d log d'
  area : ∀ x, DirArea b D x → d' x = d x

namespace FileRun

theorem refl (h : Guarded b D F d) : FileRun b D F d [] F d :=
  ⟨h, subset_rfl, TableRun.refl b d, fun _ _ => rfl⟩

theorem trans (h : FileRun b D F d log F' d') (h' : FileRun b D F' d' log' F'' d'') :
    FileRun b D F d (log ++ log') F'' d'' :=
  ⟨h'.guarded, h.files.trans h'.files, h.table.trans h'.table,
    fun x hx => (h'.area x hx).trans (h.area x hx)⟩

theorem guardedRun (h : FileRun b D F d log F' d') : GuardedRun b D F d log D F' d' where
  guarded := h.guarded
  dirs := subset_rfl
  files := h.files
  table := h.table
  heads a ha hplace _ x hx := h.area _ (hplace.slot ha (by omega))

/-- A write to the bytes of a cluster that is no directory's. -/
theorem of_cluster (hb : Mirrored b) (h : Guarded b D F d) (hc : 2 ≤ c) (hlt : c < 65536)
    (hD : c ∉ D) (hout : ∀ x, ¬ InCluster b c x → d' x = d x) : FileRun b D F d [] F d' := by
  have htable : ∀ x < 512 * b.rootDirLba, d' x = d x := fun x hx => hout x fun hin => by
    have := dataAddr_le_of_inCluster hc hlt hin
    have := rootAddr_le_dataAddr b
    omega
  have harea : ∀ x, DirArea b D x → d' x = d x := fun x hx =>
    hout x (h.not_inCluster hb hx hc hlt hD)
  exact ⟨h.congr hb htable harea, subset_rfl, TableRun.of_outside hb htable, harea⟩

theorem writeCluster (hb : Mirrored b) (h : Guarded b D F d) (hc : c ∈ F) (cbuf : Bytes) :
    FileRun b D F d [] F (writeCluster b d c cbuf) := by
  have htwo := h.two_le (Or.inr hc)
  have hlt := hb.lt (h.lt_table (Or.inr hc))
  exact of_cluster hb h htwo hlt (fun hD => h.apart c hD hc) fun x hx =>
    writeCluster_of_not_mem htwo hlt cbuf hx

theorem fatSetEntry (hb : Mirrored b) (h : Guarded b D F d) (hc : c < 256 * b.fatSize)
    (hv : v < 65536) (hD : c ∉ D) (hF : c ∈ F → v ≠ 0 ∧ (isCluster v = true → v ∈ F)) :
    FileRun b D F d [(c, v)] F (fatSetEntry b d c v) where
  guarded := h.fatSetEntry hb hc hv (fun hcD => absurd hcD hD) hF
  files := subset_rfl
  table := TableRun.fatSetEntry hb d hc hv
  area _ hx := fatSetEntry_outside (hb.lt hc) hc hb.geometry.fatCount_pos (h.rootAddr_le hb hx)

/-- A free cluster is marked and becomes a file's. -/
theorem alloc (hb : Mirrored b) (h : Guarded b D F d) (hc : 2 ≤ c) (hlt : c < 256 * b.fatSize)
    (hfree : fatAt b d c = 0) :
    FileRun b D F d [(c, 0xFFFF)] (insert c F) (Fat16.fatSetEntry b d c 0xFFFF) := by
  obtain ⟨hD, hF⟩ := h.not_mem_of_free hfree
  have hrun := fatSetEntry hb h hlt (show 0xFFFF < 65536 by omega) hD fun hcF => absurd hcF hF
  have hmark : fatAt b (Fat16.fatSetEntry b d c 0xFFFF) c = 0xFFFF :=
    fatAt_fatSetEntry_self (hb.lt hlt) hlt (by omega)
  refine ⟨hrun.guarded.insertFile hc hlt hD ?_ ?_, Set.subset_insert c F, hrun.table, hrun.area⟩
  · rw [hmark]
    omega
  · rw [hmark]
    rfl

end FileRun

/-- `fat_alloc_cluster`: the table is full, or a free cluster is marked. -/
theorem fatAllocCluster_calls (hb : Mirrored b) (d : Disk) :
    (fatAllocCluster b d = (0, d) ∧ allocCalls b d = []) ∨
      ∃ c, 2 ≤ c ∧ c < 256 * b.fatSize ∧ fatAt b d c = 0 ∧
        fatAllocCluster b d = (c, fatSetEntry b d c 0xFFFF) ∧ allocCalls b d = [(c, 0xFFFF)] := by
  cases hfind : findFreeCluster b d with
  | none =>
      rw [fatAllocCluster, allocCalls, hfind]
      exact Or.inl ⟨rfl, rfl⟩
  | some c =>
      have hfirst := findFreeCluster_eq_some_iff.1 hfind
      refine Or.inr ⟨c, hfirst.two_le, hfirst.lt, hfirst.zero, ?_⟩
      rw [fatAllocCluster, allocCalls, hfind]
      dsimp only
      rw [Nat.mod_eq_of_lt (hb.lt hfirst.lt)]
      exact ⟨rfl, rfl⟩

/-- The walk stays in the file's clusters, and links new ones behind them. -/
theorem extendWalk_run (hb : Mirrored b) (h : Guarded b D F d) (hx : x ∈ F) :
    ∃ F', FileRun b D F d (extendWalkCalls b n x d) F' (extendWalk b n x d).2.2 ∧
      ((extendWalk b n x d).1 = true → (extendWalk b n x d).2.1 ∈ F') := by
  induction n generalizing x d F with
  | zero => exact ⟨F, FileRun.refl h, fun _ => hx⟩
  | succ n ih =>
      have hlt := hb.lt (h.lt_table (Or.inr hx))
      rw [extendWalk, extendWalkCalls, fatEntry_eq hlt]
      dsimp only
      by_cases hnext : isCluster (fatAt b d x) = true
      · rw [if_pos hnext, if_pos hnext]
        exact ih h (h.fileNext x hx hnext)
      · rw [if_neg hnext, if_neg hnext]
        rcases fatAllocCluster_calls hb d with ⟨halloc, hcalls⟩ | ⟨c, hc, hclt, hfree, halloc, hcalls⟩
        · rw [halloc, hcalls]
          exact ⟨F, FileRun.refl h, fun hok => by cases hok⟩
        · rw [halloc, hcalls]
          have hne : c ≠ 0 := by omega
          simp only [hne, if_false]
          have hmark := FileRun.alloc hb h hc hclt hfree
          have hlink := FileRun.fatSetEntry hb hmark.guarded (h.lt_table (Or.inr hx))
            (hb.lt hclt) (fun hxD => h.apart x hxD hx) fun _ =>
              ⟨hne, fun _ => Set.mem_insert c F⟩
          obtain ⟨F', hrest, hmem⟩ := ih hlink.guarded (Set.mem_insert c F)
          exact ⟨F', hmark.trans (hlink.trans hrest), hmem⟩

theorem writeLoop_run (hb : Mirrored b) {buf cbuf : Bytes} {bytesWritten m : ℕ}
    (h : Guarded b D F d) (hinode : inode % 65536 ∈ F)
    (hrun : writeLoop b inode offset size buf fuel bytesWritten cbuf d = some (m, d')) :
    ∃ F', FileRun b D F d (writeLoopCalls b inode offset size buf fuel bytesWritten cbuf d)
      F' d' := by
  induction fuel generalizing bytesWritten cbuf d F with
  | zero =>
      rw [writeLoop] at hrun
      split_ifs at hrun
      obtain ⟨-, rfl⟩ := Prod.mk.inj (Option.some.inj hrun)
      exact ⟨F, FileRun.refl h⟩
  | succ fuel ih =>
      rw [writeLoop] at hrun
      rw [writeLoopCalls]
      split_ifs at hrun with hlt
      · rw [if_pos hlt]
        dsimp only at hrun ⊢
        obtain ⟨F₁, hwalk, hmem⟩ := extendWalk_run (n := (offset + bytesWritten) % 2 ^ 32 /
          b.clusterBytes) hb h hinode
        generalize extendWalk b ((offset + bytesWritten) % 2 ^ 32 / b.clusterBytes)
          (inode % 65536) d = r at hrun hwalk hmem ⊢
        obtain ⟨ok, cluster, d₁⟩ := r
        cases ok with
        | false =>
            obtain ⟨-, rfl⟩ := Prod.mk.inj (Option.some.inj hrun)
            rw [List.append_nil]
            exact ⟨F₁, hwalk⟩
        | true =>
            dsimp only at hrun hwalk hmem ⊢
            have hcluster := hmem rfl
            have hdata := FileRun.writeCluster hb hwalk.guarded hcluster
            obtain ⟨F₂, hrest⟩ := ih (hdata _).guarded (hwalk.files hinode) hrun
            exact ⟨F₂, hwalk.trans ((hdata _).trans hrest)⟩
      · rw [if_neg hlt]
        obtain ⟨-, rfl⟩ := Prod.mk.inj (Option.some.inj hrun)
        exact ⟨F, FileRun.refl h⟩

/-! ## Nodes -/

/-- The byte address of the slot that a node names. -/
def nodeSlot (node : VfsNode) : ℕ := 512 * node.dirLba + 32 * node.dirIndex

/-- The slot that a file's node names holds the entry of a file. -/
structure FileSlot (b : Bpb) (D : Set ℕ) (d : Disk) (node : VfsNode) : Prop where
  lba_lt : node.dirLba < 2 ^ 28
  index_lt : node.dirIndex < 16
  area : DirArea b D (nodeSlot node)
  visible : Visible (entryAt d (nodeSlot node))
  file : isDirectory (entryAt d (nodeSlot node)) = false

/-- A node that a lookup has returned, on the volume as it is now. -/
structure Held (b : Bpb) (D F : Set ℕ) (d : Disk) (node : VfsNode) : Prop where
  inode_lt : node.inode < 65536
  dir : node.flags = vfsDir → isCluster node.inode = true → node.inode ∈ D
  file : node.flags = vfsFile → 2 ≤ node.inode → node.inode ∈ F
  slot : node.flags = vfsFile → FileSlot b D d node

theorem nodeSlot_mod (node : VfsNode) : nodeSlot node % 32 = 0 := by
  unfold nodeSlot
  omega

theorem Held.run {node : VfsNode} (h : Held b D F d node) (hrun : GuardedRun b D F d log D' F' d') :
    Held b D' F' d' node where
  inode_lt := h.inode_lt
  dir hflags hc := hrun.dirs (h.dir hflags hc)
  file hflags hc := hrun.files (h.file hflags hc)
  slot hflags := by
    obtain ⟨hlba, hindex, harea, hvisible, hfile⟩ := h.slot hflags
    have hhead := hrun.heads _ (nodeSlot_mod node) harea hvisible
    refine ⟨hlba, hindex, harea.mono hrun.dirs, (visible_congr hhead).2 hvisible, ?_⟩
    rw [isDirectory_congr hhead]
    exact hfile

/-- A file's first cluster and size go into its slot. -/
theorem updateEntry_run (hb : Mirrored b) (h : Guarded b D F d) {node : VfsNode}
    (hslot : FileSlot b D d node) (hinode : node.inode < 65536) (hmem : node.inode ∈ F) :
    GuardedRun b D F d [] D F (updateEntry d node) := by
  obtain ⟨hlba, hindex, harea, hvisible, hfile⟩ := hslot
  have hmod := nodeSlot_mod node
  have heq : updateEntry d node =
      store32 (store16 d (nodeSlot node + 26) node.inode) (nodeSlot node + 28) node.size :=
    updateEntry_eq_store hlba hindex d
  have hout : ∀ x, ¬ (nodeSlot node + 26 ≤ x ∧ x < nodeSlot node + 32) →
      updateEntry d node x = d x := fun x hx => by
    rw [heq, store32_of_apart _ _ (by omega), store16_of_apart _ _ (by omega)]
  have hroot := h.rootAddr_le hb harea
  have hhead : ∀ a, a % 32 = 0 → ∀ x < 26, entryAt (updateEntry d node) a x = entryAt d a x :=
    fun a ha x hx => hout _ (by omega)
  have hfirst : firstCluster (entryAt (updateEntry d node) (nodeSlot node)) = node.inode := by
    have hload : firstCluster (entryAt (updateEntry d node) (nodeSlot node)) =
        load16 (store16 d (nodeSlot node + 26) node.inode) (nodeSlot node + 26) := by
      rw [heq, firstCluster, load16, load16, entryAt, entryAt, store32_of_apart _ _ (by omega),
        store32_of_apart _ _ (by omega)]
    rw [hload, load16_store16, Nat.mod_eq_of_lt hinode]
  have htable : ∀ x < 512 * b.rootDirLba, updateEntry d node x = d x := fun x hx =>
    hout x (by omega)
  have hfat : ∀ c, c ∈ D ∨ c ∈ F → fatAt b (updateEntry d node) c = fatAt b d c := fun c hc =>
    fatAt_congr hb.geometry (h.lt_table hc) htable
  refine ⟨⟨fun c hc => ?_, fun c hc => ?_, fun c hc => ?_, h.apart, fun a ha hplace hseen => ?_⟩,
    subset_rfl, subset_rfl, TableRun.of_outside hb htable, fun a ha _ _ => hhead a ha⟩
  · rw [hfat c hc]
    exact h.used c hc
  · rw [hfat c (Or.inl hc)]
    exact h.dirNext c hc
  · rw [hfat c (Or.inr hc)]
    exact h.fileNext c hc
  · by_cases hsame : a = nodeSlot node
    · rw [hsame, Leads, isDirectory_congr (hhead _ hmod), hfile, hfirst]
      exact fun _ => hmem
    · have hentry : ∀ x < 32, entryAt (updateEntry d node) a x = entryAt d a x := fun x hx =>
        hout _ (by omega)
      rw [visible_congr fun x hx => hentry x (by omega)] at hseen
      exact (h.slots a ha hplace hseen).congr hentry

/-- The node of a file that got another first cluster and size. -/
theorem Held.withFile {node node' : VfsNode} (hslot : FileSlot b D d node)
    (hflags : node'.flags = vfsFile) (hlba : node'.dirLba = node.dirLba)
    (hindex : node'.dirIndex = node.dirIndex) (hlt : node'.inode < 65536)
    (hmem : node'.inode ∈ F) : Held b D F d node' where
  inode_lt := hlt
  dir hdir := by
    rw [hflags] at hdir
    cases hdir
  file _ _ := hmem
  slot _ := by
    have haddr : nodeSlot node' = nodeSlot node := by rw [nodeSlot, nodeSlot, hlba, hindex]
    exact ⟨hlba ▸ hslot.lba_lt, hindex ▸ hslot.index_lt, haddr ▸ hslot.area,
      haddr ▸ hslot.visible, haddr ▸ hslot.file⟩

/-- `fat16_vfs_write` from the buffer on, for a file with first cluster `i`. -/
theorem writeRest_run {fs fs' : Fs} {node node' : VfsNode} {buf : Bytes} {ret : ℤ} {i : ℕ}
    {d₁ : Disk} {calls : List (ℕ × ℕ)} (hb : Mirrored fs.bpb)
    (hnode : Held fs.bpb D F fs.disk node) (hflags : node.flags = vfsFile) (hi : i < 65536)
    (hmem : i ∈ F') (hstart : FileRun fs.bpb D F fs.disk calls F' d₁)
    (hrun : ((kmalloc fs.heapStart fs.bpb.clusterBytes fs.heap).bind fun (cbuf, heap) =>
      if cbuf = 0 then
        some ((-1 : ℤ), { node with inode := i }, { fs with disk := d₁, heap := heap })
      else
        (writeLoop fs.bpb i offset size buf size 0 (fun x => heap (cbuf + x)) d₁).map
          fun (n, d) =>
            (toInt n, { node with inode := i, size := max node.size ((offset + n) % 2 ^ 32) },
              { fs with
                disk := updateEntry d
                  { node with inode := i, size := max node.size ((offset + n) % 2 ^ 32) }
                heap := kfree cbuf heap })) = some (ret, node', fs')) :
    fs'.bpb = fs.bpb ∧ ∃ F'', GuardedRun fs.bpb D F fs.disk
      (match kmalloc fs.heapStart fs.bpb.clusterBytes fs.heap with
        | none => calls
        | some (cbuf, heap) =>
            if cbuf = 0 then calls
            else calls ++ writeLoopCalls fs.bpb i offset size buf size 0
              (fun x => heap (cbuf + x)) d₁) D F'' fs'.disk ∧
      Held fs.bpb D F'' fs'.disk node' := by
  obtain ⟨⟨cbuf, heap⟩, halloc, hrun⟩ := Option.bind_eq_some_iff.1 hrun
  rw [halloc]
  dsimp only at hrun ⊢
  by_cases hcbuf : cbuf = 0
  · rw [if_pos hcbuf] at hrun ⊢
    simp only [Option.some.injEq, Prod.mk.injEq] at hrun
    obtain ⟨-, rfl, rfl⟩ := hrun
    have hheld := hnode.run hstart.guardedRun
    exact ⟨rfl, F', hstart.guardedRun, .withFile (hheld.slot hflags) hflags rfl rfl hi hmem⟩
  · rw [if_neg hcbuf] at hrun ⊢
    obtain ⟨⟨m, d₂⟩, hloop, hrun⟩ := Option.map_eq_some_iff.1 hrun
    simp only [Prod.mk.injEq] at hrun
    obtain ⟨-, rfl, rfl⟩ := hrun
    obtain ⟨F₂, hwritten⟩ := writeLoop_run hb hstart.guarded
      ((Nat.mod_eq_of_lt hi).symm ▸ hmem) hloop
    have hall := (hstart.trans hwritten).guardedRun
    have hheld : Held fs.bpb D F₂ d₂
        { node with inode := i, size := max node.size ((offset + m) % 2 ^ 32) } :=
      .withFile ((hnode.run hall).slot hflags) hflags rfl rfl hi (hwritten.files hmem)
    have hupdate := updateEntry_run hb hall.guarded (hheld.slot hflags) hi (hwritten.files hmem)
    have hfinal := hall.trans hupdate
    rw [List.append_nil] at hfinal
    exact ⟨rfl, F₂, hfinal, hheld.run hupdate⟩

/-- A call of `fat16_vfs_write`, whether it succeeds or not. -/
theorem fat16VfsWrite_run {fs fs' : Fs} {node node' : VfsNode} {buf : Bytes} {ret : ℤ}
    (hb : Mirrored fs.bpb) (h : Guarded fs.bpb D F fs.disk) (hnode : Held fs.bpb D F fs.disk node)
    (hflags : node.flags = vfsFile)
    (hrun : fat16VfsWrite node offset size buf fs = some (ret, node', fs')) :
    fs'.bpb = fs.bpb ∧ ∃ F', GuardedRun fs.bpb D F fs.disk (writeCalls node offset size buf fs)
      D F' fs'.disk ∧ Held fs.bpb D F' fs'.disk node' := by
  have hlt := hnode.inode_lt
  rw [writeCalls]
  unfold fat16VfsWrite at hrun
  by_cases hnothing : fs.mounted = false ∨ size = 0
  · rw [if_pos hnothing] at hrun ⊢
    simp only [Option.some.injEq, Prod.mk.injEq] at hrun
    obtain ⟨-, rfl, rfl⟩ := hrun
    exact ⟨rfl, F, GuardedRun.refl h, hnode⟩
  rw [if_neg hnothing] at hrun ⊢
  rw [Nat.mod_eq_of_lt hlt] at hrun ⊢
  by_cases hnone : node.inode < 2
  · simp only [if_pos hnone] at hrun ⊢
    rcases fatAllocCluster_calls hb fs.disk with
      ⟨halloc, hcalls⟩ | ⟨c, hc, hclt, hfree, halloc, hcalls⟩
    · rw [halloc] at hrun ⊢
      simp only [if_true, Option.some.injEq, Prod.mk.injEq] at hrun ⊢
      obtain ⟨-, rfl, rfl⟩ := hrun
      rw [hcalls]
      exact ⟨rfl, F, GuardedRun.refl h, hnode⟩
    · have hne : c ≠ 0 := by omega
      rw [halloc] at hrun ⊢
      simp only [hne, if_false] at hrun ⊢
      rw [hcalls]
      exact writeRest_run hb hnode hflags (hb.lt hclt) (Set.mem_insert c F)
        (FileRun.alloc hb h hc hclt hfree) hrun
  · have hne : node.inode ≠ 0 := by omega
    simp only [hnone, hne, if_false] at hrun ⊢
    exact writeRest_run hb hnode hflags hlt (hnode.file hflags (by omega)) (FileRun.refl h) hrun

end Fat16

end Yotos
