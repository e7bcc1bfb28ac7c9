import Yotos.Fat16.FileRun

/-!
# Lookups and creations on a guarded volume

A directory of a guarded volume may have a chain of any shape, so that all that is known
of a scan is that it returned at some slot of one of its sectors. A node that
`fat16_vfs_finddir` returns is held, and a creation fills a free slot. The cluster of a
new directory joins the directories.
-/

namespace Yotos

namespace Fat16

open Bytes Kheap Library

variable {b : Bpb} {d d' : Disk} {D F : Set ℕ} {c inode n fuel : ℕ} {name : List UInt8}
  {flags : UInt32}

/-! ## Scans of directories of any shape -/

section Scan

variable {σ α : Type*} {visit : (lba : ℕ) → ℕ → Bytes → σ → Visit σ α} {s : σ} {r : Option α}

theorem scanSector_returned {body : ℕ → Bytes → σ → Visit σ α} {sector : Bytes} {m i : ℕ}
    (h : scanSector body sector m i s = .done r) :
    ∃ j s', i ≤ j ∧ j < i + m ∧ body j (fun x => sector (32 * j + x)) s' = .done r := by
  induction m generalizing i s with
  | zero => cases h
  | succ m ih =>
      rw [scanSector] at h
      cases hbody : body i (fun x => sector (32 * i + x)) s with
      | done r' =>
          rw [hbody] at h
          obtain rfl := Visit.done.inj h
          exact ⟨i, s, le_rfl, by omega, hbody⟩
      | next s' =>
          rw [hbody] at h
          obtain ⟨j, s'', hij, hj, hdone⟩ := ih h
          exact ⟨j, s'', by omega, by omega, hdone⟩

/-- A scan returns at the end of the directory or at a slot of one of its sectors. -/
theorem scanDir_returned (hspc : 1 ≤ b.spc) (h : scanDir b d inode visit fuel n s = some r) :
    r = none ∨ ∃ m i s', dirSectorLba b d inode m ≠ 0 ∧ i < 16 ∧
      visit (dirSectorLba b d inode m) i
        (entryAt d (512 * dirSectorLba b d inode m + 32 * i)) s' = .done r := by
  induction fuel generalizing n s with
  | zero => cases h
  | succ fuel ih =>
      rw [scanDir] at h
      split_ifs at h with hend
      · exact Or.inl (Option.some.inj h).symm
      · cases hsector : scanSector (visit (dirSectorLba b d inode n))
          (readSector d (dirSectorLba b d inode n)) 16 0 s with
        | next s' =>
            rw [hsector] at h
            exact ih h
        | done r' =>
            rw [hsector] at h
            obtain rfl := Option.some.inj h
            obtain ⟨i, s', -, hi, hdone⟩ := scanSector_returned hsector
            have hentry : (fun x => readSector d (dirSectorLba b d inode n) (32 * i + x)) =
                entryAt d (512 * dirSectorLba b d inode n + 32 * i) := by
              funext x
              rw [readSector_apply d (dirSectorLba_lt hspc d inode n), entryAt, Nat.add_assoc]
            rw [hentry] at hdone
            exact Or.inr ⟨n, i, s', hend, by omega, hdone⟩

end Scan

theorem Guarded.skipClusters_mem (hb : Mirrored b) (h : Guarded b D F d)
    (hc : isCluster c = true → c ∈ D) {x : ℕ} (hskip : skipClusters b d n c = some x)
    (hx : isCluster x = true) : x ∈ D := by
  induction n generalizing c with
  | zero =>
      obtain rfl := Option.some.inj hskip
      exact hc hx
  | succ n ih =>
      rw [skipClusters] at hskip
      split_ifs at hskip with hcluster
      have hmem := hc hcluster
      rw [fatEntry_eq (hb.lt (h.lt_table (Or.inl hmem)))] at hskip
      exact ih (h.dirNext c hmem) hskip

/-- The sectors of a known directory lie in the area. -/
theorem Guarded.dirSector_area (hb : Mirrored b) (h : Guarded b D F d) (hlt : inode < 65536)
    (hdir : isCluster inode = true → inode ∈ D) (hn : dirSectorLba b d inode n ≠ 0) {x : ℕ}
    (hx : x < 512) : DirArea b D (512 * dirSectorLba b d inode n + x) := by
  by_cases hroot : inode = 0
  · subst hroot
    rw [dirSectorLba_root] at hn ⊢
    by_cases hend : b.rootDirSectors ≤ n
    · exact absurd (if_pos hend) hn
    · left
      rw [if_neg hend, Bpb.dataLba]
      omega
  · right
    rw [dirSectorLba, if_neg hroot, Nat.mod_eq_of_lt hlt] at hn ⊢
    cases hskip : skipClusters b d (n / b.spc) inode with
    | none => simp [hskip] at hn
    | some c =>
        rw [hskip] at hn
        dsimp only at hn ⊢
        by_cases hc : isCluster c = true
        · have hmod := Nat.mod_lt n hb.spc_pos
          refine ⟨c, h.skipClusters_mem hb hdir hskip hc, ?_⟩
          rw [if_pos hc, InCluster, clusterAddr, Bpb.clusterBytes]
          omega
        · exact absurd (if_neg hc) hn

/-- A node that `fat16_vfs_finddir` returns from a known directory is held. -/
theorem fat16VfsFinddir_held {fs fs' : Fs} {node found : VfsNode} (hb : Mirrored fs.bpb)
    (h : Guarded fs.bpb D F fs.disk) (hnode : Held fs.bpb D F fs.disk node)
    (hflags : node.flags = vfsDir)
    (hfind : fat16VfsFinddir fuel node name fs = some (some found, fs')) :
    Held fs.bpb D F fs.disk found := by
  unfold fat16VfsFinddir at hfind
  split_ifs at hfind
  swap
  · cases hfind
  obtain ⟨r, hscan, hfind⟩ := Option.bind_eq_some_iff.1 hfind
  rcases r with _ | ⟨e, lba, i⟩
  · cases hfind
  obtain ⟨⟨addr, heap⟩, -, hfind⟩ := Option.map_eq_some_iff.1 hfind
  dsimp only at hfind
  split_ifs at hfind
  · cases hfind
  obtain ⟨hfound, -⟩ := Prod.mk.inj hfind
  obtain rfl := Option.some.inj hfound
  rcases scanDir_returned hb.spc_pos hscan with hnone | ⟨m, j, _, hsector, hj, hdone⟩
  · cases hnone
  rw [finddirVisit_eq] at hdone
  split_ifs at hdone with hzero hmatch
  · cases hdone
  simp only [Visit.done.injEq, Option.some.injEq, Prod.mk.injEq] at hdone
  obtain ⟨rfl, rfl, rfl⟩ := hdone
  have harea := h.dirSector_area hb hnode.inode_lt (hnode.dir hflags) hsector
    (show 32 * j < 512 by omega)
  have hleads := h.slots _ (by omega) harea hmatch.1
  rw [Leads] at hleads
  refine ⟨load16_lt _ _, fun hdir hc => ?_, fun hfile hc => ?_, fun hfile => ?_⟩
  · by_cases hisDir : isDirectory (entryAt fs.disk
        (512 * dirSectorLba fs.bpb fs.disk node.inode m + 32 * j)) = true
    · rw [if_pos hisDir] at hleads
      exact hleads hc
    · simp [nodeOf, hisDir, vfsFile, vfsDir] at hdir
  · by_cases hisDir : isDirectory (entryAt fs.disk
        (512 * dirSectorLba fs.bpb fs.disk node.inode m + 32 * j)) = true
    · simp [nodeOf, hisDir, vfsFile, vfsDir] at hfile
    · rw [if_neg hisDir] at hleads
      exact hleads hc
  · refine ⟨dirSectorLba_lt hb.spc_pos _ _ _, hj, harea, hmatch.1, ?_⟩
    by_contra hisDir
    rw [Bool.not_eq_false] at hisDir
    have hisDir' : isDirectory (entryAt fs.disk
        (512 * dirSectorLba fs.bpb fs.disk node.inode m + 32 * j)) = true := hisDir
    simp [nodeOf, hisDir', vfsFile, vfsDir] at hfile

/-! ## Creations -/

/-- `fat16_write_dir_entry` in a known directory: nothing, or a free slot is filled. -/
theorem fat16WriteDirEntry_slot (hb : Mirrored b) (h : Guarded b D F d) (hlt : inode < 65536)
    (hdir : isCluster inode = true → inode ∈ D) {first size : ℕ} {attr : UInt8} {ok : Bool}
    (hrun : fat16WriteDirEntry fuel b d inode name first size attr = some (ok, d')) :
    (ok = false ∧ d' = d) ∨ ∃ name83 ext83 a, ok = true ∧ a % 32 = 0 ∧ DirArea b D a ∧
      IsFree (entryAt d a) ∧ d' = copy d a (newEntry name83 ext83 first size attr) 0 32 := by
  unfold fat16WriteDirEntry at hrun
  cases hname : formatName83 name with
  | none =>
      rw [hname] at hrun
      obtain ⟨rfl, rfl⟩ := Prod.mk.inj (Option.some.inj hrun)
      exact Or.inl ⟨rfl, rfl⟩
  | some p =>
      obtain ⟨name83, ext83⟩ := p
      rw [hname] at hrun
      obtain ⟨r, hscan, hrun⟩ := Option.map_eq_some_iff.1 hrun
      rcases r with _ | ⟨lba, i⟩
      · obtain ⟨rfl, rfl⟩ := Prod.mk.inj hrun
        exact Or.inl ⟨rfl, rfl⟩
      · obtain ⟨rfl, rfl⟩ := Prod.mk.inj hrun
        rcases scanDir_returned hb.spc_pos hscan with hnone | ⟨m, j, _, hsector, hj, hdone⟩
        · cases hnone
        rw [freeSlotVisit_eq] at hdone
        split_ifs at hdone with hfree
        simp only [Visit.done.injEq, Option.some.injEq, Prod.mk.injEq] at hdone
        obtain ⟨rfl, rfl⟩ := hdone
        exact Or.inr ⟨name83, ext83, _, rfl, by omega,
          h.dirSector_area hb hlt hdir hsector (by omega), hfree,
          writeSector_slot d _ (dirSectorLba_lt hb.spc_pos _ _ _) hj⟩

/-- A free slot gets an entry that leads to a known cluster or to none. -/
theorem fillSlot_run (hb : Mirrored b) (h : Guarded b D F d) {a : ℕ} {e : Bytes}
    (ha : a % 32 = 0) (harea : DirArea b D a) (hfree : IsFree (entryAt d a))
    (he : Leads D F e) : GuardedRun b D F d [] D F (copy d a e 0 32) := by
  have hout : ∀ x, x < a ∨ a + 32 ≤ x → copy d a e 0 32 x = d x := fun x hx =>
    copy_of_apart _ _ _ hx
  have hother : ∀ a', a' % 32 = 0 → a' ≠ a → ∀ x < 32,
      entryAt (copy d a e 0 32) a' x = entryAt d a' x := fun a' ha' hne x hx => hout _ (by omega)
  have hentry : ∀ x < 32, entryAt (copy d a e 0 32) a x = e x := fun x hx => by
    rw [entryAt, copy_of_mem _ _ (by omega)]
    refine congrArg e ?_
    omega
  have hroot := h.rootAddr_le hb harea
  have htable : ∀ x < 512 * b.rootDirLba, copy d a e 0 32 x = d x := fun x hx =>
    hout x (by omega)
  have hfat : ∀ c, c ∈ D ∨ c ∈ F → fatAt b (copy d a e 0 32) c = fatAt b d c := fun c hc =>
    fatAt_congr hb.geometry (h.lt_table hc) htable
  refine ⟨⟨fun c hc => ?_, fun c hc => ?_, fun c hc => ?_, h.apart,
    fun a' ha' hplace hvisible => ?_⟩, subset_rfl, subset_rfl, TableRun.of_outside hb htable,
    fun a' ha' _ hvisible x hx => hother a' ha' ?_ x (by omega)⟩
  · rw [hfat c hc]
    exact h.used c hc
  · rw [hfat c (Or.inl hc)]
    exact h.dirNext c hc
  · rw [hfat c (Or.inr hc)]
    exact h.fileNext c hc
  · by_cases hsame : a' = a
    · rw [hsame]
      exact he.congr hentry
    · rw [visible_congr fun x hx => hother a' ha' hsame x (by omega)] at hvisible
      exact (h.slots a' ha' hplace hvisible).congr (hother a' ha' hsame)
  · rintro rfl
    exact hvisible.not_isFree hfree

/-- The cluster of a new directory joins the directories: its slots are the dot entries
and zero. -/
theorem Guarded.insert_initDir (hb : Mirrored b) (h : Guarded b D F (initDirCluster b d c inode))
    (hc : 2 ≤ c) (hlt : c < 256 * b.fatSize) (hF : c ∉ F)
    (hmark : fatAt b (initDirCluster b d c inode) c = 0xFFFF) (hinode : inode < 65536)
    (hdir : isCluster inode = true → inode ∈ D) :
    Guarded b (insert c D) F (initDirCluster b d c inode) := by
  refine h.insertDir hc hlt hF ?_ ?_ fun a ha hin hvisible => ?_
  · rw [hmark]
    omega
  · rw [hmark]
    rfl
  · obtain ⟨y, rfl⟩ := Nat.exists_eq_add_of_le hin.1
    have hfits := hin.2
    have hmod : y % 32 = 0 ∧ y + 32 ≤ b.clusterBytes := by
      rw [clusterAddr] at ha
      rw [Bpb.clusterBytes] at hfits ⊢
      omega
    have hentry : ∀ x < 32, entryAt (initDirCluster b d c inode) (clusterAddr b c + y) x =
        if y + x < 512 then dotSector c inode (y + x) else 0 := fun x hx => by
      rw [entryAt, Nat.add_assoc, initDirCluster_of_lt hc (hb.lt hlt) hb.spc_pos inode (by omega)]
    rcases Nat.lt_or_ge y 64 with hdot | hrest
    · -- the dot entries
      have hslot : y = 32 * (y / 32) ∧ y / 32 < 2 := by omega
      have hdotEntry : ∀ x < 32, entryAt (initDirCluster b d c inode) (clusterAddr b c + y) x =
          dotEntry (y / 32) (if y / 32 = 0 then c else inode % 65536) x := fun x hx => by
        rw [hentry x hx, if_pos (by omega), ← dotSector_slot hslot.2 hx, ← hslot.1]
      refine Leads.congr ?_ hdotEntry
      rw [Leads, if_pos (isDirectory_dotEntry _ _), Nat.mod_eq_of_lt hinode, dotEntry,
        firstCluster_newEntry _ _ _ _ (by split_ifs <;> [exact hb.lt hlt; exact hinode])]
      split_ifs
      · exact fun _ => Set.mem_insert c D
      · exact fun hcluster => Set.mem_insert_of_mem c (hdir hcluster)
    · have hzero : entryAt (initDirCluster b d c inode) (clusterAddr b c + y) 0 = 0 := by
        rw [hentry 0 (by omega)]
        split_ifs
        · exact dotSector_rest (by omega)
        · rfl
      exact absurd hzero hvisible.first_ne_zero

/-- `fat_free_chain` on a new directory's cluster: it is freed, or its number is one that
the loop takes for an end mark. -/
theorem fatFreeChain_run (hb : Mirrored b) (h : Guarded b D F d) (hlt : c < 256 * b.fatSize)
    (hD : c ∉ D) (hF : c ∉ F) (hmark : fatAt b d c = 0xFFFF)
    (hrun : fatFreeChain b fuel c d = some d') :
    GuardedRun b D F d (freeChainCalls b fuel c d) D F d' := by
  have hend : isCluster 0xFFFF = false := rfl
  cases fuel with
  | zero =>
      rw [fatFreeChain] at hrun
      split_ifs at hrun
      obtain rfl := Option.some.inj hrun
      exact GuardedRun.refl h
  | succ fuel =>
      rw [fatFreeChain, fatEntry_eq (hb.lt hlt), hmark] at hrun
      rw [freeChainCalls, fatEntry_eq (hb.lt hlt), hmark]
      by_cases hcluster : isCluster c = true
      · have hstop : ∀ d₁, fatFreeChain b fuel 0xFFFF d₁ = some d₁ ∧
            freeChainCalls b fuel 0xFFFF d₁ = [] := fun d₁ => by
          cases fuel <;> simp [fatFreeChain, freeChainCalls, hend]
        rw [if_pos hcluster, (hstop _).1] at hrun
        rw [if_pos hcluster, (hstop _).2]
        obtain rfl := Option.some.inj hrun
        exact (FileRun.fatSetEntry hb h hlt (by omega) hD fun hcF => absurd hcF hF).guardedRun
      · rw [if_neg hcluster] at hrun ⊢
        obtain rfl := Option.some.inj hrun
        exact GuardedRun.refl h

theorem leads_newEntry_dir (name83 ext83 : Bytes) (hlt : c < 65536) (hc : c ∈ D) :
    Leads D F (newEntry name83 ext83 c 0 0x10) := by
  have hisDir : isDirectory (newEntry name83 ext83 c 0 0x10) = true := by
    rw [isDirectory, attributes_newEntry]
    decide
  rw [Leads, if_pos hisDir, firstCluster_newEntry _ _ _ _ hlt]
  exact fun _ => hc

theorem leads_newEntry_file (name83 ext83 : Bytes) :
    Leads D F (newEntry name83 ext83 0 0 0x20) := by
  have hfile : ¬ isDirectory (newEntry name83 ext83 0 0 0x20) = true := by
    rw [isDirectory, attributes_newEntry]
    decide
  rw [Leads, if_neg hfile, firstCluster_newEntry _ _ _ _ (by omega)]
  exact fun htwo => by omega

/-- A call of `fat16_vfs_create`, whether it succeeds or not. -/
theorem fat16VfsCreate_run {fs fs' : Fs} {node : VfsNode} {r : Option VfsNode}
    (hb : Mirrored fs.bpb) (h : Guarded fs.bpb D F fs.disk) (hnode : Held fs.bpb D F fs.disk node)
    (hflags : node.flags = vfsDir)
    (hrun : fat16VfsCreate fuel node name flags fs = some (r, fs')) :
    fs'.bpb = fs.bpb ∧ ∃ D', GuardedRun fs.bpb D F fs.disk (createCalls fuel node name flags fs)
      D' F fs'.disk ∧ ∀ found, r = some found → Held fs.bpb D' F fs'.disk found := by
  -- once the entry is in its slot
  have hlookup : ∀ {D' : Set ℕ} {d' : Disk} {log : List (ℕ × ℕ)},
      GuardedRun fs.bpb D F fs.disk log D' F d' →
      fat16VfsFinddir fuel node name { fs with disk := d' } = some (r, fs') →
      fs'.bpb = fs.bpb ∧ ∃ D', GuardedRun fs.bpb D F fs.disk log D' F fs'.disk ∧
        ∀ found, r = some found → Held fs.bpb D' F fs'.disk found := by
    intro D' d' log hdone hfind
    obtain ⟨hdisk, hbpb, -⟩ := fat16VfsFinddir_disk hfind
    refine ⟨hbpb, D', by rwa [hdisk], ?_⟩
    rintro found rfl
    rw [hdisk]
    exact fat16VfsFinddir_held (show Mirrored ({ fs with disk := d' } : Fs).bpb from hb)
      hdone.guarded (hnode.run hdone) hflags hfind
  rw [createCalls]
  unfold fat16VfsCreate at hrun
  by_cases hmounted : fs.mounted = true
  swap
  · rw [if_neg hmounted] at hrun ⊢
    obtain ⟨rfl, rfl⟩ := Prod.mk.inj (Option.some.inj hrun)
    exact ⟨rfl, D, GuardedRun.refl h, fun found hr => by cases hr⟩
  rw [if_pos hmounted] at hrun ⊢
  have hlt := hnode.inode_lt
  by_cases hflag : flags &&& vfsDir ≠ 0
  · rw [if_pos hflag] at hrun ⊢
    rcases fatAllocCluster_calls hb fs.disk with
      ⟨halloc, hcalls⟩ | ⟨c, hc, hclt, hfree, halloc, hcalls⟩
    · rw [halloc] at hrun ⊢
      simp only [if_true, Option.some.injEq, Prod.mk.injEq] at hrun ⊢
      obtain ⟨rfl, rfl⟩ := hrun
      rw [hcalls]
      exact ⟨rfl, D, GuardedRun.refl h, fun found hr => by cases hr⟩
    · have hne : c ≠ 0 := by omega
      rw [halloc] at hrun ⊢
      simp only [hne, if_false] at hrun ⊢
      rw [hcalls]
      obtain ⟨hD, hF⟩ := h.not_mem_of_free hfree
      have hmark := FileRun.fatSetEntry hb h hclt (show 0xFFFF < 65536 by omega) hD
        fun hcF => absurd hcF hF
      have hinit : FileRun fs.bpb D F (fatSetEntry fs.bpb fs.disk c 0xFFFF) [] F
          (initDirCluster fs.bpb (fatSetEntry fs.bpb fs.disk c 0xFFFF) c node.inode) :=
        FileRun.of_cluster hb hmark.guarded hc (hb.lt hclt) hD fun x hx =>
          initDirCluster_of_not_mem hc (hb.lt hclt) hb.spc_pos node.inode hx
      have hstart := (hmark.trans hinit).guardedRun
      rw [List.append_nil] at hstart
      have hentry : fatAt fs.bpb
          (initDirCluster fs.bpb (fatSetEntry fs.bpb fs.disk c 0xFFFF) c node.inode) c = 0xFFFF := by
        rw [hinit.table.fat c hclt, latest_nil]
        exact fatAt_fatSetEntry_self (hb.lt hclt) hclt (by omega)
      obtain ⟨⟨ok, d₂⟩, hwrite, hrun⟩ := Option.bind_eq_some_iff.1 hrun
      rw [hwrite]
      rcases fat16WriteDirEntry_slot hb hstart.guarded hlt (hnode.dir hflags) hwrite with
        ⟨rfl, rfl⟩ | ⟨name83, ext83, a, rfl, ha, harea, hisFree, rfl⟩
      · obtain ⟨d₃, hfreed, hrun⟩ := Option.map_eq_some_iff.1 hrun
        obtain ⟨rfl, rfl⟩ := Prod.mk.inj hrun
        exact ⟨rfl, D, hstart.trans (fatFreeChain_run hb hstart.guarded hclt hD hF hentry hfreed),
          fun found hr => by cases hr⟩
      · have hinsert := hstart.guarded.insert_initDir hb hc hclt hF hentry hlt (hnode.dir hflags)
        have hsub : D ⊆ insert c D := Set.subset_insert c D
        have hgrown : GuardedRun fs.bpb D F _ [] (insert c D) F _ :=
          ⟨hinsert, hsub, subset_rfl, TableRun.refl _ _, fun _ _ _ _ _ _ => rfl⟩
        have hfill := fillSlot_run hb hinsert ha (harea.mono hsub) hisFree
          (leads_newEntry_dir name83 ext83 (hb.lt hclt) (Set.mem_insert c D))
        have hall := hstart.trans (hgrown.trans hfill)
        rw [List.append_nil, List.append_nil] at hall
        exact hlookup hall hrun
  · rw [if_neg hflag] at hrun ⊢
    obtain ⟨⟨ok, d₂⟩, hwrite, hrun⟩ := Option.bind_eq_some_iff.1 hrun
    rcases fat16WriteDirEntry_slot hb h hlt (hnode.dir hflags) hwrite with
      ⟨rfl, rfl⟩ | ⟨name83, ext83, a, rfl, ha, harea, hisFree, rfl⟩
    · obtain ⟨rfl, rfl⟩ := Prod.mk.inj (Option.some.inj hrun)
      exact ⟨rfl, D, GuardedRun.refl h, fun found hr => by cases hr⟩
    · exact hlookup (fillSlot_run hb h ha harea hisFree (leads_newEntry_file name83 ext83)) hrun

end Fat16

end Yotos
