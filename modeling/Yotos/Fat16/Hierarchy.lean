import Yotos.Fat16.Rollback
import Yotos.Fat16.Termination
import Yotos.Fat16.Tree

/-!
# Runs that keep the tree

Files are written, looked up and closed as in any session, and every creation is for a
name that the directory does not have and that a lookup finds afterwards. The last
condition leaves out names such as three blanks and two dots, which the driver accepts
and shows as `..`. The directories stay a tree, `..` of a subdirectory leads back, and a
new directory lists as empty until something is created in it.
-/

namespace Yotos

namespace Fat16

open Bytes Kheap Library Relation

variable {b : Bpb} {top : ℕ} {d d' : Disk} {first : ℕ → ℕ} {c dir k p q f fuel j : ℕ} {l : List ℕ}
  {name : List UInt8} {name83 ext83 : Bytes} {flags : UInt32}

/-- The calls that make no entry, and the other uses of the heap. -/
inductive Quiet : Session → Session → Prop
  | write {fs fs' : Fs} {node node' : VfsNode} {before after : List VfsNode} {offset size : ℕ}
      {buf : Bytes} {ret : ℤ} (hoff : offset + size < 2 ^ 32)
      (hrun : fat16VfsWrite node offset size buf fs = some (ret, node', fs')) :
      Quiet ⟨fs, before ++ node :: after⟩ ⟨fs', before ++ node' :: after⟩
  | finddir {fs fs' : Fs} {dir : VfsNode} {nodes nodes' : List VfsNode} {fuel : ℕ}
      {name : List UInt8} {r : Option VfsNode} (hdir : IsDir fs.bpb fs.disk dir.inode)
      (hrun : fat16VfsFinddir fuel dir name fs = some (r, fs')) (hkeep : Keeps nodes r nodes') :
      Quiet ⟨fs, nodes⟩ ⟨fs', nodes'⟩
  | close {fs : Fs} {node : VfsNode} {before after : List VfsNode} :
      Quiet ⟨fs, before ++ node :: after⟩ ⟨fat16VfsClose node fs, before ++ after⟩
  | kernel {fs : Fs} {nodes : List VfsNode} (start : ℕ) (heap : Bytes) :
      Quiet ⟨fs, nodes⟩ ⟨{ fs with heapStart := start, heap := heap }, nodes⟩

/-- The directories that are new on `fs'`: those that were none before, and the one whose
node a call for a directory returned. -/
def NewDirs (fs fs' : Fs) (flags : UInt32) (r : Option VfsNode) : Set ℕ :=
  {q | (IsDir fs'.bpb fs'.disk q ∧ ¬ IsDir fs.bpb fs.disk q) ∨
    (flags &&& vfsDir ≠ 0 ∧ ∃ node, r = some node ∧ node.inode = q)}

/-- One call, with the set of the directories that were created so far and in which
nothing was created since. -/
inductive TreeStep : Session × Set ℕ → Session × Set ℕ → Prop
  | quiet {s s' : Session} {fresh : Set ℕ} (h : Quiet s s') : TreeStep (s, fresh) (s', fresh)
  | create {fs fs' : Fs} {dir : VfsNode} {nodes nodes' : List VfsNode} {fuel : ℕ}
      {name : List UInt8} {flags : UInt32} {r : Option VfsNode} {fresh : Set ℕ}
      (hdir : IsDir fs.bpb fs.disk dir.inode) (hname : 0 ∉ name)
      (habsent : ∀ j, LiveSlot fs.bpb fs.disk dir.inode j →
        nameMatch (entryAt fs.disk (slotAddr fs.bpb fs.disk dir.inode j)) name = false)
      (hrun : fat16VfsCreate fuel dir name flags fs = some (r, fs'))
      (hfound : NotCreated fs.bpb fs.disk dir.inode name flags ∨
        ∃ j, LiveSlot fs'.bpb fs'.disk dir.inode j ∧
          nameMatch (entryAt fs'.disk (slotAddr fs'.bpb fs'.disk dir.inode j)) name = true)
      (hkeep : Keeps nodes r nodes') :
      TreeStep (⟨fs, nodes⟩, fresh)
        (⟨fs', nodes'⟩, (fresh \ {dir.inode}) ∪ NewDirs fs fs' flags r)

/-- The entry that a node was read from. -/
def nodeEntry (d : Disk) (node : VfsNode) : Bytes :=
  entryAt d (512 * node.dirLba + 32 * node.dirIndex)

/-- Looking `..` up in a subdirectory that was looked up in `P` gives `P`, and it does so
if there is heap for the node. -/
def LeadsBack (fs : Fs) : Prop :=
  ∀ (fuel : ℕ) (P D : VfsNode) (name : List UInt8) (fs' : Fs), IsDir fs.bpb fs.disk P.inode →
    fat16VfsFinddir fuel P name fs = some (some D, fs') → D.flags = vfsDir →
    isDot (nodeEntry fs.disk D) = false →
    (∀ (fuel' : ℕ) (U : VfsNode) (fs'' : Fs),
      fat16VfsFinddir fuel' D dotdotName fs' = some (some U, fs'') →
        U.inode = P.inode ∧ U.flags = vfsDir) ∧
    (NodeRoom fs' → ∃ fuel' U fs'', fat16VfsFinddir fuel' D dotdotName fs' = some (some U, fs''))

/-- Directory `q` shows no entry. -/
def ListsEmpty (fs : Fs) (q : ℕ) : Prop :=
  ∀ (fuel : ℕ) (node : VfsNode) (index : ℕ), node.inode = q →
    fat16VfsReaddir (fuel + 1) node index fs = some none

/-- A directory that holds its dot entries and nothing else. -/
def FreshDir (b : Bpb) (d : Disk) (q : ℕ) : Prop :=
  IsDir b d q ∧ ∀ j, HasSlot b d q j → FreshSlot b d q j

/-! ## Names of dot entries -/

/-- A name without letters agrees with no other one up to case. -/
theorem map_toUpper_eq {xs ys : List UInt8} (hys : ∀ y ∈ ys, y.toNat < 0x41)
    (h : xs.map toUpper = ys.map toUpper) : xs = ys := by
  induction xs generalizing ys with
  | nil => exact (List.map_eq_nil_iff.1 h.symm).symm
  | cons x xs ih =>
      cases ys with
      | nil => cases h
      | cons y ys =>
          obtain ⟨hhead, htail⟩ := List.cons.inj h
          have hy := hys y (by simp)
          have hyy : toUpper y = y := if_neg fun h => by
            have := UInt8.le_iff_toNat_le.1 h.1
            have : (0x61 : UInt8).toNat = 0x61 := rfl
            omega
          rw [toUpper_eq_of_lt hy (hhead.trans hyy), ih (fun v hv => hys v (by simp [hv])) htail]

theorem nameMatch_dotdotName {e : Bytes} :
    nameMatch e dotdotName = true ↔ format83 e = dotdotName := by
  rw [nameMatch_iff (by decide)]
  refine ⟨map_toUpper_eq (by simp [dotdotName]), fun h => by rw [h]⟩

/-- What is accepted as a new name and found under it is not shown as a dot entry. -/
theorem format83_ne_of_nameMatch {e : Bytes} (hname : 0 ∉ name)
    (hformat : formatName83 name = some (name83, ext83)) (hmatch : nameMatch e name = true)
    {dots : List UInt8} (hdots : ∀ y ∈ dots, y = 0x2E) : format83 e ≠ dots := by
  intro heq
  have hmap := (nameMatch_iff hname).1 hmatch
  rw [heq] at hmap
  have hself := map_toUpper_eq (fun y hy => by rw [hdots y hy]; decide) hmap.symm
  obtain ⟨c, cs, hcons, hne, -⟩ := formatName83_first hformat
  exact hne (hdots c (by rw [← hself, hcons]; simp))

/-! ## The laws of a state -/

/-- A lookup of `..` gives the directory that the entry `..` links to. -/
theorem finddir_dotdot {fs fs' : Fs} {node found : VfsNode} (hb : Geometry fs.bpb top)
    (hl : FileChain fs.bpb top fs.disk node.inode l)
    (hlink : LinkAt fs.bpb fs.disk node.inode dotdotName p j)
    (hfind : fat16VfsFinddir fuel node dotdotName fs = some (some found, fs')) :
    found.inode = p ∧ found.flags = vfsDir := by
  obtain ⟨i, addr, hi, hmatch, rfl, hfirst, -⟩ := fat16VfsFinddir_some hb hl hfind
  have hij : i = j := by
    rcases Nat.lt_trichotomy i j with hlt | heq | hgt
    · exact absurd (nameMatch_dotdotName.1 hmatch) (hlink.before i hlt hi)
    · exact heq
    · have hno := hfirst j hgt hlink.live
      rw [nameMatch_dotdotName.2 hlink.named] at hno
      cases hno
  subst hij
  exact ⟨hlink.cluster, if_pos hlink.isDir⟩

/-- With heap for the node the lookup of `..` succeeds. -/
theorem exists_finddir_dotdot {fs : Fs} {node : VfsNode} (hb : Geometry fs.bpb top)
    (hl : FileChain fs.bpb top fs.disk node.inode l) (hmounted : fs.mounted = true)
    (hlink : LinkAt fs.bpb fs.disk node.inode dotdotName p j) (hroom : NodeRoom fs) :
    ∃ fuel found fs', fat16VfsFinddir fuel node dotdotName fs = some (some found, fs') := by
  obtain ⟨addr, heap, halloc, haddr⟩ := hroom
  obtain ⟨n, hn, hend⟩ := exists_dirEnd hb hl
  have hends : ∃ r, scanDir fs.bpb fs.disk node.inode (finddirVisit dotdotName) (n + 1) 0 () =
      some r := by
    refine scanDir_isSome hb.spc_pos (by omega) (Or.inl ?_) ()
    rwa [Nat.zero_add]
  obtain ⟨r, hscan⟩ := hends
  cases r with
  | none =>
      have hno := finddir_none hb hl hscan hlink.live
      rw [nameMatch_dotdotName.2 hlink.named] at hno
      cases hno
  | some found =>
      refine ⟨n + 1, nodeOf found.1 found.2.1 found.2.2 addr, { fs with heap := heap }, ?_⟩
      rw [fat16VfsFinddir, if_pos hmounted, hscan, Option.bind_some]
      dsimp only
      rw [halloc, Option.map_some]
      dsimp only
      rw [if_neg haddr]

theorem leadsBack_of_treeLaw {fs : Fs} (hb : Geometry fs.bpb top)
    (hs : Sound fs.bpb top fs.disk first) (hmounted : fs.mounted = true)
    (htree : TreeLaw fs.bpb fs.disk) : LeadsBack fs := by
  intro fuel P D name fs' hP hfind hflags hdot
  obtain ⟨m, hm, -⟩ := hs.exists_dirChain hP
  obtain ⟨k, addr, hlive, -, rfl, -, hdisk, hbpb, hmounted'⟩ := fat16VfsFinddir_some hb hm hfind
  have hisDir : isDirectory (entryAt fs.disk (slotAddr fs.bpb fs.disk P.inode k)) = true := by
    by_contra hfile
    rw [Bool.not_eq_true] at hfile
    simp [nodeOf, hfile, vfsFile, vfsDir] at hflags
  have hsub : Subdir fs.bpb fs.disk P.inode k
      (firstCluster (entryAt fs.disk (slotAddr fs.bpb fs.disk P.inode k))) :=
    ⟨hP, hlive, hisDir, hdot, rfl⟩
  obtain ⟨j, hlink⟩ := htree.dotdot _ _ _ hsub
  obtain ⟨m', hm', -⟩ := hs.exists_dirChain hsub.isDir_child
  generalize hD : nodeOf (entryAt fs.disk (slotAddr fs.bpb fs.disk P.inode k))
    (dirSectorLba fs.bpb fs.disk P.inode (k / 16)) (k % 16) addr = D
  have hinode : firstCluster (entryAt fs.disk (slotAddr fs.bpb fs.disk P.inode k)) = D.inode :=
    congrArg VfsNode.inode hD
  rw [hinode, ← hdisk, ← hbpb] at hlink hm'
  rw [← hbpb] at hb
  exact ⟨fun fuel' U fs'' hup => finddir_dotdot hb hm' hlink hup, fun hroom =>
    exists_finddir_dotdot hb hm' (hmounted'.trans hmounted) hlink hroom⟩

/-- A dot entry starts with a dot. -/
theorem isDot_first {e : Bytes} (h : isDot e = true) : e 0 = 0x2E := by
  rw [isDot, Bool.and_eq_true, Bool.or_eq_true] at h
  have hhead : (rawName e).head? = some (e 0) := rfl
  rcases h.2 with hraw | hraw <;>
  · rw [eq_of_beq hraw] at hhead
    exact (Option.some.inj hhead).symm

theorem readdirVisit_dot (index lba i : ℕ) {e : Bytes} (h : e 0 = 0x2E) (valid : ℕ) :
    readdirVisit index lba i e valid = .next valid := by
  unfold readdirVisit
  rw [if_neg, if_pos h]
  · split_ifs <;> rfl
  · rw [skipEntry_eq_two, h]
    decide

theorem FreshDir.listsEmpty {fs : Fs} (hspc : 1 ≤ fs.bpb.spc) (h : FreshDir fs.bpb fs.disk q) :
    ListsEmpty fs q := by
  rintro fuel node index rfl
  unfold fat16VfsReaddir
  split_ifs
  · rw [scanDir]
    split_ifs with hend
    · rfl
    · have hslot {i : ℕ} (hi : i < 16) : FreshSlot fs.bpb fs.disk node.inode i :=
        h.2 i (by rwa [HasSlot, Nat.div_eq_of_lt hi])
      have hvisit (i : ℕ) (hi : i < 16) (s : ℕ) :=
        slotVisit_eq hspc fs.disk node.inode (readdirVisit index) 0 hi s
      have hzero : entryAt fs.disk (slotAddr fs.bpb fs.disk node.inode 2) 0 = 0 :=
        (hslot (show 2 < 16 by omega)).2 le_rfl
      rw [scanSector, hvisit 0 (by omega), slotVisit, readdirVisit_dot _ _ _
        (isDot_first ((hslot (by omega)).1 (by omega)).2.1)]
      dsimp only
      rw [scanSector, hvisit 1 (by omega), slotVisit, readdirVisit_dot _ _ _
        (isDot_first ((hslot (by omega)).1 (by omega)).2.1)]
      dsimp only
      rw [scanSector, hvisit 2 (by omega), slotVisit, readdirVisit,
        if_pos (skipEntry_eq_two.2 hzero)]
  · rfl

/-! ## What a call keeps -/

theorem FreshSlot.congr (h : FreshSlot b d q j) (haddr : slotAddr b d' q j = slotAddr b d q j)
    (hhead : ∀ x < 26, entryAt d' (slotAddr b d q j) x = entryAt d (slotAddr b d q j) x) :
    FreshSlot b d' q j := by
  have hfirst := hhead 0 (by omega)
  rw [entryAt, entryAt, Nat.add_zero] at hfirst
  rw [FreshSlot, haddr, hfirst, isDot_congr hhead, format83_congr hhead]
  exact h

theorem SameTree.freshDir (hb : Geometry b top) (hs : Sound b top d first)
    (h : SameTree b d d' f) (hfresh : FreshDir b d q) : FreshDir b d' q := by
  obtain ⟨hq, hslots⟩ := hfresh
  refine ⟨(h.isDir_iff hb hs).2 hq, fun j hj => ?_⟩
  have hj' := (h.hasSlot_iff hq).1 hj
  exact (hslots j hj').congr (h.slotAddr_eq hq j) (h.entry_head hq hj')

namespace Created

/-- Another directory is as fresh as before. -/
theorem freshDir (hb : Geometry b top) (hs : Sound b top d first) {e : Bytes}
    (h : Created b top d dir k e l d') (hdir : IsDir b d dir) (hne : q ≠ dir)
    (hfresh : FreshDir b d q) : FreshDir b d' q := by
  obtain ⟨hq, hslots⟩ := hfresh
  refine ⟨h.isDir_of_isDir hb hs hq, fun j hj => ?_⟩
  have hj' := (h.hasSlot_iff hb hs hq).1 hj
  have hslot : slotAddr b d q j ≠ slotAddr b d dir k := fun heq =>
    hne (slotAddr_inj hb hs hq hdir hj' h.slot.has heq).1
  exact (hslots j hj').congr (h.slotAddr_eq hb hs hq j) fun x hx =>
    h.slot_other hb hs hq hj' hslot (by omega)

/-- With no entry of the name before, the one that a lookup finds is the new one. -/
theorem eq_of_nameMatch (hb : Geometry b top) (hs : Sound b top d first) (hzero : ZeroTail b d)
    {e : Bytes} (h : Created b top d dir k e l d') (hdir : IsDir b d dir)
    (habsent : ∀ j, LiveSlot b d dir j →
      nameMatch (entryAt d (slotAddr b d dir j)) name = false)
    (hlive : LiveSlot b d' dir j)
    (hmatch : nameMatch (entryAt d' (slotAddr b d' dir j)) name = true) : j = k := by
  rw [h.slotAddr_eq hb hs hdir] at hmatch
  rcases h.live_cases hb hs hzero hdir hlive with heq | hlive'
  · exact (slotAddr_inj hb hs hdir hdir ((h.hasSlot_iff hb hs hdir).1 hlive.has) h.slot.has heq).2
  · rw [nameMatch_congr fun x hx => h.slot_other hb hs hdir hlive'.has (h.live_ne hlive')
      (show x < 32 by omega), habsent j hlive'] at hmatch
    cases hmatch

end Created

/-- A write changes no directory, and the other quiet calls do not change the disk. -/
theorem Quiet.sameTree (hb : Layout b) {s s' : Session} (h : Quiet s s')
    (hinv : Session.Inv b s) : ∃ first f, Sound b (dataTop b) s.fs.disk first ∧
      SameTree b s.fs.disk s'.fs.disk f := by
  obtain ⟨hbpb, hmounted, -, ⟨first, hs, hnodes⟩, -⟩ := hinv
  have hsame : SameTree b s.fs.disk s.fs.disk 1 :=
    (Unharmed.refl b (dataTop b) s.fs.disk).sameTree hb.dataGeometry hs
  cases h with
  | @write fs fs' node node' before after offset size buf ret hoff hrun =>
      dsimp only at hbpb hmounted hs hnodes ⊢
      subst hbpb
      obtain ⟨f, hf, hinode⟩ := hnodes node (by simp)
      obtain ⟨l, hl⟩ := hs.chain f hf.owner
      obtain ⟨houtcome, -, -⟩ := fat16VfsWrite_cases hb.dataGeometry hmounted hs.free
        (hinode ▸ hl) hf.inode_lt hoff hrun
      obtain ⟨l', hreg, -, -⟩ := houtcome.regrown hb.dataGeometry hs hf hinode hl
      exact ⟨first, f, hs, hreg.sameTree hb.dataGeometry hs hf.owner hf.file hl⟩
  | finddir hdir hrun hkeep =>
      dsimp only at hsame hs ⊢
      rw [(fat16VfsFinddir_disk hrun).1]
      exact ⟨first, 1, hs, hsame⟩
  | close => exact ⟨first, 1, hs, hsame⟩
  | kernel => exact ⟨first, 1, hs, hsame⟩

theorem Quiet.step {s s' : Session} (h : Quiet s s') : Step s s' := by
  cases h with
  | write hoff hrun => exact .write hoff hrun
  | finddir hdir hrun hkeep => exact .finddir hdir hrun hkeep
  | close => exact .close
  | kernel start heap => exact .kernel start heap

theorem TreeStep.step {t t' : Session × Set ℕ} (h : TreeStep t t') : Step t.1 t'.1 := by
  cases h with
  | quiet hquiet => exact hquiet.step
  | create hdir hname _ hrun _ hkeep => exact .create hdir hname hrun hkeep

/-- The invariant of a run. -/
structure TreeInv (b : Bpb) (t : Session × Set ℕ) : Prop where
  session : Session.Inv b t.1
  tree : TreeLaw b t.1.fs.disk
  fresh : ∀ q ∈ t.2, FreshDir b t.1.fs.disk q

/-- The call for a file or a directory, with the dot entries of a new directory. -/
theorem fat16VfsCreate_links {fs fs' : Fs} {node : VfsNode} {r : Option VfsNode}
    (hb : Geometry fs.bpb top) (hs : Sound fs.bpb top fs.disk first) (hmounted : fs.mounted = true)
    (hdir : IsDir fs.bpb fs.disk node.inode) (hname : 0 ∉ name)
    (hrun : fat16VfsCreate fuel node name flags fs = some (r, fs')) :
    (r = none ∧ fs'.bpb = fs.bpb ∧ Unharmed fs.bpb top fs.disk fs'.disk) ∨
      ∃ name83 ext83 k c l d', formatName83 name = some (name83, ext83) ∧
        Created fs.bpb top fs.disk node.inode k (createdEntry name83 ext83 c flags) l d' ∧
        ((flags &&& vfsDir ≠ 0 ∧ l = [c]) ∨ (flags &&& vfsDir = 0 ∧ c = 0 ∧ l = [])) ∧
        (flags &&& vfsDir ≠ 0 → Links fs.bpb d' c dotName c ∧
          Links fs.bpb d' c dotdotName node.inode) ∧
        fat16VfsFinddir fuel node name { fs with disk := d' } = some (r, fs') := by
  by_cases hflag : flags &&& vfsDir ≠ 0
  · rcases fat16VfsCreate_subdir hb hs hmounted hdir hname hflag hrun with
      ⟨hr, hbpb, -, hsafe, -⟩ | ⟨name83, ext83, k, c, d', hformat, hcreated, hbytes, hfind⟩
    · exact Or.inl ⟨hr, hbpb, hsafe⟩
    · have hc := (hcreated.fresh c (List.mem_singleton.2 rfl)).1
      have hfirst : firstCluster (createdEntry name83 ext83 c flags) = c :=
        firstCluster_newEntry _ _ _ _ (hc.lt hb)
      have hchain := hcreated.chain.clusterChain (hfirst.symm ▸ hc.1)
      rw [hfirst] at hchain
      have hdot := linkAt_initDirCluster hb hc hbytes hchain (show 0 < 2 by omega)
      have hdotdot := linkAt_initDirCluster hb hc hbytes hchain (show 1 < 2 by omega)
      rw [if_neg (by omega), Nat.mod_eq_of_lt hdir.lt] at hdotdot
      exact Or.inr ⟨name83, ext83, k, c, [c], d', hformat, hcreated, Or.inl ⟨hflag, rfl⟩,
        fun _ => ⟨⟨0, hdot⟩, ⟨1, hdotdot⟩⟩, hfind⟩
  · rcases fat16VfsCreate_cases hb hs hmounted hdir hname hrun with
      ⟨hr, hbpb, -, hsafe, -⟩ | ⟨name83, ext83, k, c, l, d', hformat, hcreated, hl, hfind⟩
    · exact Or.inl ⟨hr, hbpb, hsafe⟩
    · exact Or.inr ⟨name83, ext83, k, c, l, d', hformat, hcreated, hl,
        fun hdirFlag => absurd hdirFlag hflag, hfind⟩

/-- A creation under a name that was absent and is found keeps the tree, and the new
directories are fresh. -/
theorem treeLaw_create {fs fs' : Fs} {node : VfsNode} {r : Option VfsNode}
    (hb : Geometry fs.bpb top) (hs : Sound fs.bpb top fs.disk first) (hmounted : fs.mounted = true)
    (hzero : ZeroTail fs.bpb fs.disk) (htree : TreeLaw fs.bpb fs.disk)
    (hdir : IsDir fs.bpb fs.disk node.inode) (hname : 0 ∉ name)
    (habsent : ∀ j, LiveSlot fs.bpb fs.disk node.inode j →
      nameMatch (entryAt fs.disk (slotAddr fs.bpb fs.disk node.inode j)) name = false)
    (hrun : fat16VfsCreate fuel node name flags fs = some (r, fs'))
    (hfound : NotCreated fs.bpb fs.disk node.inode name flags ∨
      ∃ j, LiveSlot fs'.bpb fs'.disk node.inode j ∧
        nameMatch (entryAt fs'.disk (slotAddr fs'.bpb fs'.disk node.inode j)) name = true) :
    TreeLaw fs.bpb fs'.disk ∧ (∀ q ∈ NewDirs fs fs' flags r, FreshDir fs.bpb fs'.disk q) ∧
      ∀ q, q ≠ node.inode → FreshDir fs.bpb fs.disk q → FreshDir fs.bpb fs'.disk q := by
  rcases fat16VfsCreate_links hb hs hmounted hdir hname hrun with
    ⟨rfl, hbpb, hsafe⟩ | ⟨name83, ext83, k, c, l, d', hformat, hcreated, hl, hlinks, hfind⟩
  · have hsame := hsafe.sameTree hb hs
    refine ⟨hsame.treeLaw hb hs htree, ?_, fun q _ hq => hsame.freshDir hb hs hq⟩
    rintro q (⟨hq, hold⟩ | ⟨-, node', hnode, -⟩)
    · rw [hbpb] at hq
      exact absurd ((hsame.isDir_iff hb hs).1 hq) hold
    · cases hnode
  · obtain ⟨hdisk, hbpb, -⟩ := fat16VfsFinddir_disk hfind
    dsimp only at hdisk hbpb
    rw [hdisk, hbpb] at hfound
    rw [NewDirs, hdisk, hbpb]
    -- the entry that the name finds is the new one, so that is no dot entry
    have hnew : ∀ j, LiveSlot fs.bpb d' node.inode j →
        nameMatch (entryAt d' (slotAddr fs.bpb d' node.inode j)) name = true → j = k :=
      fun j hlive hmatch => hcreated.eq_of_nameMatch hb hs hzero hdir habsent hlive hmatch
    have haddr := hcreated.slotAddr_eq hb hs hdir k
    have hhead : ∀ x < 26, entryAt d' (slotAddr fs.bpb d' node.inode k) x =
        createdEntry name83 ext83 c flags x := fun x hx => by
      rw [haddr]
      exact hcreated.entry x (by omega)
    obtain ⟨j, hlive, hmatch⟩ :=
      hfound.resolve_left (hcreated.not_notCreated hb hformat hl)
    obtain rfl := hnew j hlive hmatch
    rw [nameMatch_congr hhead] at hmatch
    have hc : flags &&& vfsDir ≠ 0 →
        firstCluster (createdEntry name83 ext83 c flags) = c := fun hflag => by
      rcases hl with ⟨-, rfl⟩ | ⟨hfile, -, -⟩
      · exact firstCluster_newEntry _ _ _ _
          ((hcreated.fresh c (List.mem_singleton.2 rfl)).1.lt hb)
      · exact absurd hfile hflag
    have hchild (hisDir : isDirectory (createdEntry name83 ext83 c flags) = true) :
        FreshDir fs.bpb d' (firstCluster (createdEntry name83 ext83 c flags)) := by
      refine ⟨?_, hcreated.empty hisDir⟩
      rw [← isDirectory_congr hhead] at hisDir
      have hdot := hcreated.notDot
      rw [← isDot_congr hhead] at hdot
      have hentry := hcreated.entry
      rw [← haddr] at hentry
      rw [← firstCluster_congr hentry]
      exact IsDir.child (hcreated.isDir_of_isDir hb hs hdir) hlive hisDir hdot
    refine ⟨?_, ?_, fun q hne hq => hcreated.freshDir hb hs hdir hne hq⟩
    · refine hcreated.treeLaw hb hs hzero hdir htree
        (format83_ne_of_nameMatch hname hformat hmatch (by simp [dotName]))
        (format83_ne_of_nameMatch hname hformat hmatch (by simp [dotdotName])) fun hisDir => ?_
      rw [isDirectory_createdEntry, decide_eq_true_eq] at hisDir
      rw [hc hisDir]
      refine ⟨?_, hlinks hisDir⟩
      rcases hl with ⟨-, rfl⟩ | ⟨hfile, -, -⟩
      · exact List.cons_ne_nil c []
      · exact absurd hfile hisDir
    · rintro q (⟨hq, hold⟩ | ⟨hflag, found, rfl, rfl⟩)
      · rcases hcreated.isDir_cases hb hs hzero hq with hq | ⟨hisDir, rfl⟩
        · exact absurd hq hold
        · exact hchild hisDir
      · obtain ⟨m, hm, -⟩ := hs.exists_dirChain hdir
        obtain ⟨i, addr, hi, himatch, rfl, -⟩ :=
          fat16VfsFinddir_some (show Geometry ({ fs with disk := d' } : Fs).bpb top from hb)
            (hcreated.chain_other hb hm) hfind
        obtain rfl := hnew i hi himatch
        have hisDir : isDirectory (createdEntry name83 ext83 c flags) = true := by
          rw [isDirectory_createdEntry, decide_eq_true hflag]
        have hfirst := firstCluster_congr hcreated.entry
        have hresult := hchild hisDir
        rw [← hfirst, ← haddr] at hresult
        exact hresult

/-- One step. -/
theorem TreeInv.step (hb : Layout b) {t t' : Session × Set ℕ} (h : TreeInv b t)
    (hstep : TreeStep t t') : TreeInv b t' := by
  have hsession := h.session.step hb hstep.step
  obtain ⟨hinv, htree, hfresh⟩ := h
  cases hstep with
  | quiet hquiet =>
      obtain ⟨first, f, hs, hsame⟩ := hquiet.sameTree hb hinv
      exact ⟨hsession, hsame.treeLaw hb.dataGeometry hs htree,
        fun q hq => hsame.freshDir hb.dataGeometry hs (hfresh q hq)⟩
  | create hdir hname habsent hrun hfound hkeep =>
      obtain ⟨rfl, hmounted, hzero, ⟨first, hs, -⟩, -⟩ := hinv
      obtain ⟨htree', hnew, hold⟩ := treeLaw_create hb.dataGeometry hs hmounted hzero htree hdir
        hname habsent hrun hfound
      refine ⟨hsession, htree', ?_⟩
      rintro q (⟨hq, hne⟩ | hq)
      · exact hold q hne (hfresh q hq)
      · exact hnew q hq

theorem TreeInv.run (hb : Layout b) {t t' : Session × Set ℕ} (h : TreeInv b t)
    (hrun : ReflTransGen TreeStep t t') : TreeInv b t' := by
  induction hrun with
  | refl => exact h
  | tail _ hstep ih => exact ih.step hb hstep

/-- On a well-formed volume whose directories form a tree, whatever is written and
created under names that are free and can be found: the directories form a tree, `..`
leads back, and the new directories list as empty. -/
theorem treeLaw_of_run {t t' : Session × Set ℕ} (hb : Layout t.1.fs.bpb)
    (hmounted : t.1.fs.mounted = true)
    (hwf : WellFormed t.1.fs.bpb (dataTop t.1.fs.bpb) t.1.fs.disk)
    (hzero : ZeroTail t.1.fs.bpb t.1.fs.disk) (htree : TreeLaw t.1.fs.bpb t.1.fs.disk)
    (hnodes : t.1.nodes = []) (hfresh : t.2 = ∅) (hrun : ReflTransGen TreeStep t t') :
    TreeLaw t'.1.fs.bpb t'.1.fs.disk ∧
      (∀ q, IsDir t'.1.fs.bpb t'.1.fs.disk q →
        ¬ TransGen (ParentOf t'.1.fs.bpb t'.1.fs.disk) q q) ∧
      LeadsBack t'.1.fs ∧ ∀ q ∈ t'.2, ListsEmpty t'.1.fs q := by
  have hs := hwf.sound fun k hk hdata =>
    Nat.lt_min.2 ⟨hdata.2.1, Nat.lt_min.2 ⟨hdata.2.2, hk⟩⟩
  have hinv : TreeInv t.1.fs.bpb t := by
    refine ⟨⟨rfl, hmounted, hzero, ⟨_, hs, fun n hn => ?_⟩, ?_⟩, htree, fun q hq => ?_⟩
    · rw [hnodes] at hn
      cases hn
    · rw [hnodes]
      exact List.Pairwise.nil
    · rw [hfresh] at hq
      exact absurd hq (Set.notMem_empty q)
  obtain ⟨⟨hbpb, hmounted', -, ⟨first, hs', -⟩, -⟩, htree', hfresh'⟩ := hinv.run hb hrun
  rw [← hbpb] at hb hs' htree' hfresh'
  exact ⟨htree', fun q hq => htree'.acyclic hq,
    leadsBack_of_treeLaw hb.dataGeometry hs' hmounted' htree',
    fun q hq => (hfresh' q hq).listsEmpty hb.spc_pos⟩

theorem treeLaw_small (first size link : UInt8) :
    TreeLaw smallBpb (smallVolume first size link) := by
  have hnone : ∀ p k q, ¬ Subdir smallBpb (smallVolume first size link) p k q := by
    intro p k q hsub
    obtain rfl := isDir_small hsub.dir
    obtain rfl := liveSlot_small hsub.live
    have hisDir := hsub.isDir
    rw [slotAddr_small (by omega), isDirectory_small] at hisDir
    cases hisDir
  exact ⟨fun p k hsub => hnone p k 0 hsub, fun p k _ _ q hsub => absurd hsub (hnone p k q),
    fun p k q hsub => absurd hsub (hnone p k q), fun p k q hsub => absurd hsub (hnone p k q)⟩

/-- The small volume after a directory `D` was created in its root. -/
theorem treeLaw_of_run_small :
    ∃ t', ReflTransGen TreeStep (⟨mountedFs (smallVolume 2 1 0), []⟩, ∅) t' ∧
      TreeLaw t'.1.fs.bpb t'.1.fs.disk ∧ ∃ q ∈ t'.2, ListsEmpty t'.1.fs q := by
  have hret : (fat16VfsCreate 2 fat16RootNode [0x44] vfsDir
      (mountedFs (smallVolume 2 1 0))).map (fun r => (r.1.map VfsNode.inode, r.2.bpb,
        decide (r.2.disk 1024 ≠ 0 ∧ Visible (entryAt r.2.disk 1056) ∧
          nameMatch (entryAt r.2.disk 1056) [0x44] = true))) =
      some (some 3, smallBpb, true) := by
    decide +kernel
  obtain ⟨⟨r, fs'⟩, hrun, hvalues⟩ := Option.map_eq_some_iff.1 hret
  obtain ⟨hinode, hvalues⟩ := Prod.mk.inj hvalues
  obtain ⟨hbpb', hslot⟩ := Prod.mk.inj hvalues
  obtain ⟨node, rfl, -⟩ := Option.map_eq_some_iff.1 hinode
  obtain ⟨hfirst, hvisible, hmatch⟩ := of_decide_eq_true hslot
  dsimp only at hbpb'
  have hbpb := mountedFs_smallVolume 2 1 0
  have hlive : LiveSlot fs'.bpb fs'.disk 0 1 := by
    rw [hbpb']
    refine ⟨hasSlot_small.2 (by omega), fun j hj => ?_, ?_⟩
    · obtain rfl : j = 0 := by omega
      rwa [slotAddr_small (by omega)]
    · rwa [slotAddr_small (by omega)]
  have hfound : nameMatch (entryAt fs'.disk (slotAddr fs'.bpb fs'.disk 0 1)) [0x44] = true := by
    rwa [hbpb', slotAddr_small (by omega)]
  have hroot : IsDir (mountedFs (smallVolume 2 1 0)).bpb (mountedFs (smallVolume 2 1 0)).disk
      fat16RootNode.inode := IsDir.root
  have hstep : ReflTransGen TreeStep (⟨mountedFs (smallVolume 2 1 0), []⟩, ∅)
      (⟨fs', []⟩, (∅ \ {0}) ∪ NewDirs (mountedFs (smallVolume 2 1 0)) fs' vfsDir (some node)) := by
    refine .single (.create hroot (by decide) (fun j hlive => ?_) hrun
      (Or.inr ⟨1, hlive, hfound⟩) (.drop _))
    rw [hbpb] at hlive ⊢
    obtain rfl := liveSlot_small hlive
    decide +kernel
  obtain ⟨htree, -, -, hempty⟩ := treeLaw_of_run (t := (⟨mountedFs (smallVolume 2 1 0), []⟩, ∅))
    (hbpb.symm ▸ layout_small) rfl
    (hbpb.symm ▸ wellFormed_small layout_small.dataGeometry (by decide) (Or.inr rfl))
    (hbpb.symm ▸ zeroTail_small 2 1 0) (hbpb.symm ▸ treeLaw_small 2 1 0) rfl rfl hstep
  have hnew : node.inode ∈ NewDirs (mountedFs (smallVolume 2 1 0)) fs' vfsDir (some node) :=
    Or.inr ⟨by decide, node, rfl, rfl⟩
  exact ⟨_, hstep, htree, node.inode, Or.inr hnew, hempty _ (Or.inr hnew)⟩

end Fat16

end Yotos
