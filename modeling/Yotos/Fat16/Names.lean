import Yotos.Fat16.Rollback
import Yotos.Fat16.Session

/-!
# The names in a directory

`fat16_vfs_create` does not look the name up before it writes, and `touch` and `mkdir`
do not either. So a second entry of a name can come to be, and the lookup at the end of
the call then returns the first one. The names stay distinct, and the returned nodes are
the new entries, exactly as long as every call is for a name that is free.
-/

namespace Yotos

namespace Fat16

open Bytes Kheap Library Relation

variable {b : Bpb} {top : ℕ} {d d' : Disk} {first : ℕ → ℕ} {c dir k fuel : ℕ} {l : List ℕ}
  {name : List UInt8} {name83 ext83 : Bytes} {flags : UInt32}

/-- The name of an entry up to ASCII case. -/
def foldName (e : Bytes) : List UInt8 := (format83 e).map toUpper

/-- No two live entries of a directory have names that agree up to ASCII case. -/
def DistinctNames (b : Bpb) (d : Disk) : Prop :=
  ∀ dir, IsDir b d dir → ∀ j k, LiveSlot b d dir j → LiveSlot b d dir k →
    foldName (entryAt d (slotAddr b d dir j)) = foldName (entryAt d (slotAddr b d dir k)) → j = k

/-- The node is that of an entry in a slot of `dir` that was free on the disk `d`, and
the entry is of the requested type and empty. -/
structure IsNew (b : Bpb) (d d' : Disk) (dir : ℕ) (flags : UInt32) (found : VfsNode) : Prop where
  slot : ∃ k addr, HasSlot b d dir k ∧ IsFree (entryAt d (slotAddr b d dir k)) ∧
    found = nodeOf (entryAt d' (slotAddr b d dir k)) (dirSectorLba b d dir (k / 16)) (k % 16) addr
  kind : found.flags = if flags &&& vfsDir ≠ 0 then vfsDir else vfsFile
  size : found.size = 0

/-- The name is free for a creation in `dir`: the call stops before it writes, or no live
entry has the name that the new one will show, unless that looks deleted, and none that
the lookup would take for it. -/
def NameFree (fs : Fs) (dir : ℕ) (name : List UInt8) (flags : UInt32) : Prop :=
  NotCreated fs.bpb fs.disk dir name flags ∨
    ∃ name83 ext83, formatName83 name = some (name83, ext83) ∧
      (name83 0 ≠ 0xE5 → ∀ j, LiveSlot fs.bpb fs.disk dir j →
        foldName (entryAt fs.disk (slotAddr fs.bpb fs.disk dir j)) ≠
          foldName (createdEntry name83 ext83 0 flags)) ∧
      (NodeRoom fs → ∀ j, LiveSlot fs.bpb fs.disk dir j →
        nameMatch (entryAt fs.disk (slotAddr fs.bpb fs.disk dir j)) name = false)

theorem foldName_congr {e e' : Bytes} (h : ∀ x < 26, e' x = e x) : foldName e' = foldName e := by
  rw [foldName, foldName, format83_congr h]

theorem foldName_createdEntry (c c' : ℕ) :
    foldName (createdEntry name83 ext83 c flags) = foldName (createdEntry name83 ext83 c' flags) :=
  foldName_congr (createdEntry_head name83 ext83 c c' flags)

/-- Two entries that a lookup takes for the same name have names that agree. -/
theorem foldName_eq_of_nameMatch {e e' : Bytes} (hname : 0 ∉ name) (h : nameMatch e name = true)
    (h' : nameMatch e' name = true) : foldName e = foldName e' :=
  ((nameMatch_iff hname).1 h).trans ((nameMatch_iff hname).1 h').symm

/-! ## Both branches of a call -/

theorem Unharmed.distinctNames (hb : Geometry b top) (hs : Sound b top d first)
    (h : Unharmed b top d d') (hdist : DistinctNames b d) : DistinctNames b d' := by
  intro q hq j k hj hk heq
  have htree := h.sameTree hb hs
  have hq' := (htree.isDir_iff hb hs).1 hq
  have hj' := (htree.liveSlot_iff hb hs hq').1 hj
  have hk' := (htree.liveSlot_iff hb hs hq').1 hk
  have hname : ∀ i, LiveSlot b d q i → foldName (entryAt d' (slotAddr b d' q i)) =
      foldName (entryAt d (slotAddr b d q i)) := by
    intro i hi
    obtain ⟨haddr, -⟩ := h.slot_eq hb hs hq' hi.has (show 0 < 32 by omega)
    rw [haddr]
    exact foldName_congr fun x hx => (h.slot_eq hb hs hq' hi.has (by omega)).2
  rw [hname j hj', hname k hk'] at heq
  exact hdist q hq' j k hj' hk' heq

namespace Created

/-- The entries of a new directory are `.` and `..`. -/
theorem distinct_fresh {j i : ℕ}
    (h : Created b top d dir k (createdEntry name83 ext83 c flags) l d')
    (hdirEntry : isDirectory (createdEntry name83 ext83 c flags) = true)
    (hj : LiveSlot b d' (firstCluster (createdEntry name83 ext83 c flags)) j)
    (hi : LiveSlot b d' (firstCluster (createdEntry name83 ext83 c flags)) i)
    (heq : foldName (entryAt d' (slotAddr b d'
        (firstCluster (createdEntry name83 ext83 c flags)) j)) =
      foldName (entryAt d' (slotAddr b d'
        (firstCluster (createdEntry name83 ext83 c flags)) i))) : j = i := by
  have hdot : ∀ {m : ℕ}, LiveSlot b d' (firstCluster (createdEntry name83 ext83 c flags)) m →
      (foldName (entryAt d' (slotAddr b d'
        (firstCluster (createdEntry name83 ext83 c flags)) m))).length = m + 1 := by
    intro m hm
    have hslot := h.empty hdirEntry m hm.has
    have htwo : m < 2 := by
      by_contra hge
      exact hm.visible.first_ne_zero (hslot.2 (by omega))
    rw [foldName, (hslot.1 htwo).2.2, List.length_map, List.length_replicate]
  have hlen := congrArg List.length heq
  rw [hdot hj, hdot hi] at hlen
  omega

variable (hb : Geometry b top) (hs : Sound b top d first)
  (h : Created b top d dir k (createdEntry name83 ext83 c flags) l d')

include hb hs h

theorem foldName_new (hdir : IsDir b d dir) : foldName (entryAt d' (slotAddr b d' dir k)) =
    foldName (createdEntry name83 ext83 0 flags) := by
  rw [h.slotAddr_eq hb hs hdir, foldName_congr fun x hx => h.entry x (by omega)]
  exact foldName_createdEntry c 0

theorem foldName_old {q j : ℕ} (hq : IsDir b d q) (hlive : LiveSlot b d q j) :
    foldName (entryAt d' (slotAddr b d' q j)) = foldName (entryAt d (slotAddr b d q j)) := by
  rw [h.slotAddr_eq hb hs hq]
  exact foldName_congr fun x hx => h.slot_other hb hs hq hlive.has (h.live_ne hlive) (by omega)

/-- The live slots of an old directory, with the new one counted as `k` of `dir`. -/
theorem live_old_or_new (hzero : ZeroTail b d) (hdir : IsDir b d dir) {q j : ℕ}
    (hq : IsDir b d q) (hlive : LiveSlot b d' q j) :
    (q = dir ∧ j = k ∧ name83 0 ≠ 0xE5) ∨ LiveSlot b d q j := by
  have hnamed : name83 0 ≠ 0 := by
    have := h.named
    rwa [createdEntry, newEntry_zero] at this
  rcases h.live_cases hb hs hzero hq hlive with heq | hlive'
  · left
    obtain ⟨hqd, hjk⟩ := slotAddr_inj hb hs hq hdir ((h.hasSlot_iff hb hs hq).1 hlive.has)
      h.slot.has heq
    refine ⟨hqd, hjk, ?_⟩
    have hvisible := hlive.visible
    rwa [h.slotAddr_eq hb hs hq, heq, visible_congr fun x hx => h.entry x (by omega),
      visible_createdEntry hnamed] at hvisible
  · exact Or.inr hlive'

/-- The names stay distinct exactly when the new entry's is not there or not shown. -/
theorem distinctNames_iff (hzero : ZeroTail b d) (hdir : IsDir b d dir)
    (hdist : DistinctNames b d) : DistinctNames b d' ↔
      (name83 0 ≠ 0xE5 → ∀ j, LiveSlot b d dir j → foldName (entryAt d (slotAddr b d dir j)) ≠
        foldName (createdEntry name83 ext83 0 flags)) := by
  constructor
  · intro hdist' hdel j hlive heq
    have hnew := h.live_new hb hs hdir hdel
    have hold := h.live_of_live hb hs hdir hlive
    rw [← h.foldName_old hb hs hdir hlive, ← h.foldName_new hb hs hdir] at heq
    obtain rfl := hdist' dir (h.isDir_of_isDir hb hs hdir) j k hold hnew heq
    exact h.live_ne hlive rfl
  · intro hfree q hq j i hj hi heq
    rcases h.isDir_cases hb hs hzero hq with hq | ⟨hdirEntry, rfl⟩
    · rcases h.live_old_or_new hb hs hzero hdir hq hj with ⟨rfl, rfl, hdel⟩ | hj'
      · rcases h.live_old_or_new hb hs hzero hdir hq hi with ⟨-, rfl, -⟩ | hi'
        · rfl
        · rw [h.foldName_new hb hs hdir, h.foldName_old hb hs hq hi'] at heq
          exact absurd heq.symm (hfree hdel i hi')
      · rcases h.live_old_or_new hb hs hzero hdir hq hi with ⟨rfl, rfl, hdel⟩ | hi'
        · rw [h.foldName_new hb hs hdir, h.foldName_old hb hs hq hj'] at heq
          exact absurd heq (hfree hdel j hj')
        · rw [h.foldName_old hb hs hq hj', h.foldName_old hb hs hq hi'] at heq
          exact hdist q hq j i hj' hi' heq
    · exact h.distinct_fresh hdirEntry hj hi heq

/-- The node that the lookup returns is the new entry's exactly when it is in slot `k`. -/
theorem isNew_iff (hzero : ZeroTail b d) (hdir : IsDir b d dir) {j addr : ℕ} {found : VfsNode}
    (hlive : LiveSlot b d' dir j)
    (hfound : found = nodeOf (entryAt d' (slotAddr b d' dir j)) (dirSectorLba b d' dir (j / 16))
      (j % 16) addr) : IsNew b d d' dir flags found ↔ j = k := by
  have haddr := h.slotAddr_eq hb hs hdir j
  have hlba := h.sectors hb hs hdir (j / 16)
  have hhas := (h.hasSlot_iff hb hs hdir).1 hlive.has
  rw [haddr, hlba] at hfound
  constructor
  · rintro ⟨⟨i, addr', hi, hfree, hnode⟩, -, -⟩
    rcases h.live_old_or_new hb hs hzero hdir hdir hlive with ⟨-, hjk, -⟩ | hlive'
    · exact hjk
    · -- a slot that was live is not free
      rw [hfound] at hnode
      have hsector : dirSectorLba b d dir (j / 16) = dirSectorLba b d dir (i / 16) :=
        congrArg VfsNode.dirLba hnode
      have hindex : j % 16 = i % 16 := congrArg VfsNode.dirIndex hnode
      rw [slotAddr, ← hsector, ← hindex, ← slotAddr] at hfree
      exact absurd hfree hlive'.visible.not_isFree
  · rintro rfl
    have hsame : ∀ x < 32, entryAt d' (slotAddr b d dir j) x =
        createdEntry name83 ext83 c flags x := h.entry
    have hkind : isDirectory (entryAt d' (slotAddr b d dir j)) = decide (flags &&& vfsDir ≠ 0) := by
      rw [isDirectory_congr fun x hx => hsame x (by omega)]
      exact isDirectory_createdEntry name83 ext83 c flags
    have hsize : fileSize (entryAt d' (slotAddr b d dir j)) = 0 := by
      rw [fileSize, load32_congr fun x _ hx => hsame x (by omega)]
      exact fileSize_newEntry _ _ _ _ (by omega)
    refine ⟨⟨j, addr, h.slot.has, h.slot.free, hfound⟩, ?_, ?_⟩
    · rw [hfound, nodeOf]
      dsimp only
      rw [hkind]
      by_cases hflag : flags &&& vfsDir ≠ 0
      · rw [if_pos (decide_eq_true hflag), if_pos hflag]
      · rw [decide_eq_false hflag, if_neg hflag]
        rfl
    · rw [hfound, nodeOf]
      dsimp only
      split_ifs
      · rfl
      · exact hsize

end Created

/-! ## Runs of creations -/

/-- The call left the names distinct, and a node that it returned is the new entry's. -/
def CreatesDistinct (fs fs' : Fs) (dir : ℕ) (flags : UInt32) (r : Option VfsNode) : Prop :=
  DistinctNames fs'.bpb fs'.disk ∧
    ∀ found, r = some found → IsNew fs.bpb fs.disk fs'.disk dir flags found

/-- Every call that returns, on a sound volume with distinct names. -/
theorem createsDistinct_iff {fs fs' : Fs} {node : VfsNode} {r : Option VfsNode}
    (hb : Geometry fs.bpb top) (hs : Sound fs.bpb top fs.disk first) (hmounted : fs.mounted = true)
    (hzero : ZeroTail fs.bpb fs.disk) (hdist : DistinctNames fs.bpb fs.disk)
    (hdir : IsDir fs.bpb fs.disk node.inode) (hname : 0 ∉ name)
    (hrun : fat16VfsCreate fuel node name flags fs = some (r, fs')) :
    CreatesDistinct fs fs' node.inode flags r ↔ NameFree fs node.inode name flags := by
  rcases fat16VfsCreate_cases hb hs hmounted hdir hname hrun with
    ⟨rfl, hbpb, -, hsafe, hwhy⟩ | ⟨name83, ext83, k, c, l, d', hformat, hcreated, hl, hfind⟩
  · refine iff_of_true ⟨?_, fun found hfound => by cases hfound⟩ (Or.inl hwhy)
    rw [hbpb]
    exact hsafe.distinctNames hb hs hdist
  · obtain ⟨hdisk, hbpb, -⟩ := fat16VfsFinddir_disk hfind
    have hnot := hcreated.not_notCreated hb hformat hl
    have hret := hcreated.ret_ne_none_iff hb hs hmounted hzero hdir hformat hfind
    have hnames := hcreated.distinctNames_iff hb hs hzero hdir hdist
    obtain ⟨m, hm, -⟩ := hs.exists_dirChain hdir
    have hfound : ∀ found, r = some found → ∃ j, LiveSlot fs.bpb d' node.inode j ∧
        nameMatch (entryAt d' (slotAddr fs.bpb d' node.inode j)) name = true ∧
        (IsNew fs.bpb fs.disk d' node.inode flags found ↔ j = k) := by
      rintro found rfl
      obtain ⟨j, addr, hlive, hmatch, hnode, -⟩ :=
        fat16VfsFinddir_some (show Geometry ({ fs with disk := d' } : Fs).bpb top from hb)
          (hcreated.chain_other hb hm) hfind
      exact ⟨j, hlive, hmatch, hcreated.isNew_iff hb hs hzero hdir hlive hnode⟩
    rw [CreatesDistinct, hdisk, hbpb, NameFree, or_iff_right hnot]
    dsimp only
    constructor
    · rintro ⟨hdist', hnew⟩
      refine ⟨name83, ext83, hformat, hnames.1 hdist', fun hroom j hlive => ?_⟩
      -- an old entry that matches would be the one that is found
      rw [Bool.eq_false_iff]
      intro hmatch
      have hsome : r ≠ none := hret.2 ⟨hroom, Or.inr ⟨j, hlive, hmatch⟩⟩
      obtain ⟨found, rfl⟩ := Option.ne_none_iff_exists'.1 hsome
      obtain ⟨i, hi, himatch, hiff⟩ := hfound found rfl
      obtain rfl := hiff.1 (hnew found rfl)
      have hold := hcreated.live_of_live hb hs hdir hlive
      have hname' := hcreated.foldName_old hb hs hdir hlive
      have heq : foldName (entryAt d' (slotAddr fs.bpb d' node.inode j)) =
          foldName (entryAt d' (slotAddr fs.bpb d' node.inode i)) :=
        hname'.trans (foldName_eq_of_nameMatch hname hmatch himatch)
      obtain rfl := hdist' node.inode (hcreated.isDir_of_isDir hb hs hdir) j i hold hi heq
      exact hcreated.live_ne hlive rfl
    · rintro ⟨name83', ext83', hformat', hfree, hnomatch⟩
      obtain ⟨rfl, rfl⟩ := Prod.mk.inj (Option.some.inj (hformat.symm.trans hformat'))
      refine ⟨hnames.2 hfree, fun found hr => ?_⟩
      subst hr
      obtain ⟨j, hlive, hmatch, hiff⟩ := hfound found rfl
      refine hiff.2 ?_
      rcases hcreated.live_old_or_new hb hs hzero hdir hdir hlive with ⟨-, hjk, -⟩ | hlive'
      · exact hjk
      · have hroom := (hret.1 (Option.some_ne_none found)).1
        have hno := hnomatch hroom j hlive'
        rw [nameMatch_iff hname, ← foldName, hcreated.foldName_old hb hs hdir hlive', foldName,
          ← nameMatch_iff hname, hno] at hmatch
        cases hmatch

/-- One call for a name that is free, in a directory of the volume, or any other use of
the heap. -/
inductive FreeCall : Fs → Fs → Prop
  | create {fs fs' : Fs} {node : VfsNode} {fuel : ℕ} {name : List UInt8} {flags : UInt32}
      {r : Option VfsNode} (hdir : IsDir fs.bpb fs.disk node.inode) (hname : 0 ∉ name)
      (hfree : NameFree fs node.inode name flags)
      (hrun : fat16VfsCreate fuel node name flags fs = some (r, fs')) : FreeCall fs fs'
  | kernel {fs : Fs} (start : ℕ) (heap : Bytes) :
      FreeCall fs { fs with heapStart := start, heap := heap }

theorem FreeCall.step {fs fs' : Fs} (h : FreeCall fs fs') : Step ⟨fs, []⟩ ⟨fs', []⟩ := by
  cases h with
  | create hdir hname hfree hrun => exact .create hdir hname hrun (.drop _)
  | kernel start heap => exact .kernel start heap

/-- The invariant of a run of creations. -/
theorem FreeCall.inv (hb : Layout b) {fs fs' : Fs} (h : FreeCall fs fs')
    (hinv : Session.Inv b ⟨fs, []⟩) (hdist : DistinctNames b fs.disk) :
    Session.Inv b ⟨fs', []⟩ ∧ DistinctNames b fs'.disk := by
  have hinv' := hinv.step hb h.step
  refine ⟨hinv', ?_⟩
  cases h with
  | create hdir hname hfree hrun =>
      obtain ⟨hbpb, hmounted, hzero, ⟨first, hs, -⟩, -⟩ := hinv
      dsimp only at hbpb hmounted hzero hs
      subst hbpb
      have hcall := (createsDistinct_iff hb.dataGeometry hs hmounted hzero hdist hdir hname
        hrun).2 hfree
      rw [← show _ = fs.bpb from hinv'.bpb]
      exact hcall.1
  | kernel => exact hdist

theorem FreeCall.run (hb : Layout b) {fs fs' : Fs} (h : ReflTransGen FreeCall fs fs')
    (hinv : Session.Inv b ⟨fs, []⟩) (hdist : DistinctNames b fs.disk) :
    Session.Inv b ⟨fs', []⟩ ∧ DistinctNames b fs'.disk := by
  induction h with
  | refl => exact ⟨hinv, hdist⟩
  | tail _ hcall ih => exact hcall.inv hb ih.1 ih.2

/-- On a well-formed volume with distinct names, and after any calls for free names, the
names are distinct, and a further call keeps them so and returns no node but the new
entry's exactly when its name is free. -/
theorem distinctNames_of_run {fs fs' : Fs} (hb : Layout fs.bpb) (hmounted : fs.mounted = true)
    (hwf : WellFormed fs.bpb (dataTop fs.bpb) fs.disk) (hzero : ZeroTail fs.bpb fs.disk)
    (hdist : DistinctNames fs.bpb fs.disk) (hrun : ReflTransGen FreeCall fs fs') :
    DistinctNames fs'.bpb fs'.disk ∧
      ∀ {fuel : ℕ} {node : VfsNode} {name : List UInt8} {flags : UInt32} {r : Option VfsNode}
        {fs'' : Fs}, IsDir fs'.bpb fs'.disk node.inode → 0 ∉ name →
        fat16VfsCreate fuel node name flags fs' = some (r, fs'') →
        (CreatesDistinct fs' fs'' node.inode flags r ↔ NameFree fs' node.inode name flags) := by
  have hs := hwf.sound fun k hk hdata =>
    Nat.lt_min.2 ⟨hdata.2.1, Nat.lt_min.2 ⟨hdata.2.2, hk⟩⟩
  have hinv : Session.Inv fs.bpb ⟨fs, []⟩ :=
    ⟨rfl, hmounted, hzero, ⟨_, hs, fun n hn => by cases hn⟩, List.Pairwise.nil⟩
  obtain ⟨hinv', hdist'⟩ := FreeCall.run hb hrun hinv hdist
  obtain ⟨hbpb, hmounted', hzero', ⟨first, hs', -⟩, -⟩ := hinv'
  dsimp only at hbpb hmounted' hzero' hs'
  rw [hbpb]
  refine ⟨hdist', fun hdir hname hcall => ?_⟩
  rw [← hbpb] at hb hs' hzero' hdist' hdir
  exact createsDistinct_iff hb.dataGeometry hs' hmounted' hzero' hdist' hdir hname hcall

theorem distinctNames_small (first size link : UInt8) :
    DistinctNames smallBpb (smallVolume first size link) := by
  intro dir hdir j k hj hk _
  obtain rfl := isDir_small hdir
  rw [liveSlot_small hj, liveSlot_small hk]

/-- The small volume after a file `B` was created next to `A`. -/
theorem distinctNames_of_run_small :
    ∃ fs', ReflTransGen FreeCall (mountedFs (smallVolume 2 1 0)) fs' ∧
      DistinctNames fs'.bpb fs'.disk ∧ fs'.disk 1056 = 0x42 := by
  have hret : (fat16VfsCreate 2 fat16RootNode [0x42] vfsFile
      (mountedFs (smallVolume 2 1 0))).map (fun r => r.2.disk 1056) = some 0x42 := by
    decide +kernel
  obtain ⟨⟨r, fs'⟩, hrun, hslot⟩ := Option.map_eq_some_iff.1 hret
  have hbpb := mountedFs_smallVolume 2 1 0
  have hfree : NameFree (mountedFs (smallVolume 2 1 0)) 0 [0x42] vfsFile := by
    rw [NameFree, hbpb]
    refine Or.inr ⟨_, _, rfl, fun _ j hlive => ?_, fun _ j hlive => ?_⟩ <;>
    · obtain rfl := liveSlot_small hlive
      rw [slotAddr_small (by omega)]
      decide +kernel
  have hroot : IsDir (mountedFs (smallVolume 2 1 0)).bpb (mountedFs (smallVolume 2 1 0)).disk
      fat16RootNode.inode := IsDir.root
  have hstep : ReflTransGen FreeCall (mountedFs (smallVolume 2 1 0)) fs' :=
    .single (.create hroot (by decide) hfree hrun)
  refine ⟨fs', hstep, (distinctNames_of_run (hbpb.symm ▸ layout_small) rfl ?_
    (hbpb.symm ▸ zeroTail_small 2 1 0) (hbpb.symm ▸ distinctNames_small 2 1 0) hstep).1, hslot⟩
  exact hbpb.symm ▸ wellFormed_small layout_small.dataGeometry (by decide) (Or.inr rfl)

/-- Creating `A` again makes a second entry `A` and returns the node of the first. -/
theorem not_createsDistinct_small :
    WellFormed smallBpb (dataTop smallBpb) (smallVolume 2 1 0) ∧
      DistinctNames smallBpb (smallVolume 2 1 0) ∧
      ∃ found fs', fat16VfsCreate 2 fat16RootNode [0x41] vfsFile
          (mountedFs (smallVolume 2 1 0)) = some (some found, fs') ∧
        fs'.disk 1056 = 0x41 ∧ found.size = 1 ∧
        ¬ CreatesDistinct (mountedFs (smallVolume 2 1 0)) fs' 0 vfsFile (some found) := by
  refine ⟨wellFormed_small layout_small.dataGeometry (by decide) (Or.inr rfl),
    distinctNames_small 2 1 0, ?_⟩
  have hret : (fat16VfsCreate 2 fat16RootNode [0x41] vfsFile
      (mountedFs (smallVolume 2 1 0))).map (fun r => (r.1.map VfsNode.size, r.2.disk 1056)) =
      some (some 1, 0x41) := by
    decide +kernel
  obtain ⟨⟨r, fs'⟩, hrun, hvalues⟩ := Option.map_eq_some_iff.1 hret
  obtain ⟨hsize, hslot⟩ := Prod.mk.inj hvalues
  obtain ⟨found, rfl, hfound⟩ := Option.map_eq_some_iff.1 hsize
  refine ⟨found, fs', hrun, hslot, hfound, fun h => ?_⟩
  have hzero := (h.2 found rfl).size
  rw [hfound] at hzero
  cases hzero

end Fat16

end Yotos
