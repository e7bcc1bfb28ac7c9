import Mathlib.Logic.Relation
import Yotos.Fat16.Create

/-!
# Runs of writes and creations

A session is the file system with the file nodes that are open, at most one for each
directory slot. Between any two calls the rest of the kernel may use the heap in any
way. A well-formed volume stays well-formed: the invariant, `Session.Inv`, takes the
first cluster of an open file from its node, since a write that finds no heap leaves
a new first cluster there that the directory entry does not show yet.
-/

namespace Yotos

namespace Fat16

open Bytes Kheap Library Relation

/-- The file system and the open file nodes. -/
structure Session where
  fs : Fs
  nodes : List VfsNode

/-- The nodes stand for one directory slot. -/
def SameSlot (n m : VfsNode) : Prop := n.dirLba = m.dirLba ∧ n.dirIndex = m.dirIndex

/-- What the caller does with a node that was returned: drop it, or keep it open when
it is a file that is not open yet. -/
inductive Keeps (nodes : List VfsNode) : Option VfsNode → List VfsNode → Prop
  | drop (r : Option VfsNode) : Keeps nodes r nodes
  | keep {node : VfsNode} (hfile : node.flags = vfsFile) (hnew : ∀ n ∈ nodes, ¬ SameSlot n node) :
      Keeps nodes (some node) (node :: nodes)

/-- One call on the volume. Names are C strings, and directories are the ones of the
volume. -/
inductive Step : Session → Session → Prop
  | write {fs fs' : Fs} {node node' : VfsNode} {before after : List VfsNode} {offset size : ℕ}
      {buf : Bytes} {ret : ℤ} (hoff : offset + size < 2 ^ 32)
      (hrun : fat16VfsWrite node offset size buf fs = some (ret, node', fs')) :
      Step ⟨fs, before ++ node :: after⟩ ⟨fs', before ++ node' :: after⟩
  | create {fs fs' : Fs} {dir : VfsNode} {nodes nodes' : List VfsNode} {fuel : ℕ}
      {name : List UInt8} {flags : UInt32} {r : Option VfsNode}
      (hdir : IsDir fs.bpb fs.disk dir.inode) (hname : 0 ∉ name)
      (hrun : fat16VfsCreate fuel dir name flags fs = some (r, fs'))
      (hkeep : Keeps nodes r nodes') : Step ⟨fs, nodes⟩ ⟨fs', nodes'⟩
  | finddir {fs fs' : Fs} {dir : VfsNode} {nodes nodes' : List VfsNode} {fuel : ℕ}
      {name : List UInt8} {r : Option VfsNode} (hdir : IsDir fs.bpb fs.disk dir.inode)
      (hrun : fat16VfsFinddir fuel dir name fs = some (r, fs')) (hkeep : Keeps nodes r nodes') :
      Step ⟨fs, nodes⟩ ⟨fs', nodes'⟩
  | close {fs : Fs} {node : VfsNode} {before after : List VfsNode} :
      Step ⟨fs, before ++ node :: after⟩ ⟨fat16VfsClose node fs, before ++ after⟩
  | kernel {fs : Fs} {nodes : List VfsNode} (start : ℕ) (heap : Bytes) :
      Step ⟨fs, nodes⟩ ⟨{ fs with heapStart := start, heap := heap }, nodes⟩

/-- The first cluster past the data clusters that a FAT16 entry can name. -/
def dataTop (b : Bpb) : ℕ := min (2 + b.dataClusters) (clusterTop b)

variable {b : Bpb} {top : ℕ} {d d' : Disk} {first : ℕ → ℕ} {f : ℕ}

theorem Layout.dataGeometry (hb : Layout b) : Geometry b (dataTop b) where
  spc_pos := hb.spc_pos
  fatCount_pos := hb.fatCount_pos
  fatSize_pos := hb.fatSize_pos
  top_le_mark := (Nat.min_le_right _ _).trans (Nat.min_le_left _ _)
  top_le_table := (Nat.min_le_right _ _).trans (Nat.min_le_right _ _)

/-- Taking the first cluster of an entry from the disk again. -/
theorem Sound.refresh (hs : Sound b top d first) (hf : Owner b d f) :
    Sound b top d (Function.update first f (firstCluster (entryAt d f))) := by
  rcases Nat.lt_or_ge (firstCluster (entryAt d f)) 2 with hlt | htwo
  · have hself : Function.update first f (firstCluster (entryAt d f)) f =
        firstCluster (entryAt d f) := Function.update_self ..
    have hothers : ∀ g, g ≠ f →
        Function.update first f (firstCluster (entryAt d f)) g = first g :=
      fun g hne => Function.update_of_ne hne ..
    have hnil {m : List ℕ} (hm : FileChain b top d
        (Function.update first f (firstCluster (entryAt d f)) f) m) : m = [] := by
      rw [hself] at hm
      exact (fileChain_of_lt hlt).1 hm
    refine ⟨hs.free, fun g hg => ?_, fun g g' m m' hg hg' hne hm hm' => ?_, fun g hg htwo => ?_⟩
    · by_cases heq : g = f
      · rw [heq, hself]
        exact ⟨[], (fileChain_of_lt hlt).2 rfl⟩
      · rw [hothers g heq]
        exact hs.chain g hg
    · by_cases heq : g = f
      · rw [heq] at hm
        rw [hnil hm]
        exact List.disjoint_nil_left m'
      · by_cases heq' : g' = f
        · rw [heq'] at hm'
          rw [hnil hm']
          exact List.disjoint_nil_right m
        · rw [hothers g heq] at hm
          rw [hothers g' heq'] at hm'
          exact hs.disjoint g g' m m' hg hg' hne hm hm'
    · by_cases heq : g = f
      · rw [heq, hself]
      · rw [hothers g heq]
        exact hs.onDisk g hg htwo
  · rw [← hs.onDisk f hf htwo, Function.update_eq_self]
    exact hs

/-- A sound volume whose first clusters are on the disk where there are any is
well-formed. -/
theorem Sound.wellFormed (hb : Layout b) (hs : Sound b (dataTop b) d first) :
    WellFormed b (dataTop b) d where
  free k hk hno hzero := by
    have huse := hs.free k hk hzero
    have hlt := Nat.lt_min.1 huse.2
    exact hno ⟨huse.1, hlt.1, (Nat.lt_min.1 hlt.2).1⟩
  chain a ha htwo := by
    obtain ⟨l, hl⟩ := hs.chain a ha
    rw [hs.onDisk a ha htwo] at hl
    obtain ⟨hne, hchain⟩ := (fileChain_of_two_le htwo).1 hl
    exact ⟨l, hne, hchain, hchain.nodup fun _ => InUse.not_endMark hb.dataGeometry⟩
  disjoint a a' l l' ha ha' hne htwo htwo' hl hl' := by
    have hwhole : ∀ {g : ℕ} {m : List ℕ}, Owner b d g → 2 ≤ firstCluster (entryAt d g) →
        ClusterChain b (dataTop b) d (firstCluster (entryAt d g)) m →
        FileChain b (dataTop b) d (first g) m := by
      intro g m hg hgtwo hm
      obtain ⟨m', hm'⟩ := hs.chain g hg
      rw [hs.onDisk g hg hgtwo] at hm' ⊢
      have heq := (hm'.clusterChain hgtwo).unique
        (fun _ => InUse.not_endMark hb.dataGeometry) hm
      rwa [← heq]
    exact hs.disjoint a a' l l' ha ha' hne (hwhole ha htwo hl) (hwhole ha' htwo' hl')

/-- The invariant of a session on the volume with boot record `b`. -/
structure Session.Inv (b : Bpb) (s : Session) : Prop where
  bpb : s.fs.bpb = b
  mounted : s.fs.mounted = true
  zeroTail : ZeroTail b s.fs.disk
  sound : ∃ first, Sound b (dataTop b) s.fs.disk first ∧
    ∀ n ∈ s.nodes, ∃ f, OnSlot b s.fs.disk n f ∧ n.inode = first f
  distinct : s.nodes.Pairwise fun n m => ¬ SameSlot n m

theorem OnSlot.sameSlot_iff {n m : VfsNode} {g : ℕ} (hn : OnSlot b d n f) (hm : OnSlot b d m g) :
    SameSlot n m ↔ f = g := by
  have hni := hn.index_lt
  have hmi := hm.index_lt
  rw [SameSlot, hn.addr, hm.addr]
  constructor
  · rintro ⟨hlba, hindex⟩
    rw [hlba, hindex]
  · intro heq
    constructor <;> omega

/-- A node that is kept has its slot's first cluster. -/
theorem Keeps.nodes {nodes nodes' : List VfsNode} {r : Option VfsNode}
    (hs : Sound b top d first) (hnodes : ∀ n ∈ nodes, ∃ f, OnSlot b d n f ∧ n.inode = first f)
    (hdist : nodes.Pairwise fun n m => ¬ SameSlot n m)
    (hr : ∀ node, r = some node → node.flags = vfsFile → ∃ f, FileNode b d node f)
    (hkeep : Keeps nodes r nodes') :
    ∃ first', Sound b top d first' ∧
      (∀ n ∈ nodes', ∃ f, OnSlot b d n f ∧ n.inode = first' f) ∧
      nodes'.Pairwise fun n m => ¬ SameSlot n m := by
  cases hkeep with
  | drop => exact ⟨first, hs, hnodes, hdist⟩
  | @keep node hfile hnew =>
      obtain ⟨f, hf⟩ := hr node rfl hfile
      refine ⟨_, hs.refresh hf.slot.owner, fun n hn => ?_, List.pairwise_cons.2
        ⟨fun n hn hsame => hnew n hn ⟨hsame.1.symm, hsame.2.symm⟩, hdist⟩⟩
      rcases List.mem_cons.1 hn with rfl | hn
      · refine ⟨f, hf.slot, ?_⟩
        rw [Function.update_self]
        exact hf.inode_eq
      · obtain ⟨g, hg, hinode⟩ := hnodes n hn
        refine ⟨g, hg, ?_⟩
        rw [Function.update_of_ne fun heq => hnew n hn ((hg.sameSlot_iff hf.slot).2 heq)]
        exact hinode

/-- An open node under a change that keeps its entry's directory slot. -/
theorem OnSlot.of_entry {node : VfsNode} (h : OnSlot b d node f) (hlive : LiveEntry b d' f)
    (hentry : ∀ x < 26, entryAt d' f x = entryAt d f x) : OnSlot b d' node f where
  live := hlive
  file := by
    rw [isDirectory_congr hentry]
    exact h.file
  addr := h.addr
  lba_lt := h.lba_lt
  index_lt := h.index_lt
  inode_lt := h.inode_lt
  size_lt := h.size_lt

namespace Session.Inv

theorem write (hb : Layout b) {fs fs' : Fs} {node node' : VfsNode} {before after : List VfsNode}
    {offset size : ℕ} {buf : Bytes} {ret : ℤ} (hoff : offset + size < 2 ^ 32)
    (hrun : fat16VfsWrite node offset size buf fs = some (ret, node', fs'))
    (h : Inv b ⟨fs, before ++ node :: after⟩) : Inv b ⟨fs', before ++ node' :: after⟩ := by
  obtain ⟨rfl, hmounted, hzero, ⟨first, hs, hnodes⟩, hdist⟩ := h
  have hgeo := hb.dataGeometry
  obtain ⟨f, hf, hinode⟩ := hnodes node (by simp)
  obtain ⟨l, hl⟩ := hs.chain f hf.owner
  obtain ⟨houtcome, hbpb, hmounted'⟩ := fat16VfsWrite_cases hgeo hmounted hs.free
    (hinode ▸ hl) hf.inode_lt hoff hrun
  obtain ⟨l', hreg, hlba, hindex⟩ := houtcome.regrown hgeo hs hf hinode hl
  have htree := hreg.sameTree hgeo hs hf.owner hf.file hl
  have hnode' : OnSlot fs.bpb fs'.disk node' f := hf.of_sameTree hgeo hs htree hlba hindex
    (hreg.chain.first_lt hgeo) (houtcome.size_lt hf.size_lt hoff)
  have hsame : ∀ m, SameSlot node' m ↔ SameSlot node m := fun m => by
    rw [SameSlot, SameSlot, hlba, hindex]
  have hdist' := List.pairwise_append.1 hdist
  obtain ⟨hnext, hafter⟩ := List.pairwise_cons.1 hdist'.2.1
  refine ⟨hbpb, hmounted', htree.zeroTail hgeo hs hzero, ⟨_, hreg.sound hgeo hs hf.owner hf.file hl,
    fun n hn => ?_⟩, ?_⟩
  · -- the other nodes are on other slots, which keep their entries
    have hother : n ∈ before ∨ n ∈ after → ∃ g, OnSlot fs.bpb fs'.disk n g ∧
        n.inode = Function.update first f node'.inode g := by
      intro hmem
      obtain ⟨g, hg, hginode⟩ := hnodes n (by simp; tauto)
      have hne : g ≠ f := by
        rintro rfl
        rcases hmem with hmem | hmem
        · exact hdist'.2.2 n hmem node (by simp) ((hg.sameSlot_iff hf).2 rfl)
        · exact hnext n hmem ((hf.sameSlot_iff hg).2 rfl)
      refine ⟨g, hg.of_entry ((htree.liveEntry_iff hgeo hs).2 hg.live)
        (htree.liveEntry_head hg.live), ?_⟩
      rw [Function.update_of_ne hne]
      exact hginode
    rcases List.mem_append.1 hn with hmem | hmem
    · exact hother (Or.inl hmem)
    · rcases List.mem_cons.1 hmem with rfl | hmem
      · refine ⟨f, hnode', ?_⟩
        rw [Function.update_self]
      · exact hother (Or.inr hmem)
  · refine List.pairwise_append.2 ⟨hdist'.1, List.pairwise_cons.2
      ⟨fun m hm => (hsame m).not.2 (hnext m hm), hafter⟩, fun m hm m' hm' => ?_⟩
    rcases List.mem_cons.1 hm' with rfl | hm'
    · have hne := hdist'.2.2 m hm node (by simp)
      exact fun hsame' => hne ⟨hsame'.1.trans hlba, hsame'.2.trans hindex⟩
    · exact hdist'.2.2 m hm m' (by simp [hm'])

theorem lookup (hb : Layout b) {fs fs' : Fs} {dir : VfsNode} {nodes nodes' : List VfsNode}
    {fuel : ℕ} {name : List UInt8} {r : Option VfsNode} (hdir : IsDir fs.bpb fs.disk dir.inode)
    (hrun : fat16VfsFinddir fuel dir name fs = some (r, fs')) (hkeep : Keeps nodes r nodes')
    (h : Inv b ⟨fs, nodes⟩) : Inv b ⟨fs', nodes'⟩ := by
  obtain ⟨rfl, hmounted, hzero, ⟨first, hs, hnodes⟩, hdist⟩ := h
  obtain ⟨hdisk, hbpb, hmounted'⟩ := fat16VfsFinddir_disk hrun
  obtain ⟨first', hs', hnodes', hdist'⟩ := hkeep.nodes hs hnodes hdist fun node hr hfile => by
    subst hr
    obtain ⟨l, hl, -⟩ := hs.exists_dirChain hdir
    obtain ⟨f, hf⟩ := fat16VfsFinddir_fileNode hb.dataGeometry hl hdir hrun hfile
    rw [hdisk, hbpb] at hf
    exact ⟨f, hf⟩
  refine ⟨hbpb, hmounted'.trans hmounted, ?_, ⟨first', ?_, ?_⟩, hdist'⟩
  · rw [hdisk]
    exact hzero
  · rw [hdisk]
    exact hs'
  · rw [hdisk]
    exact hnodes'

theorem create (hb : Layout b) {fs fs' : Fs} {dir : VfsNode} {nodes nodes' : List VfsNode}
    {fuel : ℕ} {name : List UInt8} {flags : UInt32} {r : Option VfsNode}
    (hdir : IsDir fs.bpb fs.disk dir.inode) (hname : 0 ∉ name)
    (hrun : fat16VfsCreate fuel dir name flags fs = some (r, fs'))
    (hkeep : Keeps nodes r nodes') (h : Inv b ⟨fs, nodes⟩) : Inv b ⟨fs', nodes'⟩ := by
  obtain ⟨rfl, hmounted, hzero, ⟨first, hs, hnodes⟩, hdist⟩ := h
  have hgeo := hb.dataGeometry
  rcases fat16VfsCreate_cases hgeo hs hmounted hdir hname hrun with
    ⟨rfl, hbpb, hmounted', hsafe, -⟩ | ⟨name83, ext83, k, c, l, d', -, hcreated, -, hfind⟩
  · cases hkeep
    have htree := hsafe.sameTree hgeo hs
    refine ⟨hbpb, hmounted', hsafe.zeroTail hgeo hs hzero, ⟨first, hsafe.sound hgeo hs,
      fun n hn => ?_⟩, hdist⟩
    obtain ⟨g, hg, hginode⟩ := hnodes n hn
    exact ⟨g, hg.of_entry ((htree.liveEntry_iff hgeo hs).2 hg.live)
      (htree.liveEntry_head hg.live), hginode⟩
  · have hinv : Inv fs.bpb ⟨{ fs with disk := d' }, nodes⟩ := by
      refine ⟨rfl, hmounted, hcreated.zeroTail hgeo hs hzero hdir,
        ⟨_, hcreated.sound hgeo hs hzero, fun n hn => ?_⟩, hdist⟩
      obtain ⟨g, hg, hginode⟩ := hnodes n hn
      obtain ⟨howner, hne, hentry⟩ := hcreated.owner_of_owner hgeo hs hg.owner
      refine ⟨g, hg.of_entry howner.1 fun x hx => hentry x (by omega), ?_⟩
      rw [Function.update_of_ne hne]
      exact hginode
    exact hinv.lookup hb (hcreated.isDir_of_isDir hgeo hs hdir) hfind hkeep

theorem close {fs : Fs} {node : VfsNode} {before after : List VfsNode}
    (h : Inv b ⟨fs, before ++ node :: after⟩) :
    Inv b ⟨fat16VfsClose node fs, before ++ after⟩ := by
  obtain ⟨rfl, hmounted, hzero, ⟨first, hs, hnodes⟩, hdist⟩ := h
  have hsub : (before ++ after).Sublist (before ++ node :: after) :=
    (List.sublist_cons_self node after).append_left before
  exact ⟨rfl, hmounted, hzero, ⟨first, hs, fun n hn => hnodes n (hsub.subset hn)⟩,
    hdist.sublist hsub⟩

/-- Every step keeps the invariant. -/
theorem step (hb : Layout b) {s s' : Session} (h : Inv b s) (hstep : Step s s') : Inv b s' := by
  cases hstep with
  | write hoff hrun => exact h.write hb hoff hrun
  | create hdir hname hrun hkeep => exact h.create hb hdir hname hrun hkeep
  | finddir hdir hrun hkeep => exact h.lookup hb hdir hrun hkeep
  | close => exact h.close
  | kernel => exact ⟨h.bpb, h.mounted, h.zeroTail, h.sound, h.distinct⟩

theorem run (hb : Layout b) {s s' : Session} (h : Inv b s) (hrun : ReflTransGen Step s s') :
    Inv b s' := by
  induction hrun with
  | refl => exact h
  | tail _ hstep ih => exact ih.step hb hstep

end Session.Inv

/-- However files and directories are created and files written, a well-formed volume
stays well-formed: the chains are finite, without repetition, within the data clusters
and disjoint, zero slots end every directory, and no chain contains a free cluster. -/
theorem wellFormed_of_reachable {s s' : Session} (hb : Layout s.fs.bpb)
    (hmounted : s.fs.mounted = true)
    (hwf : WellFormed s.fs.bpb (dataTop s.fs.bpb) s.fs.disk)
    (hzero : ZeroTail s.fs.bpb s.fs.disk) (hnodes : s.nodes = [])
    (hrun : ReflTransGen Step s s') :
    WellFormed s'.fs.bpb (dataTop s'.fs.bpb) s'.fs.disk ∧ ZeroTail s'.fs.bpb s'.fs.disk ∧
      ∀ a l c, Owner s'.fs.bpb s'.fs.disk a →
        FileChain s'.fs.bpb (dataTop s'.fs.bpb) s'.fs.disk
          (firstCluster (entryAt s'.fs.disk a)) l →
        c ∈ l → fatAt s'.fs.bpb s'.fs.disk c ≠ 0 := by
  have hs := hwf.sound fun k hk hdata =>
    Nat.lt_min.2 ⟨hdata.2.1, Nat.lt_min.2 ⟨hdata.2.2, hk⟩⟩
  have hinv : Session.Inv s.fs.bpb s := by
    refine ⟨rfl, hmounted, hzero, ⟨_, hs, fun n hn => ?_⟩, ?_⟩
    · rw [hnodes] at hn
      cases hn
    · rw [hnodes]
      exact List.Pairwise.nil
  have hinv' := hinv.run hb hrun
  obtain ⟨first, hs', -⟩ := hinv'.sound
  rw [hinv'.bpb]
  exact ⟨hs'.wellFormed hb, hinv'.zeroTail, fun a l c _ hl hc => hl.fatAt_ne_zero hc⟩

/-- The small volume after a directory `D` was created in its root. -/
theorem wellFormed_of_reachable_small :
    ∃ s' : Session, ReflTransGen Step ⟨mountedFs (smallVolume 2 1 0), []⟩ s' ∧
      WellFormed s'.fs.bpb (dataTop s'.fs.bpb) s'.fs.disk ∧ s'.fs.disk 1056 = 0x44 := by
  have hret : (fat16VfsCreate 2 fat16RootNode [0x44] vfsDir
      (mountedFs (smallVolume 2 1 0))).map (fun r => r.2.disk 1056) = some 0x44 := by
    decide +kernel
  obtain ⟨⟨r, fs'⟩, hrun, hslot⟩ := Option.map_eq_some_iff.1 hret
  have hbpb := mountedFs_smallVolume 2 1 0
  have hstep : ReflTransGen Step ⟨mountedFs (smallVolume 2 1 0), []⟩ ⟨fs', []⟩ :=
    .single (.create IsDir.root (by decide) hrun (.drop r))
  refine ⟨_, hstep, (wellFormed_of_reachable (s := ⟨mountedFs (smallVolume 2 1 0), []⟩)
    (hbpb.symm ▸ layout_small) rfl ?_ (hbpb.symm ▸ zeroTail_small 2 1 0) rfl hstep).1, hslot⟩
  exact hbpb.symm ▸ wellFormed_small layout_small.dataGeometry (by decide) (Or.inr rfl)

end Fat16

end Yotos
