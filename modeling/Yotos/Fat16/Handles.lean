import Yotos.Fat16.FileRun
import Yotos.Fat16.Session
import Yotos.Library.Writes

/-!
# Several nodes of one file

Every lookup makes a node of its own, with its own copy of the entry's first cluster and
size, and every write puts both copies back. The runs here have any number of nodes for
the file in slot `f`, opened at any time, and writes through them in any order. Nothing
is lost as long as each write starts from the entry's first cluster and its size does not
fall behind the entry's.
-/

namespace Yotos

namespace Fat16

open Bytes Library Relation

/-- The file system, the open nodes of one file, and the writes so far. -/
structure Handles where
  fs : Fs
  nodes : List VfsNode
  log : List (Write UInt8)

/-- One call for the file in slot `f`, where writes satisfy `ok`. Every other use of the
heap, lookups of other files included, is `kernel`. -/
inductive HandleStep (f : ℕ) (ok : Fs → VfsNode → ℕ → ℕ → Prop) : Handles → Handles → Prop
  | finddir {fs fs' : Fs} {dir node : VfsNode} {nodes : List VfsNode} {log : List (Write UInt8)}
      {fuel : ℕ} {name : List UInt8} (hdir : IsDir fs.bpb fs.disk dir.inode)
      (hrun : fat16VfsFinddir fuel dir name fs = some (some node, fs')) (hslot : nodeSlot node = f) :
      HandleStep f ok ⟨fs, nodes, log⟩ ⟨fs', node :: nodes, log⟩
  | write {fs fs' : Fs} {node node' : VfsNode} {before after : List VfsNode}
      {log : List (Write UInt8)} {offset size : ℕ} {buf : Bytes} (hok : ok fs node offset size)
      (hrun : fat16VfsWrite node offset size buf fs = some ((size : ℤ), node', fs')) :
      HandleStep f ok ⟨fs, before ++ node :: after, log⟩
        ⟨fs', before ++ node' :: after, log ++ [⟨offset, size, buf⟩]⟩
  | close {fs : Fs} {node : VfsNode} {before after : List VfsNode} {log : List (Write UInt8)} :
      HandleStep f ok ⟨fs, before ++ node :: after, log⟩
        ⟨fat16VfsClose node fs, before ++ after, log⟩
  | kernel {fs : Fs} {nodes : List VfsNode} {log : List (Write UInt8)} (start : ℕ)
      (heap : Bytes) :
      HandleStep f ok ⟨fs, nodes, log⟩ ⟨{ fs with heapStart := start, heap := heap }, nodes, log⟩

/-- The node has the first cluster of the entry in slot `f`, and after a write of `size`
bytes at `offset` the node's size is not below the entry's. -/
def UpToDate (f : ℕ) (fs : Fs) (node : VfsNode) (offset size : ℕ) : Prop :=
  size = 0 ∨ (node.inode = firstCluster (entryAt fs.disk f) ∧
    fileSize (entryAt fs.disk f) ≤ max node.size (offset + size) ∧ offset + size < 2 ^ 32)

/-- A cluster that is in use and belongs to no file or directory. -/
def Lost (b : Bpb) (top : ℕ) (d : Disk) (k : ℕ) : Prop :=
  k < 256 * b.fatSize ∧ fatAt b d k ≠ 0 ∧
    ∀ a l, Owner b d a → FileChain b top d (firstCluster (entryAt d a)) l → k ∉ l

/-- What the disk `d` has of the file in slot `f` after the writes of `log`, on a volume
that was `d₀`. -/
structure Intact (b : Bpb) (top : ℕ) (d₀ d : Disk) (f : ℕ) (log : List (Write UInt8)) : Prop where
  content : ∃ l, FileChain b top d (firstCluster (entryAt d f)) l ∧
    ∀ x v, lastWritten log x = some v → x < l.length * b.clusterBytes ∧ byteAt b d l x = v
  size : fileSize (entryAt d f) = extent (fileSize (entryAt d₀ f)) log
  reachable : ∀ k, Lost b top d k → Lost b top d₀ k

variable {b : Bpb} {top : ℕ} {d₀ d d' : Disk} {f i n offset size : ℕ} {buf : Bytes}
  {node node' : VfsNode} {l l' : List ℕ} {log : List (Write UInt8)}

/-- Only the first clusters of files and directories count. -/
theorem Sound.congr_first {first first' : ℕ → ℕ} (h : ∀ a, Owner b d a → first' a = first a)
    (hs : Sound b top d first) : Sound b top d first' where
  free := hs.free
  chain a ha := by
    rw [h a ha]
    exact hs.chain a ha
  disjoint a a' m m' ha ha' hne hm hm' := by
    rw [h a ha] at hm
    rw [h a' ha'] at hm'
    exact hs.disjoint a a' m m' ha ha' hne hm hm'
  onDisk a ha htwo := (h a ha).trans (hs.onDisk a ha htwo)

/-- All first clusters are on the disk again once the one of the file is. -/
theorem Regrown.sound_onDisk (hb : Geometry b top)
    (hs : Sound b top d fun a => firstCluster (entryAt d a)) (hf : Owner b d f)
    (hfile : isDirectory (entryAt d f) = false)
    (hl : FileChain b top d (firstCluster (entryAt d f)) l)
    (hreg : Regrown b top d l f (firstCluster (entryAt d' f)) d' l') :
    Sound b top d' fun a => firstCluster (entryAt d' a) := by
  have htree := hreg.sameTree hb hs hf hfile hl
  refine (hreg.sound hb hs hf hfile hl).congr_first fun a ha => ?_
  by_cases heq : a = f
  · rw [heq, Function.update_self]
  · rw [Function.update_of_ne heq]
    exact firstCluster_congr (htree.liveEntry_other ((htree.owner_iff hb hs).1 ha).1 heq)

/-! ## One write -/

/-- A write that extends the chain of the file loses no cluster. -/
theorem Regrown.lost_of_lost (hb : Geometry b top)
    (hs : Sound b top d fun a => firstCluster (entryAt d a)) (hf : Owner b d f)
    (hfile : isDirectory (entryAt d f) = false)
    (hl : FileChain b top d (firstCluster (entryAt d f)) l) (hlonger : l <+: l')
    (hreg : Regrown b top d l f (firstCluster (entryAt d' f)) d' l') {k : ℕ}
    (h : Lost b top d' k) : Lost b top d k := by
  obtain ⟨hk, hused, hno⟩ := h
  have htree := hreg.sameTree hb hs hf hfile hl
  have hout : k ∉ l' := hno f l' ((htree.owner_iff hb hs).2 hf) hreg.chain
  rw [hreg.frame.fat k hk hout] at hused
  refine ⟨hk, hused, fun a m ha hm hmem => ?_⟩
  by_cases heq : a = f
  · subst heq
    obtain rfl := hm.unique hb hl
    exact hout (hlonger.subset hmem)
  · have hentry := firstCluster_congr (htree.liveEntry_other ha.1 heq)
    refine hno a m ((htree.owner_iff hb hs).2 ha) ?_ hmem
    rw [hentry]
    exact hreg.chain_other hb hs hf hl ha heq hm

/-- A write of all its bytes through a node that is up to date. -/
theorem Intact.written (hb : Geometry b top)
    (hs : Sound b top d fun a => firstCluster (entryAt d a)) (hn : OnSlot b d node f)
    (hold : node.size ≤ fileSize (entryAt d f))
    (hfresh : fileSize (entryAt d f) ≤ max node.size (offset + size))
    (hoff : offset + size < 2 ^ 32) (hsize : 0 < size)
    (hl : FileChain b top d (firstCluster (entryAt d f)) l)
    (hwrote : Wrote b top d l node'.inode offset 0 size buf d' l') (hmem : node'.inode ∈ l')
    (hlba : node'.dirLba = node.dirLba) (hindex : node'.dirIndex = node.dirIndex)
    (hnewSize : node'.size = max node.size (offset + size)) (h : Intact b top d₀ d f log) :
    Intact b top d₀ (updateEntry d' node') f (log ++ [⟨offset, size, buf⟩]) := by
  have huse := hwrote.grown.chain.inside_of_mem hmem
  have hlt : node'.size < 2 ^ 32 := hnewSize ▸ Nat.max_lt.2 ⟨hn.size_lt, hoff⟩
  have hfirst := firstCluster_updateEntry hn d' node' hlba hindex (huse.lt hb)
  have hend := fileSize_updateEntry hn d' node' hlba hindex hlt
  have hreg := regrown_updateEntry hb hs hn hwrote.grown hmem hlba hindex
  have hfits := hwrote.fits hsize
  have hlen := length_mul_le (b := b) hwrote.grown.isPrefix
  have hbyte {x : ℕ} (hx : x < l'.length * b.clusterBytes) :
      byteAt b (updateEntry d' node') l' x = byteAt b d' l' x :=
    byteAt_updateEntry hb hs hn hl hwrote.grown node' hlba hindex hx
  refine ⟨⟨l', ?_, fun x v hv => ?_⟩, ?_, fun k hk => ?_⟩
  · rw [hfirst]
    exact hreg.chain
  · obtain ⟨m, hm, hkept⟩ := h.content
    obtain rfl := hm.unique hb hl
    rw [lastWritten_append_singleton] at hv
    split_ifs at hv with hin
    · obtain ⟨hle, hlt⟩ := hin
      have hx : x < l'.length * b.clusterBytes := Nat.lt_of_lt_of_le hlt hfits
      refine ⟨hx, ?_⟩
      rw [hbyte hx, hwrote.written x hle hlt]
      exact Option.some.inj hv
    · -- bytes of earlier writes are in the old chain
      obtain ⟨hx, heq⟩ := hkept x v hv
      have hout : x < offset + 0 ∨ offset + size ≤ x := by
        rw [Write.Covers] at hin
        dsimp only at hin
        omega
      refine ⟨hx.trans_le hlen, ?_⟩
      rw [hbyte (hx.trans_le hlen), hwrote.kept x hx hout]
      exact heq
  · have hne : size ≠ 0 := Nat.ne_of_gt hsize
    rw [hend, hnewSize, extent_append_singleton]
    simp only [hne, if_false, ← h.size]
    omega
  · rw [← hfirst] at hreg
    exact h.reachable k
      (hreg.lost_of_lost hb hs hn.owner hn.file hl hwrote.grown.isPrefix hk)

/-- A write of nothing. -/
theorem Intact.nothing (hsize : size = 0) (h : Intact b top d₀ d f log) :
    Intact b top d₀ d f (log ++ [⟨offset, size, buf⟩]) := by
  obtain ⟨l, hl, hkept⟩ := h.content
  refine ⟨⟨l, hl, fun x v hv => ?_⟩, ?_, h.reachable⟩
  · rw [lastWritten_append_of_size_eq_zero hsize] at hv
    exact hkept x v hv
  · rw [extent_append_singleton, if_pos hsize]
    exact h.size

theorem toInt_eq_natCast (hle : n ≤ size) (h : toInt n = (size : ℤ)) :
    n = size := by
  unfold toInt at h
  split_ifs at h <;> omega

/-- A call that returns `size` wrote all the bytes. -/
theorem WriteOutcome.of_size (hsize : 0 < size) (hlt : size < 2 ^ 32)
    (h : WriteOutcome b top d l node offset size buf (size : ℤ) node' d') :
    ∃ d₁ l', Wrote b top d l node'.inode offset 0 size buf d₁ l' ∧ node'.inode ∈ l' ∧
      node'.dirLba = node.dirLba ∧ node'.dirIndex = node.dirIndex ∧
      node'.size = max node.size (offset + size) ∧ d' = updateEntry d₁ node' := by
  generalize hret : (size : ℤ) = ret at h
  cases h with
  | nothing hzero => omega
  | full => omega
  | noHeap => omega
  | @written i n d₁ l' _ _ hwrote hmem hn =>
      obtain rfl := toInt_eq_natCast hn hret.symm
      exact ⟨d₁, l', hwrote, hmem, rfl, rfl, rfl, rfl⟩

/-! ## Runs -/

/-- The invariant: the file is intact, and no node's size is above its entry's. -/
structure Handles.Inv (b : Bpb) (d₀ : Disk) (f : ℕ) (s : Handles) : Prop where
  bpb : s.fs.bpb = b
  mounted : s.fs.mounted = true
  sound : Sound b (clusterTop b) s.fs.disk fun a => firstCluster (entryAt s.fs.disk a)
  owner : Owner b s.fs.disk f
  file : isDirectory (entryAt s.fs.disk f) = false
  nodes : ∀ n ∈ s.nodes, OnSlot b s.fs.disk n f ∧ n.size ≤ fileSize (entryAt s.fs.disk f)
  intact : Intact b (clusterTop b) d₀ s.fs.disk f s.log

namespace Handles.Inv

theorem finddir (hb : Layout b) {fs fs' : Fs} {dir : VfsNode} {nodes : List VfsNode} {fuel : ℕ}
    {name : List UInt8} (hdir : IsDir fs.bpb fs.disk dir.inode)
    (hrun : fat16VfsFinddir fuel dir name fs = some (some node, fs')) (hslot : nodeSlot node = f)
    (h : Inv b d₀ f ⟨fs, nodes, log⟩) : Inv b d₀ f ⟨fs', node :: nodes, log⟩ := by
  obtain ⟨rfl, hmounted, hs, howner, hfile, hnodes, hintact⟩ := h
  obtain ⟨l, hl, -⟩ := hs.exists_dirChain hdir
  obtain ⟨k, addr, hlive, -, rfl, -, hdisk, hbpb, hmounted'⟩ :=
    fat16VfsFinddir_some hb.geometry hl hrun
  have haddr : slotAddr fs.bpb fs.disk dir.inode k = f := hslot
  have hnode := fileNode_nodeOf hb.spc_pos hdir hlive (by rwa [haddr]) addr
  rw [haddr] at hnode ⊢
  refine ⟨hbpb, hmounted'.trans hmounted, ?_, ?_, ?_, fun n hn => ?_, ?_⟩ <;>
    dsimp only at * <;> rw [hdisk]
  · exact hs
  · exact howner
  · exact hfile
  · rcases List.mem_cons.1 hn with rfl | hn
    · exact ⟨hnode.slot, hnode.size_eq.le⟩
    · exact hnodes n hn
  · exact hintact

theorem write (hb : Layout b) {fs fs' : Fs} {node' : VfsNode} {before after : List VfsNode}
    (hok : UpToDate f fs node offset size)
    (hrun : fat16VfsWrite node offset size buf fs = some ((size : ℤ), node', fs'))
    (h : Inv b d₀ f ⟨fs, before ++ node :: after, log⟩) :
    Inv b d₀ f ⟨fs', before ++ node' :: after, log ++ [⟨offset, size, buf⟩]⟩ := by
  obtain ⟨rfl, hmounted, hs, howner, hfile, hnodes, hintact⟩ := h
  obtain ⟨hn, hold⟩ := hnodes node (by simp)
  rcases Nat.eq_zero_or_pos size with hzero | hpos
  · rw [fat16VfsWrite, if_pos (Or.inr hzero)] at hrun
    simp only [Option.some.injEq, Prod.mk.injEq] at hrun
    obtain ⟨-, rfl, rfl⟩ := hrun
    exact ⟨rfl, hmounted, hs, howner, hfile, hnodes, hintact.nothing hzero⟩
  obtain ⟨hinode, hfresh, hoff⟩ := hok.resolve_left (Nat.ne_of_gt hpos)
  have hgeo := hb.geometry
  obtain ⟨l, hl⟩ := hs.chain f howner
  obtain ⟨houtcome, hbpb, hmounted'⟩ := fat16VfsWrite_cases hgeo hmounted hs.free
    (hinode.symm ▸ hl) hn.inode_lt hoff hrun
  obtain ⟨d₁, l', hwrote, hmem, hlba, hindex, hsize, hdisk⟩ := houtcome.of_size hpos (by omega)
  have hlt : node'.size < 2 ^ 32 := hsize ▸ Nat.max_lt.2 ⟨hn.size_lt, hoff⟩
  have huse := hwrote.grown.chain.inside_of_mem hmem
  have hreg := regrown_updateEntry hgeo hs hn hwrote.grown hmem hlba hindex
  have hfirst := firstCluster_updateEntry hn d₁ node' hlba hindex (huse.lt hgeo)
  have hend := fileSize_updateEntry hn d₁ node' hlba hindex hlt
  rw [← hdisk] at hreg hfirst hend
  have htree := hreg.sameTree hgeo hs howner hfile hl
  have hslot {m m' : VfsNode} (hm : OnSlot fs.bpb fs.disk m f) (hlba : m'.dirLba = m.dirLba)
      (hindex : m'.dirIndex = m.dirIndex) (hi : m'.inode < 65536) (hsz : m'.size < 2 ^ 32) :
      OnSlot fs.bpb fs'.disk m' f := hm.of_sameTree hgeo hs htree hlba hindex hi hsz
  refine ⟨hbpb, hmounted', ?_, (htree.owner_iff hgeo hs).2 howner,
    (hslot hn rfl rfl hn.inode_lt hn.size_lt).file, fun m hm => ?_, ?_⟩
  · rw [← hfirst] at hreg
    exact hreg.sound_onDisk hgeo hs howner hfile hl
  · have hother : m ∈ before ∨ m ∈ after → OnSlot fs.bpb fs'.disk m f ∧
        m.size ≤ fileSize (entryAt fs'.disk f) := by
      intro hmem
      obtain ⟨hm, hle⟩ := hnodes m (by simp; tauto)
      refine ⟨hslot hm rfl rfl hm.inode_lt hm.size_lt, ?_⟩
      rw [hend, hsize]
      exact hle.trans hfresh
    rcases List.mem_append.1 hm with hmem | hmem
    · exact hother (Or.inl hmem)
    · rcases List.mem_cons.1 hmem with rfl | hmem
      · exact ⟨hslot hn hlba hindex (huse.lt hgeo) hlt, hend.ge⟩
      · exact hother (Or.inr hmem)
  · dsimp only
    rw [hdisk]
    exact hintact.written hgeo hs hn hold hfresh hoff hpos hl hwrote hmem hlba hindex hsize

theorem step (hb : Layout b) {s s' : Handles} (h : Inv b d₀ f s)
    (hstep : HandleStep f (UpToDate f) s s') : Inv b d₀ f s' := by
  cases hstep with
  | finddir hdir hrun hslot => exact h.finddir hb hdir hrun hslot
  | write hok hrun => exact h.write hb hok hrun
  | @close fs node before after log =>
      refine ⟨h.bpb, h.mounted, h.sound, h.owner, h.file, fun n hn => h.nodes n ?_, h.intact⟩
      have hsub := (List.sublist_cons_self node after).append_left before
      exact hsub.subset hn
  | kernel => exact ⟨h.bpb, h.mounted, h.sound, h.owner, h.file, h.nodes, h.intact⟩

theorem run (hb : Layout b) {s s' : Handles} (h : Inv b d₀ f s)
    (hrun : ReflTransGen (HandleStep f (UpToDate f)) s s') : Inv b d₀ f s' := by
  induction hrun with
  | refl => exact h
  | tail _ hstep ih => exact ih.step hb hstep

end Handles.Inv

/-- Writes through nodes that are up to date lose nothing. -/
theorem intact_of_upToDate {s s' : Handles} (hb : Layout s.fs.bpb)
    (hmounted : s.fs.mounted = true) (hwf : WellFormed s.fs.bpb (clusterTop s.fs.bpb) s.fs.disk)
    (hf : LiveEntry s.fs.bpb s.fs.disk f) (hfile : isDirectory (entryAt s.fs.disk f) = false)
    (hnodes : s.nodes = []) (hlog : s.log = [])
    (hrun : ReflTransGen (HandleStep f (UpToDate f)) s s') :
    Intact s.fs.bpb (clusterTop s.fs.bpb) s.fs.disk s'.fs.disk f s'.log := by
  have hs := hwf.sound fun k hk hdata => Nat.lt_min.2 ⟨hdata.2.2, hk⟩
  have howner : Owner s.fs.bpb s.fs.disk f := ⟨hf, isDot_of_file hfile⟩
  obtain ⟨l, hl⟩ := hs.chain f howner
  have hinv : Handles.Inv s.fs.bpb s.fs.disk f s :=
    { bpb := rfl
      mounted := hmounted
      sound := hs
      owner := howner
      file := hfile
      nodes := by simp [hnodes]
      intact := ⟨⟨l, hl, by simp [hlog]⟩, by simp [hlog], fun _ hk => hk⟩ }
  exact (hinv.run hb hrun).intact

/-! ## Two nodes of the file `A` -/

/-- Two lookups of `A` on the small volume, then one byte through each node. -/
def twoWrites (first size : UInt8) (offset₁ offset₂ : ℕ) :
    Option ((Option VfsNode × Fs) × (Option VfsNode × Fs) × (ℤ × VfsNode × Fs) ×
      ℤ × VfsNode × Fs) :=
  (fat16VfsFinddir 2 fat16RootNode [0x41] (mountedFs (smallVolume first size 0))).bind fun r₁ =>
    (fat16VfsFinddir 2 fat16RootNode [0x41] r₁.2).bind fun r₂ =>
      (r₁.1.bind fun n₁ => fat16VfsWrite n₁ offset₁ 1 (fun _ => 0x42) r₂.2).bind fun w₁ =>
        (r₂.1.bind fun n₂ => fat16VfsWrite n₂ offset₂ 1 (fun _ => 0x43) w₁.2.2).map fun w₂ =>
          (r₁, r₂, w₁, w₂)

theorem reflTransGen_twoWrites {ok : Fs → VfsNode → ℕ → ℕ → Prop} {first size : UInt8}
    {offset₁ offset₂ : ℕ} {n₁ n₂ m₁ m₂ : VfsNode} {fs₁ fs₂ fs₃ fs₄ : Fs}
    (h : twoWrites first size offset₁ offset₂ =
      some ((some n₁, fs₁), (some n₂, fs₂), (1, m₁, fs₃), (1, m₂, fs₄)))
    (hslot₁ : nodeSlot n₁ = f) (hslot₂ : nodeSlot n₂ = f) (hok₁ : ok fs₂ n₁ offset₁ 1)
    (hok₂ : ok fs₃ n₂ offset₂ 1) :
    ReflTransGen (HandleStep f ok) ⟨mountedFs (smallVolume first size 0), [], []⟩
      ⟨fs₄, [m₂, m₁], [⟨offset₁, 1, fun _ => 0x42⟩, ⟨offset₂, 1, fun _ => 0x43⟩]⟩ := by
  obtain ⟨s₁, hfind₁, h⟩ := Option.bind_eq_some_iff.1 h
  obtain ⟨s₂, hfind₂, h⟩ := Option.bind_eq_some_iff.1 h
  obtain ⟨v₁, hwrite₁, h⟩ := Option.bind_eq_some_iff.1 h
  obtain ⟨v₂, hwrite₂, h⟩ := Option.map_eq_some_iff.1 h
  simp only [Prod.mk.injEq] at h
  obtain ⟨rfl, rfl, rfl, rfl⟩ := h
  have hopen₁ : HandleStep f ok ⟨mountedFs (smallVolume first size 0), [], []⟩ ⟨fs₁, [n₁], []⟩ :=
    .finddir IsDir.root hfind₁ hslot₁
  have hopen₂ : HandleStep f ok ⟨fs₁, [n₁], []⟩ ⟨fs₂, [n₂, n₁], []⟩ :=
    .finddir IsDir.root hfind₂ hslot₂
  have hput₁ : HandleStep f ok ⟨fs₂, [n₂, n₁], []⟩
      ⟨fs₃, [n₂, m₁], [⟨offset₁, 1, fun _ => 0x42⟩]⟩ :=
    @HandleStep.write f ok fs₂ fs₃ n₁ m₁ [n₂] [] [] offset₁ 1 _ hok₁ hwrite₁
  have hput₂ : HandleStep f ok ⟨fs₃, [n₂, m₁], [⟨offset₁, 1, fun _ => 0x42⟩]⟩
      ⟨fs₄, [m₂, m₁], [⟨offset₁, 1, fun _ => 0x42⟩, ⟨offset₂, 1, fun _ => 0x43⟩]⟩ :=
    @HandleStep.write f ok fs₃ fs₄ n₂ m₂ [] [m₁] [⟨offset₁, 1, fun _ => 0x42⟩] offset₂ 1 _ hok₂
      hwrite₂
  exact (((ReflTransGen.single hopen₁).tail hopen₂).tail hput₁).tail hput₂

/-- The file has a cluster, and the second write ends past the first. -/
theorem intact_of_upToDate_small :
    ∃ s' : Handles, ReflTransGen (HandleStep 1024 (UpToDate 1024))
        ⟨mountedFs (smallVolume 2 1 0), [], []⟩ s' ∧ s'.nodes.length = 2 ∧
      lastWritten s'.log 0 = some 0x42 ∧ lastWritten s'.log 1 = some 0x43 ∧
      Intact smallBpb (clusterTop smallBpb) (smallVolume 2 1 0) s'.fs.disk 1024 s'.log := by
  have hret : (twoWrites 2 1 0 1).map (fun r =>
      ((r.1.1.map fun n => [nodeSlot n, n.inode, n.size],
        r.2.1.1.map fun n => [nodeSlot n, n.inode, n.size]), (r.2.2.1.1, r.2.2.2.1),
        [firstCluster (entryAt r.2.1.2.disk 1024), fileSize (entryAt r.2.1.2.disk 1024),
          firstCluster (entryAt r.2.2.1.2.2.disk 1024),
          fileSize (entryAt r.2.2.1.2.2.disk 1024)])) =
      some ((some [1024, 2, 1], some [1024, 2, 1]), (1, 1), [2, 1, 2, 1]) := by
    decide +kernel
  obtain ⟨⟨⟨_ | n₁, fs₁⟩, ⟨_ | n₂, fs₂⟩, ⟨ret₁, m₁, fs₃⟩, ret₂, m₂, fs₄⟩, hrun, hvalues⟩ :=
    Option.map_eq_some_iff.1 hret <;>
    simp only [Option.map_some, Option.map_none, Prod.mk.injEq, Option.some.injEq,
      List.cons.injEq, and_true, reduceCtorEq, false_and, and_false] at hvalues
  obtain ⟨⟨⟨hslot₁, hinode₁, hsize₁⟩, hslot₂, hinode₂, hsize₂⟩, ⟨rfl, rfl⟩, hfirst, hend, hfirst',
    hend'⟩ := hvalues
  have hbpb := mountedFs_smallVolume 2 1 0
  have hfresh₁ : UpToDate 1024 fs₂ n₁ 0 1 :=
    Or.inr ⟨by rw [hinode₁, hfirst], by rw [hend, hsize₁]; omega, by omega⟩
  have hfresh₂ : UpToDate 1024 fs₃ n₂ 1 1 :=
    Or.inr ⟨by rw [hinode₂, hfirst'], by rw [hend', hsize₂]; omega, by omega⟩
  have hsteps := reflTransGen_twoWrites hrun hslot₁ hslot₂ hfresh₁ hfresh₂
  have hintact := intact_of_upToDate (hbpb.symm ▸ layout_small) rfl
    (hbpb.symm ▸ wellFormed_small layout_small.geometry (by decide) (Or.inr rfl))
    (hbpb.symm ▸ (fileNode_small 2 1 0).slot.live) (fileNode_small 2 1 0).slot.file rfl rfl hsteps
  rw [hbpb] at hintact
  exact ⟨_, hsteps, rfl, rfl, rfl, hintact⟩

/-- Both nodes of an empty file are opened before either writes: the second write takes
its own first cluster, and the first byte is gone. -/
theorem not_intact_twoWrites :
    ∃ s' : Handles, ReflTransGen (HandleStep 1024 fun _ _ _ _ => True)
        ⟨mountedFs (smallVolume 0 0 0), [], []⟩ s' ∧
      WellFormed smallBpb (clusterTop smallBpb) (smallVolume 0 0 0) ∧
      LiveEntry smallBpb (smallVolume 0 0 0) 1024 ∧
      isDirectory (entryAt (smallVolume 0 0 0) 1024) = false ∧
      ¬ Intact smallBpb (clusterTop smallBpb) (smallVolume 0 0 0) s'.fs.disk 1024 s'.log := by
  have hret : (twoWrites 0 0 0 1).map (fun r => ((r.1.1.map nodeSlot, r.2.1.1.map nodeSlot),
      (r.2.2.1.1, r.2.2.2.1), firstCluster (entryAt r.2.2.2.2.2.disk 1024),
      fatAt smallBpb r.2.2.2.2.2.disk 4, byteAt smallBpb r.2.2.2.2.2.disk [4] 0)) =
      some ((some 1024, some 1024), (1, 1), 4, 0xFFFF, 0) := by
    decide +kernel
  obtain ⟨⟨⟨_ | n₁, fs₁⟩, ⟨_ | n₂, fs₂⟩, ⟨ret₁, m₁, fs₃⟩, ret₂, m₂, fs₄⟩, hrun, hvalues⟩ :=
    Option.map_eq_some_iff.1 hret <;>
    simp only [Option.map_some, Option.map_none, Prod.mk.injEq, Option.some.injEq,
      reduceCtorEq, false_and, and_false] at hvalues
  obtain ⟨⟨hslot₁, hslot₂⟩, ⟨rfl, rfl⟩, hfirst, hlink, hbyte⟩ := hvalues
  have hslot := (fileNode_small 0 0 0).slot
  refine ⟨_, reflTransGen_twoWrites hrun hslot₁ hslot₂ trivial trivial,
    wellFormed_small layout_small.geometry (by decide) (Or.inl rfl), hslot.live, hslot.file,
    fun h => ?_⟩
  obtain ⟨l, hl, hkept⟩ := h.content
  have hchain : FileChain smallBpb (clusterTop smallBpb) fs₄.disk 4 [4] := by
    refine (fileChain_of_two_le (by omega)).2 ⟨by simp, Chain.single ⟨by omega, by decide⟩ ?_⟩
    rw [hlink]
    exact Nat.le_of_ble_eq_true rfl
  rw [hfirst] at hl
  obtain rfl := hl.unique layout_small.geometry hchain
  have hlast := (hkept 0 0x42 rfl).2
  rw [hbyte] at hlast
  exact absurd hlast (by decide)

end Fat16

end Yotos
