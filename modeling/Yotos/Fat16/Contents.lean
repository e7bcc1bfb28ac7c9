import Yotos.Fat16.Read
import Yotos.Fat16.Regions
import Yotos.Fat16.Scan

/-!
# A write changes one file

The main result about `fat16_vfs_write`: on a well-formed volume a call that reports
`n` bytes replaced these bytes of its file, as reading it through its directory entry
shows, and left the content of every other file and every directory listing alone.
-/

namespace Yotos

namespace Fat16

open Bytes Kheap Library

/-- The cluster numbers that the table holds below the end marks. -/
def clusterTop (b : Bpb) : ℕ := min 0xFFF8 (256 * b.fatSize)

/-- Clusters exist, the FAT area holds the table and so lies before the root directory
and the data area, and the table is not empty, which `fat16_init` checks. -/
structure Layout (b : Bpb) : Prop where
  spc_pos : 1 ≤ b.spc
  fatCount_pos : 1 ≤ b.fatCount.toNat
  fatSize_pos : 1 ≤ b.fatSize

variable {b : Bpb} {top : ℕ} {d d' : Disk} {first : ℕ → ℕ} {f g dir : ℕ} {l : List ℕ}

theorem Layout.geometry (hb : Layout b) : Geometry b (clusterTop b) where
  spc_pos := hb.spc_pos
  fatCount_pos := hb.fatCount_pos
  fatSize_pos := hb.fatSize_pos
  top_le_mark := Nat.min_le_left _ _
  top_le_table := Nat.min_le_right _ _

/-- A well-formed volume is sound with the first clusters on the disk. -/
theorem WellFormed.sound (hwf : WellFormed b top d)
    (htop : ∀ k < 256 * b.fatSize, DataCluster b k → k < top) :
    Sound b top d fun a => firstCluster (entryAt d a) where
  free k hk hzero := by
    have hdata : DataCluster b k := by
      by_contra hno
      exact hwf.free k hk hno hzero
    exact ⟨hdata.1, htop k hk hdata⟩
  chain a ha := by
    rcases Nat.lt_or_ge (firstCluster (entryAt d a)) 2 with hlt | htwo
    · exact ⟨[], (fileChain_of_lt hlt).2 rfl⟩
    · obtain ⟨l, hne, hl, -⟩ := hwf.chain a ha htwo
      exact ⟨l, (fileChain_of_two_le htwo).2 ⟨hne, hl⟩⟩
  disjoint a a' l l' ha ha' hne hl hl' := by
    rcases hl.cases with ⟨-, rfl⟩ | ⟨htwo, -, hchain⟩
    · exact List.disjoint_nil_left l'
    · rcases hl'.cases with ⟨-, rfl⟩ | ⟨htwo', -, hchain'⟩
      · exact List.disjoint_nil_right l
      · exact hwf.disjoint a a' l l' ha ha' hne htwo htwo' hchain hchain'
  onDisk _ _ _ := rfl

/-- `node` agrees with the live file entry in slot `f`, as the nodes of
`fat16_vfs_finddir` and `fat16_vfs_create` do. -/
structure FileNode (b : Bpb) (d : Disk) (node : VfsNode) (f : ℕ) : Prop where
  slot : OnSlot b d node f
  inode_eq : node.inode = firstCluster (entryAt d f)
  size_eq : node.size = fileSize (entryAt d f)

/-- The file in slot `g` has the bytes `content`, for every node that decodes its
entry. -/
def HasContent (fs : Fs) (g : ℕ) (content : Bytes) : Prop :=
  ∀ lba i addr, ReadsAs fs (nodeOf (entryAt fs.disk g) lba i addr) content

/-- A listing entry before and after the file with first cluster `old` got `new`: a
file without clusters shows its first one afterwards. -/
structure DirentRel (old new : ℕ) (e e' : VfsDirent) : Prop where
  name_eq : e'.name = e.name
  flags_eq : e'.flags = e.flags
  inode_eq : e'.inode = e.inode ∨ (old < 2 ∧ e.inode = old ∧ e'.inode = new)

theorem nodeOf_size {e : Bytes} (h : isDirectory e = false) (lba i addr : ℕ) :
    (nodeOf e lba i addr).size = fileSize e := by
  simp only [nodeOf, h, Bool.false_eq_true, if_false]

theorem slotAddr_eq (b : Bpb) (d : Disk) (dir k : ℕ) :
    slotAddr b d dir k = 512 * dirSectorLba b d dir (k / 16) + 32 * (k % 16) := rfl

/-- The node of a live file entry. -/
theorem fileNode_nodeOf {k : ℕ} (hspc : 1 ≤ b.spc) (hdir : IsDir b d dir) (hlive : LiveSlot b d dir k)
    (hfile : isDirectory (entryAt d (slotAddr b d dir k)) = false) (addr : ℕ) :
    FileNode b d (nodeOf (entryAt d (slotAddr b d dir k)) (dirSectorLba b d dir (k / 16))
      (k % 16) addr) (slotAddr b d dir k) where
  slot :=
    { live := ⟨dir, k, hdir, hlive, rfl⟩
      file := hfile
      addr := slotAddr_eq b d dir k
      lba_lt := dirSectorLba_lt hspc d dir _
      index_lt := Nat.mod_lt k (by omega)
      inode_lt := load16_lt _ _
      size_lt := by
        rw [nodeOf_size hfile]
        exact load32_lt _ _ }
  inode_eq := rfl
  size_eq := nodeOf_size hfile _ _ _

/-! ## Other files -/

/-- Bytes of the clusters of another file are kept. -/
theorem Regrown.byteAt_other {i : ℕ} {l' m : List ℕ} (hb : Geometry b top)
    (hs : Sound b top d first) (hf : Owner b d f)
    (hl : FileChain b top d (first f) l) (h : Regrown b top d l f i d' l')
    (hg : Owner b d g) (hfile : isDirectory (entryAt d g) = false) (hne : g ≠ f)
    (hm : FileChain b top d (first g) m) {x : ℕ} (hx : x < m.length * b.clusterBytes) :
    byteAt b d' m x = byteAt b d m x := by
  refine byteAt_congr hb (fun c hc a ha => ?_) hx
  have huse := hm.inUse hc
  have hdata := dataAddr_le_of_inCluster huse.1 (huse.lt hb) ha
  refine h.frame.bytes a ((rootAddr_le_dataAddr b).trans hdata) (fun c' hc' ha' => ?_)
    fun hW => ?_
  · have huse' := h.chain.inUse hc'
    obtain rfl := inCluster_unique huse.1 (huse.lt hb) huse'.1 (huse'.lt hb) ha ha'
    exact h.disjoint_other hs hf hl hg hne hm hc hc'
  · obtain ⟨y, hy⟩ := Nat.exists_eq_add_of_le (show f ≤ a by have := hW.1; omega)
    have hprivate : Private b top d first (· = c) := by
      rintro _ rfl
      exact ⟨huse, Or.inr ⟨g, m, hg, hfile, hm, hc⟩⟩
    have hbyte := hf.1.dirByte (show y < 32 by have := hW.2; omega)
    rw [← hy] at hbyte
    exact hbyte.not_inCluster hb hs hprivate rfl ha

/-- The bytes of the file's own chain are not in its slot. -/
theorem byteAt_updateEntry {i : ℕ} {l' : List ℕ} (hb : Geometry b top)
    (hs : Sound b top d first) {node : VfsNode} (hn : OnSlot b d node f)
    (hl : FileChain b top d (first f) l) {d₁ : Disk} (h : Grown b top d l i d₁ l')
    (node' : VfsNode) (hlba : node'.dirLba = node.dirLba) (hindex : node'.dirIndex = node.dirIndex) {x : ℕ}
    (hx : x < l'.length * b.clusterBytes) :
    byteAt b (updateEntry d₁ node') l' x = byteAt b d₁ l' x := by
  refine byteAt_congr hb (fun c hc a ha => ?_) hx
  refine updateEntry_of_apart hn d₁ hlba hindex fun hW => ?_
  obtain ⟨y, hy⟩ := Nat.exists_eq_add_of_le (show f ≤ a by have := hW.1; omega)
  have hprivate : Private b top d first (· ∈ l') := fun c hc =>
    ⟨h.chain.inside_of_mem hc, (h.fresh c hc).symm.imp_right
      fun hcl => ⟨f, l, hn.owner, hn.file, hl, hcl⟩⟩
  have hbyte := hn.live.dirByte (show y < 32 by have := hW.2; omega)
  rw [← hy] at hbyte
  exact hbyte.not_inCluster hb hs hprivate hc ha

theorem ReadsAs.congr {fs : Fs} {node : VfsNode} {content content' : Bytes}
    (h : ReadsAs fs node content) (heq : ∀ x < node.size, content' x = content x) :
    ReadsAs fs node content' := by
  intro start heap heap' p offset size buf hmalloc hp hfit
  obtain ⟨out, heap'', hrun, hread⟩ := h start heap heap' p offset size buf hmalloc hp hfit
  refine ⟨out, heap'', hrun, fun x hx => ?_⟩
  rw [hread x hx, heq (offset + x) (by omega)]

theorem nodeOf_inode_lt (e : Bytes) (lba i addr : ℕ) : (nodeOf e lba i addr).inode < 65536 :=
  load16_lt e 26

/-- A file of a well-formed volume has the bytes of its chain. -/
theorem hasContent_byteAt {fs : Fs} (hb : Geometry fs.bpb top) (hmounted : fs.mounted = true)
    (hfile : isDirectory (entryAt fs.disk g) = false)
    (hl : FileChain fs.bpb top fs.disk (firstCluster (entryAt fs.disk g)) l)
    (hsize : fileSize (entryAt fs.disk g) ≤ l.length * fs.bpb.clusterBytes) :
    HasContent fs g (byteAt fs.bpb fs.disk l) := fun lba i addr =>
  readsAs_byteAt hb hmounted hl (nodeOf_inode_lt _ lba i addr)
    (by rwa [nodeOf_size hfile])

theorem HasContent.congr {fs : Fs} {content content' : Bytes} (h : HasContent fs g content)
    (hfile : isDirectory (entryAt fs.disk g) = false)
    (heq : ∀ x < fileSize (entryAt fs.disk g), content' x = content x) :
    HasContent fs g content' := fun lba i addr =>
  (h lba i addr).congr fun x hx => heq x (by rwa [nodeOf_size hfile] at hx)

/-! ## Listings -/

/-- The entry in slot `f` before and after. -/
theorem readdirVisit_rel {old new : ℕ} {e e' : Bytes} (hhead : ∀ x < 26, e' x = e x)
    (hfirst : firstCluster e' = firstCluster e ∨
      (old < 2 ∧ firstCluster e = old ∧ firstCluster e' = new)) (index lba i s : ℕ) :
    VisitRel (DirentRel old new) (readdirVisit index lba i e s)
      (readdirVisit index lba i e' s) := by
  unfold readdirVisit
  rw [skipEntry_congr hhead, isVolumeId_congr hhead, hhead 0 (by omega), format83_congr hhead,
    isDirectory_congr hhead]
  split_ifs
  · exact VisitRel.done Option.Rel.none
  · exact VisitRel.next s
  · exact VisitRel.next s
  · exact VisitRel.next s
  · exact VisitRel.done (Option.Rel.some ⟨rfl, rfl, hfirst⟩)
  · exact VisitRel.done (Option.Rel.some ⟨rfl, rfl, hfirst⟩)
  · exact VisitRel.next _

/-- The directories list the same entries. -/
theorem SameTree.readdir_rel {fs fs' : Fs} {old new : ℕ} (hspc : 1 ≤ fs.bpb.spc)
    (hbpb : fs'.bpb = fs.bpb) (hmounted : fs'.mounted = fs.mounted)
    (h : SameTree fs.bpb fs.disk fs'.disk f)
    (hfirst : firstCluster (entryAt fs'.disk f) = firstCluster (entryAt fs.disk f) ∨
      (old < 2 ∧ firstCluster (entryAt fs.disk f) = old ∧
        firstCluster (entryAt fs'.disk f) = new))
    {node : VfsNode} (hdir : IsDir fs.bpb fs.disk node.inode) (fuel index : ℕ) :
    Option.Rel (Option.Rel (DirentRel old new)) (fat16VfsReaddir fuel node index fs)
      (fat16VfsReaddir fuel node index fs') := by
  unfold fat16VfsReaddir
  rw [hbpb, hmounted]
  split_ifs with hm
  · refine scanDir_rel hspc (h.sectors _ hdir) (fun k s hk => ?_) fuel 0 0
    rw [slotVisit, slotVisit, h.slotAddr_eq hdir, h.sectors _ hdir]
    refine readdirVisit_rel (h.entry_head hdir hk) ?_ index _ _ s
    by_cases heq : slotAddr fs.bpb fs.disk node.inode k = f
    · rw [heq]
      exact hfirst
    · exact Or.inl (firstCluster_congr (h.other _ k hdir hk heq))
  · exact Option.Rel.some Option.Rel.none

/-! ## The file that is written -/

/-- A call that reports `n` bytes. -/
theorem WriteOutcome.bytes (hb : Geometry b top) (hs : Sound b top d first)
    {node node' : VfsNode} {offset size : ℕ} {buf : Bytes} {ret : ℤ} (hn : OnSlot b d node f)
    (hinode : node.inode = first f) (hl : FileChain b top d (first f) l)
    (hsize : node.size = fileSize (entryAt d f)) (hoffset : offset ≤ node.size)
    (hlong : node.size ≤ l.length * b.clusterBytes) (hoff : offset + size < 2 ^ 31)
    (h : WriteOutcome b top d l node offset size buf ret node' d') (hret : 0 ≤ ret)
    (hdisk : first f = firstCluster (entryAt d f)) :
    ∃ (n : ℕ) (l' : List ℕ), ret = (n : ℤ) ∧ offset + n < 2 ^ 31 ∧
      Regrown b top d l f node'.inode d' l' ∧
      node'.dirLba = node.dirLba ∧ node'.dirIndex = node.dirIndex ∧
      node'.inode < 65536 ∧ (2 ≤ node.inode → node'.inode = node.inode) ∧ node'.inode = firstCluster (entryAt d' f) ∧
      node'.size = max node.size (offset + n) ∧ node'.size = fileSize (entryAt d' f) ∧
      node'.size ≤ l'.length * b.clusterBytes ∧ ∀ x < node'.size, byteAt b d' l' x =
        if offset ≤ x ∧ x < offset + n then buf (x - offset) else byteAt b d l x := by
  cases h with
  | full => omega
  | noHeap => omega
  | nothing hzero =>
      refine ⟨0, l, rfl, by omega, regrown_refl hs hn hinode hl, rfl, rfl, hn.inode_lt,
        fun _ => rfl, hinode.trans hdisk, by omega, hsize, hlong, fun x _ => ?_⟩
      rw [if_neg (by omega)]
  | @written i n d₁ l' _ hsame hwrote hmem hle =>
      have huse := hwrote.grown.chain.inside_of_mem hmem
      have hlen := length_mul_le (b := b) hwrote.grown.isPrefix
      have hfits := hwrote.fits
      have hsz := hn.size_lt
      have hlong' : max node.size (offset + n) ≤ l'.length * b.clusterBytes := by
        rcases Nat.eq_zero_or_pos n with hzero | hpos
        · omega
        · have := hfits hpos
          omega
      have hkeep : 2 ≤ node.inode → i = node.inode := fun htwo => by
        refine hsame ?_
        rintro rfl
        rcases hl.cases with ⟨hlt, -⟩ | ⟨-, hmem', -⟩
        · omega
        · cases hmem'
      have hsize' : max node.size (offset + n) < 2 ^ 32 := by omega
      refine ⟨n, l', by rw [toInt, if_pos (by omega)], by omega,
        regrown_updateEntry hb hs hn hwrote.grown hmem rfl rfl, rfl, rfl, huse.lt hb, hkeep,
        (firstCluster_updateEntry hn d₁
          { node with inode := i, size := max node.size (offset + n) } rfl rfl
          (huse.lt hb)).symm, rfl,
        (fileSize_updateEntry hn d₁
          { node with inode := i, size := max node.size (offset + n) } rfl rfl hsize').symm,
        hlong', fun x hx => ?_⟩
      have hx' : x < l'.length * b.clusterBytes := Nat.lt_of_lt_of_le hx hlong'
      rw [byteAt_updateEntry hb hs hn hl hwrote.grown
        { node with inode := i, size := max node.size (offset + n) } rfl rfl hx']
      split_ifs with hin
      · exact hwrote.written x (by omega) hin.2
      · dsimp only at hx
        exact hwrote.kept x (by omega) (by omega)

/-- A call of `fat16_vfs_write` that returns `ret ≥ 0` on a well-formed volume. Its file
now reads as before with `ret` bytes from `offset` on replaced and is as long as it has
to be; all other files keep their entries and their content, and the directories list
the same names. -/
theorem fat16VfsWrite_content {fs fs' : Fs} {node node' : VfsNode} {f offset size : ℕ}
    {buf : Bytes} {ret : ℤ} (hb : Layout fs.bpb) (hmounted : fs.mounted = true)
    (hwf : WellFormed fs.bpb (clusterTop fs.bpb) fs.disk)
    (hlong : LongEnough fs.bpb (clusterTop fs.bpb) fs.disk)
    (hnode : FileNode fs.bpb fs.disk node f) (hoffset : offset ≤ node.size)
    (hsize : offset + size < 2 ^ 31)
    (hrun : fat16VfsWrite node offset size buf fs = some (ret, node', fs')) (hret : 0 ≤ ret) :
    (∃ content, HasContent fs f content ∧ HasContent fs' f fun x =>
        if offset ≤ x ∧ x < offset + ret.toNat then buf (x - offset) else content x) ∧
      fileSize (entryAt fs'.disk f) =
        max (fileSize (entryAt fs.disk f)) (offset + ret.toNat) ∧
      FileNode fs'.bpb fs'.disk node' f ∧
      (∀ g, LiveEntry fs'.bpb fs'.disk g ↔ LiveEntry fs.bpb fs.disk g) ∧
      (∀ g, LiveEntry fs.bpb fs.disk g → isDirectory (entryAt fs.disk g) = false → g ≠ f →
        (∀ x < 32, entryAt fs'.disk g x = entryAt fs.disk g x) ∧
          ∃ content, HasContent fs g content ∧ HasContent fs' g content) ∧
      ∀ dirNode fuel index, IsDir fs.bpb fs.disk dirNode.inode →
        Option.Rel (Option.Rel (DirentRel node.inode node'.inode))
          (fat16VfsReaddir fuel dirNode index fs) (fat16VfsReaddir fuel dirNode index fs') := by
  have hgeo := hb.geometry
  have hs := hwf.sound fun k hk hdata => Nat.lt_min.2 ⟨hdata.2.2, hk⟩
  have howner := hnode.slot.owner
  obtain ⟨l, hl⟩ := hs.chain f howner
  have hlen := hlong f l howner hnode.slot.file hl
  obtain ⟨houtcome, hbpb, hmounted'⟩ := fat16VfsWrite_cases hgeo hmounted hs.free
    (hnode.inode_eq ▸ hl) hnode.slot.inode_lt (by omega) hrun
  obtain ⟨n, l', rfl, hn, hreg, hlba, hindex, hinode', hkeep, hdisk', hsize', hentry', hlong',
      hbytes⟩ := houtcome.bytes hgeo hs hnode.slot hnode.inode_eq hl hnode.size_eq hoffset
      (hnode.size_eq ▸ hlen) hsize hret rfl
  have htree := hreg.sameTree hgeo hs howner hnode.slot.file hl
  have hslot := hnode.slot.size_lt
  have hnode' : OnSlot fs.bpb fs'.disk node' f :=
    hnode.slot.of_sameTree hgeo hs htree hlba hindex hinode' (by omega)
  have hgeo' : Geometry fs'.bpb (clusterTop fs.bpb) := hbpb ▸ hgeo
  rw [Int.toNat_natCast]
  refine ⟨⟨byteAt fs.bpb fs.disk l, hasContent_byteAt hgeo hmounted hnode.slot.file hl hlen, ?_⟩,
    ?_, ?_, fun g => ?_, fun g hg hfile hne => ⟨htree.liveEntry_other hg hne, ?_⟩,
    fun dirNode fuel index hdir => ?_⟩
  · have hread := hasContent_byteAt (g := f) (l := l') hgeo' hmounted' hnode'.file
      (by rw [hbpb, ← hdisk']; exact hreg.chain) (by rw [hbpb, ← hentry']; exact hlong')
    refine hread.congr hnode'.file fun x hx => ?_
    rw [hbpb]
    exact (hbytes x (by rwa [hentry'])).symm
  · rw [← hentry', hsize', hnode.size_eq]
  · exact ⟨hbpb ▸ hnode', hdisk', hentry'⟩
  · rw [hbpb]
    exact htree.liveEntry_iff hgeo hs
  · have hgowner : Owner fs.bpb fs.disk g := ⟨hg, isDot_of_file hfile⟩
    obtain ⟨m, hm⟩ := hs.chain g hgowner
    have hlen' := hlong g m hgowner hfile hm
    have hother := htree.liveEntry_other hg hne
    have hfile' : isDirectory (entryAt fs'.disk g) = false := by
      rw [isDirectory_congr fun x hx => hother x (by omega)]
      exact hfile
    refine ⟨byteAt fs.bpb fs.disk m, hasContent_byteAt hgeo hmounted hfile hm hlen', ?_⟩
    have hm' := hreg.chain_other hgeo hs howner hl hgowner hne hm
    have hread := hasContent_byteAt (g := g) (l := m) hgeo' hmounted' hfile'
      (by rw [hbpb, firstCluster_congr hother]; exact hm')
      (by rw [hbpb, fileSize_congr hother]; exact hlen')
    refine hread.congr hfile' fun x hx => ?_
    rw [fileSize_congr hother] at hx
    rw [hbpb]
    exact (hreg.byteAt_other hgeo hs howner hl hgowner hfile hne hm (by omega)).symm
  · refine htree.readdir_rel hgeo.spc_pos hbpb (hmounted'.trans hmounted.symm) ?_ hdir fuel index
    rcases Nat.lt_or_ge node.inode 2 with hlt | htwo
    · exact Or.inr ⟨hlt, hnode.inode_eq.symm, hdisk'.symm⟩
    · exact Or.inl (by rw [← hdisk', ← hnode.inode_eq, hkeep htwo])

/-! ## A small volume -/

section Small

variable {size link : UInt8} {k : ℕ}

/-- The small volume with the file `A` in the first root slot. Entry 2 of the table is an
end mark, and the entries 3 to 8 of the other data clusters have `link` in both bytes. -/
def smallVolume (first size link : UInt8) : Disk := fun a =>
  if a < 512 then smallBoot a
  else if a < 1024 then if 518 ≤ a ∧ a < 530 then link else 0xFF
  else if a = 1024 then 0x41
  else if a ≤ 1035 then 0x20
  else if a = 1050 then first
  else if a = 1052 then size
  else 0

/-- The node that a lookup of `A` returns. -/
def smallNode (first size link : UInt8) : VfsNode :=
  nodeOf (entryAt (smallVolume first size link) 1024) 2 0 0x111010

/-- The boot record of the small volume. -/
abbrev smallBpb : Bpb := Bpb.ofSector smallBoot

theorem mountedFs_smallVolume (first size link : UInt8) :
    (mountedFs (smallVolume first size link)).bpb = smallBpb := by
  simp [mountedFs, Bpb.ofSector, load16, load32, smallVolume]

theorem layout_small : Layout smallBpb := ⟨by decide, by decide, by decide⟩

/-- The root directory is one sector. -/
theorem dirSectorLba_small (d : Disk) (n : ℕ) :
    dirSectorLba smallBpb d 0 n = if n = 0 then 2 else 0 := by
  rw [dirSectorLba_root, show smallBpb.rootDirSectors = 1 by decide,
    show smallBpb.rootDirLba = 2 by decide]
  rcases Nat.eq_zero_or_pos n with rfl | hpos
  · rfl
  · rw [if_pos (by omega), if_neg (by omega)]

theorem hasSlot_small {d : Disk} : HasSlot smallBpb d 0 k ↔ k < 16 := by
  rw [HasSlot, dirSectorLba_small]
  split_ifs
  · exact iff_of_true (by omega) (by omega)
  · exact iff_of_false (by omega) (by omega)

theorem slotAddr_small {d : Disk} (hk : k < 16) :
    slotAddr smallBpb d 0 k = 1024 + 32 * k := by
  rw [slotAddr, dirSectorLba_small, if_pos (by omega)]
  omega

/-- Past the first slot of the root directory everything is zero. -/
theorem smallVolume_slot {first : UInt8} (hk : k ≠ 0) :
    smallVolume first size link (1024 + 32 * k) = 0 := by
  simp only [smallVolume]
  repeat rw [if_neg (by omega)]

theorem liveSlot_small {first : UInt8} (h : LiveSlot smallBpb (smallVolume first size link) 0 k) :
    k = 0 := by
  by_contra hk
  have hskip := h.visible.1
  have hzero : entryAt (smallVolume first size link) (1024 + 32 * k) 0 = 0 := smallVolume_slot hk
  rw [slotAddr_small (hasSlot_small.1 h.has), skipEntry, if_pos hzero] at hskip
  omega

theorem isDirectory_small (first size link : UInt8) :
    isDirectory (entryAt (smallVolume first size link) 1024) = false := by
  simp [isDirectory, attributes, entryAt, smallVolume]
  decide

theorem isDir_small {first : UInt8} {dir : ℕ}
    (h : IsDir smallBpb (smallVolume first size link) dir) : dir = 0 := by
  induction h with
  | root => rfl
  | child _ hlive hisDir _ ih =>
      subst ih
      obtain rfl := liveSlot_small hlive
      rw [slotAddr_small (by omega), isDirectory_small] at hisDir
      cases hisDir

theorem liveEntry_small {first : UInt8} {a : ℕ}
    (h : LiveEntry smallBpb (smallVolume first size link) a) : a = 1024 := by
  obtain ⟨dir, k, hdir, hlive, rfl⟩ := h
  obtain rfl := isDir_small hdir
  obtain rfl := liveSlot_small hlive
  exact slotAddr_small (by omega)

theorem firstCluster_small (first size link : UInt8) :
    firstCluster (entryAt (smallVolume first size link) 1024) = first.toNat := by
  simp [firstCluster, load16, entryAt, smallVolume]

theorem fileSize_small (first size link : UInt8) :
    fileSize (entryAt (smallVolume first size link) 1024) = size.toNat := by
  simp [fileSize, load32, load16, entryAt, smallVolume]

/-- The table entries of clusters that the volume does not have are end marks. -/
theorem fatAt_small {first : UInt8} (hk : k < 256) (hout : k < 3 ∨ 9 ≤ k) :
    fatAt smallBpb (smallVolume first size link) k = 0xFFFF := by
  have haddr : fatAddr smallBpb k = 512 + 2 * k := by
    rw [fatAddr, show smallBpb.fatLba = 1 by decide]
  have hbyte : ∀ x, 512 + 2 * k ≤ x → x < 512 + 2 * k + 2 →
      smallVolume first size link x = 0xFF := by
    intro x hx hx'
    rw [smallVolume, if_neg (by omega), if_pos (by omega), if_neg (by omega)]
  rw [fatAt, haddr, load16, hbyte _ le_rfl (by omega), hbyte _ (by omega) (by omega)]
  rfl

theorem clusterChain_small (htop : 3 ≤ top) (first size link : UInt8) :
    ClusterChain smallBpb top (smallVolume first size link) 2 [2] := by
  refine Chain.single ⟨le_rfl, htop⟩ ?_
  rw [fatAt_small (by omega) (by omega)]
  exact Nat.le_of_ble_eq_true rfl

theorem wellFormed_small (hgeo : Geometry smallBpb top) (htop : 3 ≤ top) {first : UInt8}
    (hfirst : first = 0 ∨ first = 2) :
    WellFormed smallBpb top (smallVolume first size link) where
  free k hk hno hzero := by
    have hout : k < 3 ∨ 9 ≤ k := by
      by_contra hin
      exact hno ⟨by omega, by rw [show smallBpb.dataClusters = 7 by decide]; omega, by omega⟩
    rw [show smallBpb.fatSize = 1 by decide] at hk
    rw [fatAt_small hk hout] at hzero
    exact absurd hzero (by decide)
  chain a ha htwo := by
    obtain rfl := liveEntry_small ha.1
    rw [firstCluster_small] at htwo ⊢
    rcases hfirst with rfl | rfl
    · exact absurd htwo (by decide)
    · have hchain := clusterChain_small htop 2 size link
      exact ⟨[2], by simp, hchain, hchain.nodup fun _ => InUse.not_endMark hgeo⟩
  disjoint a a' _ _ ha ha' hne := by
    rw [liveEntry_small ha.1, liveEntry_small ha'.1] at hne
    exact absurd rfl hne

theorem longEnough_small (hgeo : Geometry smallBpb top) (htop : 3 ≤ top) {first : UInt8}
    (hsize : first = 2 ∨ size = 0) :
    LongEnough smallBpb top (smallVolume first size link) := by
  intro a l ha _ hl
  obtain rfl := liveEntry_small ha.1
  rw [firstCluster_small] at hl
  rw [fileSize_small]
  rcases hsize with rfl | rfl
  · have hchain : FileChain smallBpb top (smallVolume 2 size link) (2 : UInt8).toNat [2] :=
      (fileChain_of_two_le le_rfl).2 ⟨by simp, clusterChain_small htop 2 size link⟩
    obtain rfl := hl.unique hgeo hchain
    have hlt := size.toNat_lt
    have hbytes : smallBpb.clusterBytes = 512 := by decide
    rw [hbytes, List.length_singleton]
    omega
  · exact Nat.zero_le _

theorem liveSlot_small_zero (first size link : UInt8) :
    LiveSlot smallBpb (smallVolume first size link) 0 0 := by
  refine ⟨?_, fun j hj => absurd hj (Nat.not_lt_zero j), ?_, ?_⟩
  · exact hasSlot_small.2 (by omega)
  · rw [slotAddr_small (by omega)]
    simp [skipEntry, attributes, entryAt, smallVolume]
  · rw [slotAddr_small (by omega)]
    simp [isVolumeId, attributes, entryAt, smallVolume]
    decide

theorem zeroTail_small (first size link : UInt8) :
    ZeroTail smallBpb (smallVolume first size link) := by
  intro dir j k hdir hjk hk _
  obtain rfl := isDir_small hdir
  rw [slotAddr_small (hasSlot_small.1 hk)]
  exact smallVolume_slot (by omega)

theorem fileNode_small (first size link : UInt8) :
    FileNode smallBpb (smallVolume first size link) (smallNode first size link) 1024 := by
  have hnode := fileNode_nodeOf (by decide) IsDir.root (liveSlot_small_zero first size link)
    (by rw [slotAddr_small (by omega), isDirectory_small]) 0x111010
  rw [slotAddr_small (by omega), dirSectorLba_small] at hnode
  exact hnode

/-! ## Two files -/

/-- The small volume with the files `A` on cluster 2 and `B` on cluster 3, of one byte each. -/
def pairVolume : Disk := fun a =>
  if a = 518 ∨ a = 519 then 0xFF
  else if 1056 ≤ a ∧ a < 1088 then
    newEntry (fun x => if x = 0 then 0x42 else 0x20) (fun _ => 0x20) 3 1 0x20 (a - 1056)
  else smallVolume 2 1 0 a

/-- The node that a lookup of `A` returns. -/
def pairNode : VfsNode := nodeOf (entryAt pairVolume 1024) 2 0 0x111010

theorem mountedFs_pairVolume : (mountedFs pairVolume).bpb = smallBpb := by
  simp [mountedFs, Bpb.ofSector, load16, load32, pairVolume, smallVolume]

theorem liveSlot_pair (h : LiveSlot smallBpb pairVolume 0 k) : k = 0 ∨ k = 1 := by
  have hrest : ∀ j < 16, 2 ≤ j → entryAt pairVolume (1024 + 32 * j) 0 = 0 := by decide +kernel
  have hlt := hasSlot_small.1 h.has
  have hskip := h.visible.1
  by_contra hk
  rw [slotAddr_small hlt, skipEntry, if_pos (hrest k hlt (by omega))] at hskip
  omega

theorem isDir_pair {dir : ℕ} (h : IsDir smallBpb pairVolume dir) : dir = 0 := by
  induction h with
  | root => rfl
  | child _ hlive hisDir _ ih =>
      subst ih
      rcases liveSlot_pair hlive with rfl | rfl
      · rw [slotAddr_small (by omega)] at hisDir
        exact absurd hisDir (by decide +kernel)
      · rw [slotAddr_small (by omega)] at hisDir
        exact absurd hisDir (by decide +kernel)

theorem liveEntry_pair {a : ℕ} (h : LiveEntry smallBpb pairVolume a) : a = 1024 ∨ a = 1056 := by
  obtain ⟨dir, k, hdir, hlive, rfl⟩ := h
  obtain rfl := isDir_pair hdir
  rcases liveSlot_pair hlive with rfl | rfl
  · exact Or.inl (slotAddr_small (by omega))
  · exact Or.inr (slotAddr_small (by omega))

theorem liveSlot_pair_of_lt (hk : k < 2) : LiveSlot smallBpb pairVolume 0 k := by
  have hvisible : ∀ j < 2, pairVolume (1024 + 32 * j) ≠ 0 ∧
      skipEntry (entryAt pairVolume (1024 + 32 * j)) = 0 ∧
      isVolumeId (entryAt pairVolume (1024 + 32 * j)) = false := by
    decide +kernel
  refine ⟨hasSlot_small.2 (by omega), fun j hj => ?_, ?_⟩
  · rw [slotAddr_small (by omega)]
    exact (hvisible j (by omega)).1
  · rw [slotAddr_small (by omega)]
    exact (hvisible k hk).2

/-- Only the clusters 4 to 8 are free; the two of the files end their chains. -/
theorem fatAt_pair : ∀ k < 256, k < 4 ∨ 9 ≤ k → fatAt smallBpb pairVolume k = 0xFFFF := by
  decide +kernel

theorem firstCluster_pair {a : ℕ} (ha : LiveEntry smallBpb pairVolume a) :
    firstCluster (entryAt pairVolume a) = a / 32 - 30 ∧ fileSize (entryAt pairVolume a) = 1 := by
  rcases liveEntry_pair ha with rfl | rfl
  · decide +kernel
  · decide +kernel

theorem clusterChain_pair (htop : 4 ≤ top) {c : ℕ} (htwo : 2 ≤ c) (hc : c < 4) :
    ClusterChain smallBpb top pairVolume c [c] := by
  refine Chain.single ⟨htwo, by omega⟩ ?_
  rw [fatAt_pair c (by omega) (by omega)]
  exact Nat.le_of_ble_eq_true rfl

theorem wellFormed_pair (hgeo : Geometry smallBpb top) (htop : 4 ≤ top) :
    WellFormed smallBpb top pairVolume where
  free k hk hno hzero := by
    have hout : k < 4 ∨ 9 ≤ k := by
      by_contra hin
      exact hno ⟨by omega, by rw [show smallBpb.dataClusters = 7 by decide]; omega, by omega⟩
    rw [show smallBpb.fatSize = 1 by decide] at hk
    rw [fatAt_pair k hk hout] at hzero
    exact absurd hzero (by decide)
  chain a ha _ := by
    have hfirst := (firstCluster_pair ha.1).1
    have haddr := liveEntry_pair ha.1
    have hchain := clusterChain_pair htop (show 2 ≤ a / 32 - 30 by omega) (by omega)
    rw [hfirst]
    exact ⟨_, by simp, hchain, hchain.nodup fun _ => InUse.not_endMark hgeo⟩
  disjoint a a' l l' ha ha' hne htwo htwo' hl hl' := by
    have hend : ∀ x, InUse top x → ¬ EndMark x := fun _ => InUse.not_endMark hgeo
    have haddr := liveEntry_pair ha.1
    have haddr' := liveEntry_pair ha'.1
    rw [(firstCluster_pair ha.1).1] at hl
    rw [(firstCluster_pair ha'.1).1] at hl'
    have hchain := clusterChain_pair htop (show 2 ≤ a / 32 - 30 by omega) (by omega)
    have hchain' := clusterChain_pair htop (show 2 ≤ a' / 32 - 30 by omega) (by omega)
    obtain rfl := hchain.unique hend hl
    obtain rfl := hchain'.unique hend hl'
    rw [List.disjoint_singleton, List.mem_singleton]
    omega

theorem longEnough_pair (hgeo : Geometry smallBpb top) (htop : 4 ≤ top) :
    LongEnough smallBpb top pairVolume := by
  intro a l ha _ hl
  have haddr := liveEntry_pair ha.1
  rw [(firstCluster_pair ha.1).1] at hl
  have hchain : FileChain smallBpb top pairVolume (a / 32 - 30) [a / 32 - 30] :=
    (fileChain_of_two_le (by omega)).2
      ⟨by simp, clusterChain_pair htop (by omega) (by omega)⟩
  obtain rfl := hl.unique hgeo hchain
  have hbytes : smallBpb.clusterBytes = 512 := by decide
  rw [(firstCluster_pair ha.1).2, hbytes, List.length_singleton]
  omega

theorem fileNode_pair : FileNode smallBpb pairVolume pairNode 1024 := by
  have hnode := fileNode_nodeOf (by decide) IsDir.root (liveSlot_pair_of_lt (show 0 < 2 by omega))
    (by rw [slotAddr_small (by omega)]; decide +kernel) 0x111010
  rw [slotAddr_small (by omega), dirSectorLba_small] at hnode
  exact hnode

/-- A write that takes the file `A` to a second cluster. The file `B` is on the one in between. -/
theorem fat16VfsWrite_content_small :
    ∃ node' fs', fat16VfsWrite pairNode 1 512 (fun _ => 0x43) (mountedFs pairVolume) =
        some (512, node', fs') ∧ fatAt smallBpb fs'.disk 2 = 4 ∧
      (∃ content, HasContent (mountedFs pairVolume) 1024 content ∧ HasContent fs' 1024 fun x =>
        if 1 ≤ x ∧ x < 513 then 0x43 else content x) ∧
      fileSize (entryAt fs'.disk 1024) = 513 ∧ FileNode fs'.bpb fs'.disk node' 1024 ∧
      ∃ content, HasContent (mountedFs pairVolume) 1056 content ∧ HasContent fs' 1056 content := by
  have hret : (fat16VfsWrite pairNode 1 512 (fun _ => 0x43) (mountedFs pairVolume)).map
      (fun r => (r.1, fatAt smallBpb r.2.2.disk 2)) = some (512, 4) := by
    decide +kernel
  obtain ⟨⟨ret, node', fs'⟩, hrun, hvalues⟩ := Option.map_eq_some_iff.1 hret
  obtain ⟨rfl, hlink⟩ := Prod.mk.inj hvalues
  have hbpb := mountedFs_pairVolume
  have hgeo := layout_small.geometry
  have htop : 4 ≤ clusterTop smallBpb := by decide
  have hcontent := fat16VfsWrite_content (hbpb.symm ▸ layout_small) rfl
    (hbpb.symm ▸ wellFormed_pair hgeo htop) (hbpb.symm ▸ longEnough_pair hgeo htop)
    (hbpb.symm ▸ fileNode_pair) (by decide +kernel) (by omega) hrun (by decide)
  obtain ⟨hown, hsize, hnode, -, hothers, -⟩ := hcontent
  have hold : fileSize (entryAt (mountedFs pairVolume).disk 1024) = 1 := by decide +kernel
  rw [hold] at hsize
  have hother : LiveEntry (mountedFs pairVolume).bpb (mountedFs pairVolume).disk 1056 := by
    rw [hbpb]
    exact ⟨0, 1, IsDir.root, liveSlot_pair_of_lt (by omega), slotAddr_small (by omega)⟩
  exact ⟨node', fs', hrun, hlink, hown, hsize, hnode,
    (hothers 1056 hother (by decide +kernel) (by decide)).2⟩

end Small

end Fat16

end Yotos
