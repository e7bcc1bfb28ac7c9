import Yotos.Fat16.Ends
import Yotos.Fat16.Handles

/-!
# Files that are written over

A well-formed volume stays well-formed under the creation of a file, and a write keeps
all that lookups depend on. `FileHas` gives the bytes of one file. A write replaces the
bytes it is given and keeps the others: a file that was longer keeps its end.
-/

namespace Yotos

namespace Fat16

open Bytes Kheap Library

/-- A well-formed volume with the first clusters on the disk, on which paths can be
followed. -/
structure Tidy (b : Bpb) (d : Disk) : Prop where
  sound : Sound b (dataTop b) d fun a => firstCluster (entryAt d a)
  dots : DotDirs b d

/-- A tidy volume on which the files are as long as their chains allow, and on which
nothing stands behind the end of a directory. -/
structure Clean (b : Bpb) (d : Disk) : Prop extends Tidy b d where
  zeroTail : ZeroTail b d
  longEnough : LongEnough b (dataTop b) d

/-- The file in slot `f` has the bytes of `content`, as many as its size says. -/
structure FileHas (b : Bpb) (d : Disk) (f : ℕ) (content : Bytes) : Prop where
  live : LiveEntry b d f
  file : isDirectory (entryAt d f) = false
  bytes : ∃ l, FileChain b (dataTop b) d (firstCluster (entryAt d f)) l ∧
    fileSize (entryAt d f) ≤ l.length * b.clusterBytes ∧
    ∀ x < fileSize (entryAt d f), byteAt b d l x = content x

variable {b : Bpb} {d d' : Disk} {f k dir : ℕ} {name83 ext83 content : Bytes} {flags : UInt32}

theorem WellFormed.clean (hwf : WellFormed b (dataTop b) d) (hzero : ZeroTail b d)
    (hlong : LongEnough b (dataTop b) d) (hdots : DotDirs b d) : Clean b d where
  sound := hwf.sound fun _ hk hdata =>
    Nat.lt_min.2 ⟨hdata.2.1, Nat.lt_min.2 ⟨hdata.2.2, hk⟩⟩
  dots := hdots
  zeroTail := hzero
  longEnough := hlong

theorem Denotes.isDir {names : List (List UInt8)} {q : ℕ} (hdots : DotDirs b d)
    (h : Denotes b d 0 names q k) : IsDir b d q := by
  obtain ⟨init, name, -, hwalk, -⟩ := h
  exact hwalk.isDir hdots IsDir.root

theorem Tidy.dirsEnd (hb : Layout b) (h : Tidy b d) : DirsEnd b d := by
  intro names q hwalk
  obtain ⟨l, hl, -⟩ := h.sound.exists_dirChain (hwalk.isDir h.dots IsDir.root)
  obtain ⟨n, -, hend⟩ := exists_dirEnd hb.dataGeometry hl
  exact ⟨n, hend⟩

/-- Every file of a clean volume has bytes. -/
theorem Clean.fileHas (h : Clean b d) (hlive : LiveEntry b d f)
    (hfile : isDirectory (entryAt d f) = false) : ∃ content, FileHas b d f content := by
  have howner : Owner b d f := ⟨hlive, isDot_of_file hfile⟩
  obtain ⟨l, hl⟩ := h.sound.chain f howner
  exact ⟨byteAt b d l, hlive, hfile, l, hl, h.longEnough f l howner hfile hl, fun _ _ => rfl⟩

/-! ## A new file -/

/-- A new file is empty. -/
theorem Created.fileSize_eq {l : List ℕ} {top c : ℕ}
    (hcreated : Created b top d dir k (createdEntry name83 ext83 c flags) l d') :
    fileSize (entryAt d' (slotAddr b d dir k)) = 0 := by
  rw [fileSize_congr hcreated.entry]
  exact fileSize_newEntry _ _ _ _ (by omega)

/-- The creation of a file keeps the volume clean. -/
theorem Created.clean (hb : Layout b) (h : Clean b d) (hdir : IsDir b d dir)
    (hcreated : Created b (dataTop b) d dir k (createdEntry name83 ext83 0 flags) [] d')
    (hfile : flags &&& vfsDir = 0) : Clean b d' := by
  have hgeo := hb.dataGeometry
  have hs := h.sound
  have hzero := h.zeroTail
  have hentry := hcreated.entry
  have hfirst : firstCluster (entryAt d' (slotAddr b d dir k)) = 0 := by
    rw [firstCluster_congr hentry]
    exact firstCluster_newEntry _ _ _ _ (by omega)
  have hkind : isDirectory (entryAt d' (slotAddr b d dir k)) = false := by
    rw [isDirectory_congr fun x hx => hentry x (by omega), isDirectory_createdEntry,
      decide_eq_false (not_not.2 hfile)]
  -- the directories are the old ones, and so are the other entries
  have hold {q : ℕ} (hq : IsDir b d' q) : IsDir b d q := by
    refine (hcreated.isDir_cases hgeo hs hzero hq).resolve_right fun hnew => ?_
    rw [isDirectory_createdEntry, decide_eq_false (not_not.2 hfile)] at hnew
    exact Bool.noConfusion hnew.1
  have hsame {q j : ℕ} (hq : IsDir b d q) (hj : HasSlot b d q j)
      (hne : slotAddr b d q j ≠ slotAddr b d dir k) : ∀ x < 32,
      entryAt d' (slotAddr b d q j) x = entryAt d (slotAddr b d q j) x :=
    fun x hx => hcreated.slot_other hgeo hs hq hj hne hx
  have howner {g : ℕ} (hg : Owner b d' g) (hne : g ≠ slotAddr b d dir k) : Owner b d g ∧
      ∀ x < 32, entryAt d' g x = entryAt d g x := by
    have hg' := (hcreated.owner_cases hgeo hs hzero hg).resolve_left hne
    obtain ⟨q, j, hq, hlive, rfl⟩ := hg'.1
    exact ⟨hg', hsame hq hlive.has hne⟩
  refine ⟨⟨?_, ?_⟩, hcreated.zeroTail hgeo hs hzero hdir, ?_⟩
  · refine (hcreated.sound hgeo hs hzero).congr_first fun g hg => ?_
    by_cases heq : g = slotAddr b d dir k
    · rw [heq, Function.update_self, hfirst]
      exact (firstCluster_newEntry _ _ _ _ (by omega)).symm
    · rw [Function.update_of_ne heq]
      exact firstCluster_congr (howner hg heq).2
  · intro q j hq hlive hdot
    have hq' := hold hq
    rw [hcreated.slotAddr_eq hgeo hs hq'] at hdot ⊢
    rcases hcreated.live_cases hgeo hs hzero hq' hlive with heq | hlive'
    · rw [heq, isDot_of_file hkind] at hdot
      exact Bool.noConfusion hdot
    · have hslot := hsame hq' hlive'.has (hcreated.live_ne hlive')
      rw [isDot_congr fun x hx => hslot x (by omega)] at hdot
      rw [firstCluster_congr hslot]
      exact hcreated.isDir_of_isDir hgeo hs (h.dots q j hq' hlive' hdot)
  · intro g l hg hgfile hl
    by_cases heq : g = slotAddr b d dir k
    · rw [heq, hcreated.fileSize_eq]
      exact Nat.zero_le _
    · obtain ⟨hg', hslot⟩ := howner hg heq
      rw [isDirectory_congr fun x hx => hslot x (by omega)] at hgfile
      rw [firstCluster_congr hslot] at hl
      rw [fileSize_congr hslot]
      obtain ⟨m, hm⟩ := hs.chain g hg'
      obtain rfl := hl.unique hgeo (hcreated.chain_other hgeo hm)
      exact h.longEnough g l hg' hgfile hm

/-! ## A write -/

theorem SameTree.dotDirs {top : ℕ} {first : ℕ → ℕ} (hb : Geometry b top)
    (hs : Sound b top d first) (h : SameTree b d d' f) (hdots : DotDirs b d) : DotDirs b d' := by
  intro q j hq hlive hdot
  have hq' := (h.isDir_iff hb hs).1 hq
  have hlive' := (h.liveSlot_iff hb hs hq').1 hlive
  have hhead := h.entry_head hq' hlive'.has
  rw [h.slotAddr_eq hq'] at hdot ⊢
  rw [isDot_congr hhead] at hdot
  have hisDir : isDirectory (entryAt d (slotAddr b d q j)) = true := by
    rw [isDot, Bool.and_eq_true] at hdot
    exact hdot.1
  rw [firstCluster_congr (h.entry_dir hq' hlive'.has hisDir)]
  exact (h.isDir_iff hb hs).2 (hdots q j hq' hlive' hdot)

theorem SameTree.trans {top : ℕ} {first : ℕ → ℕ} {d'' : Disk} (hb : Geometry b top)
    (hs : Sound b top d first) (h : SameTree b d d' f) (h' : SameTree b d' d'' f) :
    SameTree b d d'' f where
  sectors q hq n := (h'.sectors q ((h.isDir_iff hb hs).2 hq) n).trans (h.sectors q hq n)
  head q j hq hj x hx := by
    have hnext := h'.head q j ((h.isDir_iff hb hs).2 hq) ((h.hasSlot_iff hq).2 hj) x hx
    rw [h.slotAddr_eq hq] at hnext
    exact hnext.trans (h.head q j hq hj x hx)
  other q j hq hj hne x hx := by
    have hnext := h'.other q j ((h.isDir_iff hb hs).2 hq) ((h.hasSlot_iff hq).2 hj)
    rw [h.slotAddr_eq hq] at hnext
    exact (hnext hne x hx).trans (h.other q j hq hj hne x hx)
  file := h.file

/-- The bytes of a file after a write. -/
def overwrite (content : Bytes) (offset : ℕ) (buf : Bytes) (n : ℕ) : Bytes := fun x =>
  if offset ≤ x ∧ x < offset + n then buf (x - offset) else content x

/-- A write of `n` bytes at a place in the file, or at its end. -/
theorem FileHas.write {fs fs' : Fs} {node node' : VfsNode} {offset n : ℕ} {buf : Bytes}
    (hb : Layout fs.bpb) (hmounted : fs.mounted = true) (htidy : Tidy fs.bpb fs.disk)
    (h : FileHas fs.bpb fs.disk f content) (hnode : FileNode fs.bpb fs.disk node f)
    (hoffset : offset ≤ node.size) (hsize : offset + n < 2 ^ 31)
    (hrun : fat16VfsWrite node offset n buf fs = some ((n : ℤ), node', fs')) :
    Tidy fs.bpb fs'.disk ∧ FileHas fs.bpb fs'.disk f (overwrite content offset buf n) ∧
      FileNode fs.bpb fs'.disk node' f ∧ node'.size = max node.size (offset + n) ∧
      SameTree fs.bpb fs.disk fs'.disk f ∧ fs'.bpb = fs.bpb ∧ fs'.mounted = true := by
  have hgeo := hb.dataGeometry
  have hs := htidy.sound
  have howner := hnode.slot.owner
  obtain ⟨l, hl, hlong, hbytes⟩ := h.bytes
  obtain ⟨houtcome, hbpb, hmounted'⟩ := fat16VfsWrite_cases hgeo hmounted hs.free
    (hnode.inode_eq ▸ hl) hnode.slot.inode_lt (by omega) hrun
  obtain ⟨m, l', hret, hm, hreg, hlba, hindex, hinode', -, hdisk', hsize', hentry', hlong',
      hbytes'⟩ := houtcome.bytes hgeo hs hnode.slot hnode.inode_eq hl hnode.size_eq hoffset
      (hnode.size_eq ▸ hlong) hsize (by omega) rfl
  obtain rfl : m = n := by omega
  have htree := hreg.sameTree hgeo hs howner hnode.slot.file hl
  have hslot := hnode.slot.size_lt
  have hnode' : OnSlot fs.bpb fs'.disk node' f :=
    hnode.slot.of_sameTree hgeo hs htree hlba hindex hinode' (by omega)
  rw [hdisk'] at hreg
  refine ⟨⟨hreg.sound_onDisk hgeo hs howner hnode.slot.file hl, htree.dotDirs hgeo hs htidy.dots⟩,
    ⟨hnode'.live, hnode'.file, l', hreg.chain, hentry' ▸ hlong', fun x hx => ?_⟩,
    ⟨hnode', hdisk', hentry'⟩, hsize', htree, hbpb, hmounted'⟩
  rw [← hentry'] at hx
  rw [hbytes' x hx, overwrite]
  split_ifs with hin
  · rfl
  · refine hbytes x ?_
    rw [← hnode.size_eq]
    omega

/-- What a write does besides: the node stands for the same file, and the heap has the
same blocks in use. -/
theorem fat16VfsWrite_keeps {fs fs' : Fs} {node node' : VfsNode} {offset size : ℕ} {buf : Bytes}
    {ret : ℤ} {L : Set (ℕ × Block)} (hp : Placed fs.heapStart)
    (hheap : Holding fs.heap fs.heapStart L)
    (hrun : fat16VfsWrite node offset size buf fs = some (ret, node', fs')) :
    node'.flags = node.flags ∧ node'.ops = node.ops ∧ node'.addr = node.addr ∧
      fs'.heapStart = fs.heapStart ∧ Holding fs'.heap fs.heapStart L := by
  rw [fat16VfsWrite] at hrun
  by_cases hnothing : fs.mounted = false ∨ size = 0
  · rw [if_pos hnothing] at hrun
    obtain ⟨-, rfl, rfl⟩ := Prod.mk.inj (Option.some.inj hrun) |>.imp_right Prod.mk.inj
    exact ⟨rfl, rfl, rfl, rfl, hheap⟩
  rw [if_neg hnothing] at hrun
  generalize (if node.inode % 65536 < 2 then fatAllocCluster fs.bpb fs.disk
    else (node.inode, fs.disk)) = start at hrun
  obtain ⟨inode, d⟩ := start
  dsimp only at hrun
  split_ifs at hrun with hfull
  · obtain ⟨-, rfl, rfl⟩ := Prod.mk.inj (Option.some.inj hrun) |>.imp_right Prod.mk.inj
    exact ⟨rfl, rfl, rfl, rfl, hheap⟩
  obtain ⟨⟨p, heap⟩, hmalloc, hrun⟩ := Option.bind_eq_some_iff.1 hrun
  dsimp only at hrun
  rcases hheap.kmalloc hp fs.bpb.clusterBytes with hnull | ⟨q, heap', blk, hsome, hq, -, -, hfresh, hheld⟩
  · rw [hnull] at hmalloc
    obtain ⟨rfl, rfl⟩ := Prod.mk.inj (Option.some.inj hmalloc)
    rw [if_pos rfl] at hrun
    obtain ⟨-, rfl, rfl⟩ := Prod.mk.inj (Option.some.inj hrun) |>.imp_right Prod.mk.inj
    exact ⟨rfl, rfl, rfl, rfl, hheap⟩
  · rw [hsome] at hmalloc
    obtain ⟨rfl, rfl⟩ := Prod.mk.inj (Option.some.inj hmalloc)
    rw [if_neg hq] at hrun
    obtain ⟨⟨n, d'⟩, -, hrun⟩ := Option.map_eq_some_iff.1 hrun
    obtain ⟨-, rfl, rfl⟩ := Prod.mk.inj hrun |>.imp_right Prod.mk.inj
    exact ⟨rfl, rfl, rfl, rfl, hheld.kfree hp hfresh⟩

/-- Any node of the file reads its bytes. -/
theorem FileHas.readsAs {fs : Fs} {node : VfsNode} (hb : Layout fs.bpb)
    (hmounted : fs.mounted = true) (h : FileHas fs.bpb fs.disk f content)
    (hnode : FileNode fs.bpb fs.disk node f) : ReadsAs fs node content := by
  obtain ⟨l, hl, hlong, hbytes⟩ := h.bytes
  rw [← hnode.inode_eq] at hl
  rw [← hnode.size_eq] at hlong hbytes
  exact (readsAs_byteAt hb.dataGeometry hmounted hl hnode.slot.inode_lt hlong).congr
    fun x hx => (hbytes x hx).symm

end Fat16

end Yotos
