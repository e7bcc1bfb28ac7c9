import Yotos.Fat16.Entries
import Yotos.Fat16.Store

/-!
# The volume as a file system

Every run of the functions of the volume, through nodes of which no two stand for one
file, is a run of a file system: a read returns what the writes before it left, a write
changes its own file and no other, a creation puts one entry into its directory, and a
lookup and a listing return the entries.
-/

namespace Yotos

namespace Fat16

open Bytes Kheap Library

variable {b : Bpb} {d d' : Disk} {first : ℕ → ℕ} {f g i : ℕ} {content content' : List UInt8}
  {dirs dirs' : Store ℕ (List UInt8 × Item ℕ)} {files files' : Store ℕ UInt8}
  {sys : FileSystem ℕ (List UInt8) UInt8}

/-- The file system of a volume: names are the bytes of C strings, directories go by their
inode and files by the address of their entry. -/
abbrev VolumeStep : FileSystem ℕ (List UInt8) UInt8 → FsCall ℕ (List UInt8) UInt8 →
    FileSystem ℕ (List UInt8) UInt8 → Prop :=
  FileSystem.Step storedName fun wanted shown => sameName shown wanted

/-! ## Calls -/

/-- One call on the volume, with what it did or returned. Writes are at a place in the
file or at its end, and the kernel may use the heap between two calls. Names that begin
with a dot find `.` and `..`, which are in no list. -/
inductive CallStep : Session → FsCall ℕ (List UInt8) UInt8 → Session → Prop
  | write {fs fs' : Fs} {node node' : VfsNode} {before after : List VfsNode} {offset size : ℕ}
      {buf : Bytes} {ret : ℤ} (hoffset : offset ≤ node.size) (hoff : offset + size < 2 ^ 31)
      (hrun : fat16VfsWrite node offset size buf fs = some (ret, node', fs')) :
      CallStep ⟨fs, before ++ node :: after⟩
        (.write (nodeSlot node) offset (bytesAt buf 0 ret.toNat)) ⟨fs', before ++ node' :: after⟩
  | read {fs fs' : Fs} {node : VfsNode} {nodes : List VfsNode} {offset size : ℕ}
      {buf out : Bytes} {ret : ℤ} (hmem : node ∈ nodes)
      (hfit : size + fs.bpb.clusterBytes ≤ 2 ^ 31) (hret : 0 ≤ ret)
      (hrun : fat16VfsRead node offset size buf fs = some (ret, out, fs')) :
      CallStep ⟨fs, nodes⟩ (.read (nodeSlot node) offset size (bytesAt out 0 ret.toNat))
        ⟨fs', nodes⟩
  | readFails {fs fs' : Fs} {node : VfsNode} {nodes : List VfsNode} {offset size : ℕ}
      {buf out : Bytes} {ret : ℤ} (hret : ret < 0)
      (hrun : fat16VfsRead node offset size buf fs = some (ret, out, fs')) :
      CallStep ⟨fs, nodes⟩ .other ⟨fs', nodes⟩
  | create {fs fs' : Fs} {dir : VfsNode} {nodes nodes' : List VfsNode} {fuel : ℕ}
      {name : List UInt8} {flags : UInt32} {r : Option VfsNode}
      (hdir : IsDir fs.bpb fs.disk dir.inode) (hname : 0 ∉ name) (hflags : flags &&& vfsDir = 0)
      (hrun : fat16VfsCreate fuel dir name flags fs = some (r, fs'))
      (hkeep : Keeps nodes r nodes') :
      CallStep ⟨fs, nodes⟩ (.create dir.inode name (r.map nodeItem)) ⟨fs', nodes'⟩
  | mkdir {fs fs' : Fs} {dir : VfsNode} {nodes nodes' : List VfsNode} {fuel : ℕ}
      {name : List UInt8} {flags : UInt32} {r : Option VfsNode}
      (hdir : IsDir fs.bpb fs.disk dir.inode) (hname : 0 ∉ name) (hflags : flags &&& vfsDir ≠ 0)
      (hrun : fat16VfsCreate fuel dir name flags fs = some (r, fs'))
      (hkeep : Keeps nodes r nodes') :
      CallStep ⟨fs, nodes⟩ (.mkdir dir.inode name (r.map nodeItem)) ⟨fs', nodes'⟩
  | finddir {fs fs' : Fs} {dir : VfsNode} {nodes nodes' : List VfsNode} {fuel : ℕ}
      {name : List UInt8} {r : Option VfsNode} (hdir : IsDir fs.bpb fs.disk dir.inode)
      (hname : 0 ∉ name) (hhead : name.head? ≠ some 0x2E)
      (hrun : fat16VfsFinddir fuel dir name fs = some (r, fs')) (hkeep : Keeps nodes r nodes') :
      CallStep ⟨fs, nodes⟩ (.lookup dir.inode name (r.map nodeItem)) ⟨fs', nodes'⟩
  | finddirDot {fs fs' : Fs} {dir : VfsNode} {nodes nodes' : List VfsNode} {fuel : ℕ}
      {name : List UInt8} {r : Option VfsNode} (hdir : IsDir fs.bpb fs.disk dir.inode)
      (hhead : name.head? = some 0x2E)
      (hrun : fat16VfsFinddir fuel dir name fs = some (r, fs')) (hkeep : Keeps nodes r nodes') :
      CallStep ⟨fs, nodes⟩ .other ⟨fs', nodes'⟩
  | readdir {fs : Fs} {dir : VfsNode} {nodes : List VfsNode} {index fuel : ℕ}
      {r : Option VfsDirent} (hdir : IsDir fs.bpb fs.disk dir.inode) (hindex : index < 2 ^ 32)
      (hrun : fat16VfsReaddir fuel dir index fs = some r) :
      CallStep ⟨fs, nodes⟩
        (.list dir.inode index (r.map fun ent => (ent.name, decide (ent.flags &&& vfsDir ≠ 0))))
        ⟨fs, nodes⟩
  | close {fs : Fs} {node : VfsNode} {before after : List VfsNode} :
      CallStep ⟨fs, before ++ node :: after⟩ .other ⟨fat16VfsClose node fs, before ++ after⟩
  | kernel {fs : Fs} {nodes : List VfsNode} (start : ℕ) (heap : Bytes) :
      CallStep ⟨fs, nodes⟩ .other ⟨{ fs with heapStart := start, heap := heap }, nodes⟩

/-- An open node is current: it has the first cluster of its slot and the size on
the disk. -/
structure Current (b : Bpb) (d : Disk) (first : ℕ → ℕ) (node : VfsNode) : Prop where
  slot : OnSlot b d node (nodeSlot node)
  inode_eq : node.inode = first (nodeSlot node)
  size_eq : node.size = fileSize (entryAt d (nodeSlot node))

/-- The session is in order, and its volume has the files and directories of `sys`. -/
structure Represents (b : Bpb) (s : Session) (sys : FileSystem ℕ (List UInt8) UInt8) : Prop where
  bpb : s.fs.bpb = b
  mounted : s.fs.mounted = true
  zeroTail : ZeroTail b s.fs.disk
  shows : ∃ first, Sound b (dataTop b) s.fs.disk first ∧ Shows b s.fs.disk first sys.files ∧
    ∀ n ∈ s.nodes, Current b s.fs.disk first n
  dirs : ShowsDirs b s.fs.disk sys.dirs
  distinct : s.nodes.Pairwise fun n m => ¬ SameSlot n m

theorem FileNode.current {node : VfsNode} (h : FileNode b d node f) :
    Current b d (Function.update first f (firstCluster (entryAt d f))) node ∧
      nodeSlot node = f := by
  obtain rfl : f = nodeSlot node := h.slot.addr
  exact ⟨⟨h.slot, by rw [Function.update_self]; exact h.inode_eq, h.size_eq⟩, rfl⟩

/-- An open node of another file than the one that changed. -/
theorem Current.other {node : VfsNode} {i : ℕ} (h : Current b d first node)
    (hne : nodeSlot node ≠ f) (hlive : LiveEntry b d' (nodeSlot node))
    (hentry : ∀ x < 32, entryAt d' (nodeSlot node) x = entryAt d (nodeSlot node) x) :
    Current b d' (Function.update first f i) node where
  slot := h.slot.of_entry hlive fun x hx => hentry x (by omega)
  inode_eq := by
    rw [Function.update_of_ne hne]
    exact h.inode_eq
  size_eq := h.size_eq.trans (fileSize_congr hentry).symm

/-- The nodes that are open after a lookup. -/
theorem Keeps.current {nodes nodes' : List VfsNode} {r : Option VfsNode}
    (hs : Sound b (dataTop b) d first) (h : Shows b d first files)
    (hnodes : ∀ n ∈ nodes, Current b d first n)
    (hdist : nodes.Pairwise fun n m => ¬ SameSlot n m)
    (hr : ∀ node, r = some node → node.flags = vfsFile → ∃ f, FileNode b d node f)
    (hkeep : Keeps nodes r nodes') :
    ∃ first', Sound b (dataTop b) d first' ∧ Shows b d first' files ∧
      (∀ n ∈ nodes', Current b d first' n) ∧ nodes'.Pairwise fun n m => ¬ SameSlot n m := by
  cases hkeep with
  | drop => exact ⟨first, hs, h, hnodes, hdist⟩
  | @keep node hfile hnew =>
      obtain ⟨f, hf⟩ := hr node rfl hfile
      refine ⟨_, hs.refresh hf.slot.owner, h.refresh hs hf.slot.live hf.slot.file, fun n hn => ?_,
        List.pairwise_cons.2 ⟨fun n hn hsame => hnew n hn ⟨hsame.1.symm, hsame.2.symm⟩, hdist⟩⟩
      rcases List.mem_cons.1 hn with rfl | hn
      · exact hf.current.1
      · have hold := hnodes n hn
        exact hold.other (fun heq => hnew n hn ((hold.slot.sameSlot_iff hf.slot).2 heq))
          hold.slot.live fun _ _ => rfl

namespace Represents

variable {s s' : Session}

theorem lookup (hb : Layout b) {fs fs' : Fs} {dir : VfsNode} {nodes nodes' : List VfsNode}
    {fuel : ℕ} {name : List UInt8} {r : Option VfsNode} (hdir : IsDir fs.bpb fs.disk dir.inode)
    (hrun : fat16VfsFinddir fuel dir name fs = some (r, fs')) (hkeep : Keeps nodes r nodes')
    (h : Represents b ⟨fs, nodes⟩ sys) : Represents b ⟨fs', nodes'⟩ sys := by
  obtain ⟨rfl, hmounted, hzero, ⟨first, hs, hshows, hnodes⟩, hdirs, hdist⟩ := h
  obtain ⟨hdisk, hbpb, hmounted'⟩ := fat16VfsFinddir_disk hrun
  obtain ⟨first', hs', hshows', hnodes', hdist'⟩ := hkeep.current hs hshows hnodes hdist
    fun node hr hfile => by
      subst hr
      obtain ⟨l, hl, -⟩ := hs.exists_dirChain hdir
      obtain ⟨f, hf⟩ := fat16VfsFinddir_fileNode hb.dataGeometry hl hdir hrun hfile
      rw [hdisk, hbpb] at hf
      exact ⟨f, hf⟩
  refine ⟨hbpb, hmounted'.trans hmounted, hdisk ▸ hzero, ⟨first', ?_, ?_, ?_⟩, ?_, hdist'⟩
  · exact hdisk ▸ hs'
  · exact hdisk ▸ hshows'
  · exact hdisk ▸ hnodes'
  · exact hdisk ▸ hdirs

/-- What the lookup returned. -/
theorem finds (hb : Layout b) {fs fs' : Fs} {dir : VfsNode} {nodes : List VfsNode} {fuel : ℕ}
    {name : List UInt8} {r : Option VfsNode} {L : List (List UInt8 × Item ℕ)}
    (hdir : IsDir fs.bpb fs.disk dir.inode) (hname : 0 ∉ name) (hhead : name.head? ≠ some 0x2E)
    (hrun : fat16VfsFinddir fuel dir name fs = some (r, fs')) (h : Represents b ⟨fs, nodes⟩ sys)
    (hL : sys.dirs dir.inode = some L) :
    FileSystem.Finds (fun wanted shown => sameName shown wanted) L name (r.map nodeItem) := by
  obtain rfl := h.bpb
  obtain ⟨first, hs, -⟩ := h.shows
  exact h.dirs.finddir hb.dataGeometry hs hdir hname hhead hrun hL

theorem write (hb : Layout b) {fs fs' : Fs} {node node' : VfsNode} {before after : List VfsNode}
    {offset size : ℕ} {buf : Bytes} {ret : ℤ} (hoffset : offset ≤ node.size)
    (hoff : offset + size < 2 ^ 31)
    (hrun : fat16VfsWrite node offset size buf fs = some (ret, node', fs'))
    (h : Represents b ⟨fs, before ++ node :: after⟩ sys) :
    ∃ content, sys.files (nodeSlot node) = some content ∧ offset ≤ content.length ∧
      Represents b ⟨fs', before ++ node' :: after⟩
        { sys with
          files := sys.files.write (nodeSlot node) offset (bytesAt buf 0 ret.toNat) } := by
  obtain ⟨rfl, hmounted, hzero, ⟨first, hs, hshows, hnodes⟩, hdirs, hdist⟩ := h
  have hgeo := hb.dataGeometry
  obtain ⟨hn, hinode, hsize⟩ := hnodes node (by simp)
  obtain ⟨l, hl⟩ := hs.chain _ hn.owner
  obtain ⟨houtcome, hbpb, hmounted'⟩ := fat16VfsWrite_cases hgeo hmounted hs.free
    (hinode ▸ hl) hn.inode_lt (by omega) hrun
  obtain ⟨l', hreg, hlba, hindex⟩ := houtcome.regrown hgeo hs hn hinode hl
  obtain ⟨hsize', hshows'⟩ := hshows.write hb hs hn hinode hl hsize hoffset hoff houtcome
  have htree := hreg.sameTree hgeo hs hn.owner hn.file hl
  have hslot : nodeSlot node' = nodeSlot node := by rw [nodeSlot, nodeSlot, hlba, hindex]
  have hnode' : OnSlot fs.bpb fs'.disk node' (nodeSlot node) :=
    hn.of_sameTree hgeo hs htree hlba hindex (hreg.chain.first_lt hgeo)
      (houtcome.size_lt hn.size_lt (by omega))
  have hdist' := List.pairwise_append.1 hdist
  obtain ⟨hnext, hafter⟩ := List.pairwise_cons.1 hdist'.2.1
  obtain ⟨content, hcontent⟩ := hshows.total _ hn.live hn.file
  refine ⟨content, hcontent, ?_, hbpb, hmounted', htree.zeroTail hgeo hs hzero,
    ⟨_, hreg.sound hgeo hs hn.owner hn.file hl, hshows', fun n hn' => ?_⟩,
    hdirs.sameTree hgeo hs htree, ?_⟩
  · rw [(hshows.fileIs _ _ hcontent).length_eq, ← hsize]
    exact hoffset
  · -- the other nodes are on other slots, which keep their entries
    have hother : n ∈ before ∨ n ∈ after →
        Current fs.bpb fs'.disk (Function.update first (nodeSlot node) node'.inode) n := by
      intro hmem
      have hold := hnodes n (by simp; tauto)
      have hne : nodeSlot n ≠ nodeSlot node := by
        intro heq
        rcases hmem with hmem | hmem
        · exact hdist'.2.2 n hmem node (by simp) ((hold.slot.sameSlot_iff hn).2 heq)
        · exact hnext n hmem ((hn.sameSlot_iff hold.slot).2 heq.symm)
      exact hold.other hne ((htree.liveEntry_iff hgeo hs).2 hold.slot.live)
        (htree.liveEntry_other hold.slot.live hne)
    rcases List.mem_append.1 hn' with hmem | hmem
    · exact hother (Or.inl hmem)
    · rcases List.mem_cons.1 hmem with rfl | hmem
      · refine ⟨hslot ▸ hnode', ?_, hslot ▸ hsize'⟩
        rw [hslot, Function.update_self]
      · exact hother (Or.inr hmem)
  · refine List.pairwise_append.2 ⟨hdist'.1, List.pairwise_cons.2
      ⟨fun m hm hsame => hnext m hm ⟨hlba.symm.trans hsame.1, hindex.symm.trans hsame.2⟩, hafter⟩,
      fun m hm m' hm' => ?_⟩
    rcases List.mem_cons.1 hm' with rfl | hm'
    · have hne := hdist'.2.2 m hm node (by simp)
      exact fun hsame => hne ⟨hsame.1.trans hlba, hsame.2.trans hindex⟩
    · exact hdist'.2.2 m hm m' (by simp [hm'])

/-- What the creation did, before its lookup. -/
theorem created (hb : Layout b) {fs : Fs} {nodes : List VfsNode} {dir k c : ℕ}
    {name83 ext83 : Bytes} {flags : UInt32} {l : List ℕ} (hdir : IsDir b fs.disk dir)
    (hcreated : Created b (dataTop b) fs.disk dir k (createdEntry name83 ext83 c flags) l d')
    (hold : ∀ g, g ≠ slotAddr b fs.disk dir k → files' g = files g)
    (hnew : ∀ content, files' (slotAddr b fs.disk dir k) = some content → content = [] ∧
      LiveEntry b d' (slotAddr b fs.disk dir k) ∧
      isDirectory (entryAt d' (slotAddr b fs.disk dir k)) = false)
    (hsome : LiveEntry b d' (slotAddr b fs.disk dir k) →
      isDirectory (entryAt d' (slotAddr b fs.disk dir k)) = false →
      ∃ content, files' (slotAddr b fs.disk dir k) = some content)
    (hdirs' : ShowsDirs b d' dirs') (h : Represents b ⟨fs, nodes⟩ ⟨dirs, files⟩) :
    Represents b ⟨{ fs with disk := d' }, nodes⟩ ⟨dirs', files'⟩ := by
  obtain ⟨rfl, hmounted, hzero, ⟨first, hs, hshows, hnodes⟩, -, hdist⟩ := h
  have hgeo := hb.dataGeometry
  refine ⟨rfl, hmounted, hcreated.zeroTail hgeo hs hzero hdir, ⟨_, hcreated.sound hgeo hs hzero,
    hshows.created hb hs hzero hdir hcreated hold hnew hsome, fun n hn => ?_⟩, hdirs', hdist⟩
  have hbefore := hnodes n hn
  obtain ⟨howner, hne, hentry⟩ := hcreated.owner_of_owner hgeo hs hbefore.slot.owner
  exact hbefore.other hne howner.1 hentry

theorem unharmed (hb : Layout b) {fs fs' : Fs} {nodes : List VfsNode}
    (hbpb : fs'.bpb = fs.bpb) (hmounted' : fs'.mounted = true)
    (hsafe : Unharmed fs.bpb (dataTop fs.bpb) fs.disk fs'.disk)
    (h : Represents b ⟨fs, nodes⟩ sys) : Represents b ⟨fs', nodes⟩ sys := by
  obtain ⟨rfl, hmounted, hzero, ⟨first, hs, hshows, hnodes⟩, hdirs, hdist⟩ := h
  have hgeo := hb.dataGeometry
  have htree := hsafe.sameTree hgeo hs
  refine ⟨hbpb, hmounted', hsafe.zeroTail hgeo hs hzero, ⟨first, hsafe.sound hgeo hs,
    hshows.unharmed hb hs hsafe, fun n hn => ?_⟩, hdirs.sameTree hgeo hs htree, hdist⟩
  obtain ⟨hslot, hinode, hsize⟩ := hnodes n hn
  have hentry : ∀ x < 32, entryAt fs'.disk (nodeSlot n) x = entryAt fs.disk (nodeSlot n) x :=
    (hsafe.owner_entry hgeo hs hslot.owner)
  exact ⟨hslot.of_entry ((htree.liveEntry_iff hgeo hs).2 hslot.live) fun x hx =>
    hentry x (by omega), hinode, hsize.trans (fileSize_congr hentry).symm⟩

/-- A slot that was free holds no file. -/
theorem none_of_created (h : Represents b s sys) {dir k : ℕ} {e : Bytes} {l : List ℕ}
    (hcreated : Created b (dataTop b) s.fs.disk dir k e l d') :
    sys.files (slotAddr b s.fs.disk dir k) = none := by
  obtain ⟨first, -, hshows, -⟩ := h.shows
  cases hcontent : sys.files (slotAddr b s.fs.disk dir k) with
  | none => rfl
  | some content =>
      obtain ⟨q, j, -, hlive, heq⟩ := (hshows.fileIs _ _ hcontent).live
      exact absurd heq (hcreated.live_ne hlive)

section NewEntry

variable {fs : Fs} {nodes : List VfsNode} {dir k c : ℕ} {name : List UInt8}
  {name83 ext83 : Bytes} {flags : UInt32} {l : List ℕ} (hb : Layout b)
  (hdir : IsDir b fs.disk dir) (hformat : formatName83 name = some (name83, ext83))
  (hcreated : Created b (dataTop b) fs.disk dir k (createdEntry name83 ext83 c flags) l d')
  (h : Represents b ⟨fs, nodes⟩ sys)

include hb hdir hcreated h

/-- An entry that looks deleted changes nothing. -/
theorem createdHidden (hdel : name83 0 = 0xE5) :
    Represents b ⟨{ fs with disk := d' }, nodes⟩ sys := by
  obtain ⟨first, hs, -⟩ := h.shows
  have hhidden : ¬ Visible (createdEntry name83 ext83 c flags) := by
    rw [visible_createdEntry (by rw [hdel]; decide)]
    exact not_not.2 hdel
  refine h.created hb hdir hcreated (fun _ _ => rfl) (fun content hcontent => ?_)
    (fun hlive hfile => ?_) (h.dirs.createdHidden hb.dataGeometry hs h.zeroTail hdir hcreated
      hhidden)
  · exact absurd (hcontent.symm.trans (h.none_of_created hcreated)) (Option.some_ne_none content)
  · obtain ⟨q, j, -, hslot, heq⟩ := hlive
    have hvisible := hslot.visible
    rw [heq, visible_congr fun x hx => hcreated.entry x (by omega)] at hvisible
    exact absurd hvisible hhidden

include hformat

/-- An entry that can be seen. -/
theorem shownDirs (hl : isDirectory (createdEntry name83 ext83 c flags) = true → l ≠ [])
    (hdel : name83 0 ≠ 0xE5) :
    ∃ before after, sys.dirs dir = some (before ++ after) ∧
      (isDirectory (createdEntry name83 ext83 c flags) = true →
        sys.dirs (firstCluster (createdEntry name83 ext83 c flags)) = none) ∧
      ShowsDirs b d' (FileSystem.insert
        (if isDirectory (createdEntry name83 ext83 c flags) then
          sys.dirs.create (firstCluster (createdEntry name83 ext83 c flags)) else sys.dirs)
        dir before after (storedName name,
          if isDirectory (createdEntry name83 ext83 c flags) then
            .dir (firstCluster (createdEntry name83 ext83 c flags))
          else .file (slotAddr b fs.disk dir k))) := by
  obtain ⟨first, hs, -⟩ := h.shows
  have hgeo := hb.dataGeometry
  have hfirst : createdEntry name83 ext83 c flags 0 = name83 0 := newEntry_zero ..
  have hnamed : name83 0 ≠ 0 := hfirst ▸ hcreated.named
  have hlisted : Listed (createdEntry name83 ext83 c flags) :=
    ⟨(visible_createdEntry hnamed c flags).2 hdel, hfirst ▸ formatName83_first_ne_dot hformat⟩
  have hdirs := h.dirs.created hgeo hs h.zeroTail hdir hcreated
    (hcreated.live_new hgeo hs hdir hdel) hlisted hl
  rwa [format83_created hformat] at hdirs

/-- A new file, empty. -/
theorem createdFile (hflags : flags &&& vfsDir = 0) (hdel : name83 0 ≠ 0xE5) :
    ∃ before after, sys.dirs dir = some (before ++ after) ∧
      sys.files (slotAddr b fs.disk dir k) = none ∧
      Represents b ⟨{ fs with disk := d' }, nodes⟩
        ⟨FileSystem.insert sys.dirs dir before after
          (storedName name, .file (slotAddr b fs.disk dir k)),
          sys.files.create (slotAddr b fs.disk dir k)⟩ := by
  obtain ⟨first, hs, -⟩ := h.shows
  have hgeo := hb.dataGeometry
  have hentry : isDirectory (createdEntry name83 ext83 c flags) = false := by
    rw [isDirectory_createdEntry, decide_eq_false (not_not.2 hflags)]
  have hfile : isDirectory (entryAt d' (slotAddr b fs.disk dir k)) = false := by
    rw [isDirectory_congr fun x hx => hcreated.entry x (by omega), hentry]
  have hlive : LiveEntry b d' (slotAddr b fs.disk dir k) :=
    ⟨dir, k, hcreated.isDir_of_isDir hgeo hs hdir, hcreated.live_new hgeo hs hdir hdel,
      hcreated.slotAddr_eq hgeo hs hdir k⟩
  obtain ⟨before, after, hL, -, hdirs⟩ := h.shownDirs hb hdir hformat hcreated (fun hisDir => by
    rw [hentry] at hisDir
    cases hisDir) hdel
  rw [hentry] at hdirs
  refine ⟨before, after, hL, h.none_of_created hcreated, h.created hb hdir hcreated
    (fun g hne => sys.files.create_of_ne hne) (fun content hcontent => ?_)
    (fun _ _ => ⟨[], sys.files.create_self _⟩) hdirs⟩
  rw [sys.files.create_self] at hcontent
  exact ⟨(Option.some.inj hcontent).symm, hlive, hfile⟩

/-- A new directory, empty. -/
theorem createdDir (hflags : flags &&& vfsDir ≠ 0) (hl : l = [c]) (hdel : name83 0 ≠ 0xE5) :
    ∃ before after, sys.dirs dir = some (before ++ after) ∧ sys.dirs c = none ∧
      Represents b ⟨{ fs with disk := d' }, nodes⟩
        { sys with
          dirs := FileSystem.insert (sys.dirs.create c) dir before after
            (storedName name, .dir c) } := by
  have hentry : isDirectory (createdEntry name83 ext83 c flags) = true := by
    rw [isDirectory_createdEntry, decide_eq_true hflags]
  have hc := (hcreated.fresh c (hl ▸ List.mem_singleton.2 rfl)).1
  have hfirst : firstCluster (createdEntry name83 ext83 c flags) = c :=
    firstCluster_newEntry _ _ _ _ (hc.lt hb.dataGeometry)
  obtain ⟨before, after, hL, hnone, hdirs⟩ := h.shownDirs hb hdir hformat hcreated
    (fun _ => by rw [hl]; exact List.cons_ne_nil c []) hdel
  rw [hentry, hfirst] at hdirs
  refine ⟨before, after, hL, hfirst ▸ hnone hentry, h.created hb hdir hcreated (fun _ _ => rfl)
    (fun content hcontent => ?_) (fun _ hfile => ?_) hdirs⟩
  · exact absurd (hcontent.symm.trans (h.none_of_created hcreated)) (Option.some_ne_none content)
  · rw [isDirectory_congr fun x hx => hcreated.entry x (by omega), hentry] at hfile
    cases hfile

end NewEntry

/-- A file whose entry looks deleted is not found. -/
theorem finddir_deleted {fs fs' : Fs} {dir : VfsNode} {k c fuel : ℕ} {name : List UInt8}
    {name83 ext83 : Bytes} {flags : UInt32} {l : List ℕ} {r : Option VfsNode}
    (hb : Layout fs.bpb) (hs : Sound fs.bpb (dataTop fs.bpb) fs.disk first)
    (hdir : IsDir fs.bpb fs.disk dir.inode) (hname : 0 ∉ name)
    (hformat : formatName83 name = some (name83, ext83)) (hdel : name83 0 = 0xE5)
    (hcreated : Created fs.bpb (dataTop fs.bpb) fs.disk dir.inode k
      (createdEntry name83 ext83 c flags) l d')
    (hfind : fat16VfsFinddir fuel dir name { fs with disk := d' } = some (r, fs')) : r = none := by
  have hgeo := hb.dataGeometry
  obtain ⟨m, hm, -⟩ := hs.exists_dirChain hdir
  cases r with
  | none => rfl
  | some found =>
      obtain ⟨j, addr, hlive, hmatch, -⟩ :=
        fat16VfsFinddir_some (show Geometry ({ fs with disk := d' } : Fs).bpb _ from hgeo)
          (hcreated.chain_other hgeo hm) hfind
      rw [nameMatch_eq_false_of_deleted hname hformat hdel hlive.visible] at hmatch
      cases hmatch

theorem create (hb : Layout b) {fs fs' : Fs} {dir : VfsNode} {nodes nodes' : List VfsNode}
    {fuel : ℕ} {name : List UInt8} {flags : UInt32} {r : Option VfsNode}
    (hdir : IsDir fs.bpb fs.disk dir.inode) (hname : 0 ∉ name) (hflags : flags &&& vfsDir = 0)
    (hrun : fat16VfsCreate fuel dir name flags fs = some (r, fs')) (hkeep : Keeps nodes r nodes')
    (h : Represents b ⟨fs, nodes⟩ sys) :
    ∃ sys', VolumeStep sys (.create dir.inode name (r.map nodeItem)) sys' ∧
      Represents b ⟨fs', nodes'⟩ sys' := by
  obtain rfl := h.bpb
  obtain ⟨first, hs, -⟩ := h.shows
  have hgeo := hb.dataGeometry
  rcases fat16VfsCreate_cases hgeo hs h.mounted hdir hname hrun with
    ⟨rfl, hbpb, hmounted', hsafe, -⟩ | ⟨name83, ext83, k, c, l, d', hformat, hcreated, -, hfind⟩
  · cases hkeep
    exact ⟨sys, .notCreated .., h.unharmed hb hbpb hmounted' hsafe⟩
  have hdir' := hcreated.isDir_of_isDir hgeo hs hdir
  by_cases hdel : name83 0 = 0xE5
  · obtain rfl := finddir_deleted hb hs hdir hname hformat hdel hcreated hfind
    exact ⟨sys, .notCreated .., lookup hb hdir' hfind hkeep
      (h.createdHidden hb hdir hcreated hdel)⟩
  · obtain ⟨before, after, hL, hnone, hnew⟩ :=
      h.createdFile hb hdir hformat hcreated hflags hdel
    have hfinds := hnew.finds hb hdir' hname (head?_ne_dot hformat) hfind
      (FileSystem.insert_self ..)
    exact ⟨_, .create hL hnone hfinds, hnew.lookup hb hdir' hfind hkeep⟩

theorem mkdir (hb : Layout b) {fs fs' : Fs} {dir : VfsNode} {nodes nodes' : List VfsNode}
    {fuel : ℕ} {name : List UInt8} {flags : UInt32} {r : Option VfsNode}
    (hdir : IsDir fs.bpb fs.disk dir.inode) (hname : 0 ∉ name) (hflags : flags &&& vfsDir ≠ 0)
    (hrun : fat16VfsCreate fuel dir name flags fs = some (r, fs')) (hkeep : Keeps nodes r nodes')
    (h : Represents b ⟨fs, nodes⟩ sys) :
    ∃ sys', VolumeStep sys (.mkdir dir.inode name (r.map nodeItem)) sys' ∧
      Represents b ⟨fs', nodes'⟩ sys' := by
  obtain rfl := h.bpb
  obtain ⟨first, hs, -⟩ := h.shows
  have hgeo := hb.dataGeometry
  rcases fat16VfsCreate_cases hgeo hs h.mounted hdir hname hrun with
    ⟨rfl, hbpb, hmounted', hsafe, -⟩ | ⟨name83, ext83, k, c, l, d', hformat, hcreated, hl, hfind⟩
  · cases hkeep
    exact ⟨sys, .notMade .., h.unharmed hb hbpb hmounted' hsafe⟩
  have hdir' := hcreated.isDir_of_isDir hgeo hs hdir
  by_cases hdel : name83 0 = 0xE5
  · obtain rfl := finddir_deleted hb hs hdir hname hformat hdel hcreated hfind
    exact ⟨sys, .notMade .., lookup hb hdir' hfind hkeep
      (h.createdHidden hb hdir hcreated hdel)⟩
  · have hsingle : l = [c] := by
      rcases hl with ⟨-, hl⟩ | ⟨hzero, -⟩
      · exact hl
      · exact absurd hzero hflags
    obtain ⟨before, after, hL, hnone, hnew⟩ :=
      h.createdDir hb hdir hformat hcreated hflags hsingle hdel
    have hfinds := hnew.finds hb hdir' hname (head?_ne_dot hformat) hfind
      (FileSystem.insert_self ..)
    exact ⟨_, .mkdir hL hnone hfinds, hnew.lookup hb hdir' hfind hkeep⟩

theorem read (hb : Layout b) {fs fs' : Fs} {node : VfsNode} {nodes : List VfsNode}
    {offset size : ℕ} {buf out : Bytes} {ret : ℤ} (hmem : node ∈ nodes)
    (hfit : size + fs.bpb.clusterBytes ≤ 2 ^ 31) (hret : 0 ≤ ret)
    (hrun : fat16VfsRead node offset size buf fs = some (ret, out, fs'))
    (h : Represents b ⟨fs, nodes⟩ sys) :
    ∃ content, sys.files (nodeSlot node) = some content ∧
      bytesAt out 0 ret.toNat = (content.drop offset).take size := by
  obtain ⟨rfl, hmounted, -, ⟨first, hs, hshows, hnodes⟩, -, -⟩ := h
  obtain ⟨hn, hinode, hsize⟩ := hnodes node hmem
  obtain ⟨content, hcontent⟩ := hshows.total _ hn.live hn.file
  have hfile := hshows.fileIs _ _ hcontent
  rw [← hinode] at hfile
  exact ⟨content, hcontent, hfile.read hb hmounted hn.inode_lt hsize hfit hret hrun⟩

/-- The disk is the same, and so are the nodes. -/
theorem congr_disk {fs fs' : Fs} {nodes : List VfsNode} (hdisk : fs'.disk = fs.disk)
    (hbpb : fs'.bpb = fs.bpb) (hmounted : fs'.mounted = fs.mounted)
    (h : Represents b ⟨fs, nodes⟩ sys) : Represents b ⟨fs', nodes⟩ sys where
  bpb := hbpb.trans h.bpb
  mounted := hmounted.trans h.mounted
  zeroTail := hdisk ▸ h.zeroTail
  shows := hdisk ▸ h.shows
  dirs := hdisk ▸ h.dirs
  distinct := h.distinct

theorem close {fs : Fs} {node : VfsNode} {before after : List VfsNode}
    (h : Represents b ⟨fs, before ++ node :: after⟩ sys) :
    Represents b ⟨fat16VfsClose node fs, before ++ after⟩ sys := by
  obtain ⟨rfl, hmounted, hzero, ⟨first, hs, hshows, hnodes⟩, hdirs, hdist⟩ := h
  have hsub : (before ++ after).Sublist (before ++ node :: after) :=
    (List.sublist_cons_self node after).append_left before
  exact ⟨rfl, hmounted, hzero, ⟨first, hs, hshows, fun n hn => hnodes n (hsub.subset hn)⟩, hdirs,
    hdist.sublist hsub⟩

/-- Every call is a step of the file system. -/
theorem step (hb : Layout b) {call : FsCall ℕ (List UInt8) UInt8} (h : Represents b s sys)
    (hstep : CallStep s call s') : ∃ sys', VolumeStep sys call sys' ∧ Represents b s' sys' := by
  cases hstep with
  | write hoffset hoff hrun =>
      obtain ⟨content, hcontent, hle, h'⟩ := h.write hb hoffset hoff hrun
      exact ⟨_, .write _ hcontent hle, h'⟩
  | read hmem hfit hret hrun =>
      obtain ⟨content, hcontent, hread⟩ := h.read hb hmem hfit hret hrun
      obtain ⟨hdisk, hbpb, hmounted⟩ := fat16VfsRead_disk hrun
      rw [hread]
      exact ⟨sys, .read _ _ hcontent, h.congr_disk hdisk hbpb hmounted⟩
  | readFails hret hrun =>
      obtain ⟨hdisk, hbpb, hmounted⟩ := fat16VfsRead_disk hrun
      exact ⟨sys, .other, h.congr_disk hdisk hbpb hmounted⟩
  | create hdir hname hflags hrun hkeep => exact h.create hb hdir hname hflags hrun hkeep
  | mkdir hdir hname hflags hrun hkeep => exact h.mkdir hb hdir hname hflags hrun hkeep
  | finddir hdir hname hhead hrun hkeep =>
      obtain ⟨L, hL, -⟩ := h.dirs.lists _ (h.bpb ▸ hdir)
      exact ⟨sys, .lookup hL (h.finds hb hdir hname hhead hrun hL), h.lookup hb hdir hrun hkeep⟩
  | finddirDot hdir hhead hrun hkeep => exact ⟨sys, .other, h.lookup hb hdir hrun hkeep⟩
  | @readdir fs dir nodes index fuel r hdir hindex hrun =>
      obtain rfl := h.bpb
      obtain ⟨L, hL, hlists⟩ := h.dirs.lists _ hdir
      rw [hlists.readdir hb.spc_pos h.mounted hindex hrun]
      exact ⟨sys, .list index hL, h⟩
  | close => exact ⟨sys, .other, h.close⟩
  | kernel start heap =>
      exact ⟨sys, .other, h.bpb, h.mounted, h.zeroTail, h.shows, h.dirs, h.distinct⟩

end Represents

/-! ## Runs -/

/-- The files and directories on the disk are the ones of `sys`. -/
structure OnDisk (b : Bpb) (d : Disk) (sys : FileSystem ℕ (List UInt8) UInt8) : Prop where
  files : ∀ f content,
    sys.files f = some content ↔ FileIs b d (firstCluster (entryAt d f)) f content
  dirs : ShowsDirs b d sys.dirs

/-- Every well-formed volume is one of a file system. -/
theorem exists_onDisk (hb : Layout b) (hwf : WellFormed b (dataTop b) d) :
    ∃ sys, OnDisk b d sys := by
  classical
  have hs := hwf.sound fun k hk hdata =>
    Nat.lt_min.2 ⟨hdata.2.1, Nat.lt_min.2 ⟨hdata.2.2, hk⟩⟩
  have hlists := fun q (hq : IsDir b d q) => exists_lists hb.dataGeometry hs hq
  refine ⟨⟨fun q => if hq : IsDir b d q then some (hlists q hq).choose else none,
    fun f => if hf : ∃ content, FileIs b d (firstCluster (entryAt d f)) f content then
      some hf.choose else none⟩, fun f content => ?_, fun q hq => ?_, fun q L hL => ?_⟩
  · dsimp only
    split_ifs with hf
    · rw [Option.some_inj]
      exact ⟨fun heq => heq ▸ hf.choose_spec, fun h => hf.choose_spec.unique hb h⟩
    · exact ⟨fun h => (by cases h), fun h => absurd ⟨content, h⟩ hf⟩
  · exact ⟨_, dif_pos hq, (hlists q hq).choose_spec⟩
  · by_contra hq
    dsimp only at hL
    rw [dif_neg hq] at hL
    cases hL

theorem OnDisk.shows (hwf : WellFormed b (dataTop b) d) (hlong : LongEnough b (dataTop b) d)
    (h : OnDisk b d sys) : Shows b d (fun a => firstCluster (entryAt d a)) sys.files := by
  have hs := hwf.sound fun k hk hdata =>
    Nat.lt_min.2 ⟨hdata.2.1, Nat.lt_min.2 ⟨hdata.2.2, hk⟩⟩
  refine ⟨fun f content => (h.files f content).1, fun f hlive hfile => ?_,
    fun f hlive hfile hfirst => ?_⟩
  · have howner : Owner b d f := ⟨hlive, isDot_of_file hfile⟩
    obtain ⟨l, hl⟩ := hs.chain f howner
    exact ⟨_, (h.files f _).2 ⟨hlive, hfile, l, hl, hlong f l howner hfile hl, rfl⟩⟩
  · have hzero := hlong f [] ⟨hlive, isDot_of_file hfile⟩ hfile ((fileChain_of_lt hfirst).2 rfl)
    rw [List.length_nil, Nat.zero_mul] at hzero
    exact Nat.le_zero.1 hzero

theorem Shows.onDisk (hb : Layout b) (hs : Sound b (dataTop b) d first)
    (h : Shows b d first files) (hdirs : ShowsDirs b d dirs) : OnDisk b d ⟨dirs, files⟩ := by
  have hdisk : ∀ f content, files f = some content →
      FileIs b d (firstCluster (entryAt d f)) f content := by
    intro f content hf
    have hold := h.fileIs f content hf
    have hnew := (h.refresh hs hold.live hold.file).fileIs f content hf
    rwa [Function.update_self] at hnew
  refine ⟨fun f content => ⟨hdisk f content, fun hf => ?_⟩, hdirs⟩
  obtain ⟨content', hcontent'⟩ := h.total f hf.live hf.file
  obtain rfl := (hdisk f content' hcontent').unique hb hf
  exact hcontent'

/-- The root directory of the small volume, with the file `A`. -/
def smallDirs : Store ℕ (List UInt8 × Item ℕ) :=
  Function.update (fun _ => none) 0 (some [([0x41], .file 1024)])

def smallFiles : Store ℕ UInt8 := Function.update (fun _ => none) 1024 (some [0])

theorem lists_small : Lists smallBpb (smallVolume 2 1 0xFF) 0 [([0x41], .file 1024)] := by
  refine ⟨1, by decide +kernel, fun n hn => ?_, by decide +kernel⟩
  obtain rfl : n = 0 := by omega
  decide +kernel

theorem showsDirs_small : ShowsDirs smallBpb (smallVolume 2 1 0xFF) smallDirs where
  lists q hq := by
    obtain rfl := isDir_small hq
    exact ⟨_, Function.update_self .., lists_small⟩
  isDir q L hL := by
    by_cases hq : q = 0
    · subst hq
      exact IsDir.root
    · rw [smallDirs, Function.update_of_ne hq] at hL
      cases hL

theorem onDisk_small : OnDisk smallBpb (smallVolume 2 1 0xFF) ⟨smallDirs, smallFiles⟩ := by
  have hnode := (fileNode_small 2 1 0xFF).slot
  have htop : 2 < dataTop smallBpb := by decide
  have hchain : FileChain smallBpb (dataTop smallBpb) (smallVolume 2 1 0xFF) 2 [2] := by
    have hlink : fatAt smallBpb (smallVolume 2 1 0xFF) 2 = 0xFFFF := by decide +kernel
    refine (fileChain_of_two_le le_rfl).2 ⟨by simp, Chain.single ⟨le_rfl, htop⟩ ?_⟩
    rw [hlink]
    exact Nat.le_of_ble_eq_true rfl
  have hfile : FileIs smallBpb (smallVolume 2 1 0xFF)
      (firstCluster (entryAt (smallVolume 2 1 0xFF) 1024)) 1024 [0] := by
    refine ⟨hnode.live, hnode.file, [2], ?_, ?_, ?_⟩
    · rw [firstCluster_small]
      exact hchain
    · rw [fileSize_small]
      decide
    · rw [fileSize_small]
      decide +kernel
  refine ⟨fun f content => ⟨fun h => ?_, fun h => ?_⟩, showsDirs_small⟩
  · dsimp only at h
    by_cases hf : f = 1024
    · subst hf
      rw [smallFiles, Function.update_self] at h
      obtain rfl := Option.some.inj h
      exact hfile
    · rw [smallFiles, Function.update_of_ne hf] at h
      cases h
  · obtain rfl := liveEntry_small h.live
    dsimp only
    rw [smallFiles, Function.update_self, h.unique layout_small hfile]

/-- `A` is opened, written at its end and read. -/
def openWriteRead : Option ((Option VfsNode × Fs) × (ℤ × VfsNode × Fs) × ℤ × Bytes × Fs) :=
  (fat16VfsFinddir 2 fat16RootNode [0x41] (mountedFs (smallVolume 2 1 0xFF))).bind fun r =>
    (r.1.bind fun n => fat16VfsWrite n 1 2 (fun _ => 0x55) r.2).bind fun w =>
      (fat16VfsRead w.2.1 0 9 (fun _ => 0) w.2.2).map fun out => (r, w, out)

/-- Every run of the functions of a well-formed volume, through nodes of which no two stand
for one file, is a run of a file system, which has the files and directories that are on
the disk, before and after. -/
theorem onDisk_of_calls {s s' : Session} {calls : List (FsCall ℕ (List UInt8) UInt8)}
    (hb : Layout s.fs.bpb) (hmounted : s.fs.mounted = true)
    (hwf : WellFormed s.fs.bpb (dataTop s.fs.bpb) s.fs.disk)
    (hzero : ZeroTail s.fs.bpb s.fs.disk)
    (hlong : LongEnough s.fs.bpb (dataTop s.fs.bpb) s.fs.disk) (hnodes : s.nodes = [])
    (hsys : OnDisk s.fs.bpb s.fs.disk sys) (hrun : Steps CallStep s calls s') :
    ∃ sys', Steps VolumeStep sys calls sys' ∧ s'.fs.bpb = s.fs.bpb ∧
      OnDisk s'.fs.bpb s'.fs.disk sys' := by
  have hs := hwf.sound fun k hk hdata =>
    Nat.lt_min.2 ⟨hdata.2.1, Nat.lt_min.2 ⟨hdata.2.2, hk⟩⟩
  have hstart : Represents s.fs.bpb s sys := by
    refine ⟨rfl, hmounted, hzero, ⟨_, hs, hsys.shows hwf hlong, fun n hn => ?_⟩, hsys.dirs, ?_⟩
    · rw [hnodes] at hn
      cases hn
    · rw [hnodes]
      exact List.Pairwise.nil
  obtain ⟨sys', hsteps, hend⟩ := Steps.simulate
    (fun t x call u hrel hstep => hrel.step hb hstep) hstart hrun
  obtain ⟨first, hs', hshows, -⟩ := hend.shows
  refine ⟨sys', hsteps, hend.bpb, ?_⟩
  rw [hend.bpb]
  exact hshows.onDisk hb hs' hend.dirs

/-- The read finds the bytes that were there and the ones that were written. -/
theorem onDisk_of_calls_small : ∃ s' sys', Steps CallStep
    ⟨mountedFs (smallVolume 2 1 0xFF), []⟩ [.lookup 0 [0x41] (some (.file 1024)),
      .write 1024 1 [0x55, 0x55], .read 1024 0 9 [0, 0x55, 0x55]] s' ∧
    Steps VolumeStep ⟨smallDirs, smallFiles⟩ [.lookup 0 [0x41] (some (.file 1024)),
      .write 1024 1 [0x55, 0x55], .read 1024 0 9 [0, 0x55, 0x55]] sys' ∧
    OnDisk s'.fs.bpb s'.fs.disk sys' := by
  have hret : openWriteRead.map (fun r => ((r.1.1.map fun n => (nodeSlot n, n.size, n.flags)),
      (r.2.1.1, nodeSlot r.2.1.2.1, r.2.1.2.2.bpb.clusterBytes), r.2.2.1,
      bytesAt r.2.2.2.1 0 3)) =
      some (some (1024, 1, vfsFile), (2, 1024, 512), 3, [0, 0x55, 0x55]) := by
    decide +kernel
  obtain ⟨⟨⟨_ | node, fs₁⟩, ⟨ret, node', fs₂⟩, ret', out, fs₃⟩, hrun, hvalues⟩ :=
    Option.map_eq_some_iff.1 hret <;>
    simp only [Option.map_some, Option.map_none, Prod.mk.injEq, Option.some.injEq,
      reduceCtorEq, false_and] at hvalues
  obtain ⟨⟨hslot, hsize, hflags⟩, ⟨rfl, hslot', hcluster⟩, rfl, hout⟩ := hvalues
  obtain ⟨r, hfind, hrun⟩ := Option.bind_eq_some_iff.1 hrun
  obtain ⟨w, hwrite, hrun⟩ := Option.bind_eq_some_iff.1 hrun
  obtain ⟨o, hread, hrun⟩ := Option.map_eq_some_iff.1 hrun
  simp only [Prod.mk.injEq] at hrun
  obtain ⟨rfl, rfl, rfl⟩ := hrun
  have hbpb := mountedFs_smallVolume 2 1 0xFF
  have hopen : CallStep ⟨mountedFs (smallVolume 2 1 0xFF), []⟩
      (.lookup 0 [0x41] (some (.file 1024))) ⟨fs₁, [node]⟩ := by
    have hstep := @CallStep.finddir (mountedFs (smallVolume 2 1 0xFF)) fs₁ fat16RootNode [] [node] 2
      [0x41] (some node) IsDir.root (by decide) (by decide) hfind (.keep hflags (by simp))
    have hitem : nodeItem node = .file 1024 := by
      rw [nodeItem, hflags, hslot]
      rfl
    rw [Option.map_some, hitem] at hstep
    exact hstep
  have hput : CallStep ⟨fs₁, [node]⟩ (.write 1024 1 [0x55, 0x55]) ⟨fs₂, [node']⟩ := by
    have hstep := @CallStep.write fs₁ fs₂ node node' [] [] 1 2 (fun _ => 0x55) 2
      (Nat.le_of_eq hsize.symm) (by decide) hwrite
    rw [hslot] at hstep
    exact hstep
  have hget : CallStep ⟨fs₂, [node']⟩ (.read 1024 0 9 [0, 0x55, 0x55]) ⟨fs₃, [node']⟩ := by
    have hstep := @CallStep.read fs₂ fs₃ node' [node'] 0 9 (fun _ => 0) out 3 (by simp)
      (by omega) (by decide) hread
    rw [hslot', show (3 : ℤ).toNat = 3 from rfl, hout] at hstep
    exact hstep
  have hsteps := Steps.cons hopen (.cons hput (.cons hget (.nil _)))
  have hgeo := layout_small.dataGeometry
  obtain ⟨sys', hsys, -, hend⟩ := onDisk_of_calls (hbpb.symm ▸ layout_small) rfl
    (hbpb.symm ▸ wellFormed_small hgeo (by decide) (Or.inr rfl))
    (hbpb.symm ▸ zeroTail_small 2 1 0xFF)
    (hbpb.symm ▸ longEnough_small hgeo (by decide) (Or.inl rfl)) rfl
    (hbpb.symm ▸ onDisk_small) hsteps
  exact ⟨_, sys', hsteps, hsys, hend⟩

end Fat16

end Yotos
