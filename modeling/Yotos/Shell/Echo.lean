import Yotos.Fat16.Overwrite
import Yotos.Loader.File
import Yotos.Shell.Whole

/-!
# What `echo` leaves in a file

`cmd_echo` writes the text and a newline from the start of the file on, and does not cut
the file off behind them. What `cmd_cat` prints then is the text, the newline, and the
end of the file as it was before, if it was longer.
-/

namespace Yotos

namespace Shell

open Bytes Fat16 Kheap Library Relation Vfs

variable {b : Bpb} {d : Disk} {f q k start fuel offset : ℕ} {L L' : Set (ℕ × Block)}
  {mounts : List Mountpoint} {s s' : Session} {arg path words : List UInt8} {fs fs' : Fs}
  {node : VfsNode} {content buf : Bytes} {bs : List Block}

/-! ## What `cat` prints -/

/-- The loop prints the rest of the file. -/
theorem catLoop_eq (h : Loader.Opened fs node content bs) (hroom : Loader.ReadRoom fs bs)
    (hoffset : offset ≤ node.size) (hfuel : node.size - offset ≤ 512 * fuel) :
    ∃ heap, catLoop node (fuel + 1) offset buf fs =
      some (bytesAt content offset (node.size - offset), { fs with heap := heap }) := by
  have hsize := h.size_lt
  induction fuel generalizing offset buf fs bs with
  | zero =>
      obtain ⟨got, out, heap, bs', hread, -, -, -, hgot⟩ := h.vfsRead offset le_rfl buf
      obtain ⟨-, rfl, -⟩ := hgot.resolve_left fun hno => hno.2 hroom
      have hrest : node.size - offset = 0 := by omega
      refine ⟨heap, ?_⟩
      rw [hrest] at hread ⊢
      rw [catLoop, hread]
      rfl
  | succ fuel ih =>
      obtain ⟨got, out, heap, bs', hread, hopened, -, hroom', hgot⟩ := h.vfsRead offset le_rfl buf
      obtain ⟨-, rfl, hbytes⟩ := hgot.resolve_left fun hno => hno.2 hroom
      rw [catLoop, hread]
      dsimp only [Option.bind_some]
      rcases Nat.eq_zero_or_pos (node.size - offset) with hzero | hpos
      · refine ⟨heap, ?_⟩
        rw [hzero]
        rfl
      · obtain ⟨n, hn⟩ : ∃ n, n = min 512 (node.size - offset) := ⟨_, rfl⟩
        rw [← hn] at hbytes ⊢
        have hmod : (offset + ((n : ℕ) : ℤ).toNat) % 2 ^ 32 = offset + n := by
          rw [Int.toNat_natCast, Nat.mod_eq_of_lt (by omega)]
        obtain ⟨heap', hrest⟩ := @ih (offset + n) { fs with heap := heap } out bs' hopened
          (hroom'.2 hroom) (by omega) (by omega)
        refine ⟨heap', ?_⟩
        rw [if_pos (by omega), hmod, hrest, Option.map_some, Int.toNat_natCast]
        congr 2
        rw [bytesAt_append content offset (show n ≤ node.size - offset by omega), Nat.sub_sub]
        congr 1
        refine List.map_congr_left fun x hx => ?_
        rw [Nat.zero_add, hbytes x (List.mem_range.1 hx)]

theorem isDirectory_of_fileFlags {e : Bytes} {lba i addr : ℕ}
    (h : (nodeOf e lba i addr).flags &&& vfsFile ≠ 0) : isDirectory e = false := by
  by_contra hdir
  rw [Bool.not_eq_false] at hdir
  refine h ?_
  simp only [nodeOf, hdir, if_true]
  decide

theorem flags_of_file {e : Bytes} (h : isDirectory e = false) (lba i addr : ℕ) :
    (nodeOf e lba i addr).flags = vfsFile ∧ (nodeOf e lba i addr).ops = .file := by
  simp [nodeOf, h]

/-- Where the path leads nowhere. -/
theorem cmdCat_of_absent (hb : Layout b) (hroot : vfsGetRoot mounts = some fat16RootNode)
    (hp : Placed start) (hends : DirsEnd b d) (hready : Ready b d start L s.fs)
    (hfuel : 2 ^ 28 < fuel) (harg : arg ≠ []) (hpath : pathResolve s.path arg pathSize = path)
    (hnames : components (stripSlash path) ≠ [])
    (habsent : ∀ q k, ¬ Denotes b d 0 (components (stripSlash path)) q k) :
    ∃ s', cmdCat fuel mounts arg s =
      some (ascii "cat: " ++ path ++ ascii ": not found\n", s') := by
  obtain ⟨rfl, rfl, hmounted, rfl, hheap⟩ := hready
  obtain ⟨⟨r, fs⟩, hopen⟩ := vfsOpen_isSome hb hmounted hroot hp hheap hends hfuel path
  obtain ⟨hopened, -⟩ := vfsOpen_outcome hb hmounted hroot hp hheap hends hopen
  rw [cmdCat, if_neg harg, hpath]
  dsimp only
  rw [hopen, Option.bind_some]
  cases hopened with
  | null => exact ⟨_, rfl⟩
  | root hnil => exact absurd hnil hnames
  | node hdenotes => exact absurd hdenotes (habsent _ _)

/-- Where the path leads to a file, all of its bytes are printed, and one more newline. -/
theorem cmdCat_of_file (hb : Layout b) (hroot : vfsGetRoot mounts = some fat16RootNode)
    (hp : Placed start) (htidy : Tidy b d) (hready : Ready b d start L s.fs)
    (hfuel : 2 ^ 28 < fuel) (harg : arg ≠ []) (hpath : pathResolve s.path arg pathSize = path)
    (hlog : .refuse ∉ vfsOpenLog fuel mounts path s.fs)
    (hbuffer : ∀ node fs, vfsOpen fuel mounts path s.fs = some (some node, fs) →
      kmalloc fs.heapStart fs.bpb.clusterBytes fs.heap ≠ some (0, fs.heap))
    (hdenotes : Denotes b d 0 (components (stripSlash path)) q k)
    (hhas : FileHas b d (slotAddr b d q k) content) :
    ∃ s', cmdCat fuel mounts arg s =
      some (bytesAt content 0 (fileSize (entryAt d (slotAddr b d q k))) ++ ascii "\n", s') := by
  obtain ⟨rfl, rfl, hmounted, rfl, hheap⟩ := hready
  have hends := htidy.dirsEnd hb
  obtain ⟨⟨r, fs⟩, hopen⟩ := vfsOpen_isSome hb hmounted hroot hp hheap hends hfuel path
  obtain ⟨hopened, -⟩ := vfsOpen_outcome hb hmounted hroot hp hheap hends hopen
  rw [cmdCat, if_neg harg, hpath]
  dsimp only
  cases hopened with
  | null _ _ habsent => exact absurd hdenotes (habsent.resolve_left hlog q k)
  | root hnil =>
      rw [hnil] at hdenotes
      exact absurd hdenotes not_denotes_nil
  | @node q' k' addr heap blk hdenotes' _ _ _ _ hheld =>
      obtain ⟨rfl, rfl⟩ := hdenotes.unique hdenotes'
      obtain ⟨init, name, -, hwalk, hfound⟩ := hdenotes
      have hnode : FileNode s.fs.bpb s.fs.disk (slotNode s.fs.bpb s.fs.disk q k addr)
          (slotAddr s.fs.bpb s.fs.disk q k) :=
        fileNode_nodeOf hb.spc_pos (hwalk.isDir htidy.dots IsDir.root) hfound.live hhas.file addr
      obtain ⟨hflags, hops⟩ := flags_of_file hhas.file
        (dirSectorLba s.fs.bpb s.fs.disk q (k / 16)) (k % 16) addr
      have hfile : (slotNode s.fs.bpb s.fs.disk q k addr).flags &&& vfsFile ≠ 0 := by
        rw [slotNode, hflags]
        decide
      obtain ⟨bs, hrep, -⟩ := hheld
      have hroom : Loader.ReadRoom { s.fs with heap := heap } bs := by
        by_contra hno
        exact hbuffer _ _ hopen ((kmalloc_null_iff hp hrep).2 hno)
      have hreads : ReadsAs { s.fs with heap := heap } (slotNode s.fs.bpb s.fs.disk q k addr)
          content := @FileHas.readsAs _ content { s.fs with heap := heap } _ hb hmounted hhas hnode
      have hlarge := hnode.slot.size_lt
      obtain ⟨n, rfl⟩ : ∃ n, fuel = n + 1 := ⟨fuel - 1, by omega⟩
      obtain ⟨heap', hloop⟩ := @catLoop_eq n 0 { s.fs with heap := heap } _ content (fun _ => 0) bs
        ⟨hfile, hops, hlarge, hreads, hp, hrep⟩ hroom (Nat.zero_le _) (by omega)
      rw [Nat.sub_zero, hnode.size_eq] at hloop
      rw [hopen, Option.bind_some]
      dsimp only
      rw [if_neg hfile, hloop]
      exact ⟨_, rfl⟩

/-! ## The file that `echo` writes -/

/-- A name that can be made is the last component of its path. -/
theorem components_split (hhead : path.head? = some 0x2F)
    (hfit : formatName83 (pathParentAndName path pathSize 128).2 ≠ none) :
    ∃ init, components (stripSlash path) = init ++ [(pathParentAndName path pathSize 128).2] := by
  have hshort := formatName83_length_le hfit
  have hne : (pathParentAndName path pathSize 128).2 ≠ [] := by
    intro hnil
    rw [hnil] at hfit
    exact hfit (by decide)
  obtain ⟨base, hslash, hpath⟩ := exists_last hhead
  have hbase : (pathParentAndName path pathSize 128).2 = base.take (128 - 1) := by
    rcases hpath with rfl | ⟨q, rfl⟩
    · rw [← List.nil_append (0x2F :: base), pathParentAndName_take pathSize 128 hslash]
    · rw [pathParentAndName_take pathSize 128 hslash]
  rw [hbase, List.length_take] at hshort
  have htake : base.take (128 - 1) = base := List.take_of_length_le (by omega)
  rw [hbase, htake] at hne ⊢
  rcases hpath with rfl | ⟨q, rfl⟩
  · exact ⟨[], @components_name base hne hslash (by omega)⟩
  · have hnames : components (stripSlash (0x2F :: q ++ 0x2F :: base)) = components q ++
        if q = [] ∨ q.getLast? = some 0x2F then [[], base] else [base] :=
      components_append hne hslash (by omega)
    rw [hnames]
    split_ifs
    · exact ⟨components q ++ [[]], by simp⟩
    · exact ⟨components q, rfl⟩

theorem mem_of_mem_base {c : UInt8} {psz bsz : ℕ} (h : c ∈ (pathParentAndName path psz bsz).2) :
    c ∈ path := by
  unfold pathParentAndName at h
  dsimp only at h
  split_ifs at h <;> exact List.mem_of_mem_drop (List.mem_of_mem_take h)

theorem mem_of_mem_stripSlash {c : UInt8} (h : c ∈ stripSlash path) : c ∈ path := by
  unfold stripSlash at h
  split_ifs at h
  · exact List.mem_of_mem_tail h
  · exact h

/-- The node that `cmd_echo` writes through: an old one, or one that was made in the
directory of the path. -/
inductive EchoTarget (fs : Fs) (L : Set (ℕ × Block)) (path : List UInt8) : VfsNode → Fs → Prop
  | root (hnames : components (stripSlash path) = []) : EchoTarget fs L path fat16RootNode fs
  | old {q k addr : ℕ} {heap : Bytes} {blk : Block}
      (hdenotes : Denotes fs.bpb fs.disk 0 (components (stripSlash path)) q k)
      (hfresh : ∀ c, (addr, c) ∉ L) (hheap : Holding heap fs.heapStart (insert (addr, blk) L)) :
      EchoTarget fs L path (slotNode fs.bpb fs.disk q k addr) { fs with heap := heap }
  | new {q j k addr : ℕ} {name83 ext83 heap : Bytes} {disk : Disk} {blk : Block}
      (habsent : ∀ q k, ¬ Denotes fs.bpb fs.disk 0 (components (stripSlash path)) q k)
      (hq : Denoted fs.bpb fs.disk (pathParentAndName path pathSize 128).1 q)
      (hformat : formatName83 (pathParentAndName path pathSize 128).2 = some (name83, ext83))
      (hcreated : Created fs.bpb (dataTop fs.bpb) fs.disk q j
        (createdEntry name83 ext83 0 vfsFile) [] disk)
      (hfound : Found fs.bpb disk q (pathParentAndName path pathSize 128).2 k)
      (hfresh : ∀ c, (addr, c) ∉ L) (hheap : Holding heap fs.heapStart (insert (addr, blk) L)) :
      EchoTarget fs L path (slotNode fs.bpb disk q k addr) { fs with disk := disk, heap := heap }

theorem closeCurrent_eq (h : NodeHeld L node L') (fs : Fs) : closeCurrent node fs = vfsClose node fs := by
  cases h with
  | root => rfl
  | slot hne => exact if_pos hne

theorem vfsCreate_some {name : List UInt8} {flags : UInt32} {file : VfsNode}
    (h : NodeHeld L node L') (hrun : vfsCreate fuel node name flags fs = some (some file, fs')) :
    node.flags &&& vfsDir ≠ 0 ∧
      fat16VfsCreate fuel node name flags fs = some (some file, fs') := by
  unfold vfsCreate at hrun
  split_ifs at hrun with hdir
  · cases hrun
  · refine ⟨hdir, ?_⟩
    cases h with
    | root => exact hrun
    | @slot e lba i addr blk =>
        rw [flags_nodeOf, Bool.not_eq_false] at hdir
        simpa [nodeOf, hdir] using hrun

theorem echoOpen_target {filename : List UInt8} {file : VfsNode} (hb : Layout fs.bpb)
    (hmounted : fs.mounted = true) (hroot : vfsGetRoot mounts = some fat16RootNode)
    (hp : Placed fs.heapStart) (hclean : Clean fs.bpb fs.disk)
    (hheap : Holding fs.heap fs.heapStart L) (hzero : 0 ∉ path)
    (hlog : .refuse ∉ vfsOpenLog fuel mounts path fs)
    (h : echoOpen fuel mounts path filename fs = some (.inr file, fs')) :
    EchoTarget fs L path file fs' := by
  have hends := hclean.dirsEnd hb
  unfold echoOpen at h
  obtain ⟨⟨r, fs₁⟩, hopen, h⟩ := Option.bind_eq_some_iff.1 h
  obtain ⟨hopened, -⟩ := vfsOpen_outcome hb hmounted hroot hp hheap hends hopen
  cases hopened with
  | root hnames =>
      obtain ⟨hfile, rfl⟩ := Prod.mk.inj (Option.some.inj h)
      obtain rfl := Sum.inr.inj hfile
      exact .root hnames
  | node hdenotes _ _ _ hfresh hheap' =>
      obtain ⟨hfile, rfl⟩ := Prod.mk.inj (Option.some.inj h)
      obtain rfl := Sum.inr.inj hfile
      exact .old hdenotes hfresh hheap'
  | @null heap _ hheap' habsent =>
      have habsent := habsent.resolve_left hlog
      dsimp only at h
      obtain ⟨⟨r, fs₂⟩, hopen', h⟩ := Option.bind_eq_some_iff.1 h
      cases r with
      | none => simp at h
      | some dir =>
          obtain ⟨⟨r, fs₃⟩, hcreate, h⟩ := Option.map_eq_some_iff.1 h
          cases r with
          | none => simp at h
          | some new =>
              obtain ⟨hfile, rfl⟩ := Prod.mk.inj h
              obtain rfl := Sum.inr.inj hfile
              have hheap₁ : Holding ({ fs with heap := heap } : Fs).heap fs.heapStart L := hheap'
              obtain ⟨hopened', -⟩ := @vfsOpen_outcome fuel L { fs with heap := heap } fs₂ (some dir)
                mounts _ hb hmounted hroot hp hheap₁ hends hopen'
              obtain ⟨L', heap₂, rfl, hheld, hheap₂⟩ := held_of_opened hopened' hheap₁
              obtain ⟨hdir, hcreate⟩ := vfsCreate_some hheld hcreate
              have hwalk : Denoted fs.bpb fs.disk (pathParentAndName path pathSize 128).1
                  dir.inode := hopened'.walk hdir
              have hisDir : IsDir fs.bpb fs.disk dir.inode := hwalk.isDir hclean.dots IsDir.root
              have hname : 0 ∉ (pathParentAndName path pathSize 128).2 := fun hmem =>
                hzero (mem_of_mem_base hmem)
              rcases @fat16VfsCreate_cases (dataTop fs.bpb) _ fuel _ { fs with heap := heap₂ } fs₃
                dir vfsFile (some new) hb.dataGeometry hclean.sound hmounted hisDir hname hcreate with
                ⟨hnone, -⟩ | ⟨name83, ext83, j, c, l, disk, hformat, hcreated, hl, hfind⟩
              · cases hnone
              obtain ⟨-, rfl, rfl⟩ := hl.resolve_left fun hl => hl.1 (by decide)
              have hend : ∃ n, dirSectorLba fs.bpb disk dir.inode n = 0 := by
                obtain ⟨n, hn⟩ := hends _ _ hwalk
                exact ⟨n, (hcreated.sectors hb.dataGeometry hclean.sound hisDir n).trans hn⟩
              have houtcome := @fat16VfsFinddir_outcome fuel _
                { fs with disk := disk, heap := heap₂ } fs₃ dir (some new) L' hb hmounted hp hheap₂
                hend hfind
              generalize fat16VfsFinddirLog fuel dir _ _ = log at houtcome
              cases houtcome with
              | @found k addr heap₃ blk hfound hne _ hfresh hheap₃ =>
                  have hother := hheld.addr_ne hne hfresh
                  obtain ⟨heap₄, hclose, hheap₄⟩ := @NodeHeld.close dir L L'
                    { fs with disk := disk, heap := heap₃ } {(addr, blk)} hp hheld
                    (by simp [hother]) (by simpa using hheap₃)
                  rw [closeCurrent_eq hheld] at hclose
                  rw [hclose]
                  rw [Set.singleton_union] at hheap₄
                  exact .new habsent hwalk hformat hcreated hfound
                    (fun c hc => hfresh c (hheld.subset hc)) hheap₄

/-! ## The two writes -/

/-- The bytes after the text and the newline have been written. -/
def echoed (old : Bytes) (words : List UInt8) : Bytes :=
  overwrite (overwrite old 0 (put (fun _ => 0) 0 words) words.length) words.length
    (fun _ => 0x0A) 1

/-- What the old file had behind the newline stays. -/
theorem bytesAt_echoed (old : Bytes) (words : List UInt8) (size : ℕ) :
    bytesAt (echoed old words) 0 (max size (words.length + 1)) =
      words ++ ascii "\n" ++ bytesAt old (words.length + 1) (size - (words.length + 1)) := by
  have hwords : bytesAt (echoed old words) 0 words.length = words := by
    refine (List.map_congr_left fun x hx => ?_).trans (bytesAt_put (fun _ => 0) 0 words)
    have hlt := List.mem_range.1 hx
    simp [echoed, overwrite, hlt, hlt.not_ge]
  have hnewline : bytesAt (echoed old words) words.length 1 = ascii "\n" := by
    simp [bytesAt, echoed, overwrite]
    decide
  have hrest : bytesAt (echoed old words) (words.length + 1) (size - (words.length + 1)) =
      bytesAt old (words.length + 1) (size - (words.length + 1)) := by
    refine List.map_congr_left fun x _ => ?_
    rw [echoed, overwrite, if_neg (by omega), overwrite, if_neg (by omega)]
  rw [bytesAt_append _ 0 (show words.length + 1 ≤ _ from Nat.le_max_right _ _),
    bytesAt_append _ 0 (Nat.le_succ words.length), hwords, Nat.zero_add, Nat.zero_add,
    Nat.succ_sub (le_refl _), Nat.sub_self, hnewline, ← hrest]
  congr 2
  omega

/-- The state after the file of slot `f` has been written over and closed. -/
structure Rewritten (fs : Fs) (f : ℕ) (words : List UInt8) (L : Set (ℕ × Block)) (fs' : Fs) :
    Prop where
  tidy : Tidy fs.bpb fs'.disk
  file : ∃ old, FileHas fs.bpb fs'.disk f (echoed old words)
  size : fileSize (entryAt fs'.disk f) = max (fileSize (entryAt fs.disk f)) (words.length + 1)
  tree : SameTree fs.bpb fs.disk fs'.disk f
  ready : Ready fs.bpb fs'.disk fs.heapStart L fs'

theorem rewritten_of_writes {addr : ℕ} {blk : Block} {node₁ node₂ : VfsNode} {fs₁ fs₂ : Fs}
    (hb : Layout fs.bpb) (hmounted : fs.mounted = true) (hp : Placed fs.heapStart)
    (hclean : Clean fs.bpb fs.disk) (hq : IsDir fs.bpb fs.disk q)
    (hlive : LiveSlot fs.bpb fs.disk q k)
    (hkind : isDirectory (entryAt fs.disk (slotAddr fs.bpb fs.disk q k)) = false)
    (hfresh : ∀ c, (addr, c) ∉ L) (hheap : Holding fs.heap fs.heapStart (insert (addr, blk) L))
    (hlen : words.length + 1 < 2 ^ 31)
    (hfirst : vfsWrite (slotNode fs.bpb fs.disk q k addr) 0 words.length
      (put (fun _ => 0) 0 words) fs = some ((words.length : ℤ), node₁, fs₁))
    (hsecond : vfsWrite node₁ words.length 1 (fun _ => 0x0A) fs₁ = some (1, node₂, fs₂)) :
    Rewritten fs (slotAddr fs.bpb fs.disk q k) words L (vfsClose node₂ fs₂) := by
  have hnode : FileNode fs.bpb fs.disk (slotNode fs.bpb fs.disk q k addr)
      (slotAddr fs.bpb fs.disk q k) := fileNode_nodeOf hb.spc_pos hq hlive hkind addr
  obtain ⟨old, hold⟩ := hclean.fileHas hnode.slot.live hkind
  obtain ⟨hflags, hops⟩ : (slotNode fs.bpb fs.disk q k addr).flags = vfsFile ∧
      (slotNode fs.bpb fs.disk q k addr).ops = .file := flags_of_file hkind _ _ _
  have hwrite {node : VfsNode} (hflags : node.flags = vfsFile) (hops : node.ops = .file)
      (offset size : ℕ) (buf : Bytes) (fs : Fs) :
      vfsWrite node offset size buf fs = fat16VfsWrite node offset size buf fs := by
    rw [vfsWrite, hflags, hops, if_neg (by decide)]
  have hgeo := hb.dataGeometry
  have hs := hclean.sound
  rw [hwrite hflags hops] at hfirst
  obtain ⟨hflags₁, hops₁, haddr₁, hstart₁, hheap₁⟩ := fat16VfsWrite_keeps hp hheap hfirst
  obtain ⟨htidy₁, hhas₁, hnode₁, hsize₁, htree₁, hbpb₁, hmounted₁⟩ :=
    hold.write hb hmounted hclean.toTidy hnode (Nat.zero_le _) (by omega) hfirst
  rw [hwrite (hflags₁.trans hflags) (hops₁.trans hops)] at hsecond
  rw [← hstart₁] at hheap₁ hp
  rw [← hbpb₁] at htidy₁ hhas₁ hnode₁ hb
  obtain ⟨hflags₂, hops₂, haddr₂, hstart₂, hheap₂⟩ := fat16VfsWrite_keeps hp hheap₁ hsecond
  obtain ⟨htidy₂, hhas₂, hnode₂, hsize₂, htree₂, hbpb₂, hmounted₂⟩ :=
    hhas₁.write hb hmounted₁ htidy₁ hnode₁ (by omega) hlen hsecond
  have hclose : vfsClose node₂ fs₂ = { fs₂ with heap := kfree addr fs₂.heap } := by
    rw [vfsClose, hops₂.trans (hops₁.trans hops), fat16VfsClose, haddr₂.trans haddr₁]
    rfl
  rw [hbpb₁] at htidy₂ hhas₂ hnode₂ htree₂
  rw [hstart₁] at hheap₂ hp
  rw [hclose]
  refine ⟨htidy₂, ⟨old, hhas₂⟩, ?_, htree₁.trans hgeo hs htree₂,
    hbpb₂.trans hbpb₁, rfl, hmounted₂, hstart₂.trans hstart₁, hheap₂.kfree hp hfresh⟩
  have hold := hnode.size_eq
  have hnew := hnode₂.size_eq
  dsimp only
  omega

/-! ## `echo` and then `cat` -/

/-- `cmd_echo` has a file, and there is room for the text and for the newline. -/
def EchoDone (fuel : ℕ) (mounts : List Mountpoint) (arg : List UInt8) (s : Session) : Prop :=
  ∃ file fs file₁ fs₁ file₂ fs₂,
    echoOpen fuel mounts (pathResolve s.path (echoFile arg) pathSize) (echoFile arg) s.fs =
      some (.inr file, fs) ∧
    vfsWrite file 0 (echoText arg).length (put (fun _ => 0) 0 (echoText arg)) fs =
      some (((echoText arg).length : ℤ), file₁, fs₁) ∧
    vfsWrite file₁ (echoText arg).length 1 (fun _ => 0x0A) fs₁ = some (1, file₂, fs₂)

/-- The file is there and not longer than `n` bytes. Or it is not there, and the names
before its own lead to the directory in which it is made. -/
def Covers (b : Bpb) (d : Disk) (path : List UInt8) (n : ℕ) : Prop :=
  (∃ q k, Denotes b d 0 (components (stripSlash path)) q k ∧
    fileSize (entryAt d (slotAddr b d q k)) ≤ n) ∨
  ((∀ q k, ¬ Denotes b d 0 (components (stripSlash path)) q k) ∧
    ∃ q, Denoted b d (pathParentAndName path pathSize 128).1 q ∧
      Walk b d 0 (components (stripSlash path)).dropLast q)

theorem length_echoText_lt (h : 0x3E ∈ arg) : (echoText arg).length < arg.length := by
  refine (trimEnd_length_le _).trans_lt (lt_of_le_of_ne (List.takeWhile_sublist _).length_le ?_)
  intro heq
  have hself := (List.takeWhile_prefix (· ≠ (0x3E : UInt8)) (l := arg)).eq_of_length heq
  simpa using List.takeWhile_eq_self_iff.1 hself _ h

theorem zero_not_mem_echoFile (h : 0 ∉ arg) : 0 ∉ echoFile arg := fun hmem =>
  h ((List.dropWhile_suffix _).subset
    (List.mem_of_mem_drop ((List.dropWhile_suffix _).subset hmem)))

/-- The state that a call without a message leaves. -/
theorem cmdEcho_silent (h : cmdEcho fuel mounts arg s = some ([], s'))
    (hdone : EchoDone fuel mounts arg s) :
    0x3E ∈ arg ∧ echoFile arg ≠ [] ∧ ∃ file fs file₁ fs₁ file₂ fs₂,
      echoOpen fuel mounts (pathResolve s.path (echoFile arg) pathSize) (echoFile arg) s.fs =
        some (.inr file, fs) ∧ file.flags &&& vfsFile ≠ 0 ∧
      vfsWrite file 0 (echoText arg).length (put (fun _ => 0) 0 (echoText arg)) fs =
        some (((echoText arg).length : ℤ), file₁, fs₁) ∧
      vfsWrite file₁ (echoText arg).length 1 (fun _ => 0x0A) fs₁ = some (1, file₂, fs₂) ∧
      s' = { s with fs := vfsClose file₂ fs₂ } := by
  obtain ⟨file, fs, file₁, fs₁, file₂, fs₂, hopen, hfirst, hsecond⟩ := hdone
  rw [cmdEcho, hopen, Option.bind_some] at h
  dsimp only at h
  rw [hfirst, Option.bind_some] at h
  dsimp only at h
  rw [hsecond, Option.map_some] at h
  by_cases harg : arg = []
  · rw [if_pos harg] at h
    exact absurd (Prod.mk.inj (Option.some.inj h)).1 (by decide)
  by_cases hsign : 0x3E ∉ arg
  · rw [if_neg harg, if_pos hsign] at h
    exact absurd (List.append_eq_nil_iff.1 (Prod.mk.inj (Option.some.inj h)).1).1 harg
  by_cases hname : echoFile arg = []
  · rw [if_neg harg, if_neg hsign, if_pos hname] at h
    exact absurd (Prod.mk.inj (Option.some.inj h)).1 (by decide)
  rw [if_neg harg, if_neg hsign, if_neg hname] at h
  by_cases hfile : file.flags &&& vfsFile = 0
  · rw [if_pos hfile] at h
    have hnil := (Prod.mk.inj (Option.some.inj h)).1
    rw [List.append_eq_nil_iff] at hnil
    exact absurd hnil.2 (by decide)
  rw [if_neg hfile] at h
  exact ⟨not_not.1 hsign, hname, file, fs, file₁, fs₁, file₂, fs₂, hopen, hfile, hfirst, hsecond,
    (Prod.mk.inj (Option.some.inj h)).2.symm⟩

/-- The printed bytes are the text, its newline and the newline of `cat`, if nothing is
left of the old file behind them. -/
theorem printed_iff (words : List UInt8) (old : Bytes) (a n : ℕ) :
    words ++ ascii "\n" ++ bytesAt old a n ++ ascii "\n" = words ++ ascii "\n" ++ ascii "\n" ↔
      n = 0 := by
  constructor
  · intro heq
    have hlen := congrArg List.length heq
    simpa using hlen
  · rintro rfl
    simp [bytesAt]

/-- The message of `cat` has only one newline at its end. -/
theorem message_ne (path words : List UInt8) : ascii "cat: " ++ path ++ ascii ": not found\n" ≠
    words ++ ascii "\n" ++ ascii "\n" := by
  have hmessage : ascii ": not found\n" = ascii ": not found" ++ ascii "\n" := by decide
  rw [hmessage, ← List.append_assoc, Ne, List.append_cancel_right_eq]
  intro heq
  have hlast := congrArg List.getLast? heq
  have hletter : (ascii ": not found").getLast? = some 0x64 := by decide
  have hnewline : (ascii "\n").getLast? = some 0x0A := by decide
  rw [List.getLast?_append, List.getLast?_append, List.getLast?_append, hletter, hnewline] at hlast
  exact absurd hlast (by simp)

/-- What `cat` prints after `echo` has written to the file that the path leads to. -/
theorem cat_of_rewritten {fuel' : ℕ} {words : List UInt8} (hb : Layout fs.bpb)
    (hroot : vfsGetRoot mounts = some fat16RootNode) (hp : Placed fs.heapStart)
    (hclean : Clean fs.bpb fs.disk)
    (hdenotes : Denotes fs.bpb fs.disk 0 (components (stripSlash path)) q k)
    (h : Rewritten fs (slotAddr fs.bpb fs.disk q k) words L s.fs)
    (hfuel : 2 ^ 28 < fuel') (harg : arg ≠ []) (hpath : pathResolve s.path arg pathSize = path)
    (hlog : .refuse ∉ vfsOpenLog fuel' mounts path s.fs)
    (hbuffer : ∀ node fs, vfsOpen fuel' mounts path s.fs = some (some node, fs) →
      kmalloc fs.heapStart fs.bpb.clusterBytes fs.heap ≠ some (0, fs.heap)) :
    ∃ out s'', cmdCat fuel' mounts arg s = some (out, s'') ∧
      (out = words ++ ascii "\n" ++ ascii "\n" ↔
        fileSize (entryAt fs.disk (slotAddr fs.bpb fs.disk q k)) ≤ words.length + 1) := by
  have hgeo := hb.dataGeometry
  have hslot := h.tree.slotAddr_eq (hdenotes.isDir hclean.dots) k
  have hdenotes' := (h.tree.denotes_iff hgeo hclean.sound hclean.dots IsDir.root).2 hdenotes
  obtain ⟨old, hfile⟩ := h.file
  have hsize := h.size
  rw [← hslot] at hfile hsize
  obtain ⟨s'', hcat⟩ := cmdCat_of_file hb hroot hp h.tidy h.ready hfuel harg hpath hlog hbuffer
    hdenotes' hfile
  refine ⟨_, s'', hcat, ?_⟩
  rw [hsize, hslot, bytesAt_echoed, printed_iff]
  omega

/-- `echo TEXT > FILE` that completes, and `cat FILE` after it, on a well-formed volume.
`cat` prints the bytes of the file and a newline of its own. The file holds the text and
a newline, and nothing else, exactly if these cover what was there before. -/
theorem cat_of_echo (L : Set (ℕ × Block)) (hb : Layout s.fs.bpb) (hmounted : s.fs.mounted = true)
    (hroot : vfsGetRoot mounts = some fat16RootNode) (hp : Placed s.fs.heapStart)
    (hheap : Holding s.fs.heap s.fs.heapStart L)
    (hwf : WellFormed s.fs.bpb (dataTop s.fs.bpb) s.fs.disk)
    (hlong : LongEnough s.fs.bpb (dataTop s.fs.bpb) s.fs.disk)
    (hzero : ZeroTail s.fs.bpb s.fs.disk) (hdots : DotDirs s.fs.bpb s.fs.disk)
    (hcurrent : s.path.length < pathSize) (hhead : s.path.head? = some 0x2F)
    (harg : 0 ∉ arg) (hlen : arg.length < 2 ^ 31)
    (hpath : pathResolve s.path (echoFile arg) pathSize = path)
    (hlog : .refuse ∉ vfsOpenLog fuel mounts path s.fs)
    (hecho : cmdEcho fuel mounts arg s = some ([], s')) (hdone : EchoDone fuel mounts arg s)
    {fuel' : ℕ} (hfuel : 2 ^ 28 < fuel') (hlog' : .refuse ∉ vfsOpenLog fuel' mounts path s'.fs)
    (hbuffer : ∀ node fs, vfsOpen fuel' mounts path s'.fs = some (some node, fs) →
      kmalloc fs.heapStart fs.bpb.clusterBytes fs.heap ≠ some (0, fs.heap)) :
    ∃ out s'', cmdCat fuel' mounts (echoFile arg) s' = some (out, s'') ∧
      (out = echoText arg ++ ascii "\n" ++ ascii "\n" ↔
        Covers s.fs.bpb s.fs.disk path ((echoText arg).length + 1)) := by
  have hgeo := hb.dataGeometry
  have hclean := hwf.clean hzero hlong hdots
  obtain ⟨hsign, hname, file, fs₀, file₁, fs₁, file₂, fs₂, hopen, hfile, hfirst, hsecond, rfl⟩ :=
    cmdEcho_silent hecho hdone
  have hwords : (echoText arg).length + 1 < 2 ^ 31 := by
    have := length_echoText_lt hsign
    omega
  have hcurrent' : s.path.length ≤ pathSize - 1 := Nat.le_sub_one_of_lt hcurrent
  have hpathHead : path.head? = some 0x2F := hpath ▸ head_pathResolve hhead hcurrent' (by decide)
  have hpathZero : 0 ∉ path := by
    rw [← hpath, pathResolve_eq_take hcurrent']
    exact fun hmem => zero_not_mem_fullPath (zero_not_mem_text _ _) (zero_not_mem_echoFile harg)
      (List.mem_of_mem_take hmem)
  rw [hpath] at hopen
  have htarget := echoOpen_target hb hmounted hroot hp hclean hheap hpathZero hlog hopen
  cases htarget with
  | root => exact absurd (by decide) hfile
  | @old q k addr heap blk hdenotes hfresh hheld =>
      have hdenotes' := hdenotes
      obtain ⟨init, name, -, hwalk, hfound⟩ := hdenotes'
      have hrewritten := @rewritten_of_writes q k L (echoText arg) { s.fs with heap := heap } addr
        blk file₁ file₂ fs₁ fs₂ hb hmounted hp hclean (hwalk.isDir hclean.dots IsDir.root)
        hfound.live (isDirectory_of_fileFlags hfile) hfresh hheld hwords hfirst hsecond
      obtain ⟨out, s'', hcat, hout⟩ := @cat_of_rewritten q k L mounts
        { s with fs := vfsClose file₂ fs₂ } (echoFile arg) path { s.fs with heap := heap } fuel'
        (echoText arg) hb hroot hp hclean hdenotes hrewritten hfuel hname hpath hlog' hbuffer
      refine ⟨out, s'', hcat, hout.trans ⟨fun hle => Or.inl ⟨q, k, hdenotes, hle⟩, ?_⟩⟩
      rintro (⟨q', k', hdenotes', hle⟩ | ⟨habsent, -⟩)
      · obtain ⟨rfl, rfl⟩ := hdenotes.unique hdenotes'
        exact hle
      · exact absurd hdenotes (habsent q k)
  | @new q j k addr name83 ext83 heap disk blk habsent hq hformat hcreated hfound hfresh hheld =>
      have hs := hclean.sound
      obtain ⟨init, hnames⟩ := components_split hpathHead (by rw [hformat]; simp)
      have hinit : (components (stripSlash path)).dropLast = init := by
        rw [hnames, List.dropLast_concat]
      have hzeros : ∀ name ∈ components (stripSlash path), 0 ∉ name := fun name hmem hzero =>
        hpathZero (mem_of_mem_stripSlash (mem_of_mem_components hmem hzero))
      have hq' : IsDir s.fs.bpb s.fs.disk q := hq.isDir hdots IsDir.root
      have hclean' := hcreated.clean hb hclean hq' (by decide)
      have hrewritten := @rewritten_of_writes q k L (echoText arg)
        { s.fs with disk := disk, heap := heap } addr blk file₁ file₂ fs₁ fs₂ hb hmounted hp hclean'
        (hcreated.isDir_of_isDir hgeo hs hq') hfound.live (isDirectory_of_fileFlags hfile) hfresh
        hheld hwords hfirst hsecond
      by_cases hwalk : Walk s.fs.bpb s.fs.disk 0 init q
      · -- the name was not in the directory, so that the new entry is the one that was found
        have hno : ∀ i, ¬ Found s.fs.bpb s.fs.disk q (pathParentAndName path pathSize 128).2 i := by
          intro i hi
          refine habsent q i ?_
          rw [hnames]
          exact denotes_append.2 ⟨hwalk, hi⟩
        obtain ⟨-, rfl⟩ : q = q ∧ k = j :=
          (hcreated.found_cases hgeo hs hzero hq' hq' hfound).resolve_right (hno k)
        have hwalk' := hcreated.walk_keep hgeo hs hzero hdots hq' (fun hmem =>
          hpathZero (mem_of_mem_base hmem)) hfound.named hno (fun name hmem => hzeros name (by
            rw [hnames]
            exact List.mem_append_left _ hmem)) IsDir.root hwalk
        have hdenotes : Denotes s.fs.bpb disk 0 (components (stripSlash path)) q k := by
          rw [hnames]
          exact denotes_append.2 ⟨hwalk', hfound⟩
        obtain ⟨out, s'', hcat, hout⟩ := @cat_of_rewritten q k L mounts
          { s with fs := vfsClose file₂ fs₂ } (echoFile arg) path
          { s.fs with disk := disk, heap := heap } fuel' (echoText arg) hb hroot hp hclean' hdenotes
          hrewritten hfuel hname hpath hlog' hbuffer
        refine ⟨out, s'', hcat, hout.trans (iff_of_true ?_ (Or.inr ⟨habsent, q, hq, ?_⟩))⟩
        · dsimp only
          rw [hcreated.slotAddr_eq hgeo hs hq', hcreated.fileSize_eq]
          exact Nat.zero_le _
        · rwa [hinit]
      · have habsent' : ∀ q k, ¬ Denotes s.fs.bpb (vfsClose file₂ fs₂).disk 0
            (components (stripSlash path)) q k := by
          intro q' k' hdenotes
          have hdenotes' := (hrewritten.tree.denotes_iff hgeo hclean'.sound hclean'.dots IsDir.root).1
            hdenotes
          rw [hnames] at hdenotes'
          obtain ⟨hinit', hfound'⟩ := denotes_append.1 hdenotes'
          have hold := hcreated.walk_of_walk hgeo hs hzero hdots hq' (by decide) IsDir.root hinit'
          rcases hcreated.found_cases hgeo hs hzero hq' (hold.isDir hdots IsDir.root) hfound' with
            ⟨rfl, -⟩ | hfound'
          · exact hwalk hold
          · refine habsent q' k' ?_
            rw [hnames]
            exact denotes_append.2 ⟨hold, hfound'⟩
        obtain ⟨s'', hcat⟩ := @cmdCat_of_absent s.fs.bpb (vfsClose file₂ fs₂).disk s.fs.heapStart fuel'
          L mounts { s with fs := vfsClose file₂ fs₂ } (echoFile arg) path hb hroot hp
          (hrewritten.tidy.dirsEnd hb) hrewritten.ready hfuel hname hpath (by simp [hnames]) habsent'
        refine ⟨_, s'', hcat, iff_of_false (message_ne _ _) ?_⟩
        rintro (⟨q', k', hdenotes, -⟩ | ⟨-, q', hparent, hinit'⟩)
        · exact habsent q' k' hdenotes
        · obtain rfl := hq.unique hparent
          rw [hinit] at hinit'
          exact hwalk hinit'

/-! ## A file on a small volume -/

section Small

variable {size : UInt8}

/-- The session after boot, on the volume with the file `A` of `size` bytes. -/
def fileSession (size : UInt8) : Session where
  currentPath := fun a => if a = 0 then 0x2F else 0
  fs := mountedFs (smallVolume 2 size 0xFF)

theorem bpb_fileSession (size : UInt8) : (fileSession size).fs.bpb = smallBpb :=
  mountedFs_smallVolume 2 size 0xFF

theorem layout_fileSession : Layout (fileSession size).fs.bpb :=
  (bpb_fileSession size).symm ▸ layout_small

theorem wellFormed_fileSession : WellFormed (fileSession size).fs.bpb
    (dataTop (fileSession size).fs.bpb) (fileSession size).fs.disk := by
  rw [bpb_fileSession]
  exact wellFormed_small layout_small.dataGeometry (by decide) (Or.inr rfl)

theorem longEnough_fileSession : LongEnough (fileSession size).fs.bpb
    (dataTop (fileSession size).fs.bpb) (fileSession size).fs.disk := by
  rw [bpb_fileSession]
  exact longEnough_small layout_small.dataGeometry (by decide) (Or.inl rfl)

theorem zeroTail_fileSession : ZeroTail (fileSession size).fs.bpb (fileSession size).fs.disk := by
  rw [bpb_fileSession]
  exact zeroTail_small 2 size 0xFF

/-- There are no dot entries. -/
theorem dotDirs_fileSession : DotDirs (fileSession size).fs.bpb (fileSession size).fs.disk := by
  rw [bpb_fileSession]
  intro q k hq hlive hdot
  obtain rfl := isDir_small hq
  obtain rfl := liveSlot_small hlive
  rw [slotAddr_small (by omega)] at hdot
  have hfile := isDot_of_file (isDirectory_small 2 size 0xFF)
  exact Bool.noConfusion (hdot.symm.trans hfile)

theorem denotes_fileSession : Denotes (fileSession size).fs.bpb (fileSession size).fs.disk 0
    (components (stripSlash (ascii "/A"))) 0 0 := by
  have hnames : components (stripSlash (ascii "/A")) = [] ++ [[0x41]] := by decide
  rw [bpb_fileSession, hnames]
  refine denotes_append.2 ⟨.nil 0, liveSlot_small_zero 2 size 0xFF, ?_, fun j hj => by omega⟩
  have hsame : ∀ x < 26, entryAt (smallVolume 2 size 0xFF) 1024 x =
      entryAt (smallVolume 2 0 0xFF) 1024 x := fun x hx => by
    have hother : 1024 + x ≠ 1052 := by omega
    simp [entryAt, smallVolume, hother]
  rw [slotAddr_small (by omega)]
  exact (nameMatch_congr hsame).trans (by decide +kernel)

/-- A call of `cmd_echo` whose writes return all that they are given. -/
theorem echoDone_of_returns (h : ((echoOpen fuel mounts (pathResolve s.path (echoFile arg) pathSize)
      (echoFile arg) s.fs).bind fun x => x.1.elim (fun _ => none) fun file =>
        (vfsWrite file 0 (echoText arg).length (put (fun _ => 0) 0 (echoText arg)) x.2).bind fun y =>
          (vfsWrite y.2.1 (echoText arg).length 1 (fun _ => 0x0A) y.2.2).map fun z => (y.1, z.1)) =
      some (((echoText arg).length : ℤ), 1)) : EchoDone fuel mounts arg s := by
  obtain ⟨⟨x, fs⟩, hopen, h⟩ := Option.bind_eq_some_iff.1 h
  cases x with
  | inl message => cases h
  | inr file =>
      obtain ⟨⟨ret, file₁, fs₁⟩, hfirst, h⟩ := Option.bind_eq_some_iff.1 h
      obtain ⟨⟨ret', file₂, fs₂⟩, hsecond, h⟩ := Option.map_eq_some_iff.1 h
      obtain ⟨rfl, rfl⟩ := Prod.mk.inj h
      exact ⟨file, fs, file₁, fs₁, file₂, fs₂, hopen, hfirst, hsecond⟩

/-- A file of three bytes keeps its last one. -/
theorem not_cat_of_echo : WellFormed (fileSession 3).fs.bpb (dataTop (fileSession 3).fs.bpb)
      (fileSession 3).fs.disk ∧
    LongEnough (fileSession 3).fs.bpb (dataTop (fileSession 3).fs.bpb) (fileSession 3).fs.disk ∧
    EchoDone 2 bootMounts (ascii "X > A") (fileSession 3) ∧
    ∃ s' out s'', cmdEcho 2 bootMounts (ascii "X > A") (fileSession 3) = some ([], s') ∧
      cmdCat 3 bootMounts (ascii "A") s' = some (out, s'') ∧
      out = ascii "X\n" ++ [0] ++ ascii "\n" ∧ out ≠ ascii "X" ++ ascii "\n" ++ ascii "\n" := by
  refine ⟨wellFormed_fileSession, longEnough_fileSession,
    echoDone_of_returns (by decide +kernel), ?_⟩
  have heval : ((cmdEcho 2 bootMounts (ascii "X > A") (fileSession 3)).bind fun r =>
      (cmdCat 3 bootMounts (ascii "A") r.2).map fun x => (r.1, x.1)) =
      some ([], ascii "X\n" ++ [0] ++ ascii "\n") := by decide +kernel
  obtain ⟨⟨out, s'⟩, hecho, hcat⟩ := Option.bind_eq_some_iff.1 heval
  obtain ⟨⟨out', s''⟩, hcat, hout⟩ := Option.map_eq_some_iff.1 hcat
  obtain ⟨rfl, rfl⟩ := Prod.mk.inj hout
  exact ⟨s', _, s'', hecho, hcat, rfl, by decide⟩

/-- A file of one byte is covered. -/
theorem cat_of_echo_fileSession : ∃ s' s'',
    cmdEcho 2 bootMounts (ascii "X > A") (fileSession 1) = some ([], s') ∧
      cmdCat (2 ^ 28 + 1) bootMounts (ascii "A") s' =
        some (ascii "X" ++ ascii "\n" ++ ascii "\n", s'') := by
  have heval : ((cmdEcho 2 bootMounts (ascii "X > A") (fileSession 1)).bind fun r =>
      (vfsOpen (2 ^ 28 + 1) bootMounts (ascii "/A") r.2.fs).bind fun x =>
        (kmalloc x.2.heapStart x.2.bpb.clusterBytes x.2.heap).map fun y =>
          (r.1, decide (.refuse ∉ vfsOpenLog (2 ^ 28 + 1) bootMounts (ascii "/A") r.2.fs),
            decide (y.1 = 0))) = some ([], true, false) := by decide +kernel
  obtain ⟨⟨out, s'⟩, hecho, h⟩ := Option.bind_eq_some_iff.1 heval
  obtain ⟨⟨r, fs₁⟩, hopen, h⟩ := Option.bind_eq_some_iff.1 h
  obtain ⟨⟨p, heap⟩, hmalloc, h⟩ := Option.map_eq_some_iff.1 h
  obtain ⟨rfl, h⟩ := Prod.mk.inj h
  obtain ⟨hlog, hp⟩ := Prod.mk.inj h
  obtain ⟨out, s'', hcat, hout⟩ := @cat_of_echo 2 bootMounts (fileSession 1) s' (ascii "X > A")
    (ascii "/A") ∅ layout_fileSession rfl rfl placed_dirSession (holding_kheapInit placed_dirSession _)
    wellFormed_fileSession longEnough_fileSession zeroTail_fileSession dotDirs_fileSession (by decide +kernel)
    (by decide +kernel) (by decide) (by decide) (by decide +kernel) (by decide +kernel) hecho
    (echoDone_of_returns (by decide +kernel)) (2 ^ 28 + 1) (Nat.lt_succ_self _)
    (of_decide_eq_true hlog) fun node fs hopen' => by
      rw [hopen] at hopen'
      obtain ⟨-, rfl⟩ := Prod.mk.inj (Option.some.inj hopen')
      rw [hmalloc]
      intro heq
      exact of_decide_eq_false hp (Prod.mk.inj (Option.some.inj heq)).1
  have hcovers : Covers (fileSession 1).fs.bpb (fileSession 1).fs.disk (ascii "/A")
      ((echoText (ascii "X > A")).length + 1) :=
    Or.inl ⟨0, 0, denotes_fileSession, by decide +kernel⟩
  have hname : echoFile (ascii "X > A") = ascii "A" := by decide +kernel
  have hwords : echoText (ascii "X > A") = ascii "X" := by decide +kernel
  rw [hname, hout.2 hcovers, hwords] at hcat
  exact ⟨s', s'', hecho, hcat⟩

end Small

end Shell

end Yotos
