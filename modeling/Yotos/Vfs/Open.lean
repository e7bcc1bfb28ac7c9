import Yotos.Fat16.Ends
import Yotos.Vfs.Path

/-!
# What `vfs_open` does with nodes

The loop of `vfs_open` makes a node for every component and releases the one before it.
`openLog` is the list of what it does, in the order of the source, and `Opened` is what
has come of the call: which entry the components denote, and which blocks of the heap
are in use.
-/

namespace Yotos

namespace Vfs

open Bytes Fat16 Kheap Library

/-- What `vfs_finddir` does with nodes. -/
def vfsFinddirLog (fuel : ℕ) (node : VfsNode) (name : List UInt8) (fs : Fs) : List (Event ℕ) :=
  .use node.addr ::
    if node.flags &&& vfsDir = 0 then []
    else
      match node.ops with
      | .file => []
      | .dir => fat16VfsFinddirLog fuel node name fs
      | .root => fat16VfsFinddirLog fuel node name fs

/-- What `vfs_close` does with nodes: a release is a call of `kfree`. -/
def vfsCloseLog (node : VfsNode) : List (Event ℕ) :=
  .use node.addr ::
    match node.ops with
    | .file => [.release node.addr]
    | .dir => [.release node.addr]
    | .root => []

/-- What the loop of `vfs_open` does with nodes. -/
def openLog (fuel : ℕ) (root : VfsNode) :
    List (List UInt8) → (current : VfsNode) → Fs → List (Event ℕ)
  | [], _, _ => []
  | component :: names, current, fs =>
      vfsFinddirLog fuel current component fs ++
        ((if current.addr ≠ root.addr then vfsCloseLog current else []) ++
          match vfsFinddir fuel current component fs with
          | some (some next, fs) =>
              openLog fuel root names next
                (if current.addr ≠ root.addr then vfsClose current fs else fs)
          | _ => [])

/-- What `vfs_open` does with nodes. -/
def vfsOpenLog (fuel : ℕ) (mounts : List Mountpoint) (path : List UInt8) (fs : Fs) :
    List (Event ℕ) :=
  match vfsGetRoot mounts with
  | none => []
  | some root =>
      let name := stripSlash path
      if name = [] then [] else openLog fuel root (components name) root fs

/-- The nodes in use: the static root, at address 0, and the one that is given. -/
def liveNodes : Option VfsNode → Set ℕ
  | none => {0}
  | some node => {node.addr, 0}

/-- What has come of a call of `vfs_open` on a path with the components `names`, where
the blocks in `L` were in use before. -/
inductive Opened (fs : Fs) (names : List (List UInt8)) (L : Set (ℕ × Block))
    (log : List (Event ℕ)) : Option VfsNode → Fs → Prop
  | null {heap : Bytes} (hnames : names ≠ []) (hheap : Holding heap fs.heapStart L)
      (habsent : .refuse ∈ log ∨ ∀ q k, ¬ Denotes fs.bpb fs.disk 0 names q k) :
      Opened fs names L log none { fs with heap := heap }
  | root (hnames : names = []) (hlog : log = []) : Opened fs names L log (some fat16RootNode) fs
  | node {q k addr : ℕ} {heap : Bytes} {blk : Block}
      (hdenotes : Denotes fs.bpb fs.disk 0 names q k) (hlog : .refuse ∉ log) (hne : addr ≠ 0)
      (hsize : blk.size ≤ vfsNodeSize + 16) (hfresh : ∀ c, (addr, c) ∉ L)
      (hheap : Holding heap fs.heapStart (insert (addr, blk) L)) :
      Opened fs names L log (some (slotNode fs.bpb fs.disk q k addr)) { fs with heap := heap }

variable {fuel : ℕ} {node current : VfsNode} {name : List UInt8}
  {names : List (List UInt8)} {L L' : Set (ℕ × Block)} {fs fs' : Fs} {r : Option VfsNode}
  {log : List (Event ℕ)}

/-! ## One turn -/

/-- The node is the root, or a heap node that has been added to the blocks in `L`. -/
inductive NodeHeld (L : Set (ℕ × Block)) : VfsNode → Set (ℕ × Block) → Prop
  | root : NodeHeld L fat16RootNode L
  | slot {e : Bytes} {lba i addr : ℕ} {blk : Block} (hne : addr ≠ 0)
      (hsize : blk.size ≤ vfsNodeSize + 16) (hfresh : ∀ c, (addr, c) ∉ L) :
      NodeHeld L (nodeOf e lba i addr) (insert (addr, blk) L)

theorem flags_nodeOf (e : Bytes) (lba i addr : ℕ) :
    (nodeOf e lba i addr).flags &&& vfsDir = 0 ↔ isDirectory e = false := by
  cases h : isDirectory e
  · simp only [nodeOf, h, iff_true]
    decide
  · simp only [nodeOf, h, Bool.true_eq_false, iff_false]
    decide

/-- Only directories are looked up in. -/
theorem NodeHeld.vfsFinddir_eq (h : NodeHeld L node L') (name : List UInt8) (fs : Fs) :
    (node.flags &&& vfsDir = 0 ∧ vfsFinddir fuel node name fs = some (none, fs) ∧
        vfsFinddirLog fuel node name fs = [.use node.addr]) ∨
      (node.flags &&& vfsDir ≠ 0 ∧
        vfsFinddir fuel node name fs = fat16VfsFinddir fuel node name fs ∧
        vfsFinddirLog fuel node name fs =
          .use node.addr :: fat16VfsFinddirLog fuel node name fs) := by
  cases h with
  | root => exact Or.inr ⟨by decide, rfl, rfl⟩
  | @slot e lba i addr blk =>
      by_cases hdir : (nodeOf e lba i addr).flags &&& vfsDir = 0
      · exact Or.inl ⟨hdir, by rw [vfsFinddir, if_pos hdir], by rw [vfsFinddirLog, if_pos hdir]⟩
      · have hops : (nodeOf e lba i addr).ops = .dir := by
          rw [flags_nodeOf, Bool.not_eq_false] at hdir
          simp [nodeOf, hdir]
        refine Or.inr ⟨hdir, ?_, ?_⟩
        · rw [vfsFinddir, if_neg hdir, hops]
        · rw [vfsFinddirLog, if_neg hdir, hops]

/-- What the loop does with a node that it has looked up in. -/
def closeCurrent (current : VfsNode) (fs : Fs) : Fs :=
  if current.addr ≠ fat16RootNode.addr then vfsClose current fs else fs

def closeCurrentLog (current : VfsNode) : List (Event ℕ) :=
  if current.addr ≠ fat16RootNode.addr then vfsCloseLog current else []

theorem NodeHeld.closeLog (h : NodeHeld L node L') {X : Set ℕ} (hX : node.addr ∉ X) :
    Legal (X ∪ liveNodes (some node)) (closeCurrentLog node) (X ∪ {0}) ∧
      .release 0 ∉ closeCurrentLog node ∧ .refuse ∉ closeCurrentLog node := by
  cases h with
  | root =>
      have hlog : closeCurrentLog fat16RootNode = [] := rfl
      have hlive : liveNodes (some fat16RootNode) = {0} := Set.pair_eq_singleton 0
      rw [hlog, hlive]
      exact ⟨.nil _, by simp, by simp⟩
  | @slot e lba i addr blk hne _ hfresh =>
      have hlog : closeCurrentLog (nodeOf e lba i addr) = [.use addr, .release addr] := by
        have hcond : (nodeOf e lba i addr).addr ≠ fat16RootNode.addr := hne
        rw [closeCurrentLog, if_pos hcond, vfsCloseLog]
        cases hdir : isDirectory e <;> simp [nodeOf, hdir]
      have hmem : addr ∈ X ∪ liveNodes (some (nodeOf e lba i addr)) := by simp [liveNodes, nodeOf]
      have hrest : (X ∪ liveNodes (some (nodeOf e lba i addr))) \ {addr} = X ∪ {0} := by
        ext x
        simp only [liveNodes, nodeOf, Set.mem_sdiff, Set.mem_union, Set.mem_insert_iff,
          Set.mem_singleton_iff]
        constructor
        · tauto
        · rintro (hx | rfl)
          · refine ⟨Or.inl hx, ?_⟩
            rintro rfl
            exact hX hx
          · exact ⟨Or.inr (Or.inr rfl), hne.symm⟩
      rw [hlog]
      refine ⟨.use hmem (.release hmem ?_), by simp [hne.symm], by simp⟩
      rw [hrest]
      exact .nil _

/-- A node that is not the root is given back, whatever else is in use. -/
theorem NodeHeld.close {S : Set (ℕ × Block)} (hp : Placed fs.heapStart)
    (h : NodeHeld L node L') (hS : ∀ c, (node.addr, c) ∉ S)
    (hheap : Holding fs.heap fs.heapStart (S ∪ L')) :
    ∃ heap, closeCurrent node fs = { fs with heap := heap } ∧
      Holding heap fs.heapStart (S ∪ L) := by
  cases h with
  | root => exact ⟨fs.heap, rfl, hheap⟩
  | @slot e lba i addr blk hne _ hfresh =>
      have hclose : closeCurrent (nodeOf e lba i addr) fs =
          { fs with heap := kfree addr fs.heap } := by
        have hcond : (nodeOf e lba i addr).addr ≠ fat16RootNode.addr := hne
        rw [closeCurrent, if_pos hcond, vfsClose]
        cases hdir : isDirectory e <;> simp [nodeOf, hdir, fat16VfsClose]
      rw [Set.union_insert] at hheap
      refine ⟨_, hclose, hheap.kfree hp fun c hc => ?_⟩
      rcases hc with hc | hc
      · exact hS c hc
      · exact hfresh c hc

theorem NodeHeld.subset (h : NodeHeld L node L') : L ⊆ L' := by
  cases h with
  | root => exact subset_rfl
  | slot => exact Set.subset_insert _ _

/-- A new node is at an address of its own. -/
theorem NodeHeld.addr_ne {addr : ℕ} (h : NodeHeld L node L') (hne : addr ≠ 0)
    (hfresh : ∀ c, (addr, c) ∉ L') : node.addr ≠ addr := by
  cases h with
  | root => exact hne.symm
  | slot =>
      rintro rfl
      exact hfresh _ (Set.mem_insert _ _)

/-- One turn of the loop: the next node, if there is one, the file system after the node
looked up in is closed, and what was done. -/
inductive TurnOutcome (fs : Fs) (current : VfsNode) (name : List UInt8) (L : Set (ℕ × Block))
    (log : List (Event ℕ)) : Option VfsNode → Fs → Prop
  | stop {heap : Bytes} (hheap : Holding heap fs.heapStart L)
      (hlegal : Legal (liveNodes (some current)) log {0})
      (habsent : .refuse ∈ log ∨
        (current.flags &&& vfsDir ≠ 0 → ∀ k, ¬ Found fs.bpb fs.disk current.inode name k)) :
      TurnOutcome fs current name L log none { fs with heap := heap }
  | next {k addr : ℕ} {heap : Bytes} {blk : Block} (hdir : current.flags &&& vfsDir ≠ 0)
      (hfound : Found fs.bpb fs.disk current.inode name k) (hne : addr ≠ 0)
      (hsize : blk.size ≤ vfsNodeSize + 16) (hfresh : ∀ c, (addr, c) ∉ L)
      (hheap : Holding heap fs.heapStart (insert (addr, blk) L))
      (hlegal : Legal (liveNodes (some current)) log {addr, 0}) (hlog : .refuse ∉ log) :
      TurnOutcome fs current name L log
        (some (slotNode fs.bpb fs.disk current.inode k addr)) { fs with heap := heap }

theorem turn_outcome (hb : Layout fs.bpb) (hmounted : fs.mounted = true)
    (hp : Placed fs.heapStart) (hheld : NodeHeld L current L')
    (hheap : Holding fs.heap fs.heapStart L')
    (hends : current.flags &&& vfsDir ≠ 0 → ∃ n, dirSectorLba fs.bpb fs.disk current.inode n = 0)
    (h : vfsFinddir fuel current name fs = some (r, fs')) :
    TurnOutcome fs current name L
        (vfsFinddirLog fuel current name fs ++ closeCurrentLog current) r (closeCurrent current fs') ∧
      .release 0 ∉ vfsFinddirLog fuel current name fs ++ closeCurrentLog current := by
  have huse : current.addr ∈ liveNodes (some current) := by simp [liveNodes]
  obtain ⟨hlegal, hrelease, hrefuse⟩ := hheld.closeLog (Set.notMem_empty current.addr)
  obtain ⟨heap, hclose, hheap'⟩ := hheld.close hp (S := ∅) (by simp) (by simpa using hheap)
  rw [Set.empty_union] at hlegal hheap'
  rw [Set.empty_union] at hlegal
  rcases hheld.vfsFinddir_eq name fs with ⟨hfile, hrun, hlog⟩ | ⟨hdir, hrun, hlog⟩
  · rw [hrun] at h
    obtain ⟨rfl, rfl⟩ := Prod.mk.inj (Option.some.inj h)
    rw [hclose, hlog]
    refine ⟨.stop hheap' (.use huse hlegal) (Or.inr fun hdir => absurd hfile hdir), ?_⟩
    simpa using hrelease
  rw [hrun] at h
  have houtcome := fat16VfsFinddir_outcome hb hmounted hp hheap (hends hdir) h
  rw [hlog]
  generalize fat16VfsFinddirLog fuel current name fs = log at houtcome
  cases houtcome with
  | absent habsent =>
      rw [hclose]
      refine ⟨.stop hheap' (.use huse hlegal) (Or.inr fun _ => habsent), ?_⟩
      simpa using hrelease
  | refused hfound _ =>
      rw [hclose]
      refine ⟨.stop hheap' (.use huse (.refuse hlegal)) (Or.inl (by simp)), ?_⟩
      simpa using hrelease
  | @found k addr heap blk hfound hne hsize hfresh hheap =>
      have hother := hheld.addr_ne hne hfresh
      obtain ⟨hlegal, -⟩ := hheld.closeLog (X := {addr}) (by simpa using hother)
      obtain ⟨heap', hclose, hheap'⟩ := @NodeHeld.close current L L' { fs with heap := heap }
        {(addr, blk)} hp hheld (by simp [hother]) (by simpa using hheap)
      rw [Set.singleton_union] at hheap' hlegal
      rw [hclose]
      refine ⟨.next hdir hfound hne hsize (fun c hc => hfresh c (hheld.subset hc)) hheap'
        (.use huse (.make ?_ hlegal)) (by simpa using hrefuse), by simpa using hrelease⟩
      simp [liveNodes, hother.symm, hne]

/-! ## The loop -/

/-- What has come of the loop from `current` on. -/
inductive LoopOutcome (fs : Fs) (current : VfsNode) (names : List (List UInt8))
    (L : Set (ℕ × Block)) (log : List (Event ℕ)) : Option VfsNode → Fs → Prop
  | stop {heap : Bytes} (hnames : names ≠ []) (hheap : Holding heap fs.heapStart L)
      (hlegal : Legal (liveNodes (some current)) log {0})
      (habsent : .refuse ∈ log ∨ (current.flags &&& vfsDir ≠ 0 →
        ∀ q k, ¬ Denotes fs.bpb fs.disk current.inode names q k)) :
      LoopOutcome fs current names L log none { fs with heap := heap }
  | done (hnames : names = []) (hlog : log = []) :
      LoopOutcome fs current names L log (some current) fs
  | node {q k addr : ℕ} {heap : Bytes} {blk : Block} (hdir : current.flags &&& vfsDir ≠ 0)
      (hdenotes : Denotes fs.bpb fs.disk current.inode names q k) (hne : addr ≠ 0)
      (hsize : blk.size ≤ vfsNodeSize + 16) (hfresh : ∀ c, (addr, c) ∉ L)
      (hheap : Holding heap fs.heapStart (insert (addr, blk) L))
      (hlegal : Legal (liveNodes (some current)) log {addr, 0}) (hlog : .refuse ∉ log) :
      LoopOutcome fs current names L log (some (slotNode fs.bpb fs.disk q k addr))
        { fs with heap := heap }

/-- The directories that names lead to from a directory node end. -/
def NodeEnds (b : Bpb) (d : Disk) (node : VfsNode) : Prop :=
  node.flags &&& vfsDir ≠ 0 → ∀ names q, Walk b d node.inode names q →
    ∃ n, dirSectorLba b d q n = 0

theorem isDirectory_of_flags {b : Bpb} {d : Disk} {p k addr : ℕ}
    (h : (slotNode b d p k addr).flags &&& vfsDir ≠ 0) :
    isDirectory (entryAt d (slotAddr b d p k)) = true := by
  rw [slotNode, Ne, flags_nodeOf, Bool.not_eq_false] at h
  exact h

theorem NodeEnds.next {b : Bpb} {d : Disk} {k addr : ℕ} (h : NodeEnds b d current)
    (hdir : current.flags &&& vfsDir ≠ 0) (hfound : Found b d current.inode name k) :
    NodeEnds b d (slotNode b d current.inode k addr) := fun hdir' names q hwalk =>
  h hdir (name :: names) q (.cons hfound (isDirectory_of_flags hdir') hwalk)

/-- The outcome of the loop after one more turn. -/
theorem TurnOutcome.cons {next : VfsNode} {log log' : List (Event ℕ)} {fs₁ : Fs}
    (hturn : TurnOutcome fs current name L log (some next) fs₁)
    (hloop : LoopOutcome fs₁ next names L log' r fs') :
    LoopOutcome fs current (name :: names) L (log ++ log') r fs' := by
  cases hturn with
  | @next k addr heap blk hdir hfound hne hsize hfresh hheap hlegal hlog =>
      cases hloop with
      | done hnames hlog' =>
          subst hnames hlog'
          rw [List.append_nil]
          exact .node hdir (denotes_cons.2 (Or.inl ⟨rfl, rfl, hfound⟩)) hne hsize hfresh hheap hlegal hlog
      | stop hnames hheap' hlegal' habsent =>
          refine .stop (List.cons_ne_nil _ _) hheap' (hlegal.append hlegal') ?_
          rcases habsent with hrefuse | habsent
          · exact Or.inl (List.mem_append_right _ hrefuse)
          · refine Or.inr fun _ q j hdenotes => ?_
            rcases denotes_cons.1 hdenotes with ⟨rfl, -⟩ | ⟨i, hi, hisDir, hrest⟩
            · exact hnames rfl
            · obtain rfl := hi.unique hfound
              refine habsent ?_ q j hrest
              rw [slotNode, Ne, flags_nodeOf, hisDir]
              exact Bool.noConfusion
      | node hdir' hdenotes hne' hsize' hfresh' hheap' hlegal' hlog' =>
          refine .node hdir (denotes_cons.2 (Or.inr ⟨k, hfound, isDirectory_of_flags hdir', ?_⟩))
            hne' hsize' hfresh' hheap' (hlegal.append hlegal') ?_
          · exact hdenotes
          · rw [List.mem_append]
            exact fun hmem => hmem.elim hlog hlog'

theorem openLoop_cons {s : Option VfsNode} {fs₁ : Fs}
    (h : vfsFinddir fuel current name fs = some (s, fs₁)) :
    openLoop fuel fat16RootNode (name :: names) current fs =
      s.elim (some (none, closeCurrent current fs₁)) fun next =>
        openLoop fuel fat16RootNode names next (closeCurrent current fs₁) := by
  rw [openLoop, h]
  cases s <;> rfl

theorem openLog_cons {s : Option VfsNode} {fs₁ : Fs}
    (h : vfsFinddir fuel current name fs = some (s, fs₁)) :
    openLog fuel fat16RootNode (name :: names) current fs =
      vfsFinddirLog fuel current name fs ++ closeCurrentLog current ++
        s.elim [] fun next => openLog fuel fat16RootNode names next (closeCurrent current fs₁) := by
  rw [openLog, h, List.append_assoc]
  cases s <;> rfl

theorem openLoop_outcome (hb : Layout fs.bpb) (hmounted : fs.mounted = true)
    (hp : Placed fs.heapStart) (hheld : NodeHeld L current L')
    (hheap : Holding fs.heap fs.heapStart L') (hends : NodeEnds fs.bpb fs.disk current)
    (h : openLoop fuel fat16RootNode names current fs = some (r, fs')) :
    LoopOutcome fs current names L (openLog fuel fat16RootNode names current fs) r fs' ∧
      .release 0 ∉ openLog fuel fat16RootNode names current fs := by
  induction names generalizing current L' fs with
  | nil =>
      obtain ⟨rfl, rfl⟩ := Prod.mk.inj (Option.some.inj h)
      exact ⟨.done rfl rfl, List.not_mem_nil⟩
  | cons name names ih =>
      obtain ⟨⟨s, fs₁⟩, hfind, -⟩ := Option.bind_eq_some_iff.1 h
      obtain ⟨hturn, hrelease⟩ := turn_outcome hb hmounted hp hheld hheap
        (fun hdir => hends hdir [] _ (.nil _)) hfind
      rw [openLoop_cons hfind] at h
      rw [openLog_cons hfind]
      generalize closeCurrent current fs₁ = fs₂ at h hturn ⊢
      cases s with
      | none =>
          obtain ⟨rfl, rfl⟩ := Prod.mk.inj (Option.some.inj h)
          rw [Option.elim_none, List.append_nil]
          refine ⟨?_, hrelease⟩
          cases hturn with
          | stop hheap' hlegal habsent =>
              refine .stop (List.cons_ne_nil _ _) hheap' hlegal
                (habsent.imp_right fun hno hdir q k hdenotes => ?_)
              rcases denotes_cons.1 hdenotes with ⟨-, -, hfound⟩ | ⟨j, hfound, -⟩
              · exact hno hdir k hfound
              · exact hno hdir j hfound
      | some next =>
          rw [Option.elim_some] at h ⊢
          cases hturn with
          | @next k addr heap blk hdir hfound hne hsize hfresh hheap' hlegal hlog =>
              obtain ⟨hloop, hrelease'⟩ := @ih _ _ { fs with heap := heap } hb hmounted hp
                (.slot hne hsize hfresh) hheap' (hends.next hdir hfound) h
              refine ⟨TurnOutcome.cons (.next hdir hfound hne hsize hfresh hheap' hlegal hlog) hloop, ?_⟩
              rw [List.mem_append]
              exact fun hmem => hmem.elim hrelease hrelease'

/-- The loop returns. -/
theorem openLoop_isSome (hb : Layout fs.bpb) (hmounted : fs.mounted = true)
    (hp : Placed fs.heapStart) (hheld : NodeHeld L current L')
    (hheap : Holding fs.heap fs.heapStart L') (hends : NodeEnds fs.bpb fs.disk current)
    (hfuel : 2 ^ 28 < fuel) (names : List (List UInt8)) :
    ∃ x, openLoop fuel fat16RootNode names current fs = some x := by
  induction names generalizing current L' fs with
  | nil => exact ⟨_, rfl⟩
  | cons name names ih =>
      obtain ⟨⟨s, fs₁⟩, hfind⟩ : ∃ x, vfsFinddir fuel current name fs = some x := by
        rcases hheld.vfsFinddir_eq name fs with ⟨-, hrun, -⟩ | ⟨hdir, hrun, -⟩
        · exact ⟨_, hrun⟩
        · rw [hrun]
          exact fat16VfsFinddir_isSome hb.spc_pos hp hheap (hends hdir [] _ (.nil _)) hfuel name
      obtain ⟨hturn, -⟩ := turn_outcome hb hmounted hp hheld hheap
        (fun hdir => hends hdir [] _ (.nil _)) hfind
      rw [openLoop_cons hfind]
      generalize closeCurrent current fs₁ = fs₂ at hturn ⊢
      cases s with
      | none => exact ⟨_, rfl⟩
      | some next =>
          rw [Option.elim_some]
          cases hturn with
          | next hdir hfound hne hsize hfresh hheap' =>
              exact @ih _ _ { fs with heap := _ } hb hmounted hp (.slot hne hsize hfresh) hheap'
                (hends.next hdir hfound)

/-! ## The call -/

theorem liveNodes_root : liveNodes (some fat16RootNode) = {0} := Set.pair_eq_singleton 0

/-- `vfs_open` on a volume whose directories end: what it returns, and what it did. -/
theorem vfsOpen_outcome {mounts : List Mountpoint} {path : List UInt8} (hb : Layout fs.bpb)
    (hmounted : fs.mounted = true) (hroot : vfsGetRoot mounts = some fat16RootNode)
    (hp : Placed fs.heapStart) (hheap : Holding fs.heap fs.heapStart L)
    (hends : DirsEnd fs.bpb fs.disk) (h : vfsOpen fuel mounts path fs = some (r, fs')) :
    Opened fs (components (stripSlash path)) L (vfsOpenLog fuel mounts path fs) r fs' ∧
      Legal {0} (vfsOpenLog fuel mounts path fs) (liveNodes r) ∧
      .release 0 ∉ vfsOpenLog fuel mounts path fs := by
  rw [vfsOpen, hroot] at h
  rw [vfsOpenLog, hroot]
  dsimp only at h ⊢
  split_ifs at h ⊢ with hname
  · obtain ⟨rfl, rfl⟩ := Prod.mk.inj (Option.some.inj h)
    rw [liveNodes_root]
    exact ⟨.root (components_eq_nil.2 hname) rfl, .nil _, List.not_mem_nil⟩
  · have hnames : components (stripSlash path) ≠ [] := fun heq => hname (components_eq_nil.1 heq)
    obtain ⟨hloop, hrelease⟩ := openLoop_outcome hb hmounted hp .root hheap
      (fun _ => hends) h
    rw [← liveNodes_root]
    generalize openLog fuel fat16RootNode _ fat16RootNode fs = log at hloop hrelease ⊢
    cases hloop with
    | stop hnames' hheap' hlegal habsent =>
        refine ⟨.null hnames hheap' (habsent.imp_right fun hno => hno (by decide)), ?_, hrelease⟩
        exact hlegal
    | done hnil => exact absurd hnil hnames
    | node hdir hdenotes hne hsize hfresh hheap' hlegal hlog =>
        exact ⟨.node hdenotes hlog hne hsize hfresh hheap', hlegal, hrelease⟩

namespace Opened

/-- A directory that was opened is the one that the components lead to. -/
theorem walk (h : Opened fs names L log (some node) fs') (hdir : node.flags &&& vfsDir ≠ 0) :
    Walk fs.bpb fs.disk 0 names node.inode := by
  cases h with
  | root hnames =>
      subst hnames
      exact .nil _
  | node hdenotes =>
      obtain ⟨init, name, rfl, hwalk, hfound⟩ := hdenotes
      exact walk_append.2 ⟨_, hwalk, walk_singleton.2 ⟨_, hfound, isDirectory_of_flags hdir, rfl⟩⟩

/-- With room for the nodes, the directory that the components lead to is opened. -/
theorem of_walk {q : ℕ} (h : Opened fs names L log r fs') (hlog : .refuse ∉ log)
    (hwalk : Walk fs.bpb fs.disk 0 names q) :
    ∃ node, r = some node ∧ node.flags &&& vfsDir ≠ 0 ∧ node.inode = q := by
  rcases List.eq_nil_or_concat names with rfl | ⟨init, name, rfl⟩
  · cases hwalk
    cases h with
    | null hnames => exact absurd rfl hnames
    | root => exact ⟨_, rfl, by decide, rfl⟩
    | node hdenotes => exact absurd hdenotes not_denotes_nil
  rw [List.concat_eq_append] at h hwalk
  obtain ⟨p, hinit, hlast⟩ := walk_append.1 hwalk
  obtain ⟨k, hfound, hisDir, rfl⟩ := walk_singleton.1 hlast
  have hdenotes := denotes_append.2 ⟨hinit, hfound⟩
  cases h with
  | null _ _ habsent => exact absurd hdenotes (habsent.resolve_left hlog p k)
  | root hnames => simp at hnames
  | @node q j addr _ _ hdenotes' =>
      obtain ⟨rfl, rfl⟩ := hdenotes.unique hdenotes'
      refine ⟨_, rfl, ?_, rfl⟩
      rw [slotNode, Ne, flags_nodeOf, hisDir]
      exact Bool.noConfusion

/-- Closing what was opened. -/
theorem close (hp : Placed fs.heapStart) (hheap : Holding fs.heap fs.heapStart L)
    (h : Opened fs names L log (some node) fs') :
    ∃ heap, vfsClose node fs' = { fs with heap := heap } ∧ Holding heap fs.heapStart L := by
  cases h with
  | root => exact ⟨_, rfl, hheap⟩
  | @node q k addr heap blk _ _ _ _ hfresh hheap' =>
      refine ⟨kfree addr heap, ?_, hheap'.kfree hp hfresh⟩
      rw [vfsClose]
      cases hdir : isDirectory (entryAt fs.disk (slotAddr fs.bpb fs.disk q k)) <;>
        simp [slotNode, nodeOf, hdir, fat16VfsClose]

end Opened

/-- Every call returns. -/
theorem vfsOpen_isSome {mounts : List Mountpoint} (hb : Layout fs.bpb)
    (hmounted : fs.mounted = true) (hroot : vfsGetRoot mounts = some fat16RootNode)
    (hp : Placed fs.heapStart) (hheap : Holding fs.heap fs.heapStart L)
    (hends : DirsEnd fs.bpb fs.disk) (hfuel : 2 ^ 28 < fuel) (path : List UInt8) :
    ∃ x, vfsOpen fuel mounts path fs = some x := by
  rw [vfsOpen, hroot]
  dsimp only
  split_ifs
  · exact ⟨_, rfl⟩
  · exact openLoop_isSome hb hmounted hp .root hheap (fun _ => hends) hfuel _

/-! ## With nothing else in use -/

/-- The node is all that is in use. -/
theorem NodeHeld.alone (h : NodeHeld ∅ node L') :
    L'.Subsingleton ∧ ∀ q c, (q, c) ∈ L' → c.size ≤ vfsNodeSize + 16 := by
  cases h with
  | root => exact ⟨Set.subsingleton_empty, fun q c hmem => hmem.elim⟩
  | slot _ hsize _ =>
      rw [insert_empty_eq]
      refine ⟨Set.subsingleton_singleton, fun q c hmem => ?_⟩
      rwa [(Prod.mk.inj hmem).2]

/-- There is room for the next node. -/
theorem NodeHeld.vfsFinddir_not_refused (hb : Layout fs.bpb) (hmounted : fs.mounted = true)
    (hp : Placed fs.heapStart) (hheld : NodeHeld ∅ current L')
    (hheap : Holding fs.heap fs.heapStart L')
    (hends : current.flags &&& vfsDir ≠ 0 → ∃ n, dirSectorLba fs.bpb fs.disk current.inode n = 0)
    (h : vfsFinddir fuel current name fs = some (r, fs')) :
    .refuse ∉ vfsFinddirLog fuel current name fs := by
  rcases hheld.vfsFinddir_eq name fs with ⟨-, -, hlog⟩ | ⟨hdir, hrun, hlog⟩
  · rw [hlog]
    simp
  · rw [hrun] at h
    have houtcome := fat16VfsFinddir_outcome hb hmounted hp hheap (hends hdir) h
    rw [hlog]
    generalize fat16VfsFinddirLog fuel current name fs = log at houtcome
    cases houtcome with
    | absent => simp
    | found => simp
    | refused _ hnull =>
        obtain ⟨hone, hsize⟩ := hheld.alone
        exact absurd hnull (hheap.kmalloc_ne_null hp hone hsize (by decide))

theorem openLog_not_refused (hb : Layout fs.bpb) (hmounted : fs.mounted = true)
    (hp : Placed fs.heapStart) (hheld : NodeHeld ∅ current L')
    (hheap : Holding fs.heap fs.heapStart L') (hends : NodeEnds fs.bpb fs.disk current)
    (h : openLoop fuel fat16RootNode names current fs = some (r, fs')) :
    .refuse ∉ openLog fuel fat16RootNode names current fs := by
  induction names generalizing current L' fs with
  | nil => simp [openLog]
  | cons name names ih =>
      obtain ⟨⟨s, fs₁⟩, hfind, -⟩ := Option.bind_eq_some_iff.1 h
      have hends' := fun hdir => hends hdir [] _ (.nil _)
      have hfirst := hheld.vfsFinddir_not_refused hb hmounted hp hheap hends' hfind
      have hclose := (hheld.closeLog (Set.notMem_empty current.addr)).2.2
      obtain ⟨hturn, -⟩ := turn_outcome hb hmounted hp hheld hheap hends' hfind
      rw [openLoop_cons hfind] at h
      rw [openLog_cons hfind, List.mem_append, List.mem_append, not_or, not_or]
      refine ⟨⟨hfirst, hclose⟩, ?_⟩
      generalize closeCurrent current fs₁ = fs₂ at h hturn ⊢
      cases s with
      | none => simp
      | some next =>
          rw [Option.elim_some] at h ⊢
          cases hturn with
          | next hdir hfound hne hsize hfresh hheap' =>
              exact @ih _ _ { fs with heap := _ } hb hmounted hp (.slot hne hsize hfresh) hheap'
                (hends.next hdir hfound) h

/-- When nothing else is in use, every request for a node is met. -/
theorem vfsOpenLog_not_refused {mounts : List Mountpoint} {path : List UInt8}
    (hb : Layout fs.bpb) (hmounted : fs.mounted = true)
    (hroot : vfsGetRoot mounts = some fat16RootNode) (hp : Placed fs.heapStart)
    (hheap : Holding fs.heap fs.heapStart ∅) (hends : DirsEnd fs.bpb fs.disk)
    (h : vfsOpen fuel mounts path fs = some (r, fs')) :
    .refuse ∉ vfsOpenLog fuel mounts path fs := by
  rw [vfsOpen, hroot] at h
  rw [vfsOpenLog, hroot]
  dsimp only at h ⊢
  split_ifs at h ⊢
  · simp
  · exact openLog_not_refused hb hmounted hp .root hheap (fun _ => hends) h

/-- For every path and every volume whose directories end, `vfs_open` returns, the heap
has one more node afterwards if it returns one from the heap, and nodes are used and
released only while they are live. -/
theorem vfsOpen_lifetime (fs : Fs) (mounts : List Mountpoint) (path : List UInt8)
    (L : Set (ℕ × Block)) (fuel : ℕ) (hb : Layout fs.bpb) (hmounted : fs.mounted = true)
    (hroot : vfsGetRoot mounts = some fat16RootNode) (hp : Placed fs.heapStart)
    (hheap : Holding fs.heap fs.heapStart L) (hends : DirsEnd fs.bpb fs.disk)
    (hfuel : 2 ^ 28 < fuel) :
    ∃ r fs', vfsOpen fuel mounts path fs = some (r, fs') ∧
      Opened fs (components (stripSlash path)) L (vfsOpenLog fuel mounts path fs) r fs' ∧
      Legal {0} (vfsOpenLog fuel mounts path fs) (liveNodes r) ∧
      .release 0 ∉ vfsOpenLog fuel mounts path fs ∧
      ∀ a before after, vfsOpenLog fuel mounts path fs = before ++ .release a :: after →
        .make a ∉ after → .use a ∉ after ∧ .release a ∉ after := by
  obtain ⟨⟨r, fs'⟩, hrun⟩ := vfsOpen_isSome hb hmounted hroot hp hheap hends hfuel path
  obtain ⟨hopened, hlegal, hrelease⟩ := vfsOpen_outcome hb hmounted hroot hp hheap hends hrun
  refine ⟨r, fs', hrun, hopened, hlegal, hrelease, fun a before after hlog hmake => ?_⟩
  rw [hlog] at hlegal
  exact hlegal.of_released hmake

/-- The file `AB` in the directory `D`: the node of `D` is released, and is not used after
that. -/
theorem vfsOpen_lifetime_dirVolume :
    ∃ node fs', vfsOpen (2 ^ 28 + 1) [⟨[0x2F], fat16RootNode⟩] [0x2F, 0x44, 0x2F, 0x41, 0x42]
        (mountedFs dirVolume) = some (some node, fs') ∧
      Opened (mountedFs dirVolume) [[0x44], [0x41, 0x42]] ∅
        [.use 0, .make 0x111010, .use 0x111010, .make 0x1110B8, .use 0x111010, .release 0x111010]
        (some node) fs' ∧
      Legal {0}
        [.use 0, .make 0x111010, .use 0x111010, .make 0x1110B8, .use 0x111010, .release 0x111010]
        {0x1110B8, 0} := by
  have hbpb := mountedFs_dirVolume
  have hp : Placed (mountedFs dirVolume).heapStart := (⟨by decide, by decide⟩ : Placed 0x111000)
  have hlog : vfsOpenLog (2 ^ 28 + 1) [⟨[0x2F], fat16RootNode⟩] [0x2F, 0x44, 0x2F, 0x41, 0x42]
      (mountedFs dirVolume) = [.use 0, .make 0x111010, .use 0x111010, .make 0x1110B8,
        .use 0x111010, .release 0x111010] := by
    decide +kernel
  have haddr : (vfsOpen (2 ^ 28 + 1) [⟨[0x2F], fat16RootNode⟩] [0x2F, 0x44, 0x2F, 0x41, 0x42]
      (mountedFs dirVolume)).map (fun x => x.1.map VfsNode.addr) = some (some 0x1110B8) := by
    decide +kernel
  obtain ⟨r, fs', hrun, hopened, hlegal, -⟩ := vfsOpen_lifetime (mountedFs dirVolume)
    [⟨[0x2F], fat16RootNode⟩] [0x2F, 0x44, 0x2F, 0x41, 0x42] ∅ (2 ^ 28 + 1)
    (hbpb.symm ▸ layout_small) rfl rfl hp (holding_kheapInit hp _)
    (hbpb.symm ▸ dirsEnd_dirVolume) (Nat.lt_succ_self _)
  rw [hlog] at hopened hlegal
  rw [hrun, Option.map_some, Option.some_inj] at haddr
  obtain ⟨node, rfl, hnode⟩ := Option.map_eq_some_iff.1 haddr
  have hlive : liveNodes (some node) = {0x1110B8, 0} := by rw [liveNodes, hnode]
  exact ⟨node, fs', hrun, hopened, hlive ▸ hlegal⟩

end Vfs

end Yotos
