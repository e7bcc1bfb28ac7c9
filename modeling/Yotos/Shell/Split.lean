import Yotos.Shell.Cd

/-!
# Two ways to look a path up

`vfs_open` takes a path apart from the left. The commands that create files split it at
its last slash with `path_parent_and_name`, open the text before it, and look the name
behind it up there. The two agree on every path, unless two slashes come right before
the last name: `vfs_open` then looks an empty name up between them.
-/

namespace Yotos

namespace Shell

open Bytes Fat16 Kheap Library Vfs

/-- The name in the directory of `path_parent_and_name`: `vfs_open` of the directory and
`vfs_finddir` of the name. The buffer for the name is the commands' one. -/
def parentLookup (fuel : ℕ) (mounts : List Mountpoint) (path : List UInt8) (fs : Fs) :
    Option (Option VfsNode × Fs) :=
  (vfsOpen fuel mounts (pathParentAndName path pathSize 128).1 fs).bind fun
    | (none, fs) => some (none, fs)
    | (some dir, fs) => vfsFinddir fuel dir (pathParentAndName path pathSize 128).2 fs

/-- What this does with nodes. -/
def parentLookupLog (fuel : ℕ) (mounts : List Mountpoint) (path : List UInt8) (fs : Fs) :
    List (Event ℕ) :=
  vfsOpenLog fuel mounts (pathParentAndName path pathSize 128).1 fs ++
    match vfsOpen fuel mounts (pathParentAndName path pathSize 128).1 fs with
    | some (some dir, fs) => vfsFinddirLog fuel dir (pathParentAndName path pathSize 128).2 fs
    | _ => []

/-- Where on the disk the entry of a node is. -/
def entryAddr (node : VfsNode) : ℕ := 512 * node.dirLba + 32 * node.dirIndex

/-- The names lead from directory `p` to the entry at address `a`. -/
def LeadsTo (b : Bpb) (d : Disk) (p : ℕ) (names : List (List UInt8)) (a : ℕ) : Prop :=
  ∃ q k, Denotes b d p names q k ∧ slotAddr b d q k = a

/-- The path does not have two slashes right before its last name. Or what is in between,
the entry with an empty name in the directory of the path, makes no difference: behind it
is the entry that the directory itself has for the name, or neither has one. -/
def OneWay (b : Bpb) (d : Disk) (path : List UInt8) : Prop :=
  0x2F :: 0x2F :: (pathParentAndName path pathSize 128).2 <:+ path → ∀ q,
    Denoted b d (pathParentAndName path pathSize 128).1 q → ∀ a,
      LeadsTo b d q [[], (pathParentAndName path pathSize 128).2] a ↔
        LeadsTo b d q [(pathParentAndName path pathSize 128).2] a

/-- What a lookup of the names from the root gives. -/
inductive Finds (b : Bpb) (d : Disk) (names : List (List UInt8)) : Option VfsNode → Prop
  | absent (h : ∀ q k, ¬ Denotes b d 0 names q k) : Finds b d names none
  | found {q k addr : ℕ} (h : Denotes b d 0 names q k) :
      Finds b d names (some (slotNode b d q k addr))

variable {b : Bpb} {d : Disk} {p q k a fuel : ℕ} {L : Set (ℕ × Block)} {mounts : List Mountpoint}
  {path base : List UInt8} {names names' : List (List UInt8)} {fs fs' : Fs}
  {r r' : Option VfsNode} {log : List (Event ℕ)}

/-! ## What a lookup gives -/

theorem leadsTo_append (h : names' ≠ []) :
    LeadsTo b d p (names ++ names') a ↔ ∃ q, Walk b d p names q ∧ LeadsTo b d q names' a := by
  rcases List.eq_nil_or_concat names' with rfl | ⟨init, name, rfl⟩
  · exact absurd rfl h
  rw [List.concat_eq_append]
  constructor
  · rintro ⟨q, k, hdenotes, haddr⟩
    rw [← List.append_assoc] at hdenotes
    obtain ⟨hwalk, hfound⟩ := denotes_append.1 hdenotes
    obtain ⟨m, hm, hinit⟩ := walk_append.1 hwalk
    exact ⟨m, hm, q, k, denotes_append.2 ⟨hinit, hfound⟩, haddr⟩
  · rintro ⟨m, hm, q, k, hdenotes, haddr⟩
    obtain ⟨hinit, hfound⟩ := denotes_append.1 hdenotes
    refine ⟨q, k, ?_, haddr⟩
    rw [← List.append_assoc]
    exact denotes_append.2 ⟨walk_append.2 ⟨m, hm, hinit⟩, hfound⟩

/-- The entry that was found is the one that the names lead to. -/
theorem Finds.map_entryAddr (h : Finds b d names r) :
    r.map entryAddr = some a ↔ LeadsTo b d 0 names a := by
  cases h with
  | absent hno =>
      refine iff_of_false (by simp) ?_
      rintro ⟨q, k, hdenotes, -⟩
      exact hno q k hdenotes
  | @found q k addr hdenotes =>
      have haddr : entryAddr (slotNode b d q k addr) = slotAddr b d q k := rfl
      rw [Option.map_some, Option.some_inj, haddr]
      constructor
      · exact fun heq => ⟨q, k, hdenotes, heq⟩
      · rintro ⟨q', k', hdenotes', rfl⟩
        obtain ⟨rfl, rfl⟩ := hdenotes.unique hdenotes'
        rfl

theorem Finds.agree_iff (h : Finds b d names r) (h' : Finds b d names' r') :
    r.map entryAddr = r'.map entryAddr ↔
      ∀ a, LeadsTo b d 0 names a ↔ LeadsTo b d 0 names' a := by
  constructor
  · intro heq a
    rw [← h.map_entryAddr, ← h'.map_entryAddr, heq]
  · intro hall
    refine Option.ext fun a => ?_
    rw [h.map_entryAddr, h'.map_entryAddr]
    exact hall a

theorem finds_of_opened (hnames : names ≠ []) (h : Opened fs names L log r fs')
    (hlog : .refuse ∉ log) : Finds fs.bpb fs.disk names r := by
  cases h with
  | null _ _ habsent => exact .absent (habsent.resolve_left hlog)
  | root hnil => exact absurd hnil hnames
  | node hdenotes => exact .found hdenotes

/-- The node that was opened, as one that can be looked up in. -/
theorem held_of_opened {node : VfsNode} (h : Opened fs names L log (some node) fs')
    (hheap : Holding fs.heap fs.heapStart L) :
    ∃ L' heap, fs' = { fs with heap := heap } ∧ NodeHeld L node L' ∧
      Holding heap fs.heapStart L' := by
  cases h with
  | root => exact ⟨L, fs.heap, rfl, .root, hheap⟩
  | node _ _ hne hsize hfresh hheap' => exact ⟨_, _, rfl, .slot hne hsize hfresh, hheap'⟩

theorem finds_of_finddir {node : VfsNode} (hwalk : Walk fs.bpb fs.disk 0 names node.inode)
    (h : FinddirOutcome fs node.inode base L r fs' log) (hlog : .refuse ∉ log) :
    Finds fs.bpb fs.disk (names ++ [base]) r := by
  cases h with
  | absent habsent =>
      refine .absent fun q k hdenotes => ?_
      obtain ⟨hq, hfound⟩ := denotes_append.1 hdenotes
      obtain rfl := hq.unique hwalk
      exact habsent k hfound
  | refused => exact absurd (List.mem_singleton_self _) hlog
  | found hfound => exact .found (denotes_append.2 ⟨hwalk, hfound⟩)

/-- Both steps of the lookup in the parent directory. -/
theorem parentLookup_finds (hb : Layout fs.bpb) (hmounted : fs.mounted = true)
    (hroot : vfsGetRoot mounts = some fat16RootNode) (hp : Placed fs.heapStart)
    (hheap : Holding fs.heap fs.heapStart L) (hends : DirsEnd fs.bpb fs.disk)
    (h : parentLookup fuel mounts path fs = some (r, fs'))
    (hlog : .refuse ∉ parentLookupLog fuel mounts path fs) :
    Finds fs.bpb fs.disk
      (components (stripSlash (pathParentAndName path pathSize 128).1) ++
        [(pathParentAndName path pathSize 128).2]) r := by
  unfold parentLookup at h
  unfold parentLookupLog at hlog
  generalize (pathParentAndName path pathSize 128).1 = parent at h hlog ⊢
  generalize (pathParentAndName path pathSize 128).2 = base at h hlog ⊢
  obtain ⟨⟨s, fs₁⟩, hopen, h⟩ := Option.bind_eq_some_iff.1 h
  rw [hopen, List.mem_append, not_or] at hlog
  obtain ⟨hopened, -⟩ := vfsOpen_outcome hb hmounted hroot hp hheap hends hopen
  -- without a directory node there is no directory
  have hno (hnone : ∀ node, s = some node → node.flags &&& vfsDir = 0) :
      Finds fs.bpb fs.disk (components (stripSlash parent) ++ [base]) none := by
    refine .absent fun q k hdenotes => ?_
    obtain ⟨node, hnode, hdir, -⟩ := hopened.of_walk hlog.1 (denotes_append.1 hdenotes).1
    exact hdir (hnone node hnode)
  cases s with
  | none =>
      obtain ⟨rfl, rfl⟩ := Prod.mk.inj (Option.some.inj h)
      exact hno fun node hnode => absurd hnode (by simp)
  | some node =>
      obtain ⟨L', heap, rfl, hheld, hheap'⟩ := held_of_opened hopened hheap
      dsimp only at h hlog
      rcases hheld.vfsFinddir_eq base { fs with heap := heap } with
        ⟨hfile, hrun, -⟩ | ⟨hdir, hrun, hlog'⟩
      · rw [hrun] at h
        obtain ⟨rfl, rfl⟩ := Prod.mk.inj (Option.some.inj h)
        refine hno fun node' hnode => ?_
        rwa [← Option.some.inj hnode]
      · rw [hrun] at h
        have hwalk := hopened.walk hdir
        have houtcome := @fat16VfsFinddir_outcome fuel base { fs with heap := heap } fs' node r L'
          hb hmounted hp hheap' (hends _ _ hwalk) h
        rw [hlog', List.mem_cons, not_or] at hlog
        exact @finds_of_finddir L' base _ { fs with heap := heap } fs' r _ node hwalk houtcome
          hlog.2.2

theorem parentLookup_isSome (hb : Layout fs.bpb) (hmounted : fs.mounted = true)
    (hroot : vfsGetRoot mounts = some fat16RootNode) (hp : Placed fs.heapStart)
    (hheap : Holding fs.heap fs.heapStart L) (hends : DirsEnd fs.bpb fs.disk)
    (hfuel : 2 ^ 28 < fuel) (path : List UInt8) : ∃ x, parentLookup fuel mounts path fs = some x := by
  obtain ⟨⟨s, fs₁⟩, hopen⟩ := vfsOpen_isSome hb hmounted hroot hp hheap hends hfuel
    (pathParentAndName path pathSize 128).1
  rw [parentLookup, hopen, Option.bind_some]
  cases s with
  | none => exact ⟨_, rfl⟩
  | some node =>
      obtain ⟨hopened, -⟩ := vfsOpen_outcome hb hmounted hroot hp hheap hends hopen
      obtain ⟨L', heap, rfl, hheld, hheap'⟩ := held_of_opened hopened hheap
      dsimp only
      rcases hheld.vfsFinddir_eq (pathParentAndName path pathSize 128).2 { fs with heap := heap } with
        ⟨-, hrun, -⟩ | ⟨hdir, hrun, -⟩
      · exact ⟨_, hrun⟩
      · rw [hrun]
        exact @fat16VfsFinddir_isSome fuel { fs with heap := heap } node L' hb.spc_pos hp hheap'
          (hends _ _ (hopened.walk hdir)) hfuel _

/-! ## The two lookups -/

/-- Where two slashes come right before the last name. -/
theorem doubled_iff {q : List UInt8} :
    0x2F :: 0x2F :: base <:+ 0x2F :: q ++ 0x2F :: base ↔ q = [] ∨ q.getLast? = some 0x2F := by
  have hcancel (t : List UInt8) : t ++ 0x2F :: 0x2F :: base = 0x2F :: q ++ 0x2F :: base ↔
      t ++ [0x2F] = 0x2F :: q := by
    rw [← List.append_cancel_right_eq (t ++ [0x2F]) (0x2F :: base) (0x2F :: q), List.append_assoc,
      List.singleton_append]
  constructor
  · rintro ⟨t, ht⟩
    cases t with
    | nil => exact Or.inl (List.cons.inj ((hcancel _).1 ht)).2.symm
    | cons c t =>
        right
        rw [← (List.cons.inj ((hcancel _).1 ht)).2]
        simp
  · rintro (rfl | hlast)
    · exact ⟨[], (hcancel _).2 rfl⟩
    · obtain ⟨q', rfl⟩ := List.getLast?_eq_some_iff.1 hlast
      exact ⟨0x2F :: q', (hcancel _).2 rfl⟩

/-- The components on both ways, and when they make no difference. -/
theorem oneWay_iff (hhead : path.head? = some 0x2F) (hlen : path.length < pathSize)
    (hbase : (pathParentAndName path pathSize 128).2 ≠ [])
    (hlast : (pathParentAndName path pathSize pathSize).2.length ≤ 127) :
    OneWay b d path ↔ ∀ a, LeadsTo b d 0 (components (stripSlash path)) a ↔
      LeadsTo b d 0 (components (stripSlash (pathParentAndName path pathSize 128).1) ++
        [(pathParentAndName path pathSize 128).2]) a := by
  unfold OneWay
  obtain ⟨base, hslash, rfl | ⟨q, rfl⟩⟩ := exists_last hhead
  · have hsplit (n : ℕ) (hn : base.length < n) :
        pathParentAndName (0x2F :: base) pathSize n = ([0x2F], base) :=
      @pathParentAndName_append [] base pathSize n hslash (by decide) (by decide) hn
    rw [List.length_cons] at hlen
    rw [hsplit pathSize (by omega)] at hlast
    rw [hsplit 128 (Nat.lt_succ_of_le hlast)] at hbase ⊢
    refine iff_of_true (fun hsuffix => ?_) fun a => ?_
    · have hle := hsuffix.length_le
      simp only [List.length_cons] at hle
      omega
    · have hone : components (stripSlash (0x2F :: base)) = [base] :=
        components_name hbase hslash hlast
      rw [hone]
      rfl
  · rw [List.length_append, List.length_cons, List.length_cons] at hlen
    have hsplit (n : ℕ) (hn : base.length < n) :
        pathParentAndName (0x2F :: q ++ 0x2F :: base) pathSize n = (0x2F :: q, base) := by
      rw [pathParentAndName_append hslash (by rw [List.length_cons]; omega) (by decide) hn,
        if_neg (List.cons_ne_nil _ _)]
    rw [hsplit pathSize (by omega)] at hlast
    rw [hsplit 128 (Nat.lt_succ_of_le hlast)] at hbase ⊢
    have hnames : components (stripSlash (0x2F :: q ++ 0x2F :: base)) = components q ++
        if q = [] ∨ q.getLast? = some 0x2F then [[], base] else [base] :=
      components_append hbase hslash hlast
    have hparent : components (stripSlash (0x2F :: q)) = components q := rfl
    rw [hnames, hparent, doubled_iff]
    split_ifs with hdouble
    · have hstep (names : List (List UInt8)) (hne : names ≠ []) (a : ℕ) :=
        @leadsTo_append b d 0 a (components q) names hne
      simp only [hdouble, true_imp_iff]
      constructor
      · intro h a
        rw [hstep _ (List.cons_ne_nil _ _), hstep _ (List.cons_ne_nil _ _)]
        exact exists_congr fun m => and_congr_right fun hm => h m hm a
      · intro h m hm a
        have ha := h a
        rw [hstep _ (List.cons_ne_nil _ _), hstep _ (List.cons_ne_nil _ _)] at ha
        constructor
        · intro hleads
          obtain ⟨m', hm', hleads'⟩ := ha.1 ⟨m, hm, hleads⟩
          rwa [hm.unique hm']
        · intro hleads
          obtain ⟨m', hm', hleads'⟩ := ha.2 ⟨m, hm, hleads⟩
          rwa [hm.unique hm']
    · exact iff_of_true (fun h => absurd h hdouble) fun a => Iff.rfl

/-- For every absolute path with a name behind its last slash, both lookups return. With
room for the nodes they find the same directory entry, or both nothing, exactly if the
path goes one way. -/
theorem lookups_agree_iff (fs : Fs) (mounts : List Mountpoint) (path : List UInt8)
    (L : Set (ℕ × Block)) (fuel : ℕ) (hb : Layout fs.bpb) (hmounted : fs.mounted = true)
    (hroot : vfsGetRoot mounts = some fat16RootNode) (hp : Placed fs.heapStart)
    (hheap : Holding fs.heap fs.heapStart L) (hends : DirsEnd fs.bpb fs.disk)
    (hhead : path.head? = some 0x2F) (hlen : path.length < pathSize)
    (hbase : (pathParentAndName path pathSize 128).2 ≠ [])
    (hlast : (pathParentAndName path pathSize pathSize).2.length ≤ 127) (hfuel : 2 ^ 28 < fuel) :
    ∃ r fs₁ r' fs₂, vfsOpen fuel mounts path fs = some (r, fs₁) ∧
      parentLookup fuel mounts path fs = some (r', fs₂) ∧
      (.refuse ∉ vfsOpenLog fuel mounts path fs → .refuse ∉ parentLookupLog fuel mounts path fs →
        (r.map entryAddr = r'.map entryAddr ↔ OneWay fs.bpb fs.disk path)) := by
  obtain ⟨⟨r, fs₁⟩, hopen⟩ := vfsOpen_isSome hb hmounted hroot hp hheap hends hfuel path
  obtain ⟨⟨r', fs₂⟩, hparent⟩ :=
    parentLookup_isSome hb hmounted hroot hp hheap hends hfuel path
  refine ⟨r, fs₁, r', fs₂, hopen, hparent, fun hlog hlog' => ?_⟩
  obtain ⟨hopened, -⟩ := vfsOpen_outcome hb hmounted hroot hp hheap hends hopen
  have hnames : components (stripSlash path) ≠ [] := by
    rw [Ne, components_eq_nil]
    intro hnil
    obtain ⟨xs, rfl⟩ := List.head?_eq_some_iff.1 hhead
    rw [show stripSlash (0x2F :: xs) = xs from rfl] at hnil
    subst hnil
    exact hbase rfl
  rw [oneWay_iff hhead hlen hbase hlast]
  exact (finds_of_opened hnames hopened hlog).agree_iff
    (parentLookup_finds hb hmounted hroot hp hheap hends hparent hlog')

/-- The file `A` in the root, by the path `//A`: `vfs_open` finds nothing, and does not
call for memory, while the root has it. -/
theorem not_lookups_agree_small :
    (∃ fs₁ node fs₂, vfsOpen 2 bootMounts [0x2F, 0x2F, 0x41] (mountedFs (smallVolume 2 1 0)) =
        some (none, fs₁) ∧
      parentLookup 2 bootMounts [0x2F, 0x2F, 0x41] (mountedFs (smallVolume 2 1 0)) =
        some (some node, fs₂)) ∧
    .refuse ∉ vfsOpenLog 2 bootMounts [0x2F, 0x2F, 0x41] (mountedFs (smallVolume 2 1 0)) := by
  have hopen : (vfsOpen 2 bootMounts [0x2F, 0x2F, 0x41] (mountedFs (smallVolume 2 1 0))).map
      Prod.fst = some none := by decide +kernel
  have hparent : (parentLookup 2 bootMounts [0x2F, 0x2F, 0x41]
      (mountedFs (smallVolume 2 1 0))).map (fun x => x.1.map VfsNode.name) = some (some [0x41]) := by
    decide +kernel
  refine ⟨?_, by decide +kernel⟩
  obtain ⟨⟨r, fs₁⟩, hrun, rfl⟩ := Option.map_eq_some_iff.1 hopen
  obtain ⟨⟨r', fs₂⟩, hrun', hname⟩ := Option.map_eq_some_iff.1 hparent
  obtain ⟨node, rfl, -⟩ := Option.map_eq_some_iff.1 hname
  exact ⟨fs₁, node, fs₂, hrun, hrun'⟩

/-- The file `AB` in `D`, by its path. -/
theorem lookups_agree_iff_dirSession : ∃ r fs₁ r' fs₂,
    vfsOpen (2 ^ 28 + 1) bootMounts [0x2F, 0x44, 0x2F, 0x41, 0x42] dirSession.fs = some (r, fs₁) ∧
      parentLookup (2 ^ 28 + 1) bootMounts [0x2F, 0x44, 0x2F, 0x41, 0x42] dirSession.fs =
        some (r', fs₂) ∧
      (.refuse ∉ vfsOpenLog (2 ^ 28 + 1) bootMounts [0x2F, 0x44, 0x2F, 0x41, 0x42] dirSession.fs →
        .refuse ∉ parentLookupLog (2 ^ 28 + 1) bootMounts [0x2F, 0x44, 0x2F, 0x41, 0x42]
          dirSession.fs →
        (r.map entryAddr = r'.map entryAddr ↔ OneWay dirSession.fs.bpb dirSession.fs.disk
          [0x2F, 0x44, 0x2F, 0x41, 0x42])) :=
  lookups_agree_iff dirSession.fs bootMounts [0x2F, 0x44, 0x2F, 0x41, 0x42] ∅ (2 ^ 28 + 1)
    layout_dirSession rfl rfl placed_dirSession holding_dirSession dirsEnd_dirSession rfl
    (by decide) (by decide) (by decide) (Nat.lt_succ_self _)

end Shell

end Yotos
