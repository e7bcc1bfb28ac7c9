import Yotos.Shell.Commands
import Yotos.Shell.Up

/-!
# Paths that do not fit

`path_resolve` cuts a path off that is longer than its buffer, and says nothing. As long
as the whole path fits, every command acts on the entry of that path, or on none. When it
does not, the commands act on what the beginning of the path stands for, if it stands for
anything.
-/

namespace Yotos

namespace Shell

open Bytes Fat16 Kheap Library Relation Vfs

/-- The act is for the path `full`: by the path itself, or by its parts. -/
def Act.On (full : List UInt8) : Act → Prop
  | .opened path => path = full
  | .made parent base => (parent, base) = pathParentAndName full (full.length + 1) (full.length + 1)

/-- The path leads to an entry. -/
def Opens (b : Bpb) (d : Disk) (path : List UInt8) : Prop :=
  ∃ a, LeadsTo b d 0 (components (stripSlash path)) a

/-- The directory of the path takes a new entry for its name. -/
def Makes (b : Bpb) (d : Disk) (flags : UInt32) (path : List UInt8) : Prop :=
  ∃ q, Denoted b d (pathParentAndName path pathSize 128).1 q ∧
    Creatable b d q (pathParentAndName path pathSize 128).2 flags

/-- What has to be on the volume for the command to do something by this path. -/
def Command.Reaches (b : Bpb) (d : Disk) (arg path : List UInt8) : Command → Prop
  | .cd => arg ≠ dotdotName ∧ Opens b d path
  | .touch => Makes b d vfsFile path
  | .mkdir => Makes b d vfsDir path
  | .echo => Opens b d path ∨ Makes b d vfsFile path
  | .cat => Opens b d path
  | .exec => Opens b d path

variable {b : Bpb} {d : Disk} {start fuel : ℕ} {L : Set (ℕ × Block)} {mounts : List Mountpoint}
  {s s' : Session} {arg path full : List UInt8} {flags : UInt32} {fs : Fs} {acts : List Act}
  {cmd : Command}

/-! ## What the commands do -/

theorem openActs_cases (hb : Layout b) (hroot : vfsGetRoot mounts = some fat16RootNode)
    (hp : Placed start) (hends : DirsEnd b d) (hready : Ready b d start L fs)
    (hpath : components (stripSlash path) ≠ [])
    (h : openActs fuel mounts path fs = some acts) :
    (acts = [] ∧ (.refuse ∈ vfsOpenLog fuel mounts path fs ∨ ¬ Opens b d path)) ∨
      (acts = [.opened path] ∧ Opens b d path) := by
  obtain ⟨rfl, rfl, hmounted, rfl, hheap⟩ := hready
  obtain ⟨⟨r, fs'⟩, hopen, rfl⟩ := Option.map_eq_some_iff.1 h
  obtain ⟨hopened, -⟩ := vfsOpen_outcome hb hmounted hroot hp hheap hends hopen
  cases hopened with
  | null _ _ habsent =>
      refine Or.inl ⟨rfl, habsent.imp_right fun hno => ?_⟩
      rintro ⟨a, q, k, hdenotes, -⟩
      exact hno q k hdenotes
  | root hnil => exact absurd hnil hpath
  | node hdenotes => exact Or.inr ⟨rfl, _, _, _, hdenotes, rfl⟩

/-- Entries are made in directories only. -/
theorem vfsCreateMakes_eq {node : VfsNode} {L' : Set (ℕ × Block)} (h : NodeHeld L node L')
    (name : List UInt8) (flags : UInt32) (fs : Fs) :
    (node.flags &&& vfsDir = 0 ∧ vfsCreateMakes fuel node name flags fs = some false) ∨
      (node.flags &&& vfsDir ≠ 0 ∧ vfsCreateMakes fuel node name flags fs =
        fat16VfsCreateMakes fuel node name flags fs) := by
  by_cases hdir : node.flags &&& vfsDir = 0
  · exact Or.inl ⟨hdir, by rw [vfsCreateMakes, if_pos hdir]⟩
  · refine Or.inr ⟨hdir, ?_⟩
    rw [vfsCreateMakes, if_neg hdir]
    cases h with
    | root => rfl
    | @slot e lba i addr blk hne _ hfresh =>
        rw [flags_nodeOf, Bool.not_eq_false] at hdir
        simp [nodeOf, hdir]

theorem makeActs_cases (hb : Layout b) (hroot : vfsGetRoot mounts = some fat16RootNode)
    (hp : Placed start) (hends : DirsEnd b d) (hready : Ready b d start L fs)
    (h : makeActs fuel mounts flags path fs = some acts) :
    (acts = [] ∧ (.refuse ∈ vfsOpenLog fuel mounts (pathParentAndName path pathSize 128).1 fs ∨
        ¬ Makes b d flags path)) ∨
      (acts = [.made (pathParentAndName path pathSize 128).1 (pathParentAndName path pathSize 128).2] ∧
        Makes b d flags path) := by
  unfold makeActs at h
  unfold Makes
  generalize pathParentAndName path pathSize 128 = split at h ⊢
  obtain ⟨parent, base⟩ := split
  obtain ⟨rfl, rfl, hmounted, rfl, hheap⟩ := hready
  obtain ⟨⟨r, fs'⟩, hopen, h⟩ := Option.bind_eq_some_iff.1 h
  obtain ⟨hopened, -⟩ := vfsOpen_outcome hb hmounted hroot hp hheap hends hopen
  -- without a node of the directory nothing can be made there
  have hno (hnone : ∀ node, r = some node → node.flags &&& vfsDir = 0) :
      .refuse ∈ vfsOpenLog fuel mounts parent fs ∨
        ¬ ∃ q, Denoted fs.bpb fs.disk parent q ∧ Creatable fs.bpb fs.disk q base flags := by
    by_cases hlog : .refuse ∈ vfsOpenLog fuel mounts parent fs
    · exact Or.inl hlog
    · refine Or.inr ?_
      rintro ⟨q, hq, -⟩
      obtain ⟨node, hnode, hdir, -⟩ := hopened.of_walk hlog hq
      exact hdir (hnone node hnode)
  cases r with
  | none =>
      obtain rfl := Option.some.inj h
      exact Or.inl ⟨rfl, hno fun node hnode => absurd hnode (by simp)⟩
  | some node =>
      obtain ⟨L', heap, rfl, hheld, -⟩ := held_of_opened hopened hheap
      obtain ⟨made, hmakes, rfl⟩ := Option.map_eq_some_iff.1 h
      rcases vfsCreateMakes_eq hheld base flags { fs with heap := heap } with
        ⟨hfile, heq⟩ | ⟨hdir, heq⟩
      · rw [heq] at hmakes
        obtain rfl := Option.some.inj hmakes
        refine Or.inl ⟨rfl, hno fun node' hnode => ?_⟩
        rwa [← Option.some.inj hnode]
      · rw [heq] at hmakes
        have hiff := @fat16VfsCreateMakes_iff fuel base flags { fs with heap := heap } node made hb
          hmounted hmakes
        have hwalk := hopened.walk hdir
        cases made with
        | true => exact Or.inr ⟨rfl, node.inode, hwalk, hiff.1 rfl⟩
        | false =>
            refine Or.inl ⟨rfl, Or.inr ?_⟩
            rintro ⟨q, hq, hcreate⟩
            obtain rfl := hwalk.unique hq
            exact Bool.false_ne_true (hiff.2 hcreate)

/-- The act is by this text, and a name that is made fits the buffer. -/
def Act.By (path : List UInt8) (act : Act) : Prop :=
  act = .opened path ∨
    (act = .made (pathParentAndName path pathSize 128).1 (pathParentAndName path pathSize 128).2 ∧
      formatName83 (pathParentAndName path pathSize 128).2 ≠ none)

/-- A command does one thing by the text that `path_resolve` has left, or nothing. -/
theorem acts_cases (hb : Layout b) (hroot : vfsGetRoot mounts = some fat16RootNode)
    (hp : Placed start) (hends : DirsEnd b d) (hready : Ready b d start L s.fs)
    (hpath : components (stripSlash (pathResolve s.path arg pathSize)) ≠ [])
    (h : cmd.acts fuel mounts arg s = some acts) :
    (acts = [] ∧ (.refuse ∈ cmd.log fuel mounts arg s ∨
        ¬ cmd.Reaches b d arg (pathResolve s.path arg pathSize))) ∨
      (∃ act, acts = [act] ∧ act.By (pathResolve s.path arg pathSize)) ∧
        cmd.Reaches b d arg (pathResolve s.path arg pathSize) := by
  have hopens {acts : List Act}
      (h : openActs fuel mounts (pathResolve s.path arg pathSize) s.fs = some acts) :
      (acts = [] ∧ (.refuse ∈ vfsOpenLog fuel mounts (pathResolve s.path arg pathSize) s.fs ∨
          ¬ Opens b d (pathResolve s.path arg pathSize))) ∨
        (∃ act, acts = [act] ∧ act.By (pathResolve s.path arg pathSize)) ∧
          Opens b d (pathResolve s.path arg pathSize) :=
    (openActs_cases hb hroot hp hends hready hpath h).imp_right fun hact =>
      ⟨⟨_, hact.1, Or.inl rfl⟩, hact.2⟩
  have hmakes {flags : UInt32} {fs : Fs} {acts : List Act} (hready : Ready b d start L fs)
      (h : makeActs fuel mounts flags (pathResolve s.path arg pathSize) fs = some acts) :
      (acts = [] ∧ (.refuse ∈ vfsOpenLog fuel mounts
            (pathParentAndName (pathResolve s.path arg pathSize) pathSize 128).1 fs ∨
          ¬ Makes b d flags (pathResolve s.path arg pathSize))) ∨
        (∃ act, acts = [act] ∧ act.By (pathResolve s.path arg pathSize)) ∧
          Makes b d flags (pathResolve s.path arg pathSize) :=
    (makeActs_cases hb hroot hp hends hready h).imp_right fun hact =>
      ⟨⟨_, hact.1, Or.inr ⟨rfl, hact.2.choose_spec.2.named⟩⟩, hact.2⟩
  cases cmd with
  | cd =>
      simp only [Command.acts, Command.log, Command.Reaches] at h ⊢
      split_ifs at h ⊢ with harg
      · obtain rfl := Option.some.inj h
        exact Or.inl ⟨rfl, Or.inr fun hreaches => hreaches.1 harg⟩
      · rcases hopens h with ⟨hacts, hno⟩ | ⟨hacts, hopen⟩
        · exact Or.inl ⟨hacts, hno.imp_right fun hno hreaches => hno hreaches.2⟩
        · exact Or.inr ⟨hacts, harg, hopen⟩
  | touch => exact hmakes hready h
  | mkdir => exact hmakes hready h
  | cat => exact hopens h
  | exec => exact hopens h
  | echo =>
      simp only [Command.acts, Command.log, Command.Reaches] at h ⊢
      obtain ⟨⟨r, fs⟩, hopen, h⟩ := Option.bind_eq_some_iff.1 h
      have hacts := @hopens (r.elim [] fun _ => [.opened _]) (by
        rw [openActs, hopen, Option.map_some])
      rw [hopen]
      cases r with
      | some node =>
          obtain rfl := Option.some.inj h
          rcases hacts with ⟨hnil, -⟩ | ⟨hone, hreaches⟩
          · cases hnil
          · exact Or.inr ⟨hone, Or.inl hreaches⟩
      | none =>
          have hready' : Ready b d start L fs := by
            obtain ⟨rfl, rfl, hmounted, rfl, hheap⟩ := hready
            obtain ⟨hopened, -⟩ := vfsOpen_outcome hb hmounted hroot hp hheap hends hopen
            cases hopened with
            | null _ hheap' => exact ⟨rfl, rfl, hmounted, rfl, hheap'⟩
          rcases hacts with ⟨-, hno⟩ | ⟨⟨act, hone, -⟩, -⟩
          · rcases hmakes hready' h with ⟨hacts, hno'⟩ | ⟨hacts, hmake⟩
            · refine Or.inl ⟨hacts, ?_⟩
              rw [List.mem_append]
              rcases hno with hrefuse | hno
              · exact Or.inl (Or.inl hrefuse)
              · rcases hno' with hrefuse | hno'
                · exact Or.inl (Or.inr hrefuse)
                · exact Or.inr fun hreaches => hreaches.elim hno hno'
            · exact Or.inr ⟨hacts, Or.inr hmake⟩
          · cases hone

/-! ## The text of an act -/

theorem slash_mem (h : path.head? = some 0x2F) : 0x2F ∈ path := List.mem_of_head? h

/-- Where nothing is cut off, the act is for the path. -/
theorem Act.By.on {act : Act} (h : act.By path) (hhead : path.head? = some 0x2F)
    (hlen : path.length < pathSize) : act.On path := by
  rcases h with rfl | ⟨rfl, hnamed⟩
  · rfl
  · have hshort := formatName83_length_le hnamed
    obtain ⟨q, base, rfl, hbase⟩ := exists_split (slash_mem hhead)
    rw [pathParentAndName_take _ _ hbase, List.length_take] at hshort
    rw [List.length_append, List.length_cons] at hlen
    have hsize : pathSize = 256 := rfl
    have hsplit (psz bsz : ℕ) (hq : q.length < psz) (hone : 1 < psz) (hb : base.length < bsz) :
        pathParentAndName (q ++ 0x2F :: base) psz bsz = (if q = [] then [0x2F] else q, base) :=
      pathParentAndName_append hbase hq hone hb
    rw [Act.On, hsplit pathSize 128 (by omega) (by omega) (by omega), hsplit] <;>
      rw [List.length_append, List.length_cons] <;> omega

/-- The two parts are as long as the path. -/
theorem length_split (hhead : full.head? = some 0x2F) :
    full.length ≤ (pathParentAndName full (full.length + 1) (full.length + 1)).1.length +
      (pathParentAndName full (full.length + 1) (full.length + 1)).2.length + 1 := by
  obtain ⟨q, base, rfl, hbase⟩ := exists_split (slash_mem hhead)
  rw [pathParentAndName_take _ _ hbase, List.length_append, List.length_cons, List.length_take,
    List.length_take]
  split_ifs with hq
  · simp only [hq, List.length_nil, List.length_singleton]
    omega
  · omega

theorem length_split_le (hhead : path.head? = some 0x2F) (hlen : path.length < pathSize) :
    (pathParentAndName path pathSize 128).1.length +
      (pathParentAndName path pathSize 128).2.length + 1 < pathSize := by
  have hsize : pathSize = 256 := rfl
  obtain ⟨q, base, rfl, hbase⟩ := exists_split (slash_mem hhead)
  rw [List.length_append, List.length_cons] at hlen
  rw [pathParentAndName_take _ _ hbase, List.length_take, List.length_take]
  split_ifs with hq
  · simp only [List.length_singleton]
    omega
  · omega

/-- An act by a shorter path is not for the longer one. -/
theorem Act.By.not_on {act : Act} (h : act.By path) (hpath : path.head? = some 0x2F)
    (hlen : path.length < pathSize) (hhead : full.head? = some 0x2F) (hlong : pathSize ≤ full.length) :
    ¬ act.On full := by
  rcases h with rfl | ⟨rfl, -⟩
  · rintro rfl
    omega
  · intro heq
    have heq' : ((pathParentAndName path pathSize 128).1, (pathParentAndName path pathSize 128).2) =
      pathParentAndName full (full.length + 1) (full.length + 1) := heq
    have hfull := length_split hhead
    have hshort := length_split_le hpath hlen
    rw [← heq'] at hfull
    dsimp only at hfull
    omega

/-- A relative path means an entry below. -/
theorem components_relative (hhead : s.path.head? = some 0x2F) (hlen : s.path.length ≤ pathSize - 1)
    (harg : arg ≠ []) (hrel : arg.head? ≠ some 0x2F) :
    components (stripSlash (pathResolve s.path arg pathSize)) ≠ [] := by
  obtain ⟨xs, hxs⟩ := List.head?_eq_some_iff.1 hhead
  have hpos := List.length_pos_of_ne_nil harg
  have hfull : 2 ≤ (fullPath s.path arg).length := by
    rw [fullPath, if_neg harg, if_neg hrel, hxs]
    split_ifs <;> simp only [List.length_append, List.length_cons] <;> omega
  have hresolved : 2 ≤ (pathResolve s.path arg pathSize).length := by
    rw [pathResolve_eq_take hlen, List.length_take]
    exact le_min (by decide) hfull
  have hstart : (pathResolve s.path arg pathSize).head? = some 0x2F :=
    head_pathResolve hhead hlen (by decide)
  obtain ⟨ys, hys⟩ := List.head?_eq_some_iff.1 hstart
  rw [hys, List.length_cons] at hresolved
  rw [hys, Ne, components_eq_nil]
  rintro (rfl : ys = [])
  exact absurd hresolved (by simp)

/-! ## The law of the commands -/

/-- After any `cd` commands, a command with a relative argument that returns acts on the
entry of the whole path, or on none, if the path fits or its beginning stands for nothing.
When memory for nodes does not run out, this is also needed. -/
theorem acts_on_fullPath (L : Set (ℕ × Block)) (hb : Layout s.fs.bpb)
    (hmounted : s.fs.mounted = true) (hroot : vfsGetRoot mounts = some fat16RootNode)
    (hp : Placed s.fs.heapStart) (hheap : Holding s.fs.heap s.fs.heapStart L)
    (hends : DirsEnd s.fs.bpb s.fs.disk) (hslash : s.currentPath 0 = 0x2F)
    (hend : s.currentPath 1 = 0) (hrun : ReflTransGen (CdStep mounts) s s')
    (harg : arg ≠ []) (hrel : arg.head? ≠ some 0x2F)
    (hacts : cmd.acts fuel mounts arg s' = some acts) :
    ((fullPath s'.path arg).length < pathSize ∨
        ¬ cmd.Reaches s.fs.bpb s.fs.disk arg ((fullPath s'.path arg).take (pathSize - 1)) →
      ∀ act ∈ acts, act.On (fullPath s'.path arg)) ∧
    (.refuse ∉ cmd.log fuel mounts arg s' → (∀ act ∈ acts, act.On (fullPath s'.path arg)) →
      (fullPath s'.path arg).length < pathSize ∨
        ¬ cmd.Reaches s.fs.bpb s.fs.disk arg ((fullPath s'.path arg).take (pathSize - 1))) := by
  have hinv : Session.Inv s.fs.bpb s.fs.disk s.fs.heapStart L s :=
    ⟨⟨rfl, rfl, hmounted, rfl, hheap⟩, openable_root hslash hend⟩
  obtain ⟨hready, hopen⟩ := hinv.run hb hroot hp hends hrun
  have hcurrent : s'.path.length ≤ pathSize - 1 := Nat.le_sub_one_of_lt hopen.fits
  have hfull : (fullPath s'.path arg).head? = some 0x2F := head_fullPath hopen.head
  have hresolved : pathResolve s'.path arg pathSize =
      (fullPath s'.path arg).take (pathSize - 1) := pathResolve_eq_take hcurrent
  have hlen : (pathResolve s'.path arg pathSize).length < pathSize :=
    (length_pathResolve hcurrent).trans_lt (by decide)
  have hhead : (pathResolve s'.path arg pathSize).head? = some 0x2F :=
    head_pathResolve hopen.head hcurrent (by decide)
  have hpath : components (stripSlash (pathResolve s'.path arg pathSize)) ≠ [] :=
    components_relative hopen.head hcurrent harg hrel
  rw [← hresolved]
  rcases acts_cases hb hroot hp hends hready hpath hacts with
    ⟨rfl, hno⟩ | ⟨⟨act, rfl, hby⟩, hreaches⟩
  · exact ⟨fun _ act hact => absurd hact List.not_mem_nil, fun hlog _ =>
      Or.inr (hno.resolve_left hlog)⟩
  · simp only [List.mem_singleton, forall_eq]
    constructor
    · rintro (hfits | hno)
      · rw [← List.take_of_length_le (Nat.le_sub_one_of_lt hfits), ← hresolved]
        exact hby.on hhead hlen
      · exact absurd hreaches hno
    · intro _ hon
      by_contra hcond
      push Not at hcond
      exact hby.not_on hhead hlen hfull hcond.1 hon

/-! ## Commands that do nothing -/

theorem disk_vfsClose (node : VfsNode) (fs : Fs) : (vfsClose node fs).disk = fs.disk := by
  rw [vfsClose]
  cases node.ops <;> rfl

theorem disk_vfsFinddir {node : VfsNode} {name : List UInt8} {fs fs' : Fs} {r : Option VfsNode}
    (h : vfsFinddir fuel node name fs = some (r, fs')) : fs'.disk = fs.disk := by
  unfold vfsFinddir at h
  split_ifs at h
  · obtain ⟨-, rfl⟩ := Prod.mk.inj (Option.some.inj h)
    rfl
  · cases hops : node.ops <;> rw [hops] at h
    · obtain ⟨-, rfl⟩ := Prod.mk.inj (Option.some.inj h)
      rfl
    · exact (fat16VfsFinddir_disk h).1
    · exact (fat16VfsFinddir_disk h).1

theorem disk_openLoop {root current : VfsNode} {names : List (List UInt8)} {fs fs' : Fs}
    {r : Option VfsNode} (h : openLoop fuel root names current fs = some (r, fs')) :
    fs'.disk = fs.disk := by
  induction names generalizing current fs with
  | nil =>
      obtain ⟨-, rfl⟩ := Prod.mk.inj (Option.some.inj h)
      rfl
  | cons name names ih =>
      obtain ⟨⟨next, fs₁⟩, hfind, h⟩ := Option.bind_eq_some_iff.1 h
      have hclose : (if current.addr ≠ root.addr then vfsClose current fs₁ else fs₁).disk =
          fs.disk := by
        rw [← disk_vfsFinddir hfind]
        split_ifs
        · exact disk_vfsClose current fs₁
        · rfl
      cases next with
      | none =>
          obtain ⟨-, rfl⟩ := Prod.mk.inj (Option.some.inj h)
          exact hclose
      | some next => exact (ih h).trans hclose

theorem disk_vfsOpen {fs fs' : Fs} {r : Option VfsNode}
    (h : vfsOpen fuel mounts path fs = some (r, fs')) : fs'.disk = fs.disk := by
  unfold vfsOpen at h
  cases hroot : vfsGetRoot mounts with
  | none =>
      rw [hroot] at h
      obtain ⟨-, rfl⟩ := Prod.mk.inj (Option.some.inj h)
      rfl
  | some root =>
      rw [hroot] at h
      dsimp only at h
      split_ifs at h
      · obtain ⟨-, rfl⟩ := Prod.mk.inj (Option.some.inj h)
        rfl
      · exact disk_openLoop h

/-- Nothing is made without an entry for it. -/
theorem vfsCreate_of_not_makes {node : VfsNode} {name : List UInt8} {flags : UInt32} {fs fs' : Fs}
    {r : Option VfsNode} (h : vfsCreateMakes fuel node name flags fs = some false)
    (hrun : vfsCreate fuel node name flags fs = some (r, fs')) :
    r = none ∧ (flags &&& vfsDir = 0 → fs'.disk = fs.disk) := by
  unfold vfsCreateMakes at h
  unfold vfsCreate at hrun
  split_ifs at h hrun
  · obtain ⟨rfl, rfl⟩ := Prod.mk.inj (Option.some.inj hrun)
    exact ⟨rfl, fun _ => rfl⟩
  · cases hops : node.ops <;> rw [hops] at h hrun
    · obtain ⟨rfl, rfl⟩ := Prod.mk.inj (Option.some.inj hrun)
      exact ⟨rfl, fun _ => rfl⟩
    · obtain ⟨hnone, hkeep⟩ := fat16VfsCreate_of_not_makes h hrun
      exact ⟨hnone, fun hfile => congrArg Fs.disk (hkeep hfile)⟩
    · obtain ⟨hnone, hkeep⟩ := fat16VfsCreate_of_not_makes h hrun
      exact ⟨hnone, fun hfile => congrArg Fs.disk (hkeep hfile)⟩

theorem ascii_append (s t : String) : ascii (s ++ t) = ascii s ++ ascii t := by
  simp [ascii]

/-- A command that makes no entry says so, and if it would make a file, leaves the volume as
it is. -/
theorem cmdMake_of_not_makes {verb usage : String} {flags : UInt32} {out : List UInt8}
    (husage : ascii usage ≠ [])
    (hacts : makeActs fuel mounts flags (pathResolve s.path arg pathSize) s.fs = some [])
    (h : cmdMake verb usage flags fuel mounts arg s = some (out, s')) :
    out ≠ [] ∧ (flags &&& vfsDir = 0 → s'.fs.disk = s.fs.disk) := by
  have hcolon : ascii (verb ++ ": ") ≠ [] := by
    rw [ascii_append]
    exact List.append_ne_nil_of_right_ne_nil _ (by decide)
  simp only [makeActs] at hacts
  simp only [cmdMake] at h
  split_ifs at h
  · obtain ⟨rfl, rfl⟩ := Prod.mk.inj (Option.some.inj h)
    exact ⟨husage, fun _ => rfl⟩
  · obtain ⟨rfl, rfl⟩ := Prod.mk.inj (Option.some.inj h)
    refine ⟨?_, fun _ => rfl⟩
    rw [ascii_append]
    exact List.append_ne_nil_of_right_ne_nil _ (by decide)
  · obtain ⟨⟨r, fs⟩, hopen, h⟩ := Option.bind_eq_some_iff.1 h
    rw [hopen] at hacts
    have hdisk := disk_vfsOpen hopen
    cases r with
    | none =>
        obtain ⟨rfl, rfl⟩ := Prod.mk.inj (Option.some.inj h)
        exact ⟨by simp [hcolon], fun _ => hdisk⟩
    | some dir =>
        dsimp only at h
        split_ifs at h
        · obtain ⟨rfl, rfl⟩ := Prod.mk.inj (Option.some.inj h)
          exact ⟨by simp [hcolon], fun _ => (disk_vfsClose dir fs).trans hdisk⟩
        · obtain ⟨⟨x, fs'⟩, hcreate, h⟩ := Option.map_eq_some_iff.1 h
          obtain ⟨made, hmakes, hmade⟩ := Option.map_eq_some_iff.1 hacts
          cases made with
          | true => cases hmade
          | false =>
              obtain ⟨rfl, hkeep⟩ := vfsCreate_of_not_makes hmakes hcreate
              obtain ⟨rfl, rfl⟩ := Prod.mk.inj h
              refine ⟨?_, fun hfile => ((disk_vfsClose dir fs').trans (hkeep hfile)).trans hdisk⟩
              rw [ascii_append]
              simp [ascii]

/-- `touch` without an act leaves the volume as it is. -/
theorem disk_cmdTouch {out : List UInt8} (hacts : Command.touch.acts fuel mounts arg s = some [])
    (h : cmdTouch fuel mounts arg s = some (out, s')) : s'.fs.disk = s.fs.disk :=
  (cmdMake_of_not_makes (by decide) hacts h).2 (by decide)

/-- `mkdir` without an act, which may have written to the cluster that it gives back, prints
why. -/
theorem out_cmdMkdir {out : List UInt8} (hacts : Command.mkdir.acts fuel mounts arg s = some [])
    (h : cmdMkdir fuel mounts arg s = some (out, s')) : out ≠ [] :=
  (cmdMake_of_not_makes (by decide) hacts h).1

/-- `echo` without an act leaves the volume as it is. -/
theorem disk_cmdEcho {out : List UInt8}
    (hacts : Command.echo.acts fuel mounts (echoFile arg) s = some [])
    (h : cmdEcho fuel mounts arg s = some (out, s')) : s'.fs.disk = s.fs.disk := by
  simp only [Command.acts, makeActs] at hacts
  by_cases hmissing : arg = [] ∨ 0x3E ∉ arg ∨ echoFile arg = []
  · unfold cmdEcho at h
    split_ifs at h with harg hsign hfile
    · obtain ⟨-, rfl⟩ := Prod.mk.inj (Option.some.inj h)
      rfl
    · obtain ⟨-, rfl⟩ := Prod.mk.inj (Option.some.inj h)
      rfl
    · simp_all
    · obtain ⟨-, rfl⟩ := Prod.mk.inj (Option.some.inj h)
      rfl
  · obtain ⟨harg, hsign, hname⟩ := not_or.1 hmissing |>.imp_right not_or.1
    rw [cmdEcho, if_neg harg, if_neg hsign, if_neg hname] at h
    obtain ⟨⟨file, fs⟩, hfile, h⟩ := Option.bind_eq_some_iff.1 h
    unfold echoOpen at hfile
    generalize pathParentAndName (pathResolve s.path (echoFile arg) pathSize) pathSize 128 = parts
      at hfile hacts
    obtain ⟨⟨r, fs₁⟩, hopen, hfile⟩ := Option.bind_eq_some_iff.1 hfile
    rw [hopen] at hacts
    cases r with
    | some node => cases hacts
    | none =>
        obtain ⟨⟨r, fs₂⟩, hopen', hfile⟩ := Option.bind_eq_some_iff.1 hfile
        dsimp only [Option.bind_some] at hacts
        rw [hopen'] at hacts
        have hdisk := (disk_vfsOpen hopen').trans (disk_vfsOpen hopen)
        cases r with
        | none =>
            obtain ⟨rfl, rfl⟩ := Prod.mk.inj (Option.some.inj hfile)
            obtain ⟨-, rfl⟩ := Prod.mk.inj (Option.some.inj h)
            exact hdisk
        | some dir =>
            obtain ⟨⟨x, fs₃⟩, hcreate, hfile⟩ := Option.map_eq_some_iff.1 hfile
            obtain ⟨made, hmakes, hmade⟩ := Option.map_eq_some_iff.1 hacts
            cases made with
            | true => cases hmade
            | false =>
                obtain ⟨rfl, hkeep⟩ := vfsCreate_of_not_makes hmakes hcreate
                obtain ⟨rfl, rfl⟩ := Prod.mk.inj hfile
                obtain ⟨-, rfl⟩ := Prod.mk.inj (Option.some.inj h)
                exact ((disk_vfsClose dir fs₃).trans (hkeep (by decide))).trans hdisk

/-! ## A long path on a small volume -/

/-- With nothing in use, `cd` goes to the directory of the path. -/
theorem exists_cdStep (hb : Layout b) (hroot : vfsGetRoot mounts = some fat16RootNode)
    (hp : Placed start) (hends : DirsEnd b d) (hinv : Session.Inv b d start ∅ s) (hzero : 0 ∉ arg)
    (harg : arg ≠ [] ∧ arg ≠ [0x2F] ∧ arg ≠ [0x2E, 0x2E]) {r : ℕ}
    (hdir : Denoted b d (pathResolve s.path arg pathSize) r) :
    ∃ s', CdStep mounts s s' ∧ s'.path = pathResolve s.path arg pathSize := by
  obtain ⟨⟨rfl, rfl, hmounted, rfl, hheap⟩, hopen⟩ := hinv
  obtain ⟨fuel, hfuel⟩ : ∃ fuel, 2 ^ 28 < fuel := ⟨_, Nat.lt_succ_self _⟩
  obtain ⟨⟨x, fs'⟩, hrun⟩ :=
    vfsOpen_isSome hb hmounted hroot hp hheap hends hfuel (pathResolve s.path arg pathSize)
  have hlog := vfsOpenLog_not_refused hb hmounted hroot hp hheap hends hrun
  obtain ⟨hopened, -⟩ := vfsOpen_outcome hb hmounted hroot hp hheap hends hrun
  obtain ⟨node, rfl, hflags, -⟩ := hopened.of_walk hlog hdir
  have hcurrent : s.path.length ≤ pathSize - 1 := Nat.le_sub_one_of_lt hopen.fits
  have hresolved : 0 ∉ pathResolve s.path arg pathSize := by
    rw [pathResolve_eq_take hcurrent]
    exact fun hmem => zero_not_mem_fullPath (zero_not_mem_text _ _) hzero (List.mem_of_mem_take hmem)
  refine ⟨⟨strlcpy s.currentPath (pathResolve s.path arg pathSize) pathSize, vfsClose node fs'⟩,
    @CdStep.cd mounts fuel arg [] _ _ hzero ?_,
    text_keep hresolved ((length_pathResolve hcurrent).trans_lt (by decide))⟩
  simp [cmdCd, harg, hrun, hflags]

/-- `echo` to the path of an entry opens it. -/
theorem acts_echo (hb : Layout b) (hroot : vfsGetRoot mounts = some fat16RootNode)
    (hp : Placed start) (hends : DirsEnd b d) (hready : Ready b d start ∅ s.fs)
    (hfuel : 2 ^ 28 < fuel) {q k : ℕ}
    (hdenotes : Denotes b d 0 (components (stripSlash (pathResolve s.path arg pathSize))) q k) :
    Command.echo.acts fuel mounts arg s = some [.opened (pathResolve s.path arg pathSize)] := by
  obtain ⟨rfl, rfl, hmounted, rfl, hheap⟩ := hready
  obtain ⟨⟨x, fs'⟩, hrun⟩ :=
    vfsOpen_isSome hb hmounted hroot hp hheap hends hfuel (pathResolve s.path arg pathSize)
  have hlog := vfsOpenLog_not_refused hb hmounted hroot hp hheap hends hrun
  obtain ⟨hopened, -⟩ := vfsOpen_outcome hb hmounted hroot hp hheap hends hrun
  cases x with
  | some node => simp [Command.acts, hrun]
  | none =>
      cases hopened with
      | null _ _ habsent => exact absurd hdenotes (habsent.resolve_left hlog q k)

/-- The path `/D/./././` with `n` dots and no slash at its end. -/
def dotPath (n : ℕ) : List UInt8 := [0x2F, 0x44] ++ (List.replicate n [0x2F, 0x2E]).flatten

theorem dotPath_succ (n : ℕ) : dotPath (n + 1) = dotPath n ++ [0x2F, 0x2E] := by
  rw [dotPath, List.replicate_succ', List.flatten_append, List.flatten_singleton, dotPath,
    List.append_assoc]

theorem components_dotPath_append (n : ℕ) {base : List UInt8} (hbase : base ≠ [])
    (hslash : 0x2F ∉ base) (hlen : base.length ≤ 127) :
    components (stripSlash (dotPath n ++ 0x2F :: base)) =
      components (stripSlash (dotPath n)) ++ [base] := by
  obtain ⟨q, c, hq, hc⟩ : ∃ q c, dotPath n = 0x2F :: (q ++ [c]) ∧ c ≠ 0x2F := by
    cases n with
    | zero => exact ⟨[], 0x44, rfl, by decide⟩
    | succ n => exact ⟨(dotPath n ++ [0x2F]).tail, 0x2E, by
        rw [dotPath_succ]
        simp [dotPath], by decide⟩
  have hsplit := components_append (q := q ++ [c]) hbase hslash hlen
  rw [if_neg (by simp [hc])] at hsplit
  rw [hq]
  exact hsplit

theorem components_dotPath (n : ℕ) :
    components (stripSlash (dotPath n)) = [0x44] :: List.replicate n [0x2E] := by
  induction n with
  | zero => rfl
  | succ n ih =>
      rw [dotPath_succ, components_dotPath_append n (by decide) (by decide) (by decide), ih,
        List.replicate_succ', List.cons_append]

theorem denoted_dotPath (n : ℕ) : Denoted smallBpb dirVolume (dotPath n) 2 := by
  rw [Denoted, components_dotPath]
  have hdots : Walk smallBpb dirVolume 2 (List.replicate n [0x2E]) 2 := by
    induction n with
    | zero => exact .nil 2
    | succ n ih =>
        rw [List.replicate_succ']
        refine walk_append.2 ⟨2, ih, walk_singleton.2 ⟨0, ?_, ?_⟩⟩
        · exact found_dirVolume (by omega) (by decide +kernel)
        · obtain ⟨-, hisDir, -, hcluster⟩ := entry_dirVolume (show 0 < 2 by omega)
          exact ⟨hisDir, hcluster⟩
  exact walk_append.2 ⟨2, walk_root_dirVolume, hdots⟩

/-- In `/D/./././` with 125 dots `echo` to `ABC` opens `AB`. -/
theorem not_acts_on_fullPath : ∃ (s' : Session) (path : List UInt8),
    ReflTransGen (CdStep bootMounts) dirSession s' ∧
    Command.echo.acts (2 ^ 28 + 1) bootMounts [0x41, 0x42, 0x43] s' = some [.opened path] ∧
    fullPath s'.path [0x41, 0x42, 0x43] = path ++ [0x43] ∧
    ¬ (Act.opened path).On (fullPath s'.path [0x41, 0x42, 0x43]) := by
  have hresolve : pathResolve [0x2F] (dotPath 125).tail pathSize = dotPath 125 := by decide +kernel
  have hinv : Session.Inv smallBpb dirVolume dirSession.fs.heapStart ∅ dirSession :=
    ⟨⟨bpb_dirSession, rfl, rfl, rfl, holding_dirSession⟩, openable_root rfl rfl⟩
  have hboot : dirSession.path = [0x2F] := by decide +kernel
  obtain ⟨s', hstep, hpath⟩ := @exists_cdStep smallBpb dirVolume _ bootMounts dirSession
    (dotPath 125).tail layout_small rfl placed_dirSession dirsEnd_dirVolume hinv (by decide +kernel)
    (by decide +kernel) 2 (by
      rw [hboot, hresolve]
      exact denoted_dotPath 125)
  rw [hboot, hresolve] at hpath
  have hready := (hinv.run layout_small rfl placed_dirSession dirsEnd_dirVolume
    (.single hstep)).ready
  have hcut : pathResolve (dotPath 125) [0x41, 0x42, 0x43] pathSize =
      dotPath 125 ++ 0x2F :: [0x41, 0x42] := by decide +kernel
  have hab : Denotes smallBpb dirVolume 0
      (components (stripSlash (dotPath 125 ++ 0x2F :: [0x41, 0x42]))) 2 2 := by
    rw [components_dotPath_append 125 (by decide) (by decide) (by decide)]
    exact denotes_append.2 ⟨denoted_dotPath 125, found_dirVolume (by omega) (by decide +kernel)⟩
  have hfull : fullPath s'.path [0x41, 0x42, 0x43] =
      (dotPath 125 ++ 0x2F :: [0x41, 0x42]) ++ [0x43] := by
    rw [hpath]
    decide +kernel
  refine ⟨s', dotPath 125 ++ 0x2F :: [0x41, 0x42], .single hstep, ?_, hfull, fun hon => ?_⟩
  · rw [← hcut, ← hpath] at hab ⊢
    exact acts_echo layout_small rfl placed_dirSession dirsEnd_dirVolume hready
      (Nat.lt_succ_self _) hab
  · have hlen := congrArg List.length (hon.trans hfull)
    simp at hlen

/-- `touch A` in the root. -/
theorem acts_on_fullPath_dirSession : ∃ acts,
    Command.touch.acts 2 bootMounts [0x41] dirSession = some acts ∧
      ∀ act ∈ acts, act.On (fullPath dirSession.path [0x41]) := by
  have hsome : (Command.touch.acts 2 bootMounts [0x41] dirSession).isSome = true := by
    decide +kernel
  obtain ⟨acts, hacts⟩ := Option.isSome_iff_exists.1 hsome
  refine ⟨acts, hacts, (acts_on_fullPath ∅ layout_dirSession rfl rfl placed_dirSession
    holding_dirSession dirsEnd_dirSession rfl rfl .refl (by decide) (by decide) hacts).1
    (Or.inl (by decide +kernel))⟩

end Shell

end Yotos
