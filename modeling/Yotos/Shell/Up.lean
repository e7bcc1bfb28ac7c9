import Yotos.Shell.Cd

/-!
# `cd ..`

`cd ..` cuts the text of `current_path` before its last slash. That is the path of the
directory above if what is cut off leads down to a subdirectory. Where the text ends in a
slash, as `cd D/` leaves it, or in a dot entry, the directory stays the same one or is
another one.
-/

namespace Yotos

namespace Shell

open Bytes Fat16 Kheap Library Relation Vfs

/-- Directory `p` has the entry of directory `q`. The root is above itself. -/
inductive Above (b : Bpb) (d : Disk) : ℕ → ℕ → Prop
  | root : Above b d 0 0
  | entry {p k : ℕ} (hlive : LiveSlot b d p k)
      (hisDir : isDirectory (entryAt d (slotAddr b d p k)) = true)
      (hdot : isDot (entryAt d (slotAddr b d p k)) = false) :
      Above b d p (firstCluster (entryAt d (slotAddr b d p k)))

/-- What a lookup of `name` in directory `p` finds is the entry of subdirectory `q`. -/
def NamesSubdir (b : Bpb) (d : Disk) (p : ℕ) (name : List UInt8) (q : ℕ) : Prop :=
  ∃ k, Found b d p name k ∧ isDirectory (entryAt d (slotAddr b d p k)) = true ∧
    isDot (entryAt d (slotAddr b d p k)) = false ∧
    firstCluster (entryAt d (slotAddr b d p k)) = q

/-- Behind the text before the last slash of the path comes the name of a subdirectory,
and nothing that leads out of it again. Or the path and the text both stay at the root. -/
def BelowParent (b : Bpb) (d : Disk) (path : List UInt8) : Prop :=
  ∃ p rest, Denoted b d (pathParentAndName path pathSize pathSize).1 p ∧
    components (stripSlash path) =
      components (stripSlash (pathParentAndName path pathSize pathSize).1) ++ rest ∧
    ((p = 0 ∧ Walk b d 0 rest 0) ∨
      ∃ name more q, rest = name :: more ∧ NamesSubdir b d p name q ∧ Walk b d q more q)

/-- Every directory has one parent, and the dot entries name the directory itself and
its parent. -/
structure DotLaw (b : Bpb) (d : Disk) : Prop where
  parents : Parents (ParentOf b d) 0
  self : ∀ q k, IsDir b d q → LiveSlot b d q k → isDot (entryAt d (slotAddr b d q k)) = true →
    format83 (entryAt d (slotAddr b d q k)) = dotName →
    firstCluster (entryAt d (slotAddr b d q k)) = q
  up : ∀ q k, IsDir b d q → LiveSlot b d q k → isDot (entryAt d (slotAddr b d q k)) = true →
    format83 (entryAt d (slotAddr b d q k)) = dotdotName →
    (q = 0 ∧ firstCluster (entryAt d (slotAddr b d q k)) = 0) ∨
      ParentOf b d (firstCluster (entryAt d (slotAddr b d q k))) q

variable {b : Bpb} {d : Disk} {p q r : ℕ} {name path base : List UInt8}
  {rest : List (List UInt8)} {mounts : List Mountpoint} {s s' : Session}

/-! ## The text that is left -/

/-- `path_parent_and_name` would cut the same. -/
theorem parent_eq_cutPath (h : path.head? = some 0x2F) (hlen : path.length < pathSize) :
    (pathParentAndName path pathSize pathSize).1 = cutPath path := by
  obtain ⟨xs, rfl⟩ := List.head?_eq_some_iff.1 h
  rw [pathParentAndName, cutPath]
  split_ifs with hlast
  · rfl
  · rw [List.take_take, Nat.min_eq_right]
    have hle := lastSlash_lt h
    rw [if_neg hlast] at hle
    omega

theorem cmdCd_dotdot (h : Openable b d s.currentPath) :
    ∃ s', (∀ fuel, cmdCd fuel mounts dotdotName s = some ([], s')) ∧ s'.path = cutPath s.path := by
  by_cases hroot : s.currentPath 0 = 0x2F ∧ s.currentPath 1 = 0
  · refine ⟨s, fun fuel => by simp [cmdCd, dotdotName, hroot], ?_⟩
    have htext : s.path = [0x2F] := by
      refine text_eq ?_ hroot.2 (by decide) (by decide)
      rw [List.length_singleton, bytesAt, List.range_one, List.map_singleton, Nat.add_zero,
        hroot.1]
    rw [htext]
    rfl
  · refine ⟨⟨store8 s.currentPath (if lastSlash s.path = 0 then 1 else lastSlash s.path) 0, s.fs⟩,
      fun fuel => ?_, text_cut h⟩
    simp [cmdCd, dotdotName, hroot]

/-- What `cd ..` takes off: the components of the text behind the last slash, and an
empty one before them if there are two slashes. -/
theorem components_cutPath (h : path.head? = some 0x2F) :
    ∃ base, 0x2F ∉ base ∧ base <:+ path ∧ ∃ rest,
      components (stripSlash path) = components (stripSlash (cutPath path)) ++ rest ∧
        (rest = components base ∨ rest = [] :: components base) := by
  obtain ⟨base, hbase, rfl | ⟨q, rfl⟩⟩ := exists_last h
  · refine ⟨base, hbase, ⟨[0x2F], rfl⟩, components base, ?_, Or.inl rfl⟩
    rw [cutPath_root hbase]
    rfl
  · have happend := components_append_slash q base
    have hsuffix : base <:+ 0x2F :: q ++ 0x2F :: base := ⟨0x2F :: q ++ [0x2F], by simp⟩
    rw [cutPath_append hbase]
    split_ifs at happend
    · exact ⟨base, hbase, hsuffix, _, happend, Or.inr rfl⟩
    · exact ⟨base, hbase, hsuffix, _, happend, Or.inl rfl⟩

/-- A name of more than 127 characters is looked up in pieces, and not found. -/
theorem components_of_walk (hbase : 0x2F ∉ base) (hzero : 0 ∉ base)
    (h : Walk b d p (components base) q) : components base = [] ∨ components base = [base] := by
  by_cases hne : base = []
  · rw [hne]
    exact Or.inl rfl
  · right
    refine components_name hne hbase ?_
    have hnext : (nextComponent base).1 = base.take 127 :=
      List.takeWhile_eq_self_iff.2 fun x hx => decide_eq_true fun heq =>
        hbase (heq ▸ List.mem_of_mem_take hx)
    rw [components_of_ne_nil hne, hnext] at h
    cases h with
    | @cons _ k _ _ _ hfound _ _ =>
        have hmap := (nameMatch_iff fun hmem => hzero (List.mem_of_mem_take hmem)).1 hfound.named
        have hlen := congrArg List.length hmap
        rw [List.length_map, List.length_map, List.length_take] at hlen
        have hshort := format83_length_le (entryAt d (slotAddr b d p k))
        omega

/-! ## Up and down -/

theorem NamesSubdir.above (h : NamesSubdir b d p name q) : Above b d p q := by
  obtain ⟨k, hfound, hisDir, hdot, rfl⟩ := h
  exact .entry hfound.live hisDir hdot

theorem NamesSubdir.parentOf (hp : IsDir b d p) (h : NamesSubdir b d p name q) :
    ParentOf b d p q := by
  obtain ⟨k, hfound, hisDir, hdot, hcluster⟩ := h
  exact ⟨k, hp, hfound.live, hisDir, hdot, hcluster⟩

theorem Above.cases (hp : IsDir b d p) (h : Above b d p q) :
    (p = 0 ∧ q = 0) ∨ ParentOf b d p q := by
  cases h with
  | root => exact Or.inl ⟨rfl, rfl⟩
  | entry hlive hisDir hdot => exact Or.inr ⟨_, hp, hlive, hisDir, hdot, rfl⟩

namespace DotLaw

theorem dotDirs (h : DotLaw b d) : DotDirs b d := by
  intro q k hq hlive hdot
  rcases format83_of_isDot hdot with hname | hname
  · rwa [h.self q k hq hlive hdot hname]
  · rcases h.up q k hq hlive hdot hname with ⟨-, hzero⟩ | ⟨j, hsub⟩
    · rw [hzero]
      exact .root
    · exact hsub.dir

theorem acyclic (h : DotLaw b d) (hq : IsDir b d q) : ¬ TransGen (ParentOf b d) q q :=
  h.parents.acyclic (isDir_iff_reachable.1 hq)

/-- Where one name leads. -/
theorem walk_singleton_cases (h : DotLaw b d) (hp : IsDir b d p) (hwalk : Walk b d p [name] q) :
    NamesSubdir b d p name q ∨ q = p ∨ (p = 0 ∧ q = 0) ∨ ParentOf b d q p := by
  obtain ⟨k, hfound, hisDir, rfl⟩ := walk_singleton.1 hwalk
  cases hdot : isDot (entryAt d (slotAddr b d p k)) with
  | false => exact Or.inl ⟨k, hfound, hisDir, hdot, rfl⟩
  | true =>
      rcases format83_of_isDot hdot with hname | hname
      · exact Or.inr (Or.inl (h.self p k hp hfound.live hdot hname))
      · exact Or.inr (Or.inr (h.up p k hp hfound.live hdot hname))

/-- One name that leads to a directory below is the name of that subdirectory. -/
theorem namesSubdir (h : DotLaw b d) (hp : IsDir b d p) (hwalk : Walk b d p [name] q)
    (hparent : ParentOf b d p q) : NamesSubdir b d p name q := by
  rcases h.walk_singleton_cases hp hwalk with hnames | rfl | ⟨rfl, rfl⟩ | hback
  · exact hnames
  · exact absurd (.single hparent) (h.acyclic hp)
  · exact absurd hparent (h.parents.root 0)
  · exact absurd (.tail (.single hparent) hback) (h.acyclic hp)

end DotLaw

/-- An entry without a name is no dot entry. -/
theorem isDot_of_nameMatch_nil {e : Bytes} (h : nameMatch e [] = true) : isDot e = false := by
  rw [Bool.eq_false_iff]
  intro hdot
  have hnil : format83 e = [] := List.map_eq_nil_iff.1 ((nameMatch_iff (by simp)).1 h)
  rcases format83_of_isDot hdot with hname | hname
  · exact List.cons_ne_nil _ _ (hname.symm.trans hnil)
  · exact List.cons_ne_nil _ _ (hname.symm.trans hnil)

/-- What is cut off and leads down by one directory begins with its name. -/
theorem exists_name_of_parentOf (hlaw : DotLaw b d) (hbase : 0x2F ∉ base) (hzero : 0 ∉ base)
    (hp : IsDir b d p) (hrest : rest = components base ∨ rest = [] :: components base)
    (hwalk : Walk b d p rest q) (hparent : ParentOf b d p q) :
    ∃ name more q, rest = name :: more ∧ NamesSubdir b d p name q ∧ Walk b d q more q := by
  rcases hrest with rfl | rfl
  · rcases components_of_walk hbase hzero hwalk with hnil | hone
    · rw [hnil] at hwalk
      cases hwalk with | nil => exact absurd (.single hparent) (hlaw.acyclic hp)
    · rw [hone] at hwalk ⊢
      exact ⟨base, [], q, rfl, hlaw.namesSubdir hp hwalk hparent, .nil q⟩
  · cases hwalk with
    | @cons _ k _ _ _ hfound hisDir hmore =>
        have hnames : NamesSubdir b d p [] (firstCluster (entryAt d (slotAddr b d p k))) :=
          ⟨k, hfound, hisDir, isDot_of_nameMatch_nil hfound.named, rfl⟩
        generalize firstCluster (entryAt d (slotAddr b d p k)) = c at hnames hmore
        have hc := hnames.parentOf hp
        refine ⟨[], _, c, rfl, hnames, ?_⟩
        rcases components_of_walk hbase hzero hmore with hnil | hone
        · rw [hnil]
          exact .nil c
        · rw [hone] at hmore ⊢
          have hchild : IsDir b d c := hc.choose_spec.isDir_child
          rcases hlaw.walk_singleton_cases hchild hmore with hsub | rfl | ⟨-, rfl⟩ | hback
          · -- the subdirectory would have the parents `p` and `c`
            obtain rfl := hlaw.parents.unique _ _ _ hparent (hsub.parentOf hchild)
            exact absurd (.single hc) (hlaw.acyclic hp)
          · exact hmore
          · exact absurd hparent (hlaw.parents.root p)
          · obtain rfl := hlaw.parents.unique _ _ _ hc hback
            exact absurd (.single hparent) (hlaw.acyclic hp)

/-! ## The law of `cd ..` -/

/-- When the text before the last slash is the path of the directory above. -/
theorem above_iff_belowParent (hhead : path.head? = some 0x2F) (hlen : path.length < pathSize)
    (hzero : 0 ∉ path) (hq : Denoted b d path q) (hp : Denoted b d (cutPath path) p) :
    (BelowParent b d path → Above b d p q) ∧
      (DotLaw b d → Above b d p q → BelowParent b d path) := by
  have hparent := parent_eq_cutPath hhead hlen
  constructor
  · rintro ⟨p', rest, hp', hrest, hcase⟩
    rw [hparent] at hp' hrest
    obtain rfl := hp.unique hp'
    rw [Denoted, hrest] at hq
    obtain ⟨p', hp', hwalk⟩ := walk_append.1 hq
    obtain rfl := hp.unique hp'
    rcases hcase with ⟨rfl, hroot⟩ | ⟨name, more, c, rfl, hnames, hmore⟩
    · obtain rfl := hwalk.unique hroot
      exact .root
    · obtain ⟨k, hfound, hisDir, hdot, rfl⟩ := hnames
      obtain rfl := hwalk.unique (.cons hfound hisDir hmore)
      exact .entry hfound.live hisDir hdot
  · intro hlaw habove
    have hdir : IsDir b d p := hp.isDir hlaw.dotDirs .root
    obtain ⟨base, hbase, hsuffix, rest, hrest, hshape⟩ := components_cutPath hhead
    rw [Denoted, hrest] at hq
    obtain ⟨p', hp', hwalk⟩ := walk_append.1 hq
    obtain rfl := hp.unique hp'
    refine ⟨p, rest, hparent.symm ▸ hp, hparent.symm ▸ hrest, ?_⟩
    rcases habove.cases hdir with ⟨rfl, rfl⟩ | hchild
    · exact Or.inl ⟨rfl, hwalk⟩
    · exact Or.inr (exists_name_of_parentOf hlaw hbase (fun hmem => hzero (hsuffix.mem hmem)) hdir
        hshape hwalk hchild)

/-- After any `cd` commands, when `current_path` is the path of directory `q`, the command
`cd ..` leaves the path of the directory above it if the path is one below its parent
text, and only then on a volume whose dot entries are in order. -/
theorem cd_dotdot_of_run (L : Set (ℕ × Block)) (hb : Layout s.fs.bpb)
    (hmounted : s.fs.mounted = true) (hroot : vfsGetRoot mounts = some fat16RootNode)
    (hp : Placed s.fs.heapStart) (hheap : Holding s.fs.heap s.fs.heapStart L)
    (hends : DirsEnd s.fs.bpb s.fs.disk) (hslash : s.currentPath 0 = 0x2F)
    (hend : s.currentPath 1 = 0) (hrun : ReflTransGen (CdStep mounts) s s')
    (hq : Denoted s.fs.bpb s.fs.disk s'.path q) :
    ∃ s'' p, (∀ fuel, cmdCd fuel mounts dotdotName s' = some ([], s'')) ∧
      Denoted s.fs.bpb s.fs.disk s''.path p ∧
      (BelowParent s.fs.bpb s.fs.disk s'.path → Above s.fs.bpb s.fs.disk p q) ∧
      (DotLaw s.fs.bpb s.fs.disk → Above s.fs.bpb s.fs.disk p q →
        BelowParent s.fs.bpb s.fs.disk s'.path) := by
  have hinv : Session.Inv s.fs.bpb s.fs.disk s.fs.heapStart L s :=
    ⟨⟨rfl, rfl, hmounted, rfl, hheap⟩, openable_root hslash hend⟩
  have hopen := (hinv.run hb hroot hp hends hrun).openable
  obtain ⟨s'', hcmd, hpath⟩ : ∃ s'', (∀ fuel, cmdCd fuel mounts dotdotName s' = some ([], s'')) ∧
      s''.path = cutPath s'.path := cmdCd_dotdot hopen
  obtain ⟨p, hdenoted⟩ := cutPath_denoted hopen.head hq
  refine ⟨s'', p, hcmd, ?_, above_iff_belowParent hopen.head hopen.fits (zero_not_mem_text _ _) hq
    hdenoted⟩
  rw [hpath]
  exact hdenoted

theorem dotLaw_dirVolume : DotLaw smallBpb dirVolume := by
  have hsub : ∀ p k q, Subdir smallBpb dirVolume p k q → p = 0 ∧ q = 2 := by
    intro p k q hsub
    rcases subdirs_dirVolume (isDir_dirVolume hsub.dir) hsub.live hsub.isDir with
      ⟨rfl, rfl⟩ | ⟨rfl, hk⟩
    · exact ⟨rfl, hsub.cluster.symm.trans entry_root_dirVolume.2.2⟩
    · have hdot := hsub.notDot
      rw [(entry_dirVolume hk).1] at hdot
      cases hdot
  have hdots : ∀ q k, IsDir smallBpb dirVolume q → LiveSlot smallBpb dirVolume q k →
      isDot (entryAt dirVolume (slotAddr smallBpb dirVolume q k)) = true → q = 2 ∧ k < 2 := by
    intro q k hq hlive hdot
    have hisDir := (Bool.and_eq_true_iff.1 hdot).1
    rcases subdirs_dirVolume (isDir_dirVolume hq) hlive hisDir with ⟨rfl, rfl⟩ | hk
    · rw [entry_root_dirVolume.1] at hdot
      cases hdot
    · exact hk
  refine ⟨⟨fun p ⟨k, hk⟩ => ?_, fun p p' q ⟨k, hk⟩ ⟨k', hk'⟩ => ?_⟩, fun q k hq hlive hdot hname => ?_,
    fun q k hq hlive hdot hname => ?_⟩
  · exact absurd (hsub p k 0 hk).2 (by omega)
  · exact (hsub p k q hk).1.trans (hsub p' k' q hk').1.symm
  · obtain ⟨rfl, hk⟩ := hdots q k hq hlive hdot
    obtain ⟨-, -, hformat, hcluster⟩ := entry_dirVolume hk
    rw [hformat] at hname
    have hlen := congrArg List.length hname
    rw [List.length_replicate, dotName, List.length_singleton] at hlen
    rw [hcluster, if_pos (by omega)]
  · obtain ⟨rfl, hk⟩ := hdots q k hq hlive hdot
    obtain ⟨-, -, hformat, hcluster⟩ := entry_dirVolume hk
    rw [hformat] at hname
    have hlen := congrArg List.length hname
    simp only [List.length_replicate, dotdotName, List.length_cons, List.length_nil] at hlen
    rw [hcluster, if_neg (by omega)]
    exact Or.inr ⟨0, .root, liveSlot_root_dirVolume.2 rfl, entry_root_dirVolume.2.1,
      entry_root_dirVolume.1, entry_root_dirVolume.2.2⟩

/-- `cd D/` and `cd ..`: the path is `/D`, and still that of `D`. -/
theorem not_cd_dotdot_dirSession : ∃ s' s'' : Session,
    ReflTransGen (CdStep bootMounts) dirSession s' ∧
    cmdCd 0 bootMounts dotdotName s' = some ([], s'') ∧
    DotLaw dirSession.fs.bpb dirSession.fs.disk ∧
    Denoted dirSession.fs.bpb dirSession.fs.disk s'.path 2 ∧
    Denoted dirSession.fs.bpb dirSession.fs.disk s''.path 2 ∧
    ¬ Above dirSession.fs.bpb dirSession.fs.disk 2 2 := by
  have heval : ((cmdCd 2 bootMounts [0x44, 0x2F] dirSession).bind fun r =>
      (cmdCd 0 bootMounts dotdotName r.2).map fun r' => (r.2.path, r'.1, r'.2.path)) =
      some ([0x2F, 0x44, 0x2F], [], [0x2F, 0x44]) := by decide +kernel
  obtain ⟨⟨out, s'⟩, hrun, hmap⟩ := Option.bind_eq_some_iff.1 heval
  obtain ⟨⟨out', s''⟩, hrun', hpaths⟩ := Option.map_eq_some_iff.1 hmap
  obtain ⟨hpath, hout⟩ := Prod.mk.inj hpaths
  obtain ⟨rfl, hpath'⟩ := Prod.mk.inj hout
  rw [bpb_dirSession]
  refine ⟨s', s'', .single (.cd (by decide) hrun), hrun', dotLaw_dirVolume, ?_, ?_, ?_⟩
  · rw [hpath]
    exact walk_root_dirVolume
  · rw [hpath']
    exact walk_root_dirVolume
  · intro habove
    have hdir : IsDir smallBpb dirVolume 2 :=
      walk_root_dirVolume.isDir dotLaw_dirVolume.dotDirs .root
    rcases habove.cases hdir with ⟨hzero, -⟩ | hparent
    · exact absurd hzero (by omega)
    · exact dotLaw_dirVolume.acyclic hdir (.single hparent)

/-- `D` is the entry of `/D` in the directory of the text before its last slash. -/
theorem belowParent_dirVolume : BelowParent smallBpb dirVolume [0x2F, 0x44] := by
  have hparent : (pathParentAndName [0x2F, 0x44] pathSize pathSize).1 = [0x2F] := by decide
  rw [BelowParent, hparent]
  exact ⟨0, [[0x44]], denoted_root, by decide, Or.inr ⟨[0x44], [], 2, rfl,
    ⟨0, found_root_dirVolume, entry_root_dirVolume.2.1, entry_root_dirVolume.1,
      entry_root_dirVolume.2.2⟩, .nil 2⟩⟩

/-- On the same session `cd D` and `cd ..` lead to the directory that has the entry of `D`. -/
theorem cd_dotdot_of_run_dirSession : ∃ s' s'' : Session, ∃ p,
    ReflTransGen (CdStep bootMounts) dirSession s' ∧ s'.path = [0x2F, 0x44] ∧
      (∀ fuel, cmdCd fuel bootMounts dotdotName s' = some ([], s'')) ∧
      Denoted dirSession.fs.bpb dirSession.fs.disk s''.path p ∧
      Above dirSession.fs.bpb dirSession.fs.disk p 2 := by
  have heval : ((cmdCd 2 bootMounts [0x44] dirSession).map fun r => r.2.path) =
      some [0x2F, 0x44] := by
    decide +kernel
  obtain ⟨⟨out, s'⟩, hcmd, hpath⟩ := Option.map_eq_some_iff.1 heval
  have hrun : ReflTransGen (CdStep bootMounts) dirSession s' := .single (.cd (by decide) hcmd)
  have hq : Denoted dirSession.fs.bpb dirSession.fs.disk s'.path 2 := by
    rw [hpath, bpb_dirSession]
    exact walk_root_dirVolume
  obtain ⟨s'', p, hup, hdenoted, habove, -⟩ := cd_dotdot_of_run ∅ layout_dirSession rfl rfl
    placed_dirSession holding_dirSession dirsEnd_dirSession rfl rfl hrun hq
  refine ⟨s', s'', p, hrun, hpath, hup, hdenoted, habove ?_⟩
  rw [hpath, bpb_dirSession]
  exact belowParent_dirVolume

end Shell

end Yotos
