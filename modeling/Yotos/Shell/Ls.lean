import Yotos.Fat16.Entries
import Yotos.Shell.Cd

/-!
# `ls`

`cmd_ls` asks for the entries of a directory by their numbers, each time from the start of
the directory. What it prints is the list of the entries, each once and in order, and it
leaves the volume and the heap as they were.
-/

namespace Yotos

namespace Vfs

open Fat16

/-- `vfs_readdir`. -/
def vfsReaddir (fuel : ℕ) (node : VfsNode) (index : ℕ) (fs : Fs) : Option (Option VfsDirent) :=
  if node.flags &&& vfsDir = 0 then some none
  else
    match node.ops with
    | .file => some none
    | .dir => fat16VfsReaddir fuel node index fs
    | .root => fat16VfsReaddir fuel node index fs

end Vfs

namespace Shell

open Bytes Fat16 Kheap Library Vfs

/-- The line for an entry. -/
def lsLine (isDir : Bool) (name : List UInt8) : List UInt8 :=
  ascii (if isDir then "[DIR]  " else "[FILE] ") ++ name ++ ascii "\n"

/-- The loop of `cmd_ls`, from entry `i` on: what it prints. -/
def lsLoop (fuel : ℕ) (dir : VfsNode) (fs : Fs) : (rounds i : ℕ) → Option (List UInt8)
  | 0, _ => none
  | rounds + 1, i =>
      (vfsReaddir fuel dir i fs).bind fun
        | none => some []
        | some entry =>
            (lsLoop fuel dir fs rounds ((i + 1) % 2 ^ 32)).map fun out =>
              lsLine (decide (entry.flags &&& vfsDir ≠ 0)) entry.name ++ out

/-- `cmd_ls`. -/
def cmdLs (fuel : ℕ) (mounts : List Mountpoint) (arg : List UInt8) (s : Session) :
    Option (List UInt8 × Session) :=
  let path := pathResolve s.path arg pathSize
  (vfsOpen fuel mounts path s.fs).bind fun
    | (none, fs) => some (ascii "ls: " ++ path ++ ascii ": not found\n", { s with fs := fs })
    | (some dir, fs) =>
        if dir.flags &&& vfsDir = 0 then
          some (ascii "ls: " ++ path ++ ascii ": not a directory\n",
            { s with fs := vfsClose dir fs })
        else
          (lsLoop fuel dir fs fuel 0).map fun out => (out, { s with fs := vfsClose dir fs })

/-- What `ls` prints for a path: the entries of the directory it denotes, or a message. A path
that denotes something is not found if the heap refused a node on the way. -/
inductive LsOutcome (b : Bpb) (d : Disk) (refused : Prop) (path : List UInt8) :
    List UInt8 → Prop
  | listed {q : ℕ} {entries : List (List UInt8 × Item ℕ)} (hdir : Denoted b d path q)
      (hlists : Lists b d q entries) :
      LsOutcome b d refused path (entries.flatMap fun e => lsLine e.2.isDir e.1)
  | notDirectory {q k : ℕ} (hdenotes : Denotes b d 0 (components (stripSlash path)) q k)
      (hfile : isDirectory (entryAt d (slotAddr b d q k)) = false) :
      LsOutcome b d refused path (ascii "ls: " ++ path ++ ascii ": not a directory\n")
  | notFound (habsent : refused ∨ (∀ q, ¬ Denoted b d path q) ∧
      ∀ q k, ¬ Denotes b d 0 (components (stripSlash path)) q k) :
      LsOutcome b d refused path (ascii "ls: " ++ path ++ ascii ": not found\n")

variable {b : Bpb} {d : Disk} {start fuel i rounds : ℕ} {L : Set (ℕ × Block)}
  {mounts : List Mountpoint} {s : Session} {arg : List UInt8} {fs fs' : Fs} {node : VfsNode}
  {entries : List (List UInt8 × Item ℕ)} {names : List (List UInt8)} {log : List (Event ℕ)}

/-- From entry `i` on the loop prints the entries from there on. -/
theorem lsLoop_eq (hb : Layout fs.bpb) (hmounted : fs.mounted = true)
    (hdir : node.flags &&& vfsDir ≠ 0) (hops : node.ops ≠ .file)
    (hL : Lists fs.bpb fs.disk node.inode entries) (hfuel : 2 ^ 28 ≤ fuel)
    (hi : i ≤ entries.length) (hrounds : entries.length < i + rounds) :
    lsLoop fuel node fs rounds i =
      some ((entries.drop i).flatMap fun e => lsLine e.2.isDir e.1) := by
  induction rounds generalizing i with
  | zero => omega
  | succ rounds ih =>
      have hlen := hL.length_lt hb.spc_pos
      obtain ⟨r, hr⟩ := hL.exists_readdir hb.spc_pos hmounted hfuel i
      have hread := hL.readdir hb.spc_pos hmounted (show i < 2 ^ 32 by omega) hr
      have hvfs : vfsReaddir fuel node i fs = some r := by
        rw [vfsReaddir, if_neg hdir]
        cases htable : node.ops with
        | file => exact absurd htable hops
        | dir => exact hr
        | root => exact hr
      rw [lsLoop, hvfs, Option.bind_some]
      cases r with
      | none =>
          have hend : entries.length ≤ i :=
            List.getElem?_eq_none_iff.1 (Option.map_eq_none_iff.1 hread.symm)
          rw [List.drop_eq_nil_of_le hend]
          rfl
      | some entry =>
          obtain ⟨e, he, heq⟩ := Option.map_eq_some_iff.1 hread.symm
          obtain ⟨hlt, hget⟩ := List.getElem?_eq_some_iff.1 he
          obtain ⟨hname, hisDir⟩ := Prod.mk.inj heq
          dsimp only
          rw [Nat.mod_eq_of_lt (by omega), ih hlt (by omega), List.drop_eq_getElem_cons hlt, hget,
            List.flatMap_cons, hname, hisDir]
          rfl

/-- A directory that was opened does not have the functions of files. -/
theorem ops_of_opened {L' : Set (ℕ × Block)} (h : Opened fs names L' log (some node) fs')
    (hdir : node.flags &&& vfsDir ≠ 0) : node.ops ≠ .file ∧ fs'.bpb = fs.bpb ∧
      fs'.disk = fs.disk ∧ fs'.mounted = fs.mounted := by
  cases h with
  | root => exact ⟨by decide, rfl, rfl, rfl⟩
  | node =>
      refine ⟨?_, rfl, rfl, rfl⟩
      simp [slotNode, nodeOf, isDirectory_of_flags hdir]

/-- The loop prints the entries of the directory that was opened. -/
theorem lsLoop_of_opened {L' : Set (ℕ × Block)} (hb : Layout fs.bpb)
    (hmounted : fs.mounted = true) (hends : DirsEnd fs.bpb fs.disk)
    (hopened : Opened fs names L' log (some node) fs') (hdir : node.flags &&& vfsDir ≠ 0)
    (hwalk : Walk fs.bpb fs.disk 0 names node.inode) (hfuel : 2 ^ 32 < fuel) :
    ∃ entries, Lists fs.bpb fs.disk node.inode entries ∧
      lsLoop fuel node fs' fuel 0 = some (entries.flatMap fun e => lsLine e.2.isDir e.1) := by
  obtain ⟨hops, hbpb, hdisk, hmounted'⟩ := ops_of_opened hopened hdir
  obtain ⟨n, hn⟩ := hends _ _ hwalk
  obtain ⟨e, -, hend, hbefore⟩ := exists_first_end hb.spc_pos ⟨n, hn⟩
  obtain ⟨entries, hlists⟩ : ∃ entries, Lists fs.bpb fs.disk node.inode entries :=
    ⟨_, e, hend, hbefore, rfl⟩
  have hlen := hlists.length_lt hb.spc_pos
  refine ⟨entries, hlists, ?_⟩
  rw [← hbpb] at hb hlists
  rw [← hdisk] at hlists
  exact lsLoop_eq hb (hmounted'.trans hmounted) hdir hops hlists (by omega) (Nat.zero_le _)
    (by omega)

/-- For every argument, `ls` returns and prints what the path denotes, and leaves the
volume, the heap and the path of the shell as they were. With nothing on the heap no node is
refused. -/
theorem cmdLs_eq (L : Set (ℕ × Block)) (arg : List UInt8) (fuel : ℕ) (hb : Layout b)
    (hroot : vfsGetRoot mounts = some fat16RootNode) (hp : Placed start) (hends : DirsEnd b d)
    (hready : Ready b d start L s.fs) (hfuel : 2 ^ 32 < fuel) :
    (L = ∅ → .refuse ∉ vfsOpenLog fuel mounts (pathResolve s.path arg pathSize) s.fs) ∧
    ∃ out s', cmdLs fuel mounts arg s = some (out, s') ∧ s'.currentPath = s.currentPath ∧
      Ready b d start L s'.fs ∧
      LsOutcome b d (.refuse ∈ vfsOpenLog fuel mounts (pathResolve s.path arg pathSize) s.fs)
        (pathResolve s.path arg pathSize) out := by
  obtain ⟨rfl, rfl, hmounted, rfl, hheap⟩ := hready
  obtain ⟨⟨r, fs'⟩, hopen⟩ := vfsOpen_isSome hb hmounted hroot hp hheap hends
    (show 2 ^ 28 < fuel by omega) (pathResolve s.path arg pathSize)
  obtain ⟨hopened, -⟩ := vfsOpen_outcome hb hmounted hroot hp hheap hends hopen
  constructor
  · rintro rfl
    exact vfsOpenLog_not_refused hb hmounted hroot hp hheap hends hopen
  cases r with
  | none =>
      have hnone : .refuse ∉ vfsOpenLog fuel mounts (pathResolve s.path arg pathSize) s.fs →
          ∀ q, ¬ Denoted s.fs.bpb s.fs.disk (pathResolve s.path arg pathSize) q := by
        intro hmet q hq
        obtain ⟨node, hnode, -⟩ := hopened.of_walk hmet hq
        cases hnode
      cases hopened with
      | @null heap _ hheap' habsent =>
          refine ⟨_, { s with fs := { s.fs with heap := heap } }, by rw [cmdLs, hopen]; rfl, rfl,
            ⟨rfl, rfl, hmounted, rfl, hheap'⟩, .notFound ?_⟩
          by_cases hmet : .refuse ∈ vfsOpenLog fuel mounts (pathResolve s.path arg pathSize) s.fs
          · exact Or.inl hmet
          · exact Or.inr ⟨hnone hmet, habsent.resolve_left hmet⟩
  | some node =>
      obtain ⟨heap, hclose, hheap'⟩ := hopened.close hp hheap
      by_cases hdir : node.flags &&& vfsDir = 0
      · refine ⟨ascii "ls: " ++ pathResolve s.path arg pathSize ++ ascii ": not a directory\n",
          { s with fs := { s.fs with heap := heap } }, ?_, rfl,
          ⟨rfl, rfl, hmounted, rfl, hheap'⟩, ?_⟩
        · rw [cmdLs, hopen, Option.bind_some]
          dsimp only
          rw [if_pos hdir, hclose]
        · cases hopened with
          | root => exact absurd hdir (by decide)
          | @node q k addr heap blk hdenotes =>
              exact .notDirectory hdenotes ((flags_nodeOf _ _ _ _).1 hdir)
      · have hwalk := hopened.walk hdir
        obtain ⟨entries, hlists, hloop⟩ :=
          lsLoop_of_opened hb hmounted hends hopened hdir hwalk hfuel
        refine ⟨_, { s with fs := { s.fs with heap := heap } }, ?_, rfl,
          ⟨rfl, rfl, hmounted, rfl, hheap'⟩, .listed hwalk hlists⟩
        rw [cmdLs, hopen, Option.bind_some]
        dsimp only
        rw [if_neg hdir, hloop, Option.map_some, hclose]

theorem lists_dirVolume : Lists smallBpb dirVolume 0 [([0x44], .dir 2)] := by
  refine ⟨1, by decide +kernel, fun n hn => ?_, by decide +kernel⟩
  obtain rfl : n = 0 := by omega
  decide +kernel

/-- `ls` in the root directory, with one directory in it. -/
theorem cmdLs_eq_dirSession : ∃ s', cmdLs (2 ^ 32 + 1) bootMounts [] dirSession =
    some (ascii "[DIR]  D\n", s') := by
  have hready : Ready dirSession.fs.bpb dirSession.fs.disk dirSession.fs.heapStart ∅
      dirSession.fs := ⟨rfl, rfl, rfl, rfl, holding_dirSession⟩
  have hroot : vfsGetRoot bootMounts = some fat16RootNode := rfl
  obtain ⟨hmet, out, s', hrun, -, -, hout⟩ := cmdLs_eq ∅ [] (2 ^ 32 + 1) layout_dirSession hroot
    placed_dirSession dirsEnd_dirSession hready (Nat.lt_succ_self _)
  have hpath : pathResolve dirSession.path [] pathSize = [0x2F] := by decide
  rw [hpath, bpb_dirSession] at hout
  refine ⟨s', hrun.trans ?_⟩
  cases hout with
  | @listed q L hdir hL =>
      have hwalk : Walk smallBpb dirVolume 0 [] q := hdir
      cases hwalk
      obtain rfl := hL.unique lists_dirVolume
      rfl
  | notDirectory hdenotes => exact absurd hdenotes not_denotes_nil
  | notFound habsent =>
      rcases habsent with hrefused | hnone
      · exact absurd hrefused (hmet rfl)
      · exact absurd denoted_root (hnone.1 0)

end Shell

end Yotos
