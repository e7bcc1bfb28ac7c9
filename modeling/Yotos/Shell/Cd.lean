import Mathlib.Logic.Relation
import Yotos.Shell.Text
import Yotos.Vfs.Open

/-!
# `cd`

`cd` checks a path against the disk before it keeps it, but for `cd ..`, which only cuts
the text. The invariant of a run is that the text is a path that leads to a directory:
what is left of such a path before one of its slashes leads to a directory as well.
-/

namespace Yotos

namespace Shell

open Bytes Fat16 Kheap Library Relation Vfs

/-- The path denotes directory `q`. -/
def Denoted (b : Bpb) (d : Disk) (path : List UInt8) (q : ℕ) : Prop :=
  Walk b d 0 (components (stripSlash path)) q

/-- One `cd` command. -/
inductive CdStep (mounts : List Mountpoint) : Session → Session → Prop
  | cd {fuel : ℕ} {arg out : List UInt8} {s s' : Session} (harg : 0 ∉ arg)
      (hrun : cmdCd fuel mounts arg s = some (out, s')) : CdStep mounts s s'

/-- The volume and the heap between commands: the disk `d` is mounted, and `L` is what is
in use. -/
structure Ready (b : Bpb) (d : Disk) (start : ℕ) (L : Set (ℕ × Block)) (fs : Fs) : Prop where
  bpb : fs.bpb = b
  disk : fs.disk = d
  mounted : fs.mounted = true
  heapStart : fs.heapStart = start
  heap : Holding fs.heap start L

/-- `current_path` is an absolute path of a directory that fits its array. -/
structure Openable (b : Bpb) (d : Disk) (buf : Bytes) : Prop where
  fits : (text buf pathSize).length < pathSize
  head : (text buf pathSize).head? = some 0x2F
  dir : ∃ q, Denoted b d (text buf pathSize) q

variable {b : Bpb} {d : Disk} {start fuel : ℕ} {L : Set (ℕ × Block)} {mounts : List Mountpoint}
  {s s' : Session} {arg out path q base : List UInt8} {fs fs' : Fs} {r : Option VfsNode}

/-! ## Cutting a path -/

theorem denoted_root : Denoted b d [0x2F] 0 := .nil 0

/-- The components of a path up to one of its slashes come first. -/
theorem exists_components_append (q base : List UInt8) :
    ∃ rest, components (q ++ 0x2F :: base) = components q ++ rest :=
  ⟨_, components_append_slash q base⟩

theorem Denoted.cut {r : ℕ} (h : Denoted b d (0x2F :: q ++ 0x2F :: base) r) :
    ∃ r', Denoted b d (0x2F :: q) r' := by
  obtain ⟨rest, hrest⟩ := exists_components_append q base
  have hwalk : Walk b d 0 (components (q ++ 0x2F :: base)) r := h
  rw [hrest] at hwalk
  obtain ⟨r', hr', -⟩ := walk_append.1 hwalk
  exact ⟨r', hr'⟩

/-- What `cd ..` makes of a path. -/
def cutPath (path : List UInt8) : List UInt8 :=
  path.take (if lastSlash path = 0 then 1 else lastSlash path)

theorem cutPath_append (hbase : 0x2F ∉ base) :
    cutPath (0x2F :: q ++ 0x2F :: base) = 0x2F :: q := by
  rw [cutPath, lastSlash_append hbase, if_neg (by simp), List.take_left]

theorem cutPath_root (hbase : 0x2F ∉ base) : cutPath (0x2F :: base) = [0x2F] := by
  have hlast := @lastSlash_append [] base hbase
  rw [List.nil_append, List.length_nil] at hlast
  rw [cutPath, hlast, if_pos rfl]
  rfl

/-- An absolute path ends in a name behind its first slash, or behind another one. -/
theorem exists_last (h : path.head? = some 0x2F) : ∃ base, 0x2F ∉ base ∧
    (path = 0x2F :: base ∨ ∃ q, path = 0x2F :: q ++ 0x2F :: base) := by
  obtain ⟨xs, rfl⟩ := List.head?_eq_some_iff.1 h
  by_cases hmem : 0x2F ∈ xs
  · obtain ⟨q, base, rfl, hbase⟩ := exists_split hmem
    exact ⟨base, hbase, Or.inr ⟨q, rfl⟩⟩
  · exact ⟨xs, hmem, Or.inl rfl⟩

theorem cutPath_head (h : path.head? = some 0x2F) : (cutPath path).head? = some 0x2F := by
  obtain ⟨base, hbase, rfl | ⟨q, rfl⟩⟩ := exists_last h
  · rw [cutPath_root hbase]
    rfl
  · rw [cutPath_append hbase]
    rfl

theorem cutPath_denoted {r : ℕ} (h : path.head? = some 0x2F) (hdir : Denoted b d path r) :
    ∃ r', Denoted b d (cutPath path) r' := by
  obtain ⟨base, hbase, rfl | ⟨q, rfl⟩⟩ := exists_last h
  · rw [cutPath_root hbase]
    exact ⟨0, denoted_root⟩
  · rw [cutPath_append hbase]
    exact hdir.cut

theorem lastSlash_lt (h : path.head? = some 0x2F) :
    (if lastSlash path = 0 then 1 else lastSlash path) ≤ path.length := by
  obtain ⟨base, hbase, rfl | ⟨q, rfl⟩⟩ := exists_last h
  · have hlast := @lastSlash_append [] base hbase
    rw [List.nil_append, List.length_nil] at hlast
    rw [hlast, if_pos rfl, List.length_cons]
    omega
  · rw [lastSlash_append hbase, if_neg (by simp), List.length_append]
    omega

/-! ## One command -/

/-- The array after `cd ..`. -/
theorem text_cut {buf : Bytes} (h : Openable b d buf) :
    text (store8 buf (if lastSlash (text buf pathSize) = 0 then 1 else
      lastSlash (text buf pathSize)) 0) pathSize = cutPath (text buf pathSize) := by
  have hle := lastSlash_lt h.head
  exact text_store8_zero hle (hle.trans_lt h.fits)

theorem text_keep {buf : Bytes} (hzero : 0 ∉ path) (hlen : path.length < pathSize) :
    text (strlcpy buf path pathSize) pathSize = path := by
  rw [(text_strlcpy buf hzero (by decide) le_rfl).1, List.take_of_length_le (by omega)]

/-- How `cd` changes `current_path`. -/
inductive CdOutcome (b : Bpb) (d : Disk) (arg : List UInt8) (buf : Bytes) : Bytes → Prop
  | stay (h : arg = [0x2E, 0x2E] → buf 0 = 0x2F ∧ buf 1 = 0) : CdOutcome b d arg buf buf
  | root (harg : arg ≠ [0x2E, 0x2E]) : CdOutcome b d arg buf (strlcpy buf [0x2F] pathSize)
  | up (harg : arg = [0x2E, 0x2E]) (hpath : ¬ (buf 0 = 0x2F ∧ buf 1 = 0)) :
      CdOutcome b d arg buf (store8 buf (if lastSlash (text buf pathSize) = 0 then 1 else
        lastSlash (text buf pathSize)) 0)
  | go {r : ℕ} (harg : arg ≠ [0x2E, 0x2E])
      (hdir : Denoted b d (pathResolve (text buf pathSize) arg pathSize) r) :
      CdOutcome b d arg buf (strlcpy buf (pathResolve (text buf pathSize) arg pathSize) pathSize)

theorem cmdCd_outcome (hb : Layout b) (hroot : vfsGetRoot mounts = some fat16RootNode)
    (hp : Placed start) (hends : DirsEnd b d) (hready : Ready b d start L s.fs)
    (h : cmdCd fuel mounts arg s = some (out, s')) :
    Ready b d start L s'.fs ∧ CdOutcome b d arg s.currentPath s'.currentPath := by
  unfold cmdCd at h
  split_ifs at h with hnone hup hself
  · obtain ⟨-, rfl⟩ := Prod.mk.inj (Option.some.inj h)
    refine ⟨hready, .root ?_⟩
    rintro rfl
    simp at hnone
  · obtain ⟨-, rfl⟩ := Prod.mk.inj (Option.some.inj h)
    exact ⟨hready, .stay fun _ => hself⟩
  · obtain ⟨-, rfl⟩ := Prod.mk.inj (Option.some.inj h)
    exact ⟨hready, .up hup hself⟩
  · obtain ⟨rfl, rfl, hmounted, rfl, hheap⟩ := hready
    obtain ⟨⟨r, fs'⟩, hopen, h⟩ := Option.map_eq_some_iff.1 h
    obtain ⟨hopened, -⟩ := vfsOpen_outcome hb hmounted hroot hp hheap hends hopen
    have hstay : CdOutcome s.fs.bpb s.fs.disk arg s.currentPath s.currentPath :=
      .stay fun heq => absurd heq hup
    cases r with
    | none =>
        obtain ⟨-, rfl⟩ := Prod.mk.inj h
        cases hopened with
        | null _ hheap' => exact ⟨⟨rfl, rfl, hmounted, rfl, hheap'⟩, hstay⟩
    | some node =>
        obtain ⟨heap, hclose, hheap'⟩ := hopened.close hp hheap
        dsimp only at h
        rw [hclose] at h
        split_ifs at h with hdir
        · obtain ⟨-, rfl⟩ := Prod.mk.inj h
          exact ⟨⟨rfl, rfl, hmounted, rfl, hheap'⟩, hstay⟩
        · obtain ⟨-, rfl⟩ := Prod.mk.inj h
          exact ⟨⟨rfl, rfl, hmounted, rfl, hheap'⟩, .go hup (hopened.walk hdir)⟩

/-- What `cd` leaves in `current_path` is the path of a directory again. -/
theorem CdOutcome.openable {buf buf' : Bytes} (harg : 0 ∉ arg) (h : Openable b d buf)
    (hout : CdOutcome b d arg buf buf') : Openable b d buf' := by
  have hfits := h.fits
  have hsize : pathSize = 256 := rfl
  cases hout with
  | stay => exact h
  | root =>
      have htext : text (strlcpy buf [0x2F] pathSize) pathSize = [0x2F] :=
        text_keep (by decide) (by decide)
      refine ⟨?_, ?_, 0, ?_⟩ <;> rw [htext]
      · decide
      · rfl
      · exact denoted_root
  | up =>
      have htext := text_cut h
      obtain ⟨r, hr⟩ := h.dir
      refine ⟨?_, ?_, ?_⟩ <;> rw [htext]
      · rw [cutPath, List.length_take]
        exact (Nat.min_le_right _ _).trans_lt hfits
      · exact cutPath_head h.head
      · exact cutPath_denoted h.head hr
  | @go r _ hdir =>
      have hlen : (pathResolve (text buf pathSize) arg pathSize).length ≤ pathSize - 1 :=
        length_pathResolve (Nat.le_sub_one_of_lt hfits)
      have hzero : 0 ∉ pathResolve (text buf pathSize) arg pathSize := by
        rw [pathResolve_eq_take (Nat.le_sub_one_of_lt hfits)]
        exact fun hmem => zero_not_mem_fullPath (zero_not_mem_text buf pathSize) harg
          (List.mem_of_mem_take hmem)
      have htext : text (strlcpy buf (pathResolve (text buf pathSize) arg pathSize) pathSize)
          pathSize = pathResolve (text buf pathSize) arg pathSize := text_keep hzero (by omega)
      refine ⟨?_, ?_, r, ?_⟩
      · rw [htext]
        omega
      · rw [htext]
        exact head_pathResolve h.head (Nat.le_sub_one_of_lt hfits) (by decide)
      · rw [htext]
        exact hdir

/-! ## Runs -/

/-- What holds between two commands. -/
structure Session.Inv (b : Bpb) (d : Disk) (start : ℕ) (L : Set (ℕ × Block)) (s : Session) :
    Prop where
  ready : Ready b d start L s.fs
  openable : Openable b d s.currentPath

theorem Session.Inv.run (hb : Layout b) (hroot : vfsGetRoot mounts = some fat16RootNode)
    (hp : Placed start) (hends : DirsEnd b d) (h : Session.Inv b d start L s)
    (hrun : ReflTransGen (CdStep mounts) s s') : Session.Inv b d start L s' := by
  induction hrun with
  | refl => exact h
  | tail _ hstep ih =>
      cases hstep with
      | cd harg hrun =>
          obtain ⟨hready, hout⟩ := cmdCd_outcome hb hroot hp hends ih.ready hrun
          exact ⟨hready, hout.openable harg ih.openable⟩

/-- The array at boot. -/
theorem openable_root {buf : Bytes} (hslash : buf 0 = 0x2F) (hend : buf 1 = 0) :
    Openable b d buf := by
  have htext : text buf pathSize = [0x2F] := by
    refine text_eq ?_ hend (by decide) (by decide)
    rw [List.length_singleton, bytesAt, List.range_one, List.map_singleton, Nat.add_zero, hslash]
  refine ⟨?_, ?_, 0, ?_⟩ <;> rw [htext]
  · decide
  · rfl
  · exact denoted_root

theorem exists_zero {buf : Bytes} (h : (text buf pathSize).length < pathSize) :
    ∃ i < pathSize, buf i = 0 := by
  by_contra hno
  push Not at hno
  have hall : text buf pathSize = bytesAt buf 0 pathSize := by
    refine List.takeWhile_eq_self_iff.2 fun x hx => ?_
    obtain ⟨i, hi, rfl⟩ := List.mem_map.1 hx
    simpa using hno i (List.mem_range.1 hi)
  rw [hall, length_bytesAt] at h
  exact Nat.lt_irrefl _ h

/-- After any `cd` commands `current_path` begins with a slash, is terminated within its
array, and is the path of a directory for `vfs_open`. -/
theorem currentPath_of_run (L : Set (ℕ × Block)) (hb : Layout s.fs.bpb)
    (hmounted : s.fs.mounted = true) (hroot : vfsGetRoot mounts = some fat16RootNode)
    (hp : Placed s.fs.heapStart) (hheap : Holding s.fs.heap s.fs.heapStart L)
    (hends : DirsEnd s.fs.bpb s.fs.disk) (hslash : s.currentPath 0 = 0x2F)
    (hend : s.currentPath 1 = 0) (hrun : ReflTransGen (CdStep mounts) s s') :
    s'.currentPath 0 = 0x2F ∧ (∃ i < pathSize, s'.currentPath i = 0) ∧
      ∀ fuel > 2 ^ 28, ∃ r fs', vfsOpen fuel mounts s'.path s'.fs = some (r, fs') ∧
        (.refuse ∉ vfsOpenLog fuel mounts s'.path s'.fs →
          ∃ node, r = some node ∧ node.flags &&& vfsDir ≠ 0) := by
  have hinv : Session.Inv s.fs.bpb s.fs.disk s.fs.heapStart L s :=
    ⟨⟨rfl, rfl, hmounted, rfl, hheap⟩, openable_root hslash hend⟩
  obtain ⟨⟨hbpb, hdisk, hmounted', hstart, hheap'⟩, hfits, hhead, q, hdir⟩ :=
    hinv.run hb hroot hp hends hrun
  rw [← hbpb] at hb hdir hends
  rw [← hdisk] at hdir hends
  rw [← hstart] at hp hheap'
  refine ⟨?_, exists_zero hfits, fun fuel hfuel => ?_⟩
  · have hbytes := bytesAt_length_text s'.currentPath pathSize
    obtain ⟨xs, hxs⟩ := List.head?_eq_some_iff.1 hhead
    rw [hxs, List.length_cons, bytesAt, List.range_succ_eq_map, List.map_cons] at hbytes
    exact (List.cons.inj hbytes).1
  · obtain ⟨⟨r, fs'⟩, hopen⟩ := vfsOpen_isSome hb hmounted' hroot hp hheap' hends hfuel s'.path
    obtain ⟨hopened, -⟩ := vfsOpen_outcome hb hmounted' hroot hp hheap' hends hopen
    refine ⟨r, fs', hopen, fun hlog => ?_⟩
    obtain ⟨node, hr, hflags, -⟩ := hopened.of_walk hlog hdir
    exact ⟨node, hr, hflags⟩

/-! ## A session on a small volume -/

/-- The mount points after boot. -/
abbrev bootMounts : List Mountpoint := [⟨[0x2F], fat16RootNode⟩]

/-- The session after boot, on the volume with one directory. -/
def dirSession : Session where
  currentPath := fun a => if a = 0 then 0x2F else 0
  fs := mountedFs dirVolume

theorem placed_dirSession : Placed dirSession.fs.heapStart :=
  (⟨by decide, by decide⟩ : Placed 0x111000)

theorem holding_dirSession : Holding dirSession.fs.heap dirSession.fs.heapStart ∅ :=
  holding_kheapInit placed_dirSession _

theorem bpb_dirSession : dirSession.fs.bpb = smallBpb := mountedFs_dirVolume

theorem layout_dirSession : Layout dirSession.fs.bpb := bpb_dirSession.symm ▸ layout_small

theorem dirsEnd_dirSession : DirsEnd dirSession.fs.bpb dirSession.fs.disk :=
  bpb_dirSession.symm ▸ dirsEnd_dirVolume

/-- `cd D/` on it. -/
theorem cdStep_dirSession : ∃ s', CdStep bootMounts dirSession s' ∧ s'.path = [0x2F, 0x44, 0x2F] := by
  have heval : ((cmdCd 2 bootMounts [0x44, 0x2F] dirSession).map fun r => r.2.path) =
      some [0x2F, 0x44, 0x2F] := by decide +kernel
  obtain ⟨⟨out, s'⟩, hrun, hpath⟩ := Option.map_eq_some_iff.1 heval
  exact ⟨s', .cd (by decide) hrun, hpath⟩

/-- After `cd D/` the path `/D/` is that of a directory. -/
theorem currentPath_of_run_dirSession : ∃ s' : Session, s'.path = [0x2F, 0x44, 0x2F] ∧
    s'.currentPath 0 = 0x2F ∧ (∃ i < pathSize, s'.currentPath i = 0) ∧
      ∀ fuel > 2 ^ 28, ∃ r fs', vfsOpen fuel bootMounts s'.path s'.fs = some (r, fs') ∧
        (.refuse ∉ vfsOpenLog fuel bootMounts s'.path s'.fs →
          ∃ node, r = some node ∧ node.flags &&& vfsDir ≠ 0) := by
  obtain ⟨s', hstep, hpath⟩ := cdStep_dirSession
  exact ⟨s', hpath, currentPath_of_run ∅ layout_dirSession rfl rfl placed_dirSession
    holding_dirSession dirsEnd_dirSession rfl rfl (.single hstep)⟩

end Shell

end Yotos
