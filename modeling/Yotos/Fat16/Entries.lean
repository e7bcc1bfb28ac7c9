import Yotos.Fat16.FileRun
import Yotos.Fat16.Hierarchy
import Yotos.Fat16.Listing
import Yotos.Library.FileSystem

/-!
# The entries of the directories

The directories of a volume by their inodes, with what `fat16_vfs_readdir` shows of them:
the names and what they stand for, a subdirectory by its inode and a file by the address
of its entry. A write leaves all of that alone, and a creation inserts one entry.
-/

namespace Yotos

namespace Fat16

open Bytes Kheap Library

/-- What the entry at address `a` stands for. -/
def item (d : Disk) (a : ℕ) : Item ℕ :=
  if isDirectory (entryAt d a) then .dir (firstCluster (entryAt d a)) else .file a

/-- The entries at these addresses that are shown, up to the end-of-directory mark. -/
def entriesAt (d : Disk) : List ℕ → List (List UInt8 × Item ℕ)
  | [] => []
  | a :: as =>
      if d a = 0 then []
      else if Listed (entryAt d a) then (format83 (entryAt d a), item d a) :: entriesAt d as
      else entriesAt d as

/-- The directory with inode `q` ends, and shows the entries of `L`. -/
def Lists (b : Bpb) (d : Disk) (q : ℕ) (L : List (List UInt8 × Item ℕ)) : Prop :=
  ∃ e, dirSectorLba b d q e = 0 ∧ (∀ n < e, dirSectorLba b d q n ≠ 0) ∧
    L = entriesAt d ((List.range (16 * e)).map (slotAddr b d q))

/-- The volume has the directories of `dirs`. -/
structure ShowsDirs (b : Bpb) (d : Disk) (dirs : Store ℕ (List UInt8 × Item ℕ)) : Prop where
  lists : ∀ q, IsDir b d q → ∃ L, dirs q = some L ∧ Lists b d q L
  isDir : ∀ q L, dirs q = some L → IsDir b d q

/-- The entries at `a` on the two disks are shown alike. -/
structure SameItem (d d' : Disk) (a : ℕ) : Prop where
  head : ∀ x < 26, entryAt d' a x = entryAt d a x
  dir : isDirectory (entryAt d a) = true → firstCluster (entryAt d' a) = firstCluster (entryAt d a)

variable {b : Bpb} {top : ℕ} {d d' : Disk} {first : ℕ → ℕ} {a q dir k e e' f : ℕ}
  {as as' : List ℕ}
  {L L' : List (List UInt8 × Item ℕ)} {dirs : Store ℕ (List UInt8 × Item ℕ)}
  {name : List UInt8} {name83 ext83 : Bytes}

theorem SameItem.of_eq (h : ∀ x < 32, entryAt d' a x = entryAt d a x) : SameItem d d' a where
  head x hx := h x (by omega)
  dir _ := firstCluster_congr h

theorem SameItem.item_eq (h : SameItem d d' a) : item d' a = item d a := by
  rw [item, item, isDirectory_congr h.head]
  split_ifs with hdir
  · rw [h.dir hdir]
  · rfl

theorem listed_congr {e e' : Bytes} (h : ∀ x < 26, e' x = e x) : Listed e' ↔ Listed e := by
  rw [Listed, Listed, visible_congr h, h 0 (by omega)]

theorem entriesAt_congr (h : ∀ a ∈ as, SameItem d d' a) : entriesAt d' as = entriesAt d as := by
  induction as with
  | nil => rfl
  | cons a as ih =>
      have hhere := h a (List.mem_cons_self ..)
      have hfirst : d' a = d a := hhere.head 0 (by omega)
      rw [entriesAt, entriesAt, ih fun x hx => h x (List.mem_cons_of_mem a hx), hfirst,
        format83_congr hhere.head, hhere.item_eq]
      simp only [listed_congr hhere.head]

theorem entriesAt_append (h : ∀ a ∈ as, d a ≠ 0) :
    entriesAt d (as ++ as') = entriesAt d as ++ entriesAt d as' := by
  induction as with
  | nil => rfl
  | cons a as ih =>
      have hne := h a (List.mem_cons_self ..)
      rw [List.cons_append, entriesAt, entriesAt, if_neg hne, if_neg hne,
        ih fun x hx => h x (List.mem_cons_of_mem a hx)]
      split_ifs <;> rfl

theorem entriesAt_of_zero (h : ∀ a ∈ as.head?, d a = 0) : entriesAt d as = [] := by
  cases as with
  | nil => rfl
  | cons a as => rw [entriesAt, if_pos (h a rfl)]

/-- What is shown is what `fat16_vfs_readdir` returns. -/
theorem entriesAt_listing (as : List ℕ) :
    (entriesAt d as).map (fun e => (e.1, e.2.isDir)) =
      (listing (as.map (entryAt d))).map fun ent =>
        (ent.name, decide (ent.flags &&& vfsDir ≠ 0)) := by
  induction as with
  | nil => rfl
  | cons a as ih =>
      have hfirst : entryAt d a 0 = d a := rfl
      rw [entriesAt, List.map_cons, listing, hfirst]
      split_ifs with hzero hlisted
      · rfl
      · rw [List.map_cons, List.map_cons, ih, direntOf, item]
        cases isDirectory (entryAt d a) with
        | true => simp [Item.isDir, show vfsDir ≠ 0 by decide]
        | false => simpa [Item.isDir] using show vfsFile &&& vfsDir = 0 by decide
      · exact ih

theorem mem_entriesAt {x : List UInt8 × Item ℕ} (hx : x ∈ entriesAt d as) :
    ∃ a ∈ as, Listed (entryAt d a) ∧ x = (format83 (entryAt d a), item d a) := by
  induction as with
  | nil => cases hx
  | cons a as ih =>
      rw [entriesAt] at hx
      split_ifs at hx with hzero hlisted
      · cases hx
      · rcases List.mem_cons.1 hx with rfl | hx
        · exact ⟨a, List.mem_cons_self .., hlisted, rfl⟩
        · obtain ⟨a', ha', hrest⟩ := ih hx
          exact ⟨a', List.mem_cons_of_mem a ha', hrest⟩
      · obtain ⟨a', ha', hrest⟩ := ih hx
        exact ⟨a', List.mem_cons_of_mem a ha', hrest⟩

theorem range_eq_append {n : ℕ} (h : k < n) :
    List.range n = List.range k ++ k :: List.range' (k + 1) (n - k - 1) := by
  obtain ⟨m, rfl⟩ : ∃ m, n = k + (m + 1) := ⟨n - k - 1, by omega⟩
  rw [show k + (m + 1) - k - 1 = m by omega, List.range_eq_range', List.range_eq_range',
    ← List.range'_append_1, Nat.zero_add, List.range'_succ]

/-! ## The end of a directory -/

theorem exists_lists (hb : Geometry b top) (hs : Sound b top d first) (hq : IsDir b d q) :
    ∃ L, Lists b d q L := by
  obtain ⟨l, hl, -⟩ := hs.exists_dirChain hq
  obtain ⟨n, -, hend⟩ := exists_dirEnd hb hl
  have hex : ∃ n, dirSectorLba b d q n = 0 := ⟨n, hend⟩
  exact ⟨_, Nat.find hex, Nat.find_spec hex, fun m hm => Nat.find_min hex hm, rfl⟩

/-- The slots of the directory are those before its end. -/
theorem hasSlot_iff_lt (hb : Geometry b top) (hs : Sound b top d first) (hq : IsDir b d q)
    (hend : dirSectorLba b d q e = 0) (hbefore : ∀ n < e, dirSectorLba b d q n ≠ 0) :
    HasSlot b d q k ↔ k < 16 * e := by
  obtain ⟨l, hl, -⟩ := hs.exists_dirChain hq
  constructor
  · intro hk
    by_contra hge
    have hsector : HasSlot b d q (16 * e) := hasSlot_of_le hb hl hk (by omega)
    rw [HasSlot, show 16 * e / 16 = e by omega] at hsector
    exact hsector hend
  · intro hk
    exact hbefore _ (by omega)

/-- The end of a directory is where its first missing sector is. -/
theorem end_unique (hend : dirSectorLba b d q e = 0) (hbefore : ∀ n < e, dirSectorLba b d q n ≠ 0)
    (hend' : dirSectorLba b d q e' = 0) (hbefore' : ∀ n < e', dirSectorLba b d q n ≠ 0) :
    e = e' := by
  rcases Nat.lt_trichotomy e e' with hlt | heq | hgt
  · exact absurd hend (hbefore' e hlt)
  · exact heq
  · exact absurd hend' (hbefore e' hgt)

theorem Lists.unique (h : Lists b d q L) (h' : Lists b d q L') : L = L' := by
  obtain ⟨e, hend, hbefore, rfl⟩ := h
  obtain ⟨e', hend', hbefore', rfl⟩ := h'
  rw [end_unique hend hbefore hend' hbefore']

/-! ## Calls that keep the entries -/

/-- A directory on the same sectors, with the same entries. -/
theorem Lists.congr (h : Lists b d q L)
    (hsectors : ∀ n, dirSectorLba b d' q n = dirSectorLba b d q n)
    (hsame : ∀ j, HasSlot b d q j → SameItem d d' (slotAddr b d q j)) : Lists b d' q L := by
  obtain ⟨e, hend, hbefore, rfl⟩ := h
  refine ⟨e, (hsectors e).trans hend, fun n hn => ?_, ?_⟩
  · rw [hsectors]
    exact hbefore n hn
  · have haddr : slotAddr b d' q = slotAddr b d q := by
      funext j
      rw [slotAddr, slotAddr, hsectors]
    rw [haddr]
    refine (entriesAt_congr fun a ha => ?_).symm
    obtain ⟨j, hj, rfl⟩ := List.mem_map.1 ha
    have hlt := List.mem_range.1 hj
    exact hsame j (hbefore _ (by omega))

theorem ShowsDirs.sameTree (hb : Geometry b top) (hs : Sound b top d first)
    (htree : SameTree b d d' f) (h : ShowsDirs b d dirs) : ShowsDirs b d' dirs where
  lists q hq := by
    have hq' := (htree.isDir_iff hb hs).1 hq
    obtain ⟨L, hL, hlists⟩ := h.lists q hq'
    exact ⟨L, hL, hlists.congr (htree.sectors q hq') fun j hj =>
      ⟨htree.entry_head hq' hj, fun hdir => firstCluster_congr (htree.entry_dir hq' hj hdir)⟩⟩
  isDir q L hL := (htree.isDir_iff hb hs).2 (h.isDir q L hL)

/-! ## A creation -/

theorem entriesAt_eq_nil (h : ∀ a ∈ as, d a = 0 ∨ ¬ Listed (entryAt d a)) :
    entriesAt d as = [] := by
  induction as with
  | nil => rfl
  | cons a as ih =>
      rw [entriesAt]
      split_ifs with hzero hlisted
      · rfl
      · exact absurd hlisted ((h a (List.mem_cons_self ..)).resolve_left hzero)
      · exact ih fun x hx => h x (List.mem_cons_of_mem a hx)

theorem isDot.not_listed {e : Bytes} (h : isDot e = true) : ¬ Listed e := by
  rintro ⟨-, hne⟩
  have hraw : rawName e = e 0 :: ((List.range 10).map fun x => e (x + 1)) := rfl
  rw [isDot, hraw, Bool.and_eq_true, Bool.or_eq_true, beq_iff_eq, beq_iff_eq] at h
  rcases h.2 with hdot | hdot
  · exact hne (List.cons.inj hdot).1
  · exact hne (List.cons.inj hdot).1

namespace Created

variable {entry : Bytes} {l : List ℕ} (hb : Geometry b top) (hs : Sound b top d first)
  (h : Created b top d dir k entry l d')

include hb hs h

/-- A directory without the new slot. -/
theorem lists_other (hq : IsDir b d q) (hdir : IsDir b d dir) (hne : q ≠ dir)
    (hL : Lists b d q L) : Lists b d' q L := by
  refine hL.congr (h.sectors hb hs hq) fun j hj => SameItem.of_eq fun x hx => ?_
  refine h.slot_other hb hs hq hj (fun heq => ?_) hx
  exact hne (slotAddr_inj hb hs hq hdir hj h.slot.has heq).1

/-- The directory of the new slot has what it had, and the new entry between. -/
theorem lists_insert (hzero : ZeroTail b d) (hdir : IsDir b d dir) (hL : Lists b d dir L) :
    ∃ before after, L = before ++ after ∧
      Lists b d' dir (before ++ entriesAt d' [slotAddr b d dir k] ++ after) := by
  obtain ⟨e, hend, hbefore, rfl⟩ := hL
  have hlt : k < 16 * e := (hasSlot_iff_lt hb hs hdir hend hbefore).1 h.slot.has
  obtain ⟨n, hn⟩ : ∃ n, n = 16 * e - k - 1 := ⟨_, rfl⟩
  have hrange := range_eq_append hlt
  rw [← hn] at hrange
  have haddr : slotAddr b d' dir = slotAddr b d dir := by
    funext j
    exact h.slotAddr_eq hb hs hdir j
  have hhas : ∀ j < 16 * e, HasSlot b d dir j := fun j hj =>
    (hasSlot_iff_lt hb hs hdir hend hbefore).2 hj
  have hsame : ∀ j < 16 * e, j ≠ k → SameItem d d' (slotAddr b d dir j) := fun j hj hne =>
    SameItem.of_eq fun x hx => h.slot_other hb hs hdir (hhas j hj)
      (fun heq => hne (slotAddr_inj hb hs hdir hdir (hhas j hj) h.slot.has heq).2) hx
  -- no slot before the new one is zero, before and after the call
  have hold : ∀ a ∈ (List.range k).map (slotAddr b d dir), d a ≠ 0 := by
    intro a ha hz
    obtain ⟨j, hj, rfl⟩ := List.mem_map.1 ha
    exact h.slot.first j (List.mem_range.1 hj) (Or.inl hz)
  have hnew : ∀ a ∈ (List.range k).map (slotAddr b d dir), d' a ≠ 0 := by
    intro a ha
    obtain ⟨j, hj, rfl⟩ := List.mem_map.1 ha
    have hjk := List.mem_range.1 hj
    exact h.byte_zero hb hs hdir (hhas j (by omega)) (hold _ ha)
  have hfirst : ∀ a ∈ [slotAddr b d dir k], d' a ≠ 0 := by
    intro a ha
    obtain rfl := List.mem_singleton.1 ha
    have hentry := h.entry 0 (by omega)
    rw [entryAt, Nat.add_zero] at hentry
    rw [hentry]
    exact h.named
  have hleft : entriesAt d' ((List.range k).map (slotAddr b d dir)) =
      entriesAt d ((List.range k).map (slotAddr b d dir)) := by
    refine entriesAt_congr fun a ha => ?_
    obtain ⟨j, hj, rfl⟩ := List.mem_map.1 ha
    have hjk := List.mem_range.1 hj
    exact hsame j (by omega) (by omega)
  have hright : entriesAt d' ((List.range' (k + 1) n).map (slotAddr b d dir)) =
      entriesAt d ((List.range' (k + 1) n).map (slotAddr b d dir)) := by
    refine entriesAt_congr fun a ha => ?_
    obtain ⟨j, hj, rfl⟩ := List.mem_map.1 ha
    have hjk := List.mem_range'_1.1 hj
    exact hsame j (by omega) (by omega)
  -- the slot was the end of the directory, or a deleted entry
  have hslot : entriesAt d (slotAddr b d dir k :: (List.range' (k + 1) n).map (slotAddr b d dir)) =
      entriesAt d ((List.range' (k + 1) n).map (slotAddr b d dir)) := by
    rw [entriesAt]
    split_ifs with hz hlisted
    · refine (entriesAt_of_zero fun a ha => ?_).symm
      cases n with
      | zero => cases ha
      | succ n =>
          rw [List.range'_succ, List.map_cons, List.head?_cons, Option.mem_some_iff] at ha
          subst ha
          exact hzero dir k (k + 1) hdir (by omega) (hhas _ (by omega)) hz
    · exact absurd h.slot.free hlisted.1.not_isFree
    · rfl
  refine ⟨entriesAt d ((List.range k).map (slotAddr b d dir)),
    entriesAt d ((List.range' (k + 1) n).map (slotAddr b d dir)), ?_, e, ?_, fun m hm => ?_, ?_⟩
  · rw [hrange, List.map_append, List.map_cons, entriesAt_append hold, hslot]
  · rw [h.sectors hb hs hdir, hend]
  · rw [h.sectors hb hs hdir]
    exact hbefore m hm
  · have hsplit : entriesAt d' (slotAddr b d dir k ::
        (List.range' (k + 1) n).map (slotAddr b d dir)) = entriesAt d' [slotAddr b d dir k] ++
        entriesAt d ((List.range' (k + 1) n).map (slotAddr b d dir)) := by
      rw [← hright, ← entriesAt_append hfirst]
      rfl
    rw [haddr, hrange, List.map_append, List.map_cons, entriesAt_append hnew, hleft, hsplit,
      List.append_assoc]

/-- A new directory shows nothing. -/
theorem lists_new (hzero : ZeroTail b d) (hisDir : isDirectory entry = true)
    (hnew : IsDir b d' (firstCluster entry)) : Lists b d' (firstCluster entry) [] := by
  obtain ⟨L, hL⟩ := exists_lists hb (h.sound hb hs hzero) hnew
  obtain ⟨e, hend, hbefore, rfl⟩ := hL
  refine ⟨e, hend, hbefore, (entriesAt_eq_nil fun a ha => ?_).symm⟩
  obtain ⟨j, hj, rfl⟩ := List.mem_map.1 ha
  have hlt := List.mem_range.1 hj
  have hslot := h.empty hisDir j (hbefore _ (by omega))
  rcases Nat.lt_or_ge j 2 with hdot | hrest
  · exact Or.inr (isDot.not_listed (hslot.1 hdot).2.1)
  · exact Or.inl (hslot.2 hrest)

/-- An entry that is not live makes no directory. -/
theorem isDir_of_hidden (hzero : ZeroTail b d) (hhidden : ¬ Visible entry)
    (hq : IsDir b d' q) : IsDir b d q := by
  induction hq with
  | root => exact IsDir.root
  | @child q j _ hlive hisDir hdot ih =>
      have hvisible := hlive.visible
      rw [h.slotAddr_eq hb hs ih] at hisDir hdot hvisible ⊢
      rcases h.live_cases hb hs hzero ih hlive with heq | hlive'
      · rw [heq, visible_congr fun x hx => h.entry x (by omega)] at hvisible
        exact absurd hvisible hhidden
      · have hother : ∀ x < 32,
            entryAt d' (slotAddr b d q j) x = entryAt d (slotAddr b d q j) x :=
          fun x hx => h.slot_other hb hs ih hlive'.has (h.live_ne hlive') hx
        have hhead : ∀ x < 26,
            entryAt d' (slotAddr b d q j) x = entryAt d (slotAddr b d q j) x :=
          fun x hx => hother x (by omega)
        rw [isDirectory_congr hhead] at hisDir
        rw [isDot_congr hhead] at hdot
        rw [firstCluster_congr hother]
        exact IsDir.child ih hlive' hisDir hdot

end Created

/-- A creation whose entry is not shown. -/
theorem ShowsDirs.createdHidden {entry : Bytes} {l : List ℕ} (hb : Geometry b top)
    (hs : Sound b top d first) (hzero : ZeroTail b d) (h : ShowsDirs b d dirs)
    (hdir : IsDir b d dir) (hcreated : Created b top d dir k entry l d')
    (hhidden : ¬ Visible entry) : ShowsDirs b d' dirs where
  lists q hq := by
    have hq' := hcreated.isDir_of_hidden hb hs hzero hhidden hq
    obtain ⟨L, hL, hlists⟩ := h.lists q hq'
    refine ⟨L, hL, ?_⟩
    by_cases hne : q = dir
    · subst hne
      obtain ⟨before, after, rfl, hnew⟩ := hcreated.lists_insert hb hs hzero hdir hlists
      have hnone : entriesAt d' [slotAddr b d q k] = [] := by
        refine entriesAt_eq_nil fun a ha => Or.inr fun hlisted => hhidden ?_
        obtain rfl := List.mem_singleton.1 ha
        exact (visible_congr fun x hx => hcreated.entry x (by omega)).1 hlisted.1
      rwa [hnone, List.append_nil] at hnew
    · exact hcreated.lists_other hb hs hq' hdir hne hlists
  isDir q L hL := hcreated.isDir_of_isDir hb hs (h.isDir q L hL)

/-- A creation whose entry is shown. A new directory is one that was not there, and
shows nothing. -/
theorem ShowsDirs.created {entry : Bytes} {l : List ℕ} (hb : Geometry b top)
    (hs : Sound b top d first) (hzero : ZeroTail b d) (h : ShowsDirs b d dirs)
    (hdir : IsDir b d dir) (hcreated : Created b top d dir k entry l d')
    (hlive : LiveSlot b d' dir k) (hlisted : Listed entry)
    (hne : isDirectory entry = true → l ≠ []) :
    ∃ before after, dirs dir = some (before ++ after) ∧
      (isDirectory entry = true → dirs (firstCluster entry) = none) ∧
      ShowsDirs b d' (FileSystem.insert
        (if isDirectory entry then dirs.create (firstCluster entry) else dirs) dir before after
        (format83 entry, if isDirectory entry then .dir (firstCluster entry)
          else .file (slotAddr b d dir k))) := by
  obtain ⟨L, hL, hlists⟩ := h.lists dir hdir
  obtain ⟨before, after, rfl, hnew⟩ := hcreated.lists_insert hb hs hzero hdir hlists
  have hhead : ∀ x < 26, entryAt d' (slotAddr b d dir k) x = entry x :=
    fun x hx => hcreated.entry x (by omega)
  have hshown : entriesAt d' [slotAddr b d dir k] = [(format83 entry,
      if isDirectory entry then Item.dir (firstCluster entry)
        else .file (slotAddr b d dir k))] := by
    have hfirst : d' (slotAddr b d dir k) ≠ 0 := by
      have hbyte := hhead 0 (by omega)
      rw [entryAt, Nat.add_zero] at hbyte
      rw [hbyte]
      exact hcreated.named
    rw [entriesAt, if_neg hfirst, if_pos ((listed_congr hhead).2 hlisted), format83_congr hhead,
      item, isDirectory_congr hhead, firstCluster_congr hcreated.entry]
    rfl
  rw [hshown, List.append_assoc, List.singleton_append] at hnew
  have hnone : isDirectory entry = true → dirs (firstCluster entry) = none := by
    intro hisDir
    cases hold : dirs (firstCluster entry) with
    | none => rfl
    | some L =>
        exact absurd (h.isDir _ L hold) (hcreated.not_isDir_new hs (hne hisDir))
  refine ⟨before, after, hL, hnone, fun q hq => ?_, fun q L hqL => ?_⟩
  · by_cases hqdir : q = dir
    · subst hqdir
      exact ⟨_, FileSystem.insert_self .., hnew⟩
    rw [FileSystem.insert_of_ne _ hqdir]
    rcases hcreated.isDir_cases hb hs hzero hq with hq' | ⟨hisDir, rfl⟩
    · obtain ⟨L, hqL, hlistsq⟩ := h.lists q hq'
      refine ⟨L, ?_, hcreated.lists_other hb hs hq' hdir hqdir hlistsq⟩
      split_ifs with hisDir
      · rwa [Store.create_of_ne]
        rintro rfl
        rw [hnone hisDir] at hqL
        cases hqL
      · exact hqL
    · rw [if_pos hisDir]
      exact ⟨[], Store.create_self .., hcreated.lists_new hb hs hzero hisDir hq⟩
  · by_cases hqdir : q = dir
    · subst hqdir
      exact hcreated.isDir_of_isDir hb hs hdir
    rw [FileSystem.insert_of_ne _ hqdir] at hqL
    split_ifs at hqL with hisDir
    · by_cases hqnew : q = firstCluster entry
      · subst hqnew
        have hdotNew := hcreated.notDot
        rw [← isDot_congr hhead, ← hcreated.slotAddr_eq hb hs hdir] at hdotNew
        have hdirNew := hisDir
        rw [← isDirectory_congr hhead, ← hcreated.slotAddr_eq hb hs hdir] at hdirNew
        rw [← firstCluster_congr hcreated.entry, ← hcreated.slotAddr_eq hb hs hdir]
        exact IsDir.child (hcreated.isDir_of_isDir hb hs hdir) hlive hdirNew hdotNew
      · rw [Store.create_of_ne _ hqnew] at hqL
        exact hcreated.isDir_of_isDir hb hs (h.isDir q L hqL)
    · exact hcreated.isDir_of_isDir hb hs (h.isDir q L hqL)

/-! ## Lookups -/

/-- What an open node stands for. -/
def nodeItem (node : VfsNode) : Item ℕ :=
  if node.flags = vfsDir then .dir node.inode else .file (nodeSlot node)

/-- The name under which a file of this name is shown. -/
def storedName (name : List UInt8) : List UInt8 :=
  match formatName83 name with
  | some (name83, ext83) => format83 (createdEntry name83 ext83 0 0)
  | none => []

theorem format83_created {flags : UInt32} {c : ℕ}
    (hformat : formatName83 name = some (name83, ext83)) :
    format83 (createdEntry name83 ext83 c flags) = storedName name := by
  rw [storedName, hformat]
  dsimp only
  rw [createdEntry, createdEntry, format83_newEntry, format83_newEntry]

theorem head?_ne_dot (hformat : formatName83 name = some (name83, ext83)) :
    name.head? ≠ some 0x2E := by
  obtain ⟨c, cs, rfl, hc, -⟩ := formatName83_first hformat
  simp [hc]

theorem nodeItem_nodeOf (addr : ℕ) :
    nodeItem (nodeOf (entryAt d (slotAddr b d q k)) (dirSectorLba b d q (k / 16)) (k % 16) addr) =
      item d (slotAddr b d q k) := by
  rw [nodeItem, item, nodeOf, nodeSlot, slotAddr]
  cases hdir : isDirectory (entryAt d (512 * dirSectorLba b d q (k / 16) + 32 * (k % 16))) with
  | true => simp
  | false => simp [vfsDir, vfsFile]

/-- The first live entry that matches is the first in the list. -/
theorem Lists.find (h : Lists b d q L) (hname : 0 ∉ name) (hhead : name.head? ≠ some 0x2E)
    (hlive : LiveSlot b d q k) (hlt : ∀ e, dirSectorLba b d q e = 0 → k < 16 * e)
    (hmatch : nameMatch (entryAt d (slotAddr b d q k)) name = true)
    (hfirst : ∀ j < k, LiveSlot b d q j →
      nameMatch (entryAt d (slotAddr b d q j)) name = false) :
    L.find? (fun e => sameName e.1 name) =
      some (format83 (entryAt d (slotAddr b d q k)), item d (slotAddr b d q k)) := by
  obtain ⟨e, hend, hbefore, rfl⟩ := h
  have hk := hlt e hend
  have hbelow : ∀ a ∈ (List.range k).map (slotAddr b d q), d a ≠ 0 := by
    intro a ha
    obtain ⟨j, hj, rfl⟩ := List.mem_map.1 ha
    exact hlive.before j (List.mem_range.1 hj)
  have hnone : (entriesAt d ((List.range k).map (slotAddr b d q))).find?
      (fun e => sameName e.1 name) = none := by
    refine List.find?_eq_none.2 fun x hx => ?_
    obtain ⟨a, ha, hlisted, rfl⟩ := mem_entriesAt hx
    obtain ⟨j, hj, rfl⟩ := List.mem_map.1 ha
    have hjk := List.mem_range.1 hj
    have hslot : LiveSlot b d q j :=
      ⟨hbefore _ (by omega), fun i hi => hlive.before i (hi.trans hjk), hlisted.1⟩
    rw [← nameMatch_eq_sameName hname, hfirst j hjk hslot]
    exact Bool.false_ne_true
  have hfound : d (slotAddr b d q k) ≠ 0 := hlive.visible.first_ne_zero
  have hlisted : Listed (entryAt d (slotAddr b d q k)) := by
    refine ⟨hlive.visible, fun hdot => ?_⟩
    rw [nameMatch_of_dot hname hhead hdot] at hmatch
    cases hmatch
  rw [range_eq_append hk, List.map_append, List.map_cons, entriesAt_append hbelow,
    List.find?_append, hnone, Option.none_or, entriesAt, if_neg hfound, if_pos hlisted,
    List.find?_cons_of_pos]
  rw [← nameMatch_eq_sameName hname]
  exact hmatch

/-- `fat16_vfs_finddir` finds the first entry whose name agrees, or fails. -/
theorem ShowsDirs.finddir {fs fs' : Fs} {node : VfsNode} {r : Option VfsNode} {fuel : ℕ}
    (hb : Geometry fs.bpb top) (hs : Sound fs.bpb top fs.disk first)
    (h : ShowsDirs fs.bpb fs.disk dirs) (hdir : IsDir fs.bpb fs.disk node.inode)
    (hname : 0 ∉ name) (hhead : name.head? ≠ some 0x2E)
    (hrun : fat16VfsFinddir fuel node name fs = some (r, fs')) (hL : dirs node.inode = some L) :
    FileSystem.Finds (fun wanted shown => sameName shown wanted) L name (r.map nodeItem) := by
  intro i hi
  obtain ⟨found, rfl, rfl⟩ := Option.map_eq_some_iff.1 hi
  obtain ⟨l, hl, -⟩ := hs.exists_dirChain hdir
  obtain ⟨k, addr, hlive, hmatch, rfl, hfirst, -⟩ := fat16VfsFinddir_some hb hl hrun
  obtain ⟨L', hL', hlists⟩ := h.lists _ hdir
  obtain rfl := Option.some.inj (hL'.symm.trans hL)
  refine ⟨_, hlists.find hname hhead hlive (fun e hend => ?_) hmatch hfirst, ?_⟩
  · by_contra hge
    have hsector := hasSlot_of_le hb hl hlive.has (show 16 * e ≤ k by omega)
    rw [HasSlot, show 16 * e / 16 = e by omega] at hsector
    exact hsector hend
  · exact (nodeItem_nodeOf addr).symm

theorem Lists.length_lt (hspc : 1 ≤ b.spc) (h : Lists b d q L) : L.length < 2 ^ 32 := by
  obtain ⟨e, hend, hbefore, rfl⟩ := h
  obtain ⟨e', he', hend', hbefore'⟩ := exists_first_end hspc ⟨e, hend⟩
  obtain rfl := end_unique hend hbefore hend' hbefore'
  have hlist := congrArg List.length
    (entriesAt_listing (d := d) ((List.range (16 * e)).map (slotAddr b d q)))
  have hle := length_listing_le
    (((List.range (16 * e)).map (slotAddr b d q)).map (entryAt d))
  rw [List.length_map, List.length_map] at hlist
  rw [List.length_map, List.length_map, List.length_range] at hle
  omega

/-- With fuel for the longest directory, `fat16_vfs_readdir` returns. -/
theorem Lists.exists_readdir {fs : Fs} {node : VfsNode} {fuel : ℕ} (hspc : 1 ≤ fs.bpb.spc)
    (hmounted : fs.mounted = true) (hfuel : 2 ^ 28 ≤ fuel)
    (h : Lists fs.bpb fs.disk node.inode L) (index : ℕ) :
    ∃ r, fat16VfsReaddir fuel node index fs = some r := by
  obtain ⟨e, hend, hbefore, rfl⟩ := h
  obtain ⟨e', he', hend', hbefore'⟩ := exists_first_end hspc ⟨e, hend⟩
  obtain rfl := end_unique hend hbefore hend' hbefore'
  rw [fat16VfsReaddir, if_pos hmounted,
    scanDir_eq_scanSlots hspc (by omega) hend hbefore (Nat.zero_add e) (by omega)]
  exact ⟨_, rfl⟩

/-- `fat16_vfs_readdir` gives the entries by their numbers. -/
theorem Lists.readdir {fs : Fs} {node : VfsNode} {r : Option VfsDirent} {index fuel : ℕ}
    (hspc : 1 ≤ fs.bpb.spc) (hmounted : fs.mounted = true) (hindex : index < 2 ^ 32)
    (h : Lists fs.bpb fs.disk node.inode L)
    (hrun : fat16VfsReaddir fuel node index fs = some r) :
    r.map (fun ent => (ent.name, decide (ent.flags &&& vfsDir ≠ 0))) =
      L[index]?.map fun e => (e.1, e.2.isDir) := by
  obtain ⟨e, hend, hbefore, rfl⟩ := h
  obtain ⟨e', he', hend', hbefore'⟩ := exists_first_end hspc ⟨e, hend⟩
  obtain rfl := end_unique hend hbefore hend' hbefore'
  rw [fat16VfsReaddir, if_pos hmounted] at hrun
  have hscan := scanDir_mono (show fuel ≤ fuel + (e + 1) by omega) hrun
  rw [scanDir_eq_scanSlots hspc (by omega) hend hbefore (Nat.zero_add e) (by omega),
    readdir_scanSlots hindex _ (Nat.zero_le index) (by rw [List.length_range']; omega)] at hscan
  rw [← Option.some.inj hscan, Nat.mul_zero, ← List.range_eq_range', Nat.sub_zero,
    ← List.getElem?_map, ← List.getElem?_map, entriesAt_listing, List.map_map]
  rfl

end Fat16

end Yotos
