import Yotos.Fat16.Names
import Yotos.Fat16.Tree

/-!
# Paths of names

A list of names leads from a directory to a slot: all names but the last are looked up
as directories, one in the other, and the last one is looked up in the directory that
this ends in. The names may be those of dot entries. Writes keep what paths denote. The
creation of a file keeps it too, unless a lookup on the way finds the new entry, which
is no directory.
-/

namespace Yotos

namespace Fat16

open Bytes Kheap Library

variable {b : Bpb} {top : ℕ} {d d' : Disk} {first : ℕ → ℕ} {p q r f j k dir : ℕ} {l : List ℕ}
  {name : List UInt8} {names : List (List UInt8)}

/-- A lookup of `name` in directory `q` finds slot `k`. -/
structure Found (b : Bpb) (d : Disk) (q : ℕ) (name : List UInt8) (k : ℕ) : Prop where
  live : LiveSlot b d q k
  named : nameMatch (entryAt d (slotAddr b d q k)) name = true
  before : ∀ j < k, LiveSlot b d q j → nameMatch (entryAt d (slotAddr b d q j)) name = false

/-- The names lead from directory `p` to directory `q`. -/
inductive Walk (b : Bpb) (d : Disk) : ℕ → List (List UInt8) → ℕ → Prop
  | nil (q : ℕ) : Walk b d q [] q
  | cons {p k q : ℕ} {name : List UInt8} {names : List (List UInt8)} (h : Found b d p name k)
      (hisDir : isDirectory (entryAt d (slotAddr b d p k)) = true)
      (hrest : Walk b d (firstCluster (entryAt d (slotAddr b d p k))) names q) :
      Walk b d p (name :: names) q

/-- The names lead from directory `p` to slot `k` of directory `q`. -/
def Denotes (b : Bpb) (d : Disk) (p : ℕ) (names : List (List UInt8)) (q k : ℕ) : Prop :=
  ∃ init name, names = init ++ [name] ∧ Walk b d p init q ∧ Found b d q name k

/-- The dot entries name directories. -/
def DotDirs (b : Bpb) (d : Disk) : Prop :=
  ∀ q k, IsDir b d q → LiveSlot b d q k → isDot (entryAt d (slotAddr b d q k)) = true →
    IsDir b d (firstCluster (entryAt d (slotAddr b d q k)))

theorem Found.unique (h : Found b d q name j) (h' : Found b d q name k) : j = k := by
  rcases Nat.lt_trichotomy j k with hlt | heq | hgt
  · exact absurd h.named (by rw [h'.before j hlt h.live]; exact Bool.noConfusion)
  · exact heq
  · exact absurd h'.named (by rw [h.before k hgt h'.live]; exact Bool.noConfusion)

/-- Where no lookup finds the name, no live entry has it. -/
theorem not_found_iff :
    (∀ k, ¬ Found b d q name k) ↔
      ∀ k, LiveSlot b d q k → nameMatch (entryAt d (slotAddr b d q k)) name = false := by
  constructor
  · intro h k
    induction k using Nat.strongRecOn with
    | ind k ih =>
        intro hlive
        rw [Bool.eq_false_iff]
        exact fun hmatch => h k ⟨hlive, hmatch, ih⟩
  · intro h k hfound
    have hnamed := hfound.named
    rw [h k hfound.live] at hnamed
    exact Bool.noConfusion hnamed

theorem Walk.unique (h : Walk b d p names q) (h' : Walk b d p names r) : q = r := by
  induction h with
  | nil => cases h' with | nil => rfl
  | cons hfound _ _ ih =>
      cases h' with
      | cons hfound' _ hrest' =>
          obtain rfl := hfound.unique hfound'
          exact ih hrest'

theorem walk_append {names' : List (List UInt8)} :
    Walk b d p (names ++ names') r ↔ ∃ q, Walk b d p names q ∧ Walk b d q names' r := by
  induction names generalizing p with
  | nil =>
      refine ⟨fun h => ⟨p, .nil p, h⟩, ?_⟩
      rintro ⟨q, hq, h⟩
      cases hq with | nil => exact h
  | cons name names ih =>
      constructor
      · intro h
        rw [List.cons_append] at h
        cases h with
        | cons hfound hisDir hrest =>
            obtain ⟨q, hwalk, hwalk'⟩ := ih.1 hrest
            exact ⟨q, .cons hfound hisDir hwalk, hwalk'⟩
      · rintro ⟨q, hwalk, hwalk'⟩
        cases hwalk with
        | cons hfound hisDir hrest => exact .cons hfound hisDir (ih.2 ⟨q, hrest, hwalk'⟩)

theorem walk_singleton : Walk b d p [name] r ↔ ∃ k, Found b d p name k ∧
    isDirectory (entryAt d (slotAddr b d p k)) = true ∧
    firstCluster (entryAt d (slotAddr b d p k)) = r := by
  constructor
  · intro h
    cases h with
    | cons hfound hisDir hrest => cases hrest with | nil => exact ⟨_, hfound, hisDir, rfl⟩
  · rintro ⟨k, hfound, hisDir, rfl⟩
    exact .cons hfound hisDir (.nil _)

theorem denotes_append {init : List (List UInt8)} :
    Denotes b d p (init ++ [name]) q k ↔ Walk b d p init q ∧ Found b d q name k := by
  constructor
  · rintro ⟨init', name', heq, hwalk, hfound⟩
    obtain ⟨rfl, hname⟩ := List.append_inj' heq rfl
    obtain rfl := List.singleton_inj.1 hname
    exact ⟨hwalk, hfound⟩
  · rintro ⟨hwalk, hfound⟩
    exact ⟨init, name, rfl, hwalk, hfound⟩

theorem not_denotes_nil : ¬ Denotes b d p [] q k := by
  rintro ⟨init, name, heq, -⟩
  simp at heq

/-- The first name of a path is looked up in the directory where it starts. -/
theorem denotes_cons : Denotes b d p (name :: names) q k ↔
    (names = [] ∧ q = p ∧ Found b d p name k) ∨
      ∃ j, Found b d p name j ∧ isDirectory (entryAt d (slotAddr b d p j)) = true ∧
        Denotes b d (firstCluster (entryAt d (slotAddr b d p j))) names q k := by
  constructor
  · rintro ⟨init, name', heq, hwalk, hfound⟩
    cases hwalk with
    | nil =>
        obtain ⟨rfl, rfl⟩ := List.cons.inj heq
        exact Or.inl ⟨rfl, rfl, hfound⟩
    | cons h hisDir hrest =>
        obtain ⟨rfl, rfl⟩ := List.cons.inj heq
        exact Or.inr ⟨_, h, hisDir, _, name', rfl, hrest, hfound⟩
  · rintro (⟨rfl, rfl, hfound⟩ | ⟨j, h, hisDir, init, name', rfl, hwalk, hfound⟩)
    · exact ⟨[], name, rfl, .nil _, hfound⟩
    · exact ⟨name :: init, name', rfl, .cons h hisDir hwalk, hfound⟩

theorem Denotes.unique {q' k' : ℕ} (h : Denotes b d p names q k) (h' : Denotes b d p names q' k') :
    q = q' ∧ k = k' := by
  obtain ⟨init, name, rfl, hwalk, hfound⟩ := h
  obtain ⟨hwalk', hfound'⟩ := denotes_append.1 h'
  obtain rfl := hwalk.unique hwalk'
  exact ⟨rfl, hfound.unique hfound'⟩

/-! ## Directories on the way -/

/-- Every live directory entry leads to a directory. -/
theorem DotDirs.isDir (h : DotDirs b d) (hq : IsDir b d q) (hlive : LiveSlot b d q k)
    (hisDir : isDirectory (entryAt d (slotAddr b d q k)) = true) :
    IsDir b d (firstCluster (entryAt d (slotAddr b d q k))) := by
  cases hdot : isDot (entryAt d (slotAddr b d q k)) with
  | true => exact h q k hq hlive hdot
  | false => exact hq.child hlive hisDir hdot

theorem Walk.isDir (hdots : DotDirs b d) (h : Walk b d p names q) (hp : IsDir b d p) :
    IsDir b d q := by
  induction h with
  | nil => exact hp
  | cons hfound hisDir _ ih => exact ih (hdots.isDir hp hfound.live hisDir)

/-! ## Writes -/

namespace SameTree

theorem found_iff (hb : Geometry b top) (hs : Sound b top d first) (h : SameTree b d d' f)
    (hq : IsDir b d q) : Found b d' q name k ↔ Found b d q name k := by
  have hmatch : ∀ j, LiveSlot b d q j → nameMatch (entryAt d' (slotAddr b d' q j)) name =
      nameMatch (entryAt d (slotAddr b d q j)) name := fun j hj => by
    rw [h.slotAddr_eq hq, nameMatch_congr (h.entry_head hq hj.has)]
  have hlive : ∀ j, LiveSlot b d' q j ↔ LiveSlot b d q j := fun j => h.liveSlot_iff hb hs hq
  constructor
  · rintro ⟨hk, hnamed, hbefore⟩
    have hk' := (hlive k).1 hk
    refine ⟨hk', hmatch k hk' ▸ hnamed, fun j hj hlivej => ?_⟩
    rw [← hmatch j hlivej]
    exact hbefore j hj ((hlive j).2 hlivej)
  · rintro ⟨hk, hnamed, hbefore⟩
    refine ⟨(hlive k).2 hk, (hmatch k hk).trans hnamed, fun j hj hlivej => ?_⟩
    have hlivej' := (hlive j).1 hlivej
    rw [hmatch j hlivej']
    exact hbefore j hj hlivej'

theorem walk_iff (hb : Geometry b top) (hs : Sound b top d first) (hdots : DotDirs b d)
    (h : SameTree b d d' f) (hp : IsDir b d p) : Walk b d' p names q ↔ Walk b d p names q := by
  have hentry : ∀ {p k : ℕ}, IsDir b d p → LiveSlot b d p k →
      isDirectory (entryAt d' (slotAddr b d' p k)) = isDirectory (entryAt d (slotAddr b d p k)) ∧
      (isDirectory (entryAt d (slotAddr b d p k)) = true →
        firstCluster (entryAt d' (slotAddr b d' p k)) =
          firstCluster (entryAt d (slotAddr b d p k))) := fun hp hk => by
    rw [h.slotAddr_eq hp]
    exact ⟨isDirectory_congr (h.entry_head hp hk.has),
      fun hisDir => firstCluster_congr (h.entry_dir hp hk.has hisDir)⟩
  constructor
  · intro hwalk
    induction hwalk with
    | nil => exact .nil _
    | cons hfound hisDir _ ih =>
        have hfound' := (h.found_iff hb hs hp).1 hfound
        obtain ⟨hkind, hfirst⟩ := hentry hp hfound'.live
        rw [hkind] at hisDir
        rw [hfirst hisDir] at ih
        exact .cons hfound' hisDir (ih (hdots.isDir hp hfound'.live hisDir))
  · intro hwalk
    induction hwalk with
    | nil => exact .nil _
    | cons hfound hisDir _ ih =>
        obtain ⟨hkind, hfirst⟩ := hentry hp hfound.live
        refine .cons ((h.found_iff hb hs hp).2 hfound) (hkind.trans hisDir) ?_
        rw [hfirst hisDir]
        exact ih (hdots.isDir hp hfound.live hisDir)

theorem denotes_iff (hb : Geometry b top) (hs : Sound b top d first) (hdots : DotDirs b d)
    (h : SameTree b d d' f) (hp : IsDir b d p) :
    Denotes b d' p names q k ↔ Denotes b d p names q k := by
  constructor
  · rintro ⟨init, name, rfl, hwalk, hfound⟩
    have hwalk' := (h.walk_iff hb hs hdots hp).1 hwalk
    exact ⟨init, name, rfl, hwalk', (h.found_iff hb hs (hwalk'.isDir hdots hp)).1 hfound⟩
  · rintro ⟨init, name, rfl, hwalk, hfound⟩
    exact ⟨init, name, rfl, (h.walk_iff hb hs hdots hp).2 hwalk,
      (h.found_iff hb hs (hwalk.isDir hdots hp)).2 hfound⟩

end SameTree

/-! ## Creations -/

namespace Created

variable {name83 ext83 : Bytes} {flags : UInt32} {c : ℕ}

/-- A lookup afterwards finds the new slot, or what it found before. -/
theorem found_cases (hb : Geometry b top) (hs : Sound b top d first) (hzero : ZeroTail b d)
    (hdir : IsDir b d dir) (h : Created b top d dir k (createdEntry name83 ext83 c flags) l d')
    (hq : IsDir b d q) (hfound : Found b d' q name j) : (q = dir ∧ j = k) ∨ Found b d q name j := by
  rcases h.live_old_or_new hb hs hzero hdir hq hfound.live with ⟨rfl, rfl, -⟩ | hlive
  · exact Or.inl ⟨rfl, rfl⟩
  right
  have hmatch : ∀ i, LiveSlot b d q i → nameMatch (entryAt d' (slotAddr b d' q i)) name =
      nameMatch (entryAt d (slotAddr b d q i)) name := fun i hi => by
    rw [h.slotAddr_eq hb hs hq]
    exact nameMatch_congr fun x hx => h.slot_other hb hs hq hi.has (h.live_ne hi) (by omega)
  refine ⟨hlive, hmatch j hlive ▸ hfound.named, fun i hi hlivei => ?_⟩
  rw [← hmatch i hlivei]
  exact hfound.before i hi (h.live_of_live hb hs hq hlivei)

/-- A lookup that does not match the new entry finds what it found before. -/
theorem found_of_found (hb : Geometry b top) (hs : Sound b top d first) (hzero : ZeroTail b d)
    (hdir : IsDir b d dir) (h : Created b top d dir k (createdEntry name83 ext83 c flags) l d')
    (hq : IsDir b d q) (hfound : Found b d q name j)
    (hnew : q = dir → nameMatch (entryAt d' (slotAddr b d' dir k)) name = false) :
    Found b d' q name j := by
  have hmatch : ∀ i, LiveSlot b d q i → nameMatch (entryAt d' (slotAddr b d' q i)) name =
      nameMatch (entryAt d (slotAddr b d q i)) name := fun i hi => by
    rw [h.slotAddr_eq hb hs hq]
    exact nameMatch_congr fun x hx => h.slot_other hb hs hq hi.has (h.live_ne hi) (by omega)
  refine ⟨h.live_of_live hb hs hq hfound.live, (hmatch j hfound.live).trans hfound.named,
    fun i hi hlivei => ?_⟩
  rcases h.live_old_or_new hb hs hzero hdir hq hlivei with ⟨rfl, rfl, -⟩ | hlive
  · exact hnew rfl
  · rw [hmatch i hlive]
    exact hfound.before i hi hlive

/-- A walk afterwards is one before: the new entry is no directory. -/
theorem walk_of_walk (hb : Geometry b top) (hs : Sound b top d first) (hzero : ZeroTail b d)
    (hdots : DotDirs b d) (hdir : IsDir b d dir)
    (h : Created b top d dir k (createdEntry name83 ext83 c flags) l d')
    (hfile : flags &&& vfsDir = 0) (hp : IsDir b d p) (hwalk : Walk b d' p names q) :
    Walk b d p names q := by
  induction hwalk with
  | nil => exact .nil _
  | cons hfound hisDir _ ih =>
      rcases h.found_cases hb hs hzero hdir hp hfound with ⟨rfl, rfl⟩ | hfound'
      · rw [h.slotAddr_eq hb hs hp, isDirectory_congr fun x hx => h.entry x (by omega),
          isDirectory_createdEntry, decide_eq_false (not_not.2 hfile)] at hisDir
        exact Bool.noConfusion hisDir
      · have hsame : ∀ x < 32, entryAt d' (slotAddr b d' _ _) x = entryAt d (slotAddr b d _ _) x :=
          fun x hx => by
            rw [h.slotAddr_eq hb hs hp]
            exact h.slot_other hb hs hp hfound'.live.has (h.live_ne hfound'.live) hx
        rw [isDirectory_congr fun x hx => hsame x (by omega)] at hisDir
        rw [firstCluster_congr hsame] at ih
        exact .cons hfound' hisDir (ih (hdots.isDir hp hfound'.live hisDir))

/-- When the name of the new entry was not in its directory before, the walks are kept. -/
theorem walk_keep (hb : Geometry b top) (hs : Sound b top d first) (hzero : ZeroTail b d)
    (hdots : DotDirs b d) (hdir : IsDir b d dir)
    (h : Created b top d dir k (createdEntry name83 ext83 c flags) l d') (hname : 0 ∉ name)
    (hnew : nameMatch (entryAt d' (slotAddr b d' dir k)) name = true)
    (habsent : ∀ j, ¬ Found b d dir name j) (hnames : ∀ s ∈ names, 0 ∉ s) (hp : IsDir b d p)
    (hwalk : Walk b d p names q) : Walk b d' p names q := by
  induction hwalk with
  | nil => exact .nil _
  | @cons p j q s names hfound hisDir _ ih =>
      have hsame : ∀ x < 32, entryAt d' (slotAddr b d' p j) x = entryAt d (slotAddr b d p j) x :=
        fun x hx => by
          rw [h.slotAddr_eq hb hs hp]
          exact h.slot_other hb hs hp hfound.live.has (h.live_ne hfound.live) hx
      have hs0 : 0 ∉ s := hnames s List.mem_cons_self
      refine .cons (h.found_of_found hb hs hzero hdir hp hfound fun heq => ?_) ?_ ?_
      · -- the old entry would have the name
        subst heq
        rw [Bool.eq_false_iff]
        intro hmatch
        have hold : (format83 (entryAt d (slotAddr b d p j))).map toUpper = name.map toUpper :=
          ((nameMatch_iff hs0).1 hfound.named).trans
            (((nameMatch_iff hs0).1 hmatch).symm.trans ((nameMatch_iff hname).1 hnew))
        have hnone := not_found_iff.1 habsent j hfound.live
        rw [(nameMatch_iff hname).2 hold] at hnone
        exact Bool.noConfusion hnone
      · rw [isDirectory_congr fun x hx => hsame x (by omega)]
        exact hisDir
      · rw [firstCluster_congr hsame]
        exact ih (fun s hs => hnames s (List.mem_cons_of_mem _ hs))
          (hdots.isDir hp hfound.live hisDir)

end Created

end Fat16

end Yotos
