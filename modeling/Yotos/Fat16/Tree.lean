import Yotos.Fat16.Session
import Yotos.Library.Tree

/-!
# The tree of directories

The shape of the tree is spread over the entries in the parents, the entries `.` and
`..` of the directories, and the table. `TreeLaw` says that they agree: a directory has
one entry in one parent, and its dot entries lead back to itself and to the parent.
Writes change no directory. A new directory comes with its dot entries and on a cluster
that was free, so that no other entry leads there.
-/

namespace Yotos

namespace Fat16

open Bytes Kheap Library Relation

variable {b : Bpb} {top : ℕ} {d d' : Disk} {first : ℕ → ℕ} {c dir k p q f : ℕ} {l : List ℕ}
  {e : Bytes} {name : List UInt8}

/-- The name `.`. -/
def dotName : List UInt8 := [0x2E]

/-- The name `..`. -/
def dotdotName : List UInt8 := [0x2E, 0x2E]

/-- Slot `k` of directory `p` holds the entry of subdirectory `q`. -/
structure Subdir (b : Bpb) (d : Disk) (p k q : ℕ) : Prop where
  dir : IsDir b d p
  live : LiveSlot b d p k
  isDir : isDirectory (entryAt d (slotAddr b d p k)) = true
  notDot : isDot (entryAt d (slotAddr b d p k)) = false
  cluster : firstCluster (entryAt d (slotAddr b d p k)) = q

/-- The first entry of directory `q` with this name is a directory entry for `p`. -/
structure LinkAt (b : Bpb) (d : Disk) (q : ℕ) (name : List UInt8) (p j : ℕ) : Prop where
  live : LiveSlot b d q j
  named : format83 (entryAt d (slotAddr b d q j)) = name
  isDir : isDirectory (entryAt d (slotAddr b d q j)) = true
  cluster : firstCluster (entryAt d (slotAddr b d q j)) = p
  before : ∀ i < j, LiveSlot b d q i → format83 (entryAt d (slotAddr b d q i)) ≠ name

def Links (b : Bpb) (d : Disk) (q : ℕ) (name : List UInt8) (p : ℕ) : Prop :=
  ∃ j, LinkAt b d q name p j

/-- The directories form a tree, with the dot entries that belong to it. -/
structure TreeLaw (b : Bpb) (d : Disk) : Prop where
  root : ∀ p k, ¬ Subdir b d p k 0
  unique : ∀ p k p' k' q, Subdir b d p k q → Subdir b d p' k' q → p = p' ∧ k = k'
  dot : ∀ p k q, Subdir b d p k q → Links b d q dotName q
  dotdot : ∀ p k q, Subdir b d p k q → Links b d q dotdotName p

/-- `p` is the parent of `q`. -/
def ParentOf (b : Bpb) (d : Disk) (p q : ℕ) : Prop := ∃ k, Subdir b d p k q

theorem TreeLaw.parents (h : TreeLaw b d) : Parents (ParentOf b d) 0 where
  root := fun p ⟨k, hk⟩ => h.root p k hk
  unique := fun p p' q ⟨k, hk⟩ ⟨k', hk'⟩ => (h.unique p k p' k' q hk hk').1

theorem Subdir.isDir_child (h : Subdir b d p k q) : IsDir b d q := by
  rw [← h.cluster]
  exact IsDir.child h.dir h.live h.isDir h.notDot

/-- The directories are those below the root. -/
theorem isDir_iff_reachable : IsDir b d q ↔ ReflTransGen (ParentOf b d) 0 q := by
  constructor
  · intro hq
    induction hq with
    | root => exact ReflTransGen.refl
    | child hdir hlive hisDir hdot ih => exact ih.tail ⟨_, hdir, hlive, hisDir, hdot, rfl⟩
  · intro hq
    cases hq with
    | refl => exact IsDir.root
    | tail _ hparent =>
        obtain ⟨k, hk⟩ := hparent
        exact hk.isDir_child

/-- No directory is below itself. -/
theorem TreeLaw.acyclic (h : TreeLaw b d) (hq : IsDir b d q) :
    ¬ TransGen (ParentOf b d) q q :=
  h.parents.acyclic (isDir_iff_reachable.1 hq)

theorem firstCluster_lt (e : Bytes) : firstCluster e < 65536 := load16_lt _ _

theorem IsDir.lt (h : IsDir b d dir) : dir < 65536 := by
  cases h with
  | root => omega
  | child => exact firstCluster_lt _

/-- A dot entry shows the name `.` or `..`. -/
theorem format83_of_isDot (h : isDot e = true) : format83 e = dotName ∨ format83 e = dotdotName := by
  have hshow : ∀ e' : Bytes, rawName e' = rawName e → format83 e = format83 e' := by
    intro e' hraw
    have hbyte : ∀ x < 11, e x = e' x := fun x hx =>
      (List.map_inj_left.1 hraw x (List.mem_range.2 hx)).symm
    have hname : (List.range 8).map e = (List.range 8).map e' :=
      List.map_congr_left fun x hx => hbyte x (by
        have := List.mem_range.1 hx
        omega)
    have hext : ((List.range 3).map fun x => e (8 + x)) = (List.range 3).map fun x => e' (8 + x) :=
      List.map_congr_left fun x hx => hbyte (8 + x) (by
        have := List.mem_range.1 hx
        omega)
    rw [format83, format83, hname, hext, hbyte 8 (by omega)]
  rw [isDot, Bool.and_eq_true, Bool.or_eq_true] at h
  rcases h.2 with hraw | hraw
  · rw [hshow (fun x => if x = 0 then 0x2E else 0x20) ((eq_of_beq hraw).symm ▸ by decide)]
    exact Or.inl (by decide)
  · rw [hshow (fun x => if x < 2 then 0x2E else 0x20) ((eq_of_beq hraw).symm ▸ by decide)]
    exact Or.inr (by decide)

/-! ## Operations that keep the directories -/

namespace SameTree

theorem subdir (hb : Geometry b top) (hs : Sound b top d first) (h : SameTree b d d' f)
    (hsub : Subdir b d' p k q) : Subdir b d p k q := by
  have hp := (h.isDir_iff hb hs).1 hsub.dir
  have hlive := (h.liveSlot_iff hb hs hp).1 hsub.live
  have hhead := h.entry_head hp hlive.has
  have haddr := h.slotAddr_eq hp k
  have hisDir := hsub.isDir
  rw [haddr, isDirectory_congr hhead] at hisDir
  have hdot := hsub.notDot
  rw [haddr, isDot_congr hhead] at hdot
  have hcluster := hsub.cluster
  rw [haddr, firstCluster_congr (h.entry_dir hp hlive.has hisDir)] at hcluster
  exact ⟨hp, hlive, hisDir, hdot, hcluster⟩

theorem links (hb : Geometry b top) (hs : Sound b top d first) (h : SameTree b d d' f)
    (hq : IsDir b d q) (hlinks : Links b d q name p) : Links b d' q name p := by
  obtain ⟨j, hlink⟩ := hlinks
  have haddr := h.slotAddr_eq hq
  have hformat {i : ℕ} (hi : LiveSlot b d q i) : format83 (entryAt d' (slotAddr b d' q i)) =
      format83 (entryAt d (slotAddr b d q i)) := by
    rw [haddr, format83_congr (h.entry_head hq hi.has)]
  refine ⟨j, (h.liveSlot_iff hb hs hq).2 hlink.live, (hformat hlink.live).trans hlink.named,
    ?_, ?_, fun i hi hlive => ?_⟩
  · rw [haddr, isDirectory_congr (h.entry_head hq hlink.live.has)]
    exact hlink.isDir
  · rw [haddr, firstCluster_congr (h.entry_dir hq hlink.live.has hlink.isDir)]
    exact hlink.cluster
  · have hlive' := (h.liveSlot_iff hb hs hq).1 hlive
    rw [hformat hlive']
    exact hlink.before i hi hlive'

theorem treeLaw (hb : Geometry b top) (hs : Sound b top d first) (h : SameTree b d d' f)
    (htree : TreeLaw b d) : TreeLaw b d' where
  root := fun p k hsub => htree.root p k (h.subdir hb hs hsub)
  unique := fun p k p' k' q hsub hsub' =>
    htree.unique p k p' k' q (h.subdir hb hs hsub) (h.subdir hb hs hsub')
  dot := fun p k q hsub => by
    have hold := h.subdir hb hs hsub
    exact h.links hb hs hold.isDir_child (htree.dot p k q hold)
  dotdot := fun p k q hsub => by
    have hold := h.subdir hb hs hsub
    exact h.links hb hs hold.isDir_child (htree.dotdot p k q hold)

end SameTree

/-! ## Creations -/

/-- The dot entries of a new directory. -/
theorem linkAt_initDirCluster (hb : Geometry b top) (hc : InUse top c) {parent j : ℕ} {d₁ : Disk}
    (hd' : ∀ x, InCluster b c x → d' x = initDirCluster b d₁ c parent x)
    (hl : ClusterChain b top d' c [c]) (hj : j < 2) :
    LinkAt b d' c (List.replicate (j + 1) 0x2E) (if j = 0 then c else parent % 65536) j := by
  have hentry {i : ℕ} (hi : i < 2) := fun x hx =>
    entryAt_dotEntry hb hc hd' hl hi (x := x) hx
  have hhead {i : ℕ} (hi : i < 2) : ∀ x < 26, entryAt d' (slotAddr b d' c i) x =
      dotEntry i (if i = 0 then c else parent % 65536) x := fun x hx => hentry hi x (by omega)
  have hformat {i : ℕ} (hi : i < 2) :
      format83 (entryAt d' (slotAddr b d' c i)) = List.replicate (i + 1) 0x2E := by
    rw [format83_congr (hhead hi), format83_dotEntry hi]
  refine ⟨⟨hasSlot_of_single hb hc hl (by omega), fun i hi => ?_, ?_⟩, hformat hj, ?_, ?_,
    fun i hi _ heq => ?_⟩
  · have hfirst := hentry (show i < 2 by omega) 0 (by omega)
    rw [entryAt, Nat.add_zero, dotEntry_zero] at hfirst
    rw [hfirst]
    decide
  · rw [visible_congr (hhead hj)]
    exact visible_dotEntry _ _
  · rw [isDirectory_congr (hhead hj)]
    exact isDirectory_dotEntry _ _
  · rw [firstCluster_congr (hentry hj), dotEntry, firstCluster_newEntry]
    have := hc.lt hb
    split_ifs <;> omega
  · rw [hformat (by omega)] at heq
    have hlen := congrArg List.length heq
    rw [List.length_replicate, List.length_replicate] at hlen
    omega

namespace Created

variable (hb : Geometry b top) (hs : Sound b top d first)
  (h : Created b top d dir k e l d')

include hb hs h

/-- No entry leads to the new directory but the new one. -/
theorem subdir_cases {j : ℕ} (hzero : ZeroTail b d) (hdir : IsDir b d dir)
    (hsub : Subdir b d' p j q) : Subdir b d p j q ∨
      (p = dir ∧ j = k ∧ isDirectory e = true ∧ q = firstCluster e) := by
  obtain ⟨hp, hlive, hisDir, hdot, hcluster⟩ := hsub
  rcases h.isDir_cases hb hs hzero hp with hp | ⟨hdirEntry, rfl⟩
  · rw [h.slotAddr_eq hb hs hp] at hisDir hdot hcluster
    rcases h.live_cases hb hs hzero hp hlive with heq | hlive'
    · right
      obtain ⟨hpd, hjk⟩ := slotAddr_inj hb hs hp hdir ((h.hasSlot_iff hb hs hp).1 hlive.has)
        h.slot.has heq
      rw [heq, isDirectory_congr fun x hx => h.entry x (by omega)] at hisDir
      rw [heq, firstCluster_congr h.entry] at hcluster
      exact ⟨hpd, hjk, hisDir, hcluster.symm⟩
    · left
      have hother : ∀ x < 32, entryAt d' (slotAddr b d p j) x = entryAt d (slotAddr b d p j) x :=
        fun x hx => h.slot_other hb hs hp hlive'.has (h.live_ne hlive') hx
      have hhead : ∀ x < 26, entryAt d' (slotAddr b d p j) x = entryAt d (slotAddr b d p j) x :=
        fun x hx => hother x (by omega)
      rw [isDirectory_congr hhead] at hisDir
      rw [isDot_congr hhead] at hdot
      rw [firstCluster_congr hother] at hcluster
      exact ⟨hp, hlive', hisDir, hdot, hcluster⟩
  · have hslot := h.empty hdirEntry j hlive.has
    rcases Nat.lt_or_ge j 2 with hlt | htwo
    · rw [(hslot.1 hlt).2.1] at hdot
      cases hdot
    · exact absurd (hslot.2 htwo) hlive.visible.first_ne_zero

/-- A dot entry of an old directory is still the first of its name. -/
theorem links (hzero : ZeroTail b d) (hnew : format83 e ≠ name) (hq : IsDir b d q)
    (hlinks : Links b d q name p) : Links b d' q name p := by
  obtain ⟨j, hlink⟩ := hlinks
  have haddr := h.slotAddr_eq hb hs hq
  have hother {i : ℕ} (hi : LiveSlot b d q i) : ∀ x < 32,
      entryAt d' (slotAddr b d q i) x = entryAt d (slotAddr b d q i) x :=
    fun x hx => h.slot_other hb hs hq hi.has (h.live_ne hi) hx
  have hhead {i : ℕ} (hi : LiveSlot b d q i) : ∀ x < 26,
      entryAt d' (slotAddr b d q i) x = entryAt d (slotAddr b d q i) x :=
    fun x hx => hother hi x (by omega)
  refine ⟨j, h.live_of_live hb hs hq hlink.live, ?_, ?_, ?_, fun i hi hlive => ?_⟩
  · rw [haddr, format83_congr (hhead hlink.live)]
    exact hlink.named
  · rw [haddr, isDirectory_congr (hhead hlink.live)]
    exact hlink.isDir
  · rw [haddr, firstCluster_congr (hother hlink.live)]
    exact hlink.cluster
  · rw [haddr]
    rcases h.live_cases hb hs hzero hq hlive with heq | hlive'
    · rw [heq, format83_congr fun x hx => h.entry x (by omega)]
      exact hnew
    · rw [format83_congr (hhead hlive')]
      exact hlink.before i hi hlive'

omit hb in
/-- The new directory's cluster was free, so it is no old directory. -/
theorem not_isDir_new (hne : l ≠ []) : ¬ IsDir b d (firstCluster e) := by
  intro hq
  obtain ⟨m, hm, -⟩ := hs.exists_dirChain hq
  rcases h.chain.cases with ⟨-, hnil⟩ | ⟨htwo, hmem, -⟩
  · exact hne hnil
  · rcases hm.cases with ⟨hlt, -⟩ | ⟨-, hmem', -⟩
    · omega
    · exact hm.fatAt_ne_zero hmem' (h.fresh _ hmem).2

/-- A new entry that is not shown as a dot entry keeps the tree; for a directory, with
its own dot entries. -/
theorem treeLaw (hzero : ZeroTail b d) (hdir : IsDir b d dir) (htree : TreeLaw b d)
    (hdot : format83 e ≠ dotName) (hdotdot : format83 e ≠ dotdotName)
    (hnew : isDirectory e = true → l ≠ [] ∧ Links b d' (firstCluster e) dotName (firstCluster e) ∧
      Links b d' (firstCluster e) dotdotName dir) : TreeLaw b d' where
  root := fun p j hsub => by
    rcases h.subdir_cases hb hs hzero hdir hsub with hold | ⟨-, -, hisDir, hq⟩
    · exact htree.root p j hold
    · exact h.not_isDir_new hs (hnew hisDir).1 (hq ▸ IsDir.root)
  unique := fun p j p' j' q hsub hsub' => by
    rcases h.subdir_cases hb hs hzero hdir hsub with hold | ⟨rfl, rfl, hisDir, hq⟩ <;>
      rcases h.subdir_cases hb hs hzero hdir hsub' with hold' | ⟨rfl, rfl, hisDir', hq'⟩
    · exact htree.unique p j p' j' q hold hold'
    · exact absurd (hq' ▸ hold.isDir_child) (h.not_isDir_new hs (hnew hisDir').1)
    · exact absurd (hq ▸ hold'.isDir_child) (h.not_isDir_new hs (hnew hisDir).1)
    · exact ⟨rfl, rfl⟩
  dot := fun p j q hsub => by
    rcases h.subdir_cases hb hs hzero hdir hsub with hold | ⟨-, -, hisDir, rfl⟩
    · exact h.links hb hs hzero hdot hold.isDir_child (htree.dot p j q hold)
    · exact (hnew hisDir).2.1
  dotdot := fun p j q hsub => by
    rcases h.subdir_cases hb hs hzero hdir hsub with hold | ⟨rfl, -, hisDir, rfl⟩
    · exact h.links hb hs hzero hdotdot hold.isDir_child (htree.dotdot p j q hold)
    · exact (hnew hisDir).2.2

end Created

end Fat16

end Yotos
