import Mathlib.Data.Set.Insert
import Yotos.Fat16.Mirror

/-!
# Volumes on which no call leaves the table

`fat_set_entry` is called for free clusters, which the search takes from the table, and
for the clusters of a file's chain, which come from the disk. `Guarded` says that these
stay within the table: `D` holds the clusters of the directories, `F` those of the
files, both are closed under the links of the table, and they have no cluster in common,
so that no file's bytes are read as directory entries. Chains may have any shape
otherwise: they may be cyclic or run into each other.
-/

namespace Yotos

namespace Fat16

open Bytes Kheap Library

/-- The bytes of the root directory and of the clusters in `D`. -/
def DirArea (b : Bpb) (D : Set ℕ) (x : ℕ) : Prop :=
  (512 * b.rootDirLba ≤ x ∧ x < 512 * b.dataLba) ∨ ∃ c ∈ D, InCluster b c x

/-- The entry leads to a directory in `D` or to a file in `F`. -/
def Leads (D F : Set ℕ) (e : Bytes) : Prop :=
  if isDirectory e then isCluster (firstCluster e) = true → firstCluster e ∈ D
  else 2 ≤ firstCluster e → firstCluster e ∈ F

structure Guarded (b : Bpb) (D F : Set ℕ) (d : Disk) : Prop where
  used : ∀ c, c ∈ D ∨ c ∈ F → 2 ≤ c ∧ c < 256 * b.fatSize ∧ fatAt b d c ≠ 0
  dirNext : ∀ c ∈ D, isCluster (fatAt b d c) = true → fatAt b d c ∈ D
  fileNext : ∀ c ∈ F, isCluster (fatAt b d c) = true → fatAt b d c ∈ F
  apart : ∀ c ∈ D, c ∉ F
  slots : ∀ a, a % 32 = 0 → DirArea b D a → Visible (entryAt d a) → Leads D F (entryAt d a)

variable {b : Bpb} {d d' : Disk} {D D' F F' : Set ℕ} {c x a v n inode fuel : ℕ} {e e' : Bytes}

theorem DirArea.mono (h : DirArea b D x) (hD : D ⊆ D') : DirArea b D' x := by
  rcases h with hroot | ⟨c, hc, hin⟩
  · exact Or.inl hroot
  · exact Or.inr ⟨c, hD hc, hin⟩

/-- A slot of 32 bytes lies in the area with its first byte. -/
theorem DirArea.slot (h : DirArea b D a) (ha : a % 32 = 0) (hx : x < 32) :
    DirArea b D (a + x) := by
  rcases h with hroot | ⟨c, hc, hin⟩
  · left
    omega
  · refine Or.inr ⟨c, hc, ?_⟩
    rw [InCluster, clusterAddr, Bpb.clusterBytes] at hin ⊢
    omega

theorem Leads.mono (h : Leads D F e) (hD : D ⊆ D') (hF : F ⊆ F') : Leads D' F' e := by
  unfold Leads at h ⊢
  split_ifs at h ⊢
  · exact fun hc => hD (h hc)
  · exact fun hc => hF (h hc)

theorem Leads.congr (h : Leads D F e) (he : ∀ x < 32, e' x = e x) : Leads D F e' := by
  rwa [Leads, isDirectory_congr fun x hx => he x (by omega), firstCluster_congr he, ← Leads]

namespace Guarded

theorem two_le (h : Guarded b D F d) (hc : c ∈ D ∨ c ∈ F) : 2 ≤ c := (h.used c hc).1

theorem lt_table (h : Guarded b D F d) (hc : c ∈ D ∨ c ∈ F) : c < 256 * b.fatSize :=
  (h.used c hc).2.1

theorem not_mem_of_free (h : Guarded b D F d) (hfree : fatAt b d c = 0) : c ∉ D ∧ c ∉ F :=
  ⟨fun hD => (h.used c (Or.inl hD)).2.2 hfree, fun hF => (h.used c (Or.inr hF)).2.2 hfree⟩

/-- The area of the directories lies behind the table. -/
theorem rootAddr_le (hb : Mirrored b) (h : Guarded b D F d) (hx : DirArea b D x) :
    512 * b.rootDirLba ≤ x := by
  rcases hx with hroot | ⟨c, hc, hin⟩
  · exact hroot.1
  · exact (rootAddr_le_dataAddr b).trans (dataAddr_le_of_inCluster (h.two_le (Or.inl hc))
      (hb.lt (h.lt_table (Or.inl hc))) hin)

/-- A cluster outside `D` has no byte in the area. -/
theorem not_inCluster (hb : Mirrored b) (h : Guarded b D F d) (hx : DirArea b D x) (hc : 2 ≤ c)
    (hlt : c < 65536) (hD : c ∉ D) : ¬ InCluster b c x := by
  intro hin
  rcases hx with hroot | ⟨c', hc', hin'⟩
  · have := dataAddr_le_of_inCluster hc hlt hin
    omega
  · have heq := inCluster_unique hc hlt (h.two_le (Or.inl hc'))
      (hb.lt (h.lt_table (Or.inl hc'))) hin hin'
    exact hD (heq ▸ hc')

/-- What happens outside the table and the directories does not matter. -/
theorem congr (hb : Mirrored b) (h : Guarded b D F d)
    (htable : ∀ x < 512 * b.rootDirLba, d' x = d x) (harea : ∀ x, DirArea b D x → d' x = d x) :
    Guarded b D F d' := by
  have hfat : ∀ c, c ∈ D ∨ c ∈ F → fatAt b d' c = fatAt b d c := fun c hc =>
    fatAt_congr hb.geometry (h.lt_table hc) htable
  refine ⟨fun c hc => ?_, fun c hc => ?_, fun c hc => ?_, h.apart, fun a ha hplace hvisible => ?_⟩
  · rw [hfat c hc]
    exact h.used c hc
  · rw [hfat c (Or.inl hc)]
    exact h.dirNext c hc
  · rw [hfat c (Or.inr hc)]
    exact h.fileNext c hc
  · have hentry : ∀ x < 32, entryAt d' a x = entryAt d a x := fun x hx =>
      harea _ (hplace.slot ha hx)
    rw [visible_congr fun x hx => hentry x (by omega)] at hvisible
    exact (h.slots a ha hplace hvisible).congr hentry

/-- A call of `fat_set_entry` for a cluster in neither set, or one that keeps the sets
closed. -/
theorem fatSetEntry (hb : Mirrored b) (h : Guarded b D F d) (hc : c < 256 * b.fatSize)
    (hv : v < 65536) (hD : c ∈ D → v ≠ 0 ∧ (isCluster v = true → v ∈ D))
    (hF : c ∈ F → v ≠ 0 ∧ (isCluster v = true → v ∈ F)) :
    Guarded b D F (fatSetEntry b d c v) := by
  have hlt := hb.lt hc
  have hself : fatAt b (Fat16.fatSetEntry b d c v) c = v := fatAt_fatSetEntry_self hlt hc hv
  have hother : ∀ k, k ∈ D ∨ k ∈ F → k ≠ c →
      fatAt b (Fat16.fatSetEntry b d c v) k = fatAt b d k := fun k hk hne =>
    fatAt_fatSetEntry_of_ne hlt (h.lt_table hk) hne
  have hcount : 1 ≤ b.fatCount.toNat := hb.geometry.fatCount_pos
  refine ⟨fun k hk => ⟨h.two_le hk, h.lt_table hk, ?_⟩, fun k hk => ?_, fun k hk => ?_, h.apart,
    fun a ha hplace hvisible => ?_⟩
  · by_cases heq : k = c
    · subst heq
      rw [hself]
      exact hk.elim (fun hkD => (hD hkD).1) fun hkF => (hF hkF).1
    · rw [hother k hk heq]
      exact (h.used k hk).2.2
  · by_cases heq : k = c
    · subst heq
      rw [hself]
      exact (hD hk).2
    · rw [hother k (Or.inl hk) heq]
      exact h.dirNext k hk
  · by_cases heq : k = c
    · subst heq
      rw [hself]
      exact (hF hk).2
    · rw [hother k (Or.inr hk) heq]
      exact h.fileNext k hk
  · have hentry : ∀ x < 32, entryAt (Fat16.fatSetEntry b d c v) a x = entryAt d a x :=
      fun x hx => fatSetEntry_outside hlt hc hcount (h.rootAddr_le hb (hplace.slot ha hx))
    rw [visible_congr fun x hx => hentry x (by omega)] at hvisible
    exact (h.slots a ha hplace hvisible).congr hentry

/-- A cluster with an end mark becomes a file's. -/
theorem insertFile (h : Guarded b D F d) (hc : 2 ≤ c) (hlt : c < 256 * b.fatSize) (hD : c ∉ D)
    (hused : fatAt b d c ≠ 0) (hend : isCluster (fatAt b d c) = false) :
    Guarded b D (insert c F) d := by
  have hsub : F ⊆ insert c F := Set.subset_insert c F
  refine ⟨fun k hk => ?_, h.dirNext, fun k hk hnext => ?_, fun k hk hkF => ?_,
    fun a ha hplace hvisible => (h.slots a ha hplace hvisible).mono subset_rfl hsub⟩
  · rcases hk with hk | rfl | hk
    · exact h.used k (Or.inl hk)
    · exact ⟨hc, hlt, hused⟩
    · exact h.used k (Or.inr hk)
  · rcases hk with rfl | hk
    · rw [hend] at hnext
      cases hnext
    · exact hsub (h.fileNext k hk hnext)
  · rcases hkF with rfl | hkF
    · exact hD hk
    · exact h.apart k hk hkF

/-- A cluster with an end mark whose slots lead to known clusters becomes a directory's. -/
theorem insertDir (h : Guarded b D F d) (hc : 2 ≤ c) (hlt : c < 256 * b.fatSize) (hF : c ∉ F)
    (hused : fatAt b d c ≠ 0) (hend : isCluster (fatAt b d c) = false)
    (hslots : ∀ a, a % 32 = 0 → InCluster b c a → Visible (entryAt d a) →
      Leads (insert c D) F (entryAt d a)) : Guarded b (insert c D) F d := by
  have hsub : D ⊆ insert c D := Set.subset_insert c D
  refine ⟨fun k hk => ?_, fun k hk hnext => ?_, h.fileNext, fun k hk hkF => ?_,
    fun a ha hplace hvisible => ?_⟩
  · rcases hk with (rfl | hk) | hk
    · exact ⟨hc, hlt, hused⟩
    · exact h.used k (Or.inl hk)
    · exact h.used k (Or.inr hk)
  · rcases hk with rfl | hk
    · rw [hend] at hnext
      cases hnext
    · exact hsub (h.dirNext k hk hnext)
  · rcases hk with rfl | hk
    · exact hF hkF
    · exact h.apart k hk hkF
  · rcases hplace with hroot | ⟨c', rfl | hc', hin⟩
    · exact (h.slots a ha (Or.inl hroot) hvisible).mono hsub subset_rfl
    · exact hslots a ha hin hvisible
    · exact (h.slots a ha (Or.inr ⟨c', hc', hin⟩) hvisible).mono hsub subset_rfl

end Guarded

/-- What an operation on a guarded volume does: the table changes by the calls in `log`,
and the volume is guarded again, for larger sets. The entries that are there keep their
first 26 bytes. -/
structure GuardedRun (b : Bpb) (D F : Set ℕ) (d : Disk) (log : List (ℕ × ℕ)) (D' F' : Set ℕ)
    (d' : Disk) : Prop where
  guarded : Guarded b D' F' d'
  dirs : D ⊆ D'
  files : F ⊆ F'
  table : TableRun b d log d'
  heads : ∀ a, a % 32 = 0 → DirArea b D a → Visible (entryAt d a) →
    ∀ x < 26, entryAt d' a x = entryAt d a x

theorem GuardedRun.refl (h : Guarded b D F d) : GuardedRun b D F d [] D F d :=
  ⟨h, subset_rfl, subset_rfl, TableRun.refl b d, fun _ _ _ _ _ _ => rfl⟩

theorem GuardedRun.trans {D'' F'' : Set ℕ} {d'' : Disk} {log log' : List (ℕ × ℕ)}
    (h : GuardedRun b D F d log D' F' d') (h' : GuardedRun b D' F' d' log' D'' F'' d'') :
    GuardedRun b D F d (log ++ log') D'' F'' d'' where
  guarded := h'.guarded
  dirs := h.dirs.trans h'.dirs
  files := h.files.trans h'.files
  table := h.table.trans h'.table
  heads a ha hplace hvisible x hx := by
    have hfirst := h.heads a ha hplace hvisible
    rw [h'.heads a ha (hplace.mono h.dirs) ((visible_congr hfirst).2 hvisible) x hx]
    exact hfirst x hx

end Fat16

end Yotos
