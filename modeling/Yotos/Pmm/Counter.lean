import Yotos.Pmm.Frames
import Mathlib.Data.Finset.Card
import Mathlib.Data.Finset.Range

/-!
# The used-block counter

`pmm.c` keeps the number of used frames next to the bitmap and updates the two
separately. `clearCount s m` counts the clear bits below `m`. Each operation
moves the counter and that count in opposite directions, so their sum `drift`
never changes along the boot loops and the later allocations.
-/

namespace Yotos

namespace Pmm

/-- The number of frames below `m` that the bitmap marks free. -/
def clearCount (s : Pmm) (m : ℕ) : ℕ :=
  ((Finset.range m).filter fun f => used s f = false).card

/-- The counter plus the number of clear bits, in 32-bit arithmetic. -/
def drift (s : Pmm) (m : ℕ) : ℕ :=
  (s.usedBlocks + clearCount s m) % 2 ^ 32

theorem clearCount_congr {s t : Pmm} (h : ∀ f, used s f = used t f) (m : ℕ) :
    clearCount s m = clearCount t m := by
  unfold clearCount
  simp only [h]

theorem clearCount_pos {s : Pmm} {m f : ℕ} (hf : f < m) (h : used s f = false) :
    0 < clearCount s m :=
  Finset.card_pos.2 ⟨f, Finset.mem_filter.2 ⟨Finset.mem_range.2 hf, h⟩⟩

/-- A frame that only `t` marks free adds one to the count. -/
theorem clearCount_of_flip {s t : Pmm} {m f : ℕ} (hf : f < m) (hs : used s f = true)
    (ht : used t f = false) (hne : ∀ g, g ≠ f → used t g = used s g) :
    clearCount t m = clearCount s m + 1 := by
  unfold clearCount
  have hset : ((Finset.range m).filter fun g => used t g = false) =
      insert f ((Finset.range m).filter fun g => used s g = false) := by
    ext g
    by_cases hg : g = f
    · subst hg
      simp [hf, ht]
    · simp [hg, hne g hg]
  rw [hset, Finset.card_insert_of_notMem]
  simp [hs]

theorem clearCount_mmapUnset {s : Pmm} {m f : ℕ} (hf : f < m) (h : used s f = true) :
    clearCount (mmapUnset s f) m = clearCount s m + 1 := by
  refine clearCount_of_flip hf h ?_ ?_
  · simp
  · intro g hg
    simp [hg]

theorem clearCount_mmapSet {s : Pmm} {m f : ℕ} (hf : f < m) (h : used s f = false) :
    clearCount (mmapSet s f) m + 1 = clearCount s m := by
  refine (clearCount_of_flip hf ?_ h ?_).symm
  · simp
  · intro g hg
    simp [hg]

theorem clearCount_mmapUnset_of_clear {s : Pmm} {f : ℕ} (m : ℕ) (h : used s f = false) :
    clearCount (mmapUnset s f) m = clearCount s m := by
  apply clearCount_congr
  intro g
  by_cases hg : g = f
  · subst hg
    simp [h]
  · simp [hg]

theorem clearCount_mmapSet_of_set {s : Pmm} {f : ℕ} (m : ℕ) (h : used s f = true) :
    clearCount (mmapSet s f) m = clearCount s m := by
  apply clearCount_congr
  intro g
  by_cases hg : g = f
  · subst hg
    simp [h]
  · simp [hg]

@[simp] theorem clearCount_incUsedBlocks (s : Pmm) (m : ℕ) :
    clearCount (incUsedBlocks s) m = clearCount s m :=
  clearCount_congr (used_incUsedBlocks s) m

@[simp] theorem clearCount_decUsedBlocks (s : Pmm) (m : ℕ) :
    clearCount (decUsedBlocks s) m = clearCount s m :=
  clearCount_congr (used_decUsedBlocks s) m

theorem drift_pmmngrInitRegionLoop (blocks align m : ℕ) (s : Pmm) (hm : align + blocks ≤ m) :
    drift (pmmngrInitRegionLoop blocks align s) m = drift s m := by
  induction blocks generalizing align s with
  | zero => rw [pmmngrInitRegionLoop]
  | succ blocks ih =>
      rw [pmmngrInitRegionLoop, ih (align + 1) _ (by omega), mmapTest_eq_used]
      unfold drift
      cases h : used s align with
      | false =>
          rw [if_neg (by simp), clearCount_mmapUnset_of_clear m h, mmapUnset]
      | true =>
          have hdec : used (decUsedBlocks s) align = true := by simpa using h
          rw [if_pos rfl, clearCount_mmapUnset (by omega) hdec, clearCount_decUsedBlocks,
            mmapUnset, decUsedBlocks]
          dsimp only
          omega

theorem drift_pmmngrDeinitRegionLoop (blocks align m : ℕ) (s : Pmm) (hm : align + blocks ≤ m) :
    drift (pmmngrDeinitRegionLoop blocks align s) m = drift s m := by
  induction blocks generalizing align s with
  | zero => rw [pmmngrDeinitRegionLoop]
  | succ blocks ih =>
      rw [pmmngrDeinitRegionLoop, ih (align + 1) _ (by omega), mmapTest_eq_used]
      unfold drift
      cases h : used s align with
      | true =>
          rw [if_neg (by simp), clearCount_mmapSet_of_set m h, mmapSet]
      | false =>
          have hinc : used (incUsedBlocks s) align = false := by simpa using h
          have hcount := clearCount_mmapSet (m := m) (by omega) hinc
          rw [clearCount_incUsedBlocks] at hcount
          rw [if_pos (by simp), ← hcount, mmapSet, incUsedBlocks]
          dsimp only
          omega

theorem drift_pmmInitAvailableRegions (mmap : List MultibootMmapEntry) (m : ℕ) (s : Pmm)
    (hm : 2 ^ 21 ≤ m) :
    drift (pmmInitAvailableRegions mmap s) m = drift s m := by
  unfold pmmInitAvailableRegions
  induction mmap generalizing s with
  | nil => rfl
  | cons e mmap ih =>
      rw [List.foldl_cons, ih]
      unfold pmmInitAvailableRegion pmmngrInitRegion
      split
      · apply drift_pmmngrInitRegionLoop
        unfold pmmngrBlockSize
        omega
      · rfl

/-- The boot loops leave the sum of counter and clear bits where `pmmngr_init`
put it. -/
theorem drift_boot (memSize : ℕ) (map : ℕ → BitVec 32) (mmap : List MultibootMmapEntry)
    (m : ℕ) (hm : 2 ^ 21 ≤ m) :
    drift (boot memSize map mmap) m = drift (pmmngrInit memSize map) m := by
  rw [boot, deinitSpecialRegions, pmmngrDeinitRegion, drift_pmmngrDeinitRegionLoop,
    drift_pmmInitAvailableRegions _ _ _ hm]
  simp only [pmmngrBlockSize]
  omega

/-- An allocation moves the counter and the clear bits together. -/
theorem drift_pmmngrAllocBlock (s : Pmm) (m : ℕ) (hm : s.maxBlocks ≤ m) :
    drift (pmmngrAllocBlock s).2 m = drift s m := by
  rcases pmmngrAllocBlock_cases s with h | ⟨f, hlt, hclear, -, h⟩
  · rw [h]
  · have hcount := clearCount_mmapSet (m := m) (by omega) hclear
    rw [h]
    unfold drift
    rw [clearCount_incUsedBlocks, ← hcount, incUsedBlocks, mmapSet]
    dsimp only
    omega

theorem usedBlocks_incUsedBlocks_lt (s : Pmm) : (incUsedBlocks s).usedBlocks < 2 ^ 32 :=
  Nat.mod_lt _ (by decide)

theorem usedBlocks_decUsedBlocks_lt (s : Pmm) : (decUsedBlocks s).usedBlocks < 2 ^ 32 :=
  Nat.mod_lt _ (by decide)

theorem usedBlocks_pmmngrInitRegionLoop_lt (blocks align : ℕ) (s : Pmm)
    (h : s.usedBlocks < 2 ^ 32) :
    (pmmngrInitRegionLoop blocks align s).usedBlocks < 2 ^ 32 := by
  induction blocks generalizing align s with
  | zero => simpa only [pmmngrInitRegionLoop] using h
  | succ blocks ih =>
      rw [pmmngrInitRegionLoop]
      apply ih
      rw [mmapUnset]
      dsimp only
      split
      · exact usedBlocks_decUsedBlocks_lt s
      · exact h

theorem usedBlocks_pmmngrDeinitRegionLoop_lt (blocks align : ℕ) (s : Pmm)
    (h : s.usedBlocks < 2 ^ 32) :
    (pmmngrDeinitRegionLoop blocks align s).usedBlocks < 2 ^ 32 := by
  induction blocks generalizing align s with
  | zero => simpa only [pmmngrDeinitRegionLoop] using h
  | succ blocks ih =>
      rw [pmmngrDeinitRegionLoop]
      apply ih
      rw [mmapSet]
      dsimp only
      split
      · exact usedBlocks_incUsedBlocks_lt s
      · exact h

theorem usedBlocks_boot_lt (memSize : ℕ) (hsize : memSize < 2 ^ 32) (map : ℕ → BitVec 32)
    (mmap : List MultibootMmapEntry) :
    (boot memSize map mmap).usedBlocks < 2 ^ 32 := by
  rw [boot, deinitSpecialRegions, pmmngrDeinitRegion]
  apply usedBlocks_pmmngrDeinitRegionLoop_lt
  unfold pmmInitAvailableRegions
  have hinit : (pmmngrInit memSize map).usedBlocks < 2 ^ 32 := by
    rw [pmmngrInit]
    dsimp only
    omega
  induction mmap using List.reverseRecOn with
  | nil => exact hinit
  | append_singleton mmap e ih =>
      rw [List.foldl_append, List.foldl_cons, List.foldl_nil, pmmInitAvailableRegion]
      split
      · exact usedBlocks_pmmngrInitRegionLoop_lt _ _ _ ih
      · exact ih

/-- Splitting the clear bits of `s` below `m` at `w`: those above include every
clear bit of `t`. -/
theorem clearCount_add_le {s t : Pmm} {w m : ℕ} (hw : w ≤ m)
    (h : ∀ f, used t f = false → w ≤ f ∧ used s f = false) :
    clearCount t m + clearCount s w ≤ clearCount s m := by
  unfold clearCount
  have hdisj : Disjoint ((Finset.range m).filter fun f => used t f = false)
      ((Finset.range w).filter fun f => used s f = false) := by
    rw [Finset.disjoint_left]
    intro f ht hs
    have hle := (h f (Finset.mem_filter.1 ht).2).1
    have hlt := Finset.mem_range.1 (Finset.mem_filter.1 hs).1
    omega
  rw [← Finset.card_union_of_disjoint hdisj]
  apply Finset.card_le_card
  intro f hf
  rcases Finset.mem_union.1 hf with ht | hs
  · obtain ⟨hlt, ht⟩ := Finset.mem_filter.1 ht
    exact Finset.mem_filter.2 ⟨hlt, (h f ht).2⟩
  · obtain ⟨hlt, hs⟩ := Finset.mem_filter.1 hs
    have hfw := Finset.mem_range.1 hlt
    exact Finset.mem_filter.2 ⟨Finset.mem_range.2 (by omega), hs⟩

/-- The counter of `s` leaves room for every clear bit of the whole bitmap words.
`t` is the state right after `pmmngr_init`, whose clear bits (those `memset` did not
reach) were never counted. -/
structure Counted (t s : Pmm) : Prop where
  word : s.usedBlocks < 2 ^ 32
  limit : s.maxBlocks ≤ 2 ^ 30
  tail : ∀ f, used t f = false → 32 * (s.maxBlocks / 32) ≤ f ∧ used s f = false
  balance : drift s (2 ^ 30) = (s.maxBlocks + clearCount t (2 ^ 30)) % 2 ^ 32

theorem Counted.boot {memSize : ℕ} (hsize : memSize < 2 ^ 32) (hlow : 4096 ≤ memSize)
    (map : ℕ → BitVec 32) (mmap : List MultibootMmapEntry) :
    Counted (pmmngrInit memSize map) (boot memSize map mmap) where
  word := usedBlocks_boot_lt memSize hsize map mmap
  limit := by
    rw [maxBlocks_boot]
    omega
  tail f hf := by
    rw [used_pmmngrInit, Bool.or_eq_false_iff, decide_eq_false_iff_not] at hf
    refine ⟨?_, (used_boot_eq_false_iff memSize map mmap f).2 ⟨by omega, Or.inr ⟨?_, hf.2⟩⟩⟩
    · rw [maxBlocks_boot]
      omega
    · omega
  balance := by
    rw [drift_boot _ _ _ _ (by decide), maxBlocks_boot]
    rfl

theorem Counted.alloc {t s : Pmm} (h : Counted t s) :
    Counted t (pmmngrAllocBlock s).2 := by
  have hbalance := drift_pmmngrAllocBlock s (2 ^ 30) h.limit
  rcases pmmngrAllocBlock_cases s with h0 | ⟨f, hlt, -, -, hf⟩
  · rwa [h0]
  · refine ⟨?_, ?_, ?_, ?_⟩
    · rw [hf]
      exact usedBlocks_incUsedBlocks_lt _
    · rw [maxBlocks_pmmngrAllocBlock]
      exact h.limit
    · intro g hg
      obtain ⟨hge, hclear⟩ := h.tail g hg
      have hne : g ≠ f := by omega
      rw [maxBlocks_pmmngrAllocBlock, hf]
      refine ⟨hge, ?_⟩
      simp [hne, hclear]
    · rw [hbalance, maxBlocks_pmmngrAllocBlock]
      exact h.balance

/-- As long as a whole bitmap word has a clear bit, an allocation takes the lowest
one: the counter does not make it give up. -/
theorem Counted.alloc_eq {t s : Pmm} (h : Counted t s) {f : ℕ}
    (hf : f < 32 * (s.maxBlocks / 32)) (hclear : used s f = false) :
    ∃ g ≤ f, used s g = false ∧ (∀ k < g, used s k = true) ∧
      pmmngrAllocBlock s = (g * 4096 % 2 ^ 32, incUsedBlocks (mmapSet s g)) := by
  have hlimit := h.limit
  have hsum : clearCount t (2 ^ 30) + clearCount s (32 * (s.maxBlocks / 32)) ≤
      clearCount s (2 ^ 30) := clearCount_add_le (by omega) h.tail
  have hpos := clearCount_pos hf hclear
  have hle : clearCount s (2 ^ 30) ≤ 2 ^ 30 :=
    (Finset.card_filter_le _ _).trans_eq (Finset.card_range _)
  have hcount : pmmngrGetFreeBlockCount s ≠ 0 := by
    have hbalance := h.balance
    have hword := h.word
    unfold drift at hbalance
    unfold pmmngrGetFreeBlockCount
    omega
  exact pmmngrAllocBlock_of_clear hcount hf hclear

end Pmm

end Yotos
