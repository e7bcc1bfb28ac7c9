import Yotos.Vmm.Tables

/-!
# The directory that `vmm_init` builds

`vmm_init` takes two frames: the directory, which it clears, and the first page table,
which it does not clear. The loop writes the entries 1 to 1023 of that table, so entry 0
is whatever the frame held before.
-/

namespace Yotos

namespace Vmm

open Bytes
open Pmm (used pmmngrAllocBlock pmmngrFreeBlock)

/-- The two allocations of `vmm_init` succeed. -/
def InitSucceeds (pmm : Pmm) : Prop :=
  (pmmngrAllocBlock pmm).1 ≠ 0 ∧ (pmmngrAllocBlock (pmmngrAllocBlock pmm).2).1 ≠ 0

/-- The frame of the directory. -/
def directoryFrame (pmm : Pmm) : ℕ := frameOf (pmmngrAllocBlock pmm).1

/-- The frame of the first page table. -/
def firstTableFrame (pmm : Pmm) : ℕ :=
  frameOf (pmmngrAllocBlock (pmmngrAllocBlock pmm).2).1

/-- The allocator after `vmm_init`. -/
def afterInit (pmm : Pmm) : Pmm := (pmmngrAllocBlock (pmmngrAllocBlock pmm).2).2

/-- What the frame of the first page table holds before `vmm_init`, in the word that
becomes the entry of page 0. -/
def staleEntry (memory : Bytes) (pmm : Pmm) : ℕ := word memory (firstTableFrame pmm) 0

theorem pageEntry_identity {k : ℕ} (hk : k < 1024) :
    pageEntry (k * 4096) (pagePresent ||| pageWritable) = k * 4096 + 3 := by
  rw [pageEntry_eq (by omega) (by decide)]
  rfl

section Loop

variable {s : Vmm} {d t k n : ℕ}

/-- One round of the loop once the table is there. -/
theorem vmmEarlyIdentityMap_of_present (hk : k < 1024)
    (htable : word s.memory d 0 = t * 4096 + 3) (ht : t < 2 ^ 20) :
    vmmEarlyIdentityMap (d * 4096) (k * 4096) (k * 4096) (pagePresent ||| pageWritable) s =
      { s with memory := store32 s.memory (t * 4096 + 4 * k) (k * 4096 + 3) } := by
  have hpd : pdIndex (k * 4096) = 0 := by
    rw [pdIndex_eq]
    omega
  have hpt : ptIndex (k * 4096) = k := by
    rw [ptIndex_eq]
    omega
  have hload : load32 s.memory (d * 4096 + 4 * 0) = t * 4096 + 3 := htable
  have hpresent : entryHasFlag (t * 4096 + 3) pagePresent = true :=
    present_add t (by decide) (by decide)
  have hframe : entryGetFrame (t * 4096 + 3) = t * 4096 := by
    rw [entryGetFrame_eq (by omega), frameOf_add t (by decide)]
  simp only [vmmEarlyIdentityMap, earlyTable, hpd, hpt, hload, hpresent, Bool.not_true,
    Bool.false_eq_true, if_false, if_true, hframe, pageEntry_identity hk]

/-- The rest of the loop fills the entries from `k` on. -/
theorem vmmMapKernelLoop_of_present (hk : k + n ≤ 1024) (htd : t ≠ d) (ht : t < 2 ^ 20)
    (htable : word s.memory d 0 = t * 4096 + 3) :
    (vmmMapKernelLoop (d * 4096) n (k * 4096) s).pmm = s.pmm ∧
      (vmmMapKernelLoop (d * 4096) n (k * 4096) s).cr3 = s.cr3 ∧
      ∀ g l, l < 1024 → word (vmmMapKernelLoop (d * 4096) n (k * 4096) s).memory g l =
        if g = t ∧ k ≤ l ∧ l < k + n then l * 4096 + 3 else word s.memory g l := by
  induction n generalizing k s with
  | zero =>
      rw [vmmMapKernelLoop]
      refine ⟨rfl, rfl, fun g l _ => ?_⟩
      rw [if_neg (by omega)]
  | succ n ih =>
      have hword : ∀ g l, l < 1024 →
          word (store32 s.memory (t * 4096 + 4 * k) (k * 4096 + 3)) g l =
            if g = t ∧ l = k then k * 4096 + 3 else word s.memory g l :=
        fun g l hl => word_store32 _ (by omega) hl (by omega)
      rw [vmmMapKernelLoop, vmmEarlyIdentityMap_of_present (by omega) htable ht,
        show k * 4096 + pageSize = (k + 1) * 4096 by unfold pageSize; omega]
      obtain ⟨hpmm, hcr3, hrest⟩ := ih (k := k + 1)
        (s := { s with memory := store32 s.memory (t * 4096 + 4 * k) (k * 4096 + 3) })
        (by omega) (by
          rw [hword d 0 (by decide), if_neg fun hc => htd hc.1.symm]
          exact htable)
      refine ⟨hpmm, hcr3, fun g l hl => ?_⟩
      rw [hrest g l hl, hword g l hl]
      by_cases hg : g = t
      · by_cases hlk : l = k
        · rw [if_neg (by omega), if_pos ⟨hg, hlk⟩, if_pos (by omega), hlk]
        · by_cases hin : k + 1 ≤ l ∧ l < k + 1 + n
          · rw [if_pos ⟨hg, hin⟩, if_pos (by omega)]
          · rw [if_neg (by omega), if_neg (by omega), if_neg (by omega)]
      · rw [if_neg (by omega), if_neg (by omega), if_neg (by omega)]

end Loop

/-- The tables in memory after `vmm_init`. -/
structure Initial (s : Vmm) (d t stale : ℕ) : Prop where
  cr3 : s.cr3 = d * 4096
  table : word s.memory d 0 = t * 4096 + 3
  recursive : Recursive s.memory d
  absent : ∀ i, 1 ≤ i → i < 1023 → word s.memory d i = 0
  stale : word s.memory t 0 = stale
  identity : ∀ k, 1 ≤ k → k < 1024 → word s.memory t k = k * 4096 + 3

theorem initial_vmmInit {memory : Bytes} {pmm : Pmm} {d t : ℕ}
    (hd : (pmmngrAllocBlock pmm).1 = d * 4096) (hdlt : d < 2 ^ 20)
    (ht : (pmmngrAllocBlock (pmmngrAllocBlock pmm).2).1 = t * 4096) (htlt : t < 2 ^ 20)
    (htpos : t ≠ 0) (htd : t ≠ d) :
    Initial (vmmInit memory pmm) d t (word memory t 0) ∧
      (vmmInit memory pmm).pmm = afterInit pmm := by
  -- the directory: cleared, with the recursive entry
  have hrec : d * 4096 ||| pagePresent ||| pageWritable = d * 4096 + 3 := by
    rw [Nat.or_assoc]
    exact frame_or d (x := 3) (by decide)
  have htab : t * 4096 ||| pagePresent ||| pageWritable = t * 4096 + 3 := by
    rw [Nat.or_assoc]
    exact frame_or t (x := 3) (by decide)
  generalize hm₀ : store32 (fill memory (d * 4096) 0 4096) (d * 4096 + 4 * 1023)
    (d * 4096 + 3) = m₀
  have hword₀ : ∀ g l, l < 1024 → word m₀ g l =
      if g = d ∧ l = 1023 then d * 4096 + 3 else if g = d then 0 else word memory g l := by
    intro g l hl
    rw [← hm₀, word_store32 _ (by decide) hl (by omega), word_fill _ hl]
  have hdir₀ : load32 m₀ (d * 4096 + 4 * 0) = 0 := by
    have h := hword₀ d 0 (by decide)
    rw [if_neg (by omega), if_pos rfl] at h
    exact h
  -- the first round takes the frame of the table
  have hfirst : ∀ s : Vmm, s.memory = m₀ → s.pmm = (pmmngrAllocBlock pmm).2 →
      vmmEarlyIdentityMap (d * 4096) 0x1000 0x1000 (pagePresent ||| pageWritable) s =
        { s with
          pmm := afterInit pmm
          memory := store32 (store32 m₀ (d * 4096 + 4 * 0) (t * 4096 + 3)) (t * 4096 + 4 * 1)
            (1 * 4096 + 3) } := by
    intro s hs hpmm
    have hload : load32 (store32 m₀ (d * 4096 + 4 * 0) (t * 4096 + 3)) (d * 4096 + 4 * 0) =
        t * 4096 + 3 := load32_store32_of_lt _ _ (by omega)
    have hframe : entryGetFrame (t * 4096 + 3) = t * 4096 := by
      rw [entryGetFrame_eq (by omega), frameOf_add t (by decide)]
    have hne : t * 4096 ≠ 0 := by omega
    simp only [vmmEarlyIdentityMap, earlyTable, hs, hpmm, show pdIndex 0x1000 = 0 by decide,
      show ptIndex 0x1000 = 1 by decide, hdir₀, show entryHasFlag 0 pagePresent = false by decide,
      Bool.not_false, if_true, ht, hne, if_false, htab, hload, hframe, afterInit]
    rw [show (0x1000 : ℕ) = 1 * 4096 from rfl, pageEntry_identity (by decide)]
  generalize hm₁ : store32 (store32 m₀ (d * 4096 + 4 * 0) (t * 4096 + 3)) (t * 4096 + 4 * 1)
    (1 * 4096 + 3) = m₁ at hfirst
  have hword₁ : ∀ g l, l < 1024 → word m₁ g l =
      if g = t ∧ l = 1 then 1 * 4096 + 3 else if g = d ∧ l = 0 then t * 4096 + 3
        else word m₀ g l := by
    intro g l hl
    rw [← hm₁, word_store32 _ (by decide) hl (by omega), word_store32 _ (by decide) hl (by omega)]
  have hinit : vmmInit memory pmm = vmmMapKernelLoop (d * 4096) 1022 (2 * 4096)
      { pmm := afterInit pmm, memory := m₁, cr3 := d * 4096 } := by
    rw [vmmInit]
    simp only [hd, hrec, pageSize, hm₀]
    rw [vmmMapKernel, show (1023 : ℕ) = 1022 + 1 from rfl, vmmMapKernelLoop, hfirst _ rfl rfl]
    rfl
  obtain ⟨hpmm, hcr3, hword⟩ := vmmMapKernelLoop_of_present (k := 2) (n := 1022) (d := d) (t := t)
    (s := { pmm := afterInit pmm, memory := m₁, cr3 := d * 4096 }) (by decide) htd htlt
    (by rw [hword₁ d 0 (by decide), if_neg (by omega), if_pos ⟨rfl, rfl⟩])
  rw [← hinit] at hpmm hcr3 hword
  dsimp only at hword
  refine ⟨⟨hcr3, ?_, ?_, ?_, ?_, ?_⟩, hpmm⟩
  · rw [hword d 0 (by decide), if_neg (by omega), hword₁ d 0 (by decide), if_neg (by omega),
      if_pos ⟨rfl, rfl⟩]
  · rw [Recursive, hword d 1023 (by decide), if_neg (by omega), hword₁ d 1023 (by decide),
      if_neg (by omega), if_neg (by omega), hword₀ d 1023 (by decide), if_pos ⟨rfl, rfl⟩]
  · intro i hi hi'
    rw [hword d i (by omega), if_neg (by omega), hword₁ d i (by omega), if_neg (by omega),
      if_neg (by omega), hword₀ d i (by omega), if_neg (by omega), if_pos rfl]
  · rw [hword t 0 (by decide), if_neg (by omega), hword₁ t 0 (by decide), if_neg (by omega),
      if_neg (by omega), hword₀ t 0 (by decide), if_neg (by omega), if_neg htd]
  · intro k hk hk'
    by_cases h1 : k = 1
    · rw [hword t k (by omega), if_neg (by omega), hword₁ t k (by omega), if_pos ⟨rfl, h1⟩, h1]
    · rw [hword t k (by omega), if_pos (by omega)]

/-! ### The address space it describes -/

section Initial

variable {s : Vmm} {d t stale : ℕ}

theorem Initial.present_iff (h : Initial s d t stale) {i : ℕ} (hi : i < 1023) :
    Present (word s.memory d i) ↔ i = 0 := by
  by_cases hi0 : i = 0
  · rw [hi0, h.table]
    exact iff_of_true (present_add t (by decide) (by decide)) rfl
  · rw [h.absent i (by omega) hi]
    exact iff_of_false (by decide) hi0

theorem Initial.frameOf_table (h : Initial s d t stale) : frameOf (word s.memory d 0) = t := by
  rw [h.table, frameOf_add t (by decide)]

theorem Initial.lookup_zero (h : Initial s d t stale) :
    lookup s.memory d 0 = if Present stale then some stale else none := by
  rw [lookup, if_pos ((h.present_iff (by decide)).2 rfl)]
  simp only [Nat.zero_div, Nat.zero_mod, h.frameOf_table, h.stale]

theorem Initial.lookup_identity (h : Initial s d t stale) {p : ℕ} (hp : 1 ≤ p) (hlt : p < 1024) :
    lookup s.memory d p = some (p * 4096 + 3) := by
  have hdiv : p / 1024 = 0 := by omega
  have hmod : p % 1024 = p := by omega
  rw [lookup, hdiv, hmod, if_pos ((h.present_iff (by decide)).2 rfl), h.frameOf_table,
    h.identity p hp hlt]
  exact if_pos (present_add p (by decide) (by decide))

theorem Initial.lookup_none (h : Initial s d t stale) {p : ℕ} (hp : 1024 ≤ p)
    (hlt : p < windowPage) : lookup s.memory d p = none := by
  have hi := div_lt_of_lt_windowPage hlt
  rw [lookup, if_neg]
  rw [h.present_iff hi]
  omega

end Initial

end Vmm

end Yotos
