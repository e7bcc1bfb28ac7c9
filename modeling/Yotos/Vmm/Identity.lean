import Yotos.Vmm.AllocPage
import Yotos.Vmm.Refinement

/-!
# What the directory of `vmm_init` translates

`vmm_map_kernel` maps the pages from `0x1000` to `0x400000` to themselves. Below the
recursive window nothing else should be mapped: the directory is cleared, so only the
first page table counts, and its entry 0 is the one that the loop does not write.
-/

namespace Yotos

namespace Vmm

open Bytes
open Pmm (used pmmngrAllocBlock nextFrame taken freeFrames)

/-- The pages from 1 to 1023 are mapped to themselves, and nothing else below the
recursive window is mapped. -/
def IdentityOnly (s : Vmm) : Prop :=
  (∀ v, 0x1000 ≤ v → v < 0x400000 → mmu s.memory s.cr3 v = some v) ∧
    ∀ v < 0xFFC00000, v < 0x1000 ∨ 0x400000 ≤ v → mmu s.memory s.cr3 v = none

/-- The free frames lie at or above 4 MiB and have a 32-bit address. -/
def FreeAbove (pmm : Pmm) : Prop :=
  ∀ f ∈ freeFrames pmm, 0x400000 ≤ f * pageSize ∧ f * pageSize < 2 ^ 32

section Initial

variable {s : Vmm} {d t stale : ℕ}

/-- In the tables of `vmm_init`, everything but page 0 is as it should be. -/
theorem Initial.identityOnly_iff_stale (h : Initial s d t stale) :
    IdentityOnly s ↔ ¬ Present stale := by
  have hmmu : ∀ v, mmu s.memory s.cr3 v =
      (lookup s.memory d (v / 4096)).map fun e => frameOf e * 4096 + v % 4096 := by
    intro v
    rw [h.cr3, mmu_eq]
  have hzero : ∀ v < 0x1000, mmu s.memory s.cr3 v = none ↔ ¬ Present stale := by
    intro v hv
    rw [hmmu, show v / 4096 = 0 by omega, h.lookup_zero, Option.map_eq_none_iff]
    simp
  constructor
  · intro hid
    exact (hzero 0 (by decide)).1 (hid.2 0 (by decide) (Or.inl (by decide)))
  · intro hstale
    constructor
    · intro v hv hlt
      rw [hmmu, h.lookup_identity (by omega) (by omega), Option.map_some,
        frameOf_add _ (by decide), Nat.div_add_mod']
    · rintro v hlt (hv | hv)
      · exact (hzero v hv).2 hstale
      · rw [hmmu, h.lookup_none (by omega) (by unfold windowPage; omega), Option.map_none]

end Initial

/-! ### The allocations -/

section Allocations

variable {pmm : Pmm}

/-- Such an allocator gives `NULL` only when the search fails. -/
theorem FreeAbove.alloc_cases (h : FreeAbove pmm) :
    pmmngrAllocBlock pmm = (0, pmm) ∨
      ∃ f, 1024 ≤ f ∧ f < 2 ^ 20 ∧ used pmm f = false ∧
        pmmngrAllocBlock pmm = (f * 4096, taken pmm f) := by
  cases hnext : nextFrame pmm with
  | none => exact Or.inl (Pmm.alloc_of_nextFrame_none hnext)
  | some f =>
      right
      obtain ⟨halloc, hfree⟩ := Pmm.alloc_of_nextFrame hnext
      have hlt : f < pmm.maxBlocks := by
        rw [nextFrame] at hnext
        obtain ⟨-, hnext⟩ := Option.ite_none_left_eq_some.1 hnext
        have hword := (Pmm.mmapFirstFree_some hnext).1
        omega
      obtain ⟨hlow, hhigh⟩ := h f ⟨hlt, hfree⟩
      unfold pageSize at hlow hhigh
      refine ⟨f, by omega, by omega, hfree, ?_⟩
      rw [halloc, Nat.mod_eq_of_lt (by omega)]

theorem FreeAbove.taken (h : FreeAbove pmm) (f : ℕ) : FreeAbove (Pmm.taken pmm f) := by
  rintro g ⟨hlt, hfree⟩
  rw [Pmm.used_taken, Bool.or_eq_false_iff] at hfree
  exact h g ⟨hlt, hfree.2⟩

/-- The two frames of `vmm_init` are different ones below 4 GiB. -/
theorem FreeAbove.initial (h : FreeAbove pmm) (hinit : InitSucceeds pmm) (memory : Bytes) :
    Initial (vmmInit memory pmm) (directoryFrame pmm) (firstTableFrame pmm)
      (staleEntry memory pmm) := by
  obtain ⟨hd, ht⟩ := hinit
  rcases h.alloc_cases with hnull | ⟨d, hd1024, hdlt, hdfree, hdalloc⟩
  · exact absurd (congrArg Prod.fst hnull) hd
  rw [hdalloc] at ht
  rcases (h.taken d).alloc_cases with hnull | ⟨t, ht1024, htlt, htfree, htalloc⟩
  · exact absurd (congrArg Prod.fst hnull) ht
  have hdir : directoryFrame pmm = d := by
    rw [directoryFrame, hdalloc]
    exact Nat.mul_div_cancel d (by decide)
  have htab : firstTableFrame pmm = t := by
    rw [firstTableFrame, hdalloc, htalloc]
    exact Nat.mul_div_cancel t (by decide)
  have hne : t ≠ d := by
    rintro rfl
    simp at htfree
  rw [staleEntry, hdir, htab]
  exact (initial_vmmInit (by rw [hdalloc]) hdlt (by rw [hdalloc, htalloc]) htlt (by omega) hne).1

end Allocations

/-! ### Without a page table -/

section NoTable

variable {s : Vmm} {dir k n : ℕ}

/-- Without a free frame the loop leaves everything as it is. -/
theorem vmmMapKernelLoop_of_null (hk : k + n ≤ 1024)
    (hnull : pmmngrAllocBlock s.pmm = (0, s.pmm))
    (habsent : ¬ Present (load32 s.memory dir)) :
    vmmMapKernelLoop dir n (k * 4096) s = s := by
  induction n generalizing k with
  | zero => rw [vmmMapKernelLoop]
  | succ n ih =>
      have hpd : pdIndex (k * 4096) = 0 := by
        rw [pdIndex_eq]
        omega
      have hflag : entryHasFlag (load32 s.memory dir) pagePresent = false :=
        Bool.eq_false_iff.2 habsent
      have hstep : vmmEarlyIdentityMap dir (k * 4096) (k * 4096)
          (pagePresent ||| pageWritable) s = s := by
        simp [vmmEarlyIdentityMap, earlyTable, hpd, hflag, hnull]
      have hnext : k * 4096 + pageSize = (k + 1) * 4096 := by
        unfold pageSize
        omega
      rw [vmmMapKernelLoop, hstep, hnext]
      exact ih (by omega)

end NoTable

/-- A `vmm_init` that gets no page table does not map the first page of the kernel. -/
theorem vmmInit_of_null {memory : Bytes} {pmm pmm' : Pmm} {d : ℕ}
    (halloc : pmmngrAllocBlock pmm = (d * 4096, pmm'))
    (hnull : pmmngrAllocBlock pmm' = (0, pmm')) :
    mmu (vmmInit memory pmm).memory (vmmInit memory pmm).cr3 0x1000 = none := by
  generalize hm : store32 (fill memory (d * 4096) 0 4096) (d * 4096 + 4 * 1023)
    (d * 4096 ||| pagePresent ||| pageWritable) = m
  have hzero : word m d 0 = 0 := by
    have happart : load32 m (d * 4096 + 4 * 0) =
        load32 (fill memory (d * 4096) 0 4096) (d * 4096 + 4 * 0) := by
      rw [← hm]
      exact load32_store32_of_apart _ _ (by omega)
    rw [word, happart, ← word, word_fill _ (by decide), if_pos rfl]
  have habsent : ¬ Present (load32 m (d * 4096)) := by
    rw [word, Nat.mul_zero, Nat.add_zero] at hzero
    rw [hzero]
    decide
  have hloop := vmmMapKernelLoop_of_null (k := 1) (n := 1023)
    (s := { pmm := pmm', memory := m, cr3 := d * 4096 }) (by omega) hnull habsent
  have hinit : vmmInit memory pmm = { pmm := pmm', memory := m, cr3 := d * 4096 } := by
    rw [vmmInit, halloc]
    simp only [pageSize, hm, vmmMapKernel]
    exact hloop
  rw [hinit, mmu_eq, lookup, hzero, if_neg (by decide), Option.map_none]

/-- A directory that maps the kernel was built with two frames. -/
theorem FreeAbove.initSucceeds {pmm : Pmm} {memory : Bytes} (h : FreeAbove pmm)
    (hid : IdentityOnly (vmmInit memory pmm)) : InitSucceeds pmm := by
  have hmapped := hid.1 0x1000 le_rfl (by decide)
  rcases h.alloc_cases with hnull | ⟨d, hd, -, -, hdalloc⟩
  · rw [vmmInit_of_null (d := 0) (by rw [hnull]) hnull] at hmapped
    cases hmapped
  rcases (h.taken d).alloc_cases with hnull | ⟨t, ht, -, -, htalloc⟩
  · rw [vmmInit_of_null hdalloc hnull] at hmapped
    cases hmapped
  rw [InitSucceeds, hdalloc, htalloc]
  constructor <;> omega

/-! ### Every memory and every allocator -/

/-- With free frames above 4 MiB only, the directory of `vmm_init` maps what it should
if and only if the two frames are there and the second does not start with a present
entry. -/
theorem identityOnly_iff (memory : Bytes) (pmm : Pmm) (h : FreeAbove pmm) :
    IdentityOnly (vmmInit memory pmm) ↔
      InitSucceeds pmm ∧ ¬ Present (staleEntry memory pmm) := by
  constructor
  · intro hid
    have hinit := h.initSucceeds hid
    exact ⟨hinit, (h.initial hinit memory).identityOnly_iff_stale.1 hid⟩
  · rintro ⟨hinit, hstale⟩
    exact (h.initial hinit memory).identityOnly_iff_stale.2 hstale

theorem freeAbove_eightMib : FreeAbove eightMib := by
  rintro f ⟨hlt, hfree⟩
  rw [eightMib, Pmm.maxBlocks_boot] at hlt
  have hlow : ¬ f < 1024 := by
    intro hlow
    rw [eightMib, (handout_boot _ _ _).reserved f hlow] at hfree
    cases hfree
  unfold pageSize
  omega

/-- On cleared memory page 0 is absent. -/
theorem identityOnly_cleared : IdentityOnly (vmmInit (fun _ => 0) eightMib) := by
  refine (identityOnly_iff (fun _ => 0) eightMib freeAbove_eightMib).2
    ⟨initSucceeds_eightMib, ?_⟩
  have hzero : staleEntry (fun _ => 0) eightMib = 0 := rfl
  rw [hzero]
  decide

/-- On dirty memory page 0 is mapped. -/
theorem not_identityOnly_dirtyMemory :
    ¬ ∀ (memory : Bytes) (pmm : Pmm), FreeAbove pmm → InitSucceeds pmm →
      IdentityOnly (vmmInit memory pmm) := by
  intro h
  have hid := h dirtyMemory eightMib freeAbove_eightMib initSucceeds_eightMib
  have hstale := (freeAbove_eightMib.initial initSucceeds_eightMib dirtyMemory).identityOnly_iff_stale.1
    hid
  rw [staleEntry_dirtyMemory] at hstale
  exact hstale (by decide)

end Vmm

end Yotos
