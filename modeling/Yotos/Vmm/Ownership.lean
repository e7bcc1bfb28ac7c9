import Yotos.Vmm.Words
import Yotos.Pmm.Ownership

/-!
# Which frame plays which role

An address space is seen here as its directory entries and the entry of each page.
`Owned` says that the frames of the directory, of the page tables and of the mapped
pages are all distinct and all marked used, where a page may be any page below the
recursive window. The ways the kernel changes an address space keep it: a frame is
taken, becomes a page table or a mapped page, and a page is unmapped.
-/

namespace Yotos

namespace Vmm

open Pmm (used pmmngrAllocBlock pmmngrFreeBlock)

/-- The number of pages below the recursive window. -/
def windowPage : ℕ := 1023 * 1024

section Abstract

variable {u u' : ℕ → Bool} {d : ℕ} {pde pde' : ℕ → ℕ} {entry entry' : ℕ → Option ℕ}

/-- The roles of the frames: `u` the frames marked used, `d` the directory, `pde` its
entries, and `entry` the entries of the pages. -/
structure Owned (u : ℕ → Bool) (d : ℕ) (pde : ℕ → ℕ) (entry : ℕ → Option ℕ) : Prop where
  dir : u d = true
  table : ∀ i < 1023, Present (pde i) → u (frameOf (pde i)) = true ∧ frameOf (pde i) ≠ d
  table_inj : ∀ i < 1023, ∀ j < 1023, Present (pde i) → Present (pde j) →
    frameOf (pde i) = frameOf (pde j) → i = j
  mapped : ∀ p < windowPage, ∀ e, entry p = some e → u (frameOf e) = true ∧ frameOf e ≠ d ∧
    ∀ i < 1023, Present (pde i) → frameOf (pde i) ≠ frameOf e
  distinct : ∀ p < windowPage, ∀ q < windowPage, ∀ e e', entry p = some e →
    entry q = some e' → frameOf e = frameOf e' → p = q

/-- A used frame without a role. -/
structure Fresh (u : ℕ → Bool) (d : ℕ) (pde : ℕ → ℕ) (entry : ℕ → Option ℕ) (f : ℕ) :
    Prop where
  used : u f = true
  dir : f ≠ d
  table : ∀ i < 1023, Present (pde i) → frameOf (pde i) ≠ f
  mapped : ∀ p < windowPage, ∀ e, entry p = some e → frameOf e ≠ f

theorem Owned.mono (h : Owned u d pde entry) (hu : ∀ f, u f = true → u' f = true) :
    Owned u' d pde entry where
  dir := hu d h.dir
  table i hi hp := ⟨hu _ (h.table i hi hp).1, (h.table i hi hp).2⟩
  table_inj := h.table_inj
  mapped p hp e he := ⟨hu _ (h.mapped p hp e he).1, (h.mapped p hp e he).2⟩
  distinct := h.distinct

/-- A frame that was free has no role once it is taken. -/
theorem Owned.fresh {f : ℕ} (h : Owned u d pde entry) (hf : u f = false)
    (hf' : u' f = true) : Fresh u' d pde entry f where
  used := hf'
  dir := by
    rintro rfl
    exact absurd (hf.symm.trans h.dir) (by decide)
  table i hi hp := by
    rintro rfl
    exact absurd (hf.symm.trans (h.table i hi hp).1) (by decide)
  mapped p hp e he := by
    rintro rfl
    exact absurd (hf.symm.trans (h.mapped p hp e he).1) (by decide)

theorem Fresh.mono {f : ℕ} (h : Fresh u d pde entry f) (hu : ∀ g, u g = true → u' g = true) :
    Fresh u' d pde entry f :=
  ⟨hu f h.used, h.dir, h.table, h.mapped⟩

/-- A directory entry keeps its frame. -/
theorem Owned.congr (h : Owned u d pde entry)
    (hpde : ∀ i < 1023, (Present (pde' i) ↔ Present (pde i)) ∧ frameOf (pde' i) = frameOf (pde i))
    (hentry : ∀ p < windowPage, entry' p = entry p) : Owned u d pde' entry' where
  dir := h.dir
  table i hi hp := by
    rw [(hpde i hi).2]
    exact h.table i hi ((hpde i hi).1.1 hp)
  table_inj i hi j hj hp hq heq := by
    rw [(hpde i hi).2, (hpde j hj).2] at heq
    exact h.table_inj i hi j hj ((hpde i hi).1.1 hp) ((hpde j hj).1.1 hq) heq
  mapped p hp e he := by
    rw [hentry p hp] at he
    obtain ⟨hu, hd, ht⟩ := h.mapped p hp e he
    refine ⟨hu, hd, fun i hi hpi => ?_⟩
    rw [(hpde i hi).2]
    exact ht i hi ((hpde i hi).1.1 hpi)
  distinct p hp q hq e e' he he' := by
    rw [hentry p hp] at he
    rw [hentry q hq] at he'
    exact h.distinct p hp q hq e e' he he'

theorem Fresh.congr {f : ℕ} (h : Fresh u d pde entry f)
    (hpde : ∀ i < 1023, (Present (pde' i) ↔ Present (pde i)) ∧ frameOf (pde' i) = frameOf (pde i))
    (hentry : ∀ p < windowPage, entry' p = entry p) : Fresh u d pde' entry' f where
  used := h.used
  dir := h.dir
  table i hi hp := by
    rw [(hpde i hi).2]
    exact h.table i hi ((hpde i hi).1.1 hp)
  mapped p hp e he := by
    rw [hentry p hp] at he
    exact h.mapped p hp e he

/-- A frame without a role becomes the page table of an absent directory entry. -/
theorem Owned.addTable {t k : ℕ} (h : Owned u d pde entry) (ht : Fresh u d pde entry t)
    (hk : frameOf (pde' k) = t) (hpde : ∀ i < 1023, i ≠ k → pde' i = pde i)
    (hentry : ∀ p < windowPage, entry' p = entry p) : Owned u d pde' entry' where
  dir := h.dir
  table i hi hp := by
    by_cases hik : i = k
    · rw [hik, hk]
      exact ⟨ht.used, ht.dir⟩
    · rw [hpde i hi hik] at hp ⊢
      exact h.table i hi hp
  table_inj i hi j hj hp hq heq := by
    by_cases hik : i = k <;> by_cases hjk : j = k
    · rw [hik, hjk]
    · rw [hik, hk, hpde j hj hjk] at heq
      rw [hpde j hj hjk] at hq
      exact absurd heq.symm (ht.table j hj hq)
    · rw [hjk, hk, hpde i hi hik] at heq
      rw [hpde i hi hik] at hp
      exact absurd heq (ht.table i hi hp)
    · rw [hpde i hi hik] at hp heq
      rw [hpde j hj hjk] at hq heq
      exact h.table_inj i hi j hj hp hq heq
  mapped p hp e he := by
    rw [hentry p hp] at he
    obtain ⟨hu, hd, htab⟩ := h.mapped p hp e he
    refine ⟨hu, hd, fun i hi hpi => ?_⟩
    by_cases hik : i = k
    · rw [hik, hk]
      exact (ht.mapped p hp e he).symm
    · rw [hpde i hi hik] at hpi ⊢
      exact htab i hi hpi
  distinct p hp q hq e e' he he' := by
    rw [hentry p hp] at he
    rw [hentry q hq] at he'
    exact h.distinct p hp q hq e e' he he'

theorem Fresh.addTable {f t k : ℕ} (h : Fresh u d pde entry f) (hft : t ≠ f)
    (hk : frameOf (pde' k) = t) (hpde : ∀ i < 1023, i ≠ k → pde' i = pde i)
    (hentry : ∀ p < windowPage, entry' p = entry p) : Fresh u d pde' entry' f where
  used := h.used
  dir := h.dir
  table i hi hp := by
    by_cases hik : i = k
    · rw [hik, hk]
      exact hft
    · rw [hpde i hi hik] at hp ⊢
      exact h.table i hi hp
  mapped p hp e he := by
    rw [hentry p hp] at he
    exact h.mapped p hp e he

/-- A frame without a role is mapped at a page, in the place of what was there. -/
theorem Owned.map {f x k : ℕ} (h : Owned u d pde entry) (hf : Fresh u d pde entry f)
    (hx : frameOf x = f) (hk : entry' k = some x)
    (hpde : ∀ i < 1023, pde' i = pde i)
    (hentry : ∀ p < windowPage, p ≠ k → entry' p = entry p) : Owned u d pde' entry' where
  dir := h.dir
  table i hi := by
    rw [hpde i hi]
    exact h.table i hi
  table_inj i hi j hj := by
    rw [hpde i hi, hpde j hj]
    exact h.table_inj i hi j hj
  mapped p hp e he := by
    by_cases hpk : p = k
    · rw [hpk, hk] at he
      obtain rfl := Option.some.inj he
      rw [hx]
      refine ⟨hf.used, hf.dir, fun i hi => ?_⟩
      rw [hpde i hi]
      exact hf.table i hi
    · rw [hentry p hp hpk] at he
      obtain ⟨hu, hd, ht⟩ := h.mapped p hp e he
      refine ⟨hu, hd, fun i hi => ?_⟩
      rw [hpde i hi]
      exact ht i hi
  distinct p hp q hq e e' he he' heq := by
    by_cases hpk : p = k <;> by_cases hqk : q = k
    · rw [hpk, hqk]
    · rw [hpk, hk] at he
      obtain rfl := Option.some.inj he
      rw [hentry q hq hqk] at he'
      exact absurd (heq.symm.trans hx) (hf.mapped q hq e' he')
    · rw [hqk, hk] at he'
      obtain rfl := Option.some.inj he'
      rw [hentry p hp hpk] at he
      exact absurd (heq.trans hx) (hf.mapped p hp e he)
    · rw [hentry p hp hpk] at he
      rw [hentry q hq hqk] at he'
      exact h.distinct p hp q hq e e' he he' heq

/-- An unmapped page gives its frame back. -/
theorem Owned.unmap {x k : ℕ} (h : Owned u d pde entry) (hklt : k < windowPage)
    (hk : entry k = some x) (hk' : entry' k = none) (hpde : ∀ i < 1023, pde' i = pde i)
    (hentry : ∀ p < windowPage, p ≠ k → entry' p = entry p)
    (hu : ∀ f, f ≠ frameOf x → u' f = u f) : Owned u' d pde' entry' where
  dir := by
    rw [hu d (h.mapped k hklt x hk).2.1.symm]
    exact h.dir
  table i hi hp := by
    rw [hpde i hi] at hp ⊢
    rw [hu _ ((h.mapped k hklt x hk).2.2 i hi hp)]
    exact h.table i hi hp
  table_inj i hi j hj := by
    rw [hpde i hi, hpde j hj]
    exact h.table_inj i hi j hj
  mapped p hp e he := by
    have hpk : p ≠ k := by
      rintro rfl
      rw [hk'] at he
      exact absurd he (by simp)
    rw [hentry p hp hpk] at he
    obtain ⟨hue, hd, ht⟩ := h.mapped p hp e he
    refine ⟨?_, hd, fun i hi => ?_⟩
    · rw [hu _ fun heq => hpk (h.distinct p hp k hklt e x he hk heq)]
      exact hue
    · rw [hpde i hi]
      exact ht i hi
  distinct p hp q hq e e' he he' := by
    have hpk : p ≠ k := by
      rintro rfl
      rw [hk'] at he
      exact absurd he (by simp)
    have hqk : q ≠ k := by
      rintro rfl
      rw [hk'] at he'
      exact absurd he' (by simp)
    rw [hentry p hp hpk] at he
    rw [hentry q hq hqk] at he'
    exact h.distinct p hp q hq e e' he he'

end Abstract

/-! ### The frames handed out -/

/-- The frames below 4 MiB are reserved, and a free frame above 4 GiB comes with frame
`2 ^ 20` free, whose allocation gives `NULL`. -/
structure Handout (s : Pmm) : Prop where
  reserved : ∀ f < 1024, used s f = true
  wrap : ∀ f, 2 ^ 20 < f → f < 32 * (s.maxBlocks / 32) → used s f = false →
    used s (2 ^ 20) = false

theorem handout_boot (memSize : ℕ) (map : ℕ → BitVec 32) (mmap : List Pmm.MultibootMmapEntry) :
    Handout (Pmm.boot memSize map mmap) where
  reserved _ hf := Pmm.used_boot_of_lt memSize map mmap hf
  wrap := by
    intro f hf hlt hfree
    rw [Pmm.maxBlocks_boot] at hlt
    rw [Pmm.used_boot_eq_false_iff] at hfree ⊢
    refine ⟨by omega, ?_⟩
    rcases hfree.2 with ⟨e, he, htype, hle, hltf⟩ | ⟨htail, -⟩
    · -- a region starts below frame `2 ^ 20`, since its base is taken modulo `2 ^ 32`
      unfold Pmm.pmmngrBlockSize at hle hltf
      refine Or.inl ⟨e, he, htype, ?_, ?_⟩ <;> unfold Pmm.pmmngrBlockSize <;> omega
    · omega

/-- A successful allocation takes a free frame with a 32-bit address. -/
theorem Handout.alloc {s : Pmm} (h : Handout s) (hp : (pmmngrAllocBlock s).1 ≠ 0) :
    ∃ f, 1024 ≤ f ∧ f < 2 ^ 20 ∧ used s f = false ∧ (pmmngrAllocBlock s).1 = f * 4096 ∧
      (∀ g, used (pmmngrAllocBlock s).2 g = (decide (g = f) || used s g)) ∧
      Handout (pmmngrAllocBlock s).2 := by
  rcases Pmm.pmmngrAllocBlock_cases s with h0 | ⟨f, hlt, hclear, hlow, heq⟩
  · exact absurd (congrArg Prod.fst h0) hp
  · have hused : ∀ g, used (pmmngrAllocBlock s).2 g = (decide (g = f) || used s g) := by
      intro g
      rw [heq, Pmm.used_incUsedBlocks, Pmm.used_mmapSet]
    have hge : 1024 ≤ f := by
      by_contra hlt
      exact absurd ((h.reserved f (by omega)).symm.trans hclear) (by decide)
    have hfit : f < 2 ^ 20 := by
      by_contra hbig
      have hne : f ≠ 2 ^ 20 := by
        rintro rfl
        exact hp (congrArg Prod.fst heq)
      have hwrap := h.wrap f (by omega) hlt hclear
      exact absurd ((hlow (2 ^ 20) (by omega)).symm.trans hwrap) (by decide)
    refine ⟨f, hge, hfit, hclear, ?_, hused, ⟨?_, ?_⟩⟩
    · rw [heq]
      exact Nat.mod_eq_of_lt (by omega)
    · intro g hg
      rw [hused, h.reserved g hg, Bool.or_true]
    · intro g hg hglt hgfree
      rw [Pmm.maxBlocks_pmmngrAllocBlock] at hglt
      rw [hused, Bool.or_eq_false_iff] at hgfree
      rw [hused, h.wrap g hg hglt hgfree.2, Bool.or_false]
      exact decide_eq_false (by omega)

theorem Handout.free {s : Pmm} (h : Handout s) {p : ℕ} (hp : 1024 ≤ p / 4096)
    (hfit : p / 4096 < 2 ^ 20) : Handout (pmmngrFreeBlock p s) where
  reserved f hf := by
    rw [Pmm.used_pmmngrFreeBlock, h.reserved f hf, Bool.and_true, Bool.not_eq_true',
      decide_eq_false_iff_not]
    omega
  wrap f hf hlt hfree := by
    rw [Pmm.maxBlocks_pmmngrFreeBlock] at hlt
    have hne : ¬ f = p / 4096 := by omega
    rw [Pmm.used_pmmngrFreeBlock, decide_eq_false hne, Bool.not_false, Bool.true_and] at hfree
    rw [Pmm.used_pmmngrFreeBlock, h.wrap f hf hlt hfree, Bool.and_false]

end Vmm

end Yotos
