import Yotos.Pmm.Counter
import Mathlib.Logic.Relation
import Mathlib.Data.List.Nodup

/-!
# Who owns which frame

A run of the allocator after boot interleaves `pmmngr_alloc_block` with releases
of blocks that are outstanding. `Owned` ties the list of outstanding blocks to
the bitmap: distinct blocks, each the address of a used frame between 4 MiB and
the end of memory, and the reserved frames below 4 MiB never free. Every step of
a run preserves it, so no frame is ever handed out twice.
-/

namespace Yotos

namespace Pmm

/-- The allocator together with the blocks handed out and not yet released. -/
structure Client where
  pmm : Pmm
  outstanding : List ℕ

/-- One step of a client: an allocation, whose non-`NULL` result becomes
outstanding, or the release of an outstanding block. -/
inductive Client.Step : Client → Client → Prop
  | alloc (c : Client) :
      Client.Step c
        { pmm := (pmmngrAllocBlock c.pmm).2
          outstanding := if (pmmngrAllocBlock c.pmm).1 = 0 then c.outstanding
            else (pmmngrAllocBlock c.pmm).1 :: c.outstanding }
  | free (c : Client) (p : ℕ) (hp : p ∈ c.outstanding) :
      Client.Step c
        { pmm := pmmngrFreeBlock p c.pmm, outstanding := c.outstanding.erase p }

/-- The states a client can bring the allocator to after boot. -/
def Client.Reachable (memSize : ℕ) (map : ℕ → BitVec 32) (mmap : List MultibootMmapEntry)
    (c : Client) : Prop :=
  Relation.ReflTransGen Client.Step { pmm := boot memSize map mmap, outstanding := [] } c

/-- An address that names a frame the allocator may hand out. -/
def BlockAddr (s : Pmm) (p : ℕ) : Prop :=
  ∃ f, p = f * 4096 ∧ 1024 ≤ f ∧ f < s.maxBlocks

/-- The ownership invariant. -/
structure Client.Owned (c : Client) : Prop where
  limit : c.pmm.maxBlocks ≤ 2 ^ 20
  reserved : ∀ f < 1024, used c.pmm f = true
  nodup : c.outstanding.Nodup
  addr : ∀ p ∈ c.outstanding, BlockAddr c.pmm p
  held : ∀ p ∈ c.outstanding, used c.pmm (p / 4096) = true

theorem BlockAddr.congr {s t : Pmm} (h : t.maxBlocks = s.maxBlocks) {p : ℕ}
    (hp : BlockAddr s p) : BlockAddr t p := by
  obtain ⟨f, hpf, hlow, hlt⟩ := hp
  exact ⟨f, hpf, hlow, h ▸ hlt⟩

theorem BlockAddr.mul_div {s : Pmm} {p : ℕ} (hp : BlockAddr s p) : p / 4096 * 4096 = p := by
  obtain ⟨f, rfl, -, -⟩ := hp
  omega

/-- The outcome of an allocation when memory ends at or below 4 GiB and the
frames below 4 MiB are reserved: `NULL` with nothing changed, or a free frame
whose address fits 32 bits. -/
theorem pmmngrAllocBlock_spec {s : Pmm} (hlimit : s.maxBlocks ≤ 2 ^ 20)
    (hres : ∀ f < 1024, used s f = true) :
    pmmngrAllocBlock s = (0, s) ∨
      ∃ f, 1024 ≤ f ∧ f < s.maxBlocks ∧ used s f = false ∧
        (pmmngrAllocBlock s).1 = f * 4096 ∧
        ∀ g, used (pmmngrAllocBlock s).2 g = (decide (g = f) || used s g) := by
  rcases pmmngrAllocBlock_cases s with h | ⟨f, hlt, hclear, -, h⟩
  · exact Or.inl h
  · refine Or.inr ⟨f, ?_, by omega, hclear, ?_, ?_⟩
    · by_contra hlow
      rw [hres f (by omega)] at hclear
      exact absurd hclear (by simp)
    · rw [h]
      exact Nat.mod_eq_of_lt (by omega)
    · intro g
      rw [h, used_incUsedBlocks, used_mmapSet]

theorem Client.owned_boot (memSize : ℕ) (hsize : memSize ≤ 2 ^ 22) (map : ℕ → BitVec 32)
    (mmap : List MultibootMmapEntry) :
    Client.Owned { pmm := boot memSize map mmap, outstanding := [] } where
  limit := by
    rw [maxBlocks_boot]
    omega
  reserved _ hf := used_boot_of_lt memSize map mmap hf
  nodup := List.nodup_nil
  addr p hp := absurd hp List.not_mem_nil
  held p hp := absurd hp List.not_mem_nil

/-- Every step keeps the ownership invariant. -/
theorem Client.Step.owned {c c' : Client} (h : Client.Step c c') (hc : c.Owned) :
    c'.Owned := by
  cases h with
  | alloc =>
      have hmax : (pmmngrAllocBlock c.pmm).2.maxBlocks = c.pmm.maxBlocks :=
        maxBlocks_pmmngrAllocBlock c.pmm
      rcases pmmngrAllocBlock_spec hc.limit hc.reserved with h0 | ⟨f, hlow, hlt, hclear, hp, hused⟩
      · simpa only [h0, if_true] using hc
      · have hne : (pmmngrAllocBlock c.pmm).1 ≠ 0 := by omega
        have hkeep : ∀ g, used c.pmm g = true → used (pmmngrAllocBlock c.pmm).2 g = true := by
          intro g hg
          rw [hused, hg, Bool.or_true]
        -- an outstanding block is used, and the frame taken was free
        have hnew : f * 4096 ∉ c.outstanding := by
          intro hmem
          have hheld := hc.held _ hmem
          rw [Nat.mul_div_cancel f (by decide), hclear] at hheld
          exact absurd hheld (by simp)
        simp only [hne, if_false]
        exact
          { limit := hmax ▸ hc.limit
            reserved := fun g hg => hkeep g (hc.reserved g hg)
            nodup := by
              rw [hp]
              exact List.nodup_cons.2 ⟨hnew, hc.nodup⟩
            addr := by
              intro p hmem
              rcases List.mem_cons.1 hmem with rfl | hmem
              · exact ⟨f, hp, hlow, hmax ▸ hlt⟩
              · exact (hc.addr p hmem).congr hmax
            held := by
              intro p hmem
              rcases List.mem_cons.1 hmem with rfl | hmem
              · rw [hp, hused, Nat.mul_div_cancel f (by decide)]
                simp
              · exact hkeep _ (hc.held p hmem) }
  | free p hp =>
      have hmax : (pmmngrFreeBlock p c.pmm).maxBlocks = c.pmm.maxBlocks :=
        maxBlocks_pmmngrFreeBlock p c.pmm
      have hpf := hc.addr p hp
      have hkeep : ∀ g, g ≠ p / 4096 → used (pmmngrFreeBlock p c.pmm) g = used c.pmm g := by
        intro g hg
        simp [hg]
      exact
        { limit := hmax ▸ hc.limit
          reserved := by
            intro g hg
            obtain ⟨f, rfl, hlow, -⟩ := hpf
            rw [hkeep g (by omega), hc.reserved g hg]
          nodup := hc.nodup.erase p
          addr := fun q hq => (hc.addr q (List.mem_of_mem_erase hq)).congr hmax
          held := by
            intro q hq
            obtain ⟨hqp, hmem⟩ := (hc.nodup.mem_erase_iff).1 hq
            have hqf := hc.addr q hmem
            have hne : q / 4096 ≠ p / 4096 := by
              intro heq
              apply hqp
              rw [← hqf.mul_div, ← hpf.mul_div, heq]
            rw [hkeep _ hne, hc.held q hmem] }

theorem Client.Reachable.owned {memSize : ℕ} (hsize : memSize ≤ 2 ^ 22)
    {map : ℕ → BitVec 32} {mmap : List MultibootMmapEntry} {c : Client}
    (h : Client.Reachable memSize map mmap c) : c.Owned := by
  induction h with
  | refl => exact Client.owned_boot memSize hsize map mmap
  | tail _ hstep ih => exact hstep.owned ih

/-- With at most 4 GiB of memory, a block handed out at any point of a run is a
page-aligned address between 4 MiB and the end of memory that nobody holds. -/
theorem pmmngrAllocBlock_fresh (memSize : ℕ) (hsize : memSize ≤ 2 ^ 22)
    (map : ℕ → BitVec 32) (mmap : List MultibootMmapEntry) (c : Client)
    (hc : Client.Reachable memSize map mmap c)
    (hp : (pmmngrAllocBlock c.pmm).1 ≠ 0) :
    4096 ∣ (pmmngrAllocBlock c.pmm).1 ∧
      0x400000 ≤ (pmmngrAllocBlock c.pmm).1 ∧
      (pmmngrAllocBlock c.pmm).1 < c.pmm.maxBlocks * 4096 ∧
      (pmmngrAllocBlock c.pmm).1 ∉ c.outstanding := by
  have hown := hc.owned hsize
  rcases pmmngrAllocBlock_spec hown.limit hown.reserved with h0 | ⟨f, hlow, hlt, hclear, hf, -⟩
  · exact absurd (congrArg Prod.fst h0) hp
  · rw [hf]
    refine ⟨Nat.dvd_mul_left 4096 f, by omega, by omega, ?_⟩
    intro hmem
    have hheld := hown.held _ hmem
    rw [Nat.mul_div_cancel f (by decide), hclear] at hheld
    exact absurd hheld (by simp)

/-- Where the lowest clear bit is known, an allocation takes it. -/
theorem Counted.alloc_least {t s : Pmm} (h : Counted t s) {f : ℕ}
    (hf : f < 32 * (s.maxBlocks / 32)) (hclear : used s f = false)
    (hlow : ∀ g < f, used s g = true) :
    pmmngrAllocBlock s = (f * 4096 % 2 ^ 32, incUsedBlocks (mmapSet s f)) := by
  obtain ⟨g, hle, hg, -, heq⟩ := h.alloc_eq hf hclear
  have hgf : g = f := by
    by_contra hne
    rw [hlow g (by omega)] at hg
    exact Bool.noConfusion hg
  rw [heq, hgf]

/-- An 8 MiB machine whose upper half is available. -/
abbrev eightMibBoot : Pmm := boot 8192 (fun _ => 0) [⟨0x400000, 0x400000, 1⟩]

theorem used_eightMibBoot {f : ℕ} (hf : f < 2048) :
    used eightMibBoot f = decide (f < 1024) := by
  rcases Nat.lt_or_ge f 1024 with hlow | hge
  · rw [used_boot_of_lt _ _ _ hlow, decide_eq_true hlow]
  · rw [decide_eq_false (Nat.not_lt.2 hge)]
    refine (used_boot_eq_false_iff ..).2 ⟨hge, Or.inl ⟨_, List.mem_singleton.2 rfl, ?_⟩⟩
    refine ⟨rfl, ?_⟩
    simp only [pmmngrBlockSize]
    change 1024 ≤ f ∧ f < 2048
    exact ⟨hge, hf⟩

theorem counted_eightMibBoot : Counted (pmmngrInit 8192 fun _ => 0) eightMibBoot :=
  Counted.boot (by decide) (by decide) _ _

theorem maxBlocks_eightMibBoot : eightMibBoot.maxBlocks = 2048 := maxBlocks_boot ..

/-- It hands out the frames from 4 MiB on. -/
theorem alloc_eightMibBoot : pmmngrAllocBlock eightMibBoot =
    (0x400000, incUsedBlocks (mmapSet eightMibBoot 1024)) := by
  have haddr : 1024 * 4096 % 2 ^ 32 = 0x400000 := by omega
  have hlt : 1024 < 32 * (eightMibBoot.maxBlocks / 32) := by
    rw [maxBlocks_eightMibBoot]
    decide
  rw [counted_eightMibBoot.alloc_least hlt, haddr]
  · rw [used_eightMibBoot (by omega), decide_eq_false (lt_irrefl _)]
  · intro g hg
    rw [used_eightMibBoot (by omega), decide_eq_true hg]

theorem alloc_alloc_eightMibBoot :
    (pmmngrAllocBlock (incUsedBlocks (mmapSet eightMibBoot 1024))).1 = 0x401000 := by
  have haddr : 1025 * 4096 % 2 ^ 32 = 0x401000 := by omega
  have hcounted := counted_eightMibBoot.alloc
  rw [alloc_eightMibBoot] at hcounted
  dsimp only at hcounted
  have hlt : 1025 < 32 * ((incUsedBlocks (mmapSet eightMibBoot 1024)).maxBlocks / 32) := by
    rw [maxBlocks_incUsedBlocks, maxBlocks_mmapSet, maxBlocks_eightMibBoot]
    decide
  have hused : ∀ f < 2048, used (incUsedBlocks (mmapSet eightMibBoot 1024)) f =
      decide (f < 1025) := by
    intro f hf
    rw [used_incUsedBlocks, used_mmapSet, used_eightMibBoot hf, ← Bool.decide_or]
    exact decide_eq_decide.2 (by omega)
  rw [hcounted.alloc_least hlt, haddr]
  · rw [hused 1025 (by omega), decide_eq_false (lt_irrefl _)]
  · intro g hg
    rw [hused g (by omega), decide_eq_true hg]

/-- The second allocation is fresh, while the first block is still in use. -/
theorem pmmngrAllocBlock_fresh_eight_mib :
    ∃ c : Client, c.Reachable 8192 (fun _ => 0) [⟨0x400000, 0x400000, 1⟩] ∧
      c.outstanding = [0x400000] ∧ (pmmngrAllocBlock c.pmm).1 = 0x401000 ∧
      4096 ∣ (pmmngrAllocBlock c.pmm).1 ∧ 0x400000 ≤ (pmmngrAllocBlock c.pmm).1 ∧
      (pmmngrAllocBlock c.pmm).1 < c.pmm.maxBlocks * 4096 ∧
      (pmmngrAllocBlock c.pmm).1 ∉ c.outstanding := by
  have hstep := Client.Step.alloc ⟨eightMibBoot, []⟩
  simp only [alloc_eightMibBoot] at hstep
  refine ⟨_, Relation.ReflTransGen.single hstep, rfl, alloc_alloc_eightMibBoot, ?_⟩
  exact pmmngrAllocBlock_fresh 8192 (by decide) (fun _ => 0) [⟨0x400000, 0x400000, 1⟩] _
    (Relation.ReflTransGen.single hstep)
    (by dsimp only; rw [alloc_alloc_eightMibBoot]; decide)

end Pmm

end Yotos
