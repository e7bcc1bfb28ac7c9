import Yotos.Pmm.Basic

/-!
# The frame view of the bitmap

`used s f` reads the allocation bit of frame `f`. Each operation of the manager
is described by what it does to this predicate, so that later modules never look
at words, masks or loops again.
-/

namespace Yotos

namespace Pmm

/-- The frame `f` is marked allocated. -/
def used (s : Pmm) (f : ℕ) : Bool := Packed.member s.memoryMap f

theorem mmapTest_eq_used (s : Pmm) (f : ℕ) : mmapTest s f = used s f := by
  have hiff := Packed.and_mask_eq_zero_iff (s.memoryMap (f / 32)) (f % 32)
    (Nat.mod_lt _ (by decide))
  unfold mmapTest used Packed.member
  cases hbit : (s.memoryMap (f / 32)).getLsbD (f % 32) with
  | false => simp [hiff.2 hbit]
  | true =>
      have hne : s.memoryMap (f / 32) &&& 1#32 <<< (f % 32) ≠ 0#32 := by
        intro h
        simp [hiff.1 h] at hbit
      simpa using hne

@[simp] theorem used_mmapSet (s : Pmm) (f g : ℕ) :
    used (mmapSet s f) g = (decide (g = f) || used s g) :=
  Packed.member_insert (by decide) s.memoryMap f g

@[simp] theorem used_mmapUnset (s : Pmm) (f g : ℕ) :
    used (mmapUnset s f) g = (!decide (g = f) && used s g) :=
  Packed.member_erase (by decide) s.memoryMap f g

@[simp] theorem maxBlocks_mmapSet (s : Pmm) (f : ℕ) :
    (mmapSet s f).maxBlocks = s.maxBlocks := rfl

@[simp] theorem maxBlocks_mmapUnset (s : Pmm) (f : ℕ) :
    (mmapUnset s f).maxBlocks = s.maxBlocks := rfl

/-! The counter plays no part in the frame view. -/

@[simp] theorem used_incUsedBlocks (s : Pmm) (f : ℕ) :
    used (incUsedBlocks s) f = used s f := by
  unfold used incUsedBlocks
  dsimp only

@[simp] theorem used_decUsedBlocks (s : Pmm) (f : ℕ) :
    used (decUsedBlocks s) f = used s f := by
  unfold used decUsedBlocks
  dsimp only

@[simp] theorem maxBlocks_incUsedBlocks (s : Pmm) :
    (incUsedBlocks s).maxBlocks = s.maxBlocks := by
  unfold incUsedBlocks
  dsimp only

@[simp] theorem maxBlocks_decUsedBlocks (s : Pmm) :
    (decUsedBlocks s).maxBlocks = s.maxBlocks := by
  unfold decUsedBlocks
  dsimp only

/-! ### The search for a free frame -/

theorem getLsbD_ones {i : ℕ} (hi : i < 32) : (0xffffffff#32).getLsbD i = true := by
  have hones : 0xffffffff#32 = BitVec.allOnes 32 := by decide
  rw [hones, BitVec.getLsbD_allOnes]
  exact decide_eq_true hi

theorem member_word (s : Pmm) (i j : ℕ) (hj : j < 32) :
    used s (i * 4 * 8 + j) = (s.memoryMap i).getLsbD j := by
  have hdiv : (i * 4 * 8 + j) / 32 = i := by omega
  have hmod : (i * 4 * 8 + j) % 32 = j := by omega
  rw [used, Packed.member, hdiv, hmod]

/-- The inner loop over the bits of word `i` finds the lowest clear one. -/
theorem find_clear_bit (s : Pmm) (i : ℕ) :
    match (List.range 32).find? fun j => s.memoryMap i &&& 1#32 <<< j == 0#32 with
    | some j => j < 32 ∧ used s (i * 4 * 8 + j) = false ∧
        ∀ k < j, used s (i * 4 * 8 + k) = true
    | none => ∀ k < 32, used s (i * 4 * 8 + k) = true := by
  have hbit : ∀ k < 32, (s.memoryMap i &&& 1#32 <<< k == 0#32) = !used s (i * 4 * 8 + k) := by
    intro k hk
    have hiff := Packed.and_mask_eq_zero_iff (s.memoryMap i) k hk
    rw [member_word s i k hk]
    cases h : (s.memoryMap i).getLsbD k <;> simp [hiff, h]
  cases hfind : (List.range 32).find? fun j => s.memoryMap i &&& 1#32 <<< j == 0#32 with
  | none =>
      intro k hk
      have hk' := List.find?_eq_none.1 hfind k (List.mem_range.2 hk)
      rw [hbit k hk] at hk'
      simpa using hk'
  | some j =>
      have hsome := List.find?_range_eq_some.1 hfind
      have hj : j < 32 := by simpa using hsome.2.1
      refine ⟨hj, ?_, ?_⟩
      · have h := hsome.1
        rw [hbit j hj] at h
        simpa using h
      · intro k hk
        have h := hsome.2.2 k hk
        rw [hbit k (hk.trans hj)] at h
        simpa using h

theorem mmapFirstFreeFrom_spec (s : Pmm) (words i : ℕ)
    (hbelow : ∀ g < 32 * i, used s g = true) :
    match mmapFirstFreeFrom s words i with
    | some f => f < 32 * (i + words) ∧ used s f = false ∧ ∀ g < f, used s g = true
    | none => ∀ g < 32 * (i + words), used s g = true := by
  induction words generalizing i with
  | zero => simpa [mmapFirstFreeFrom] using hbelow
  | succ words ih =>
      have hnext : (∀ k < 32, used s (i * 4 * 8 + k) = true) →
          ∀ g < 32 * (i + 1), used s g = true := by
        intro hword g hg
        by_cases hgi : g < 32 * i
        · exact hbelow g hgi
        · have h := hword (g - 32 * i) (by omega)
          rwa [show i * 4 * 8 + (g - 32 * i) = g by omega] at h
      have hshift : i + 1 + words = i + (words + 1) := by omega
      have hscan := find_clear_bit s i
      unfold mmapFirstFreeFrom
      by_cases hword : s.memoryMap i = 0xffffffff#32
      · have hones : ∀ k < 32, used s (i * 4 * 8 + k) = true := by
          intro k hk
          rw [member_word s i k hk, hword, getLsbD_ones hk]
        rw [if_neg (by simp [hword])]
        simpa only [hshift] using ih (i + 1) (hnext hones)
      · rw [if_pos (by simpa using hword)]
        cases hfind : (List.range 32).find? fun j => s.memoryMap i &&& 1#32 <<< j == 0#32 with
        | none =>
            rw [hfind] at hscan
            simpa only [hshift] using ih (i + 1) (hnext hscan)
        | some j =>
            rw [hfind] at hscan
            obtain ⟨hj, hclear, hset⟩ := hscan
            refine ⟨by omega, hclear, ?_⟩
            intro g hg
            by_cases hgi : g < 32 * i
            · exact hbelow g hgi
            · have h := hset (g - 32 * i) (by omega)
              rwa [show i * 4 * 8 + (g - 32 * i) = g by omega] at h

/-- The search returns the lowest clear bit among the whole words. -/
theorem mmapFirstFree_some {s : Pmm} {f : ℕ} (h : mmapFirstFree s = some f) :
    f < 32 * (s.maxBlocks / 32) ∧ used s f = false ∧ ∀ g < f, used s g = true := by
  have hspec := mmapFirstFreeFrom_spec s (s.maxBlocks / 32) 0 (by simp)
  rw [← mmapFirstFree, h] at hspec
  simpa using hspec

theorem mmapFirstFree_none {s : Pmm} (h : mmapFirstFree s = none) :
    ∀ g < 32 * (s.maxBlocks / 32), used s g = true := by
  have hspec := mmapFirstFreeFrom_spec s (s.maxBlocks / 32) 0 (by simp)
  rw [← mmapFirstFree, h] at hspec
  simpa using hspec

/-! ### Regions -/

theorem used_memsetOnes (map : ℕ → BitVec 32) (n f : ℕ) :
    Packed.member (memsetOnes map n) f = (decide (f < 8 * n) || Packed.member map f) := by
  have hlt : f % 32 < 32 := Nat.mod_lt _ (by decide)
  have hiff : f % 32 < 8 * min 4 (n - 4 * (f / 32)) ↔ f < 8 * n := by omega
  unfold Packed.member memsetOnes
  rw [BitVec.getLsbD_or, BitVec.getLsbD_ofNat, Nat.testBit_two_pow_sub_one, Bool.or_comm]
  simp only [hlt, decide_true, Bool.true_and, hiff]

@[simp] theorem maxBlocks_pmmngrInit (memSize : ℕ) (map : ℕ → BitVec 32) :
    (pmmngrInit memSize map).maxBlocks = memSize / 4 := rfl

/-- After `pmmngr_init` the frames of the whole bytes of the bitmap are used; the
bits of a last partial byte are whatever the memory held. -/
theorem used_pmmngrInit (memSize : ℕ) (map : ℕ → BitVec 32) (f : ℕ) :
    used (pmmngrInit memSize map) f =
      (decide (f < 8 * (memSize / 4 / 8)) || Packed.member map f) :=
  used_memsetOnes map _ f

theorem used_pmmngrInitRegionLoop (blocks align : ℕ) (s : Pmm) (f : ℕ) :
    used (pmmngrInitRegionLoop blocks align s) f =
      (!decide (align ≤ f ∧ f < align + blocks) && used s f) := by
  induction blocks generalizing align s with
  | zero =>
      have hno : decide (align ≤ f ∧ f < align + 0) = false := by
        rw [decide_eq_false_iff_not]
        omega
      simp only [pmmngrInitRegionLoop, hno, Bool.not_false, Bool.true_and]
  | succ blocks ih =>
      have hsplit : (align ≤ f ∧ f < align + (blocks + 1)) ↔
          f = align ∨ (align + 1 ≤ f ∧ f < align + 1 + blocks) := by omega
      rw [pmmngrInitRegionLoop, ih, used_mmapUnset]
      simp only [hsplit, Bool.decide_or, Bool.not_or]
      have hcount : used (if mmapTest s align then decUsedBlocks s else s) f =
          used s f := by
        split <;> simp
      rw [hcount, ← Bool.and_assoc, Bool.and_comm (!decide (f = align))]

@[simp] theorem maxBlocks_pmmngrInitRegionLoop (blocks align : ℕ) (s : Pmm) :
    (pmmngrInitRegionLoop blocks align s).maxBlocks = s.maxBlocks := by
  induction blocks generalizing align s with
  | zero => rfl
  | succ blocks ih =>
      rw [pmmngrInitRegionLoop, ih, maxBlocks_mmapUnset]
      split <;> simp

theorem used_pmmngrDeinitRegionLoop (blocks align : ℕ) (s : Pmm) (f : ℕ) :
    used (pmmngrDeinitRegionLoop blocks align s) f =
      (decide (align ≤ f ∧ f < align + blocks) || used s f) := by
  induction blocks generalizing align s with
  | zero =>
      have hno : decide (align ≤ f ∧ f < align + 0) = false := by
        rw [decide_eq_false_iff_not]
        omega
      simp only [pmmngrDeinitRegionLoop, hno, Bool.false_or]
  | succ blocks ih =>
      have hsplit : (align ≤ f ∧ f < align + (blocks + 1)) ↔
          f = align ∨ (align + 1 ≤ f ∧ f < align + 1 + blocks) := by omega
      rw [pmmngrDeinitRegionLoop, ih, used_mmapSet]
      simp only [hsplit, Bool.decide_or]
      have hcount : used (if !mmapTest s align then incUsedBlocks s else s) f =
          used s f := by
        split <;> simp
      rw [hcount, ← Bool.or_assoc, Bool.or_comm (decide (f = align))]

@[simp] theorem maxBlocks_pmmngrDeinitRegionLoop (blocks align : ℕ) (s : Pmm) :
    (pmmngrDeinitRegionLoop blocks align s).maxBlocks = s.maxBlocks := by
  induction blocks generalizing align s with
  | zero => rw [pmmngrDeinitRegionLoop]
  | succ blocks ih =>
      rw [pmmngrDeinitRegionLoop, ih, maxBlocks_mmapSet]
      split <;> simp

/-- The frames that `pmm_init_available_regions` frees on account of one entry:
the region's base and length cut to 32 bits and rounded down to frames. -/
def MultibootMmapEntry.frees (e : MultibootMmapEntry) (f : ℕ) : Prop :=
  e.type = multibootMemoryAvailable ∧
    e.addr.toNat % 2 ^ 32 / pmmngrBlockSize ≤ f ∧
    f < e.addr.toNat % 2 ^ 32 / pmmngrBlockSize + e.len.toNat % 2 ^ 32 / pmmngrBlockSize

instance (e : MultibootMmapEntry) (f : ℕ) : Decidable (e.frees f) :=
  inferInstanceAs (Decidable (_ ∧ _ ∧ _))

theorem used_pmmInitAvailableRegion (s : Pmm) (e : MultibootMmapEntry) (f : ℕ) :
    used (pmmInitAvailableRegion s e) f = (!decide (e.frees f) && used s f) := by
  unfold pmmInitAvailableRegion MultibootMmapEntry.frees
  by_cases ht : e.type = multibootMemoryAvailable
  · rw [if_pos ht, pmmngrInitRegion, used_pmmngrInitRegionLoop]
    simp only [ht, true_and]
  · simp [ht]

@[simp] theorem maxBlocks_pmmInitAvailableRegion (s : Pmm) (e : MultibootMmapEntry) :
    (pmmInitAvailableRegion s e).maxBlocks = s.maxBlocks := by
  unfold pmmInitAvailableRegion
  split
  · simp [pmmngrInitRegion]
  · rfl

theorem used_pmmInitAvailableRegions (mmap : List MultibootMmapEntry) (s : Pmm) (f : ℕ) :
    used (pmmInitAvailableRegions mmap s) f =
      (!decide (∃ e ∈ mmap, e.frees f) && used s f) := by
  unfold pmmInitAvailableRegions
  induction mmap generalizing s with
  | nil => simp
  | cons e mmap ih =>
      rw [List.foldl_cons, ih, used_pmmInitAvailableRegion]
      simp only [List.exists_mem_cons_iff, Bool.decide_or, Bool.not_or]
      rw [← Bool.and_assoc, Bool.and_comm (!decide (e.frees f))]

@[simp] theorem maxBlocks_pmmInitAvailableRegions (mmap : List MultibootMmapEntry) (s : Pmm) :
    (pmmInitAvailableRegions mmap s).maxBlocks = s.maxBlocks := by
  unfold pmmInitAvailableRegions
  induction mmap generalizing s with
  | nil => rfl
  | cons e mmap ih => rw [List.foldl_cons, ih, maxBlocks_pmmInitAvailableRegion]

@[simp] theorem maxBlocks_boot (memSize : ℕ) (map : ℕ → BitVec 32)
    (mmap : List MultibootMmapEntry) : (boot memSize map mmap).maxBlocks = memSize / 4 := by
  simp [boot, deinitSpecialRegions, pmmngrDeinitRegion]

/-- A frame is free after boot when it lies above the first 4 MiB and either an
available region was rounded onto it, or `memset` did not reach its bit and the
bit was clear before. -/
theorem used_boot_eq_false_iff (memSize : ℕ) (map : ℕ → BitVec 32)
    (mmap : List MultibootMmapEntry) (f : ℕ) :
    used (boot memSize map mmap) f = false ↔
      1024 ≤ f ∧ ((∃ e ∈ mmap, e.frees f) ∨
        8 * (memSize / 4 / 8) ≤ f ∧ Packed.member map f = false) := by
  have hlow : (0x0 / pmmngrBlockSize ≤ f ∧
      f < 0x0 / pmmngrBlockSize + 0x400000 / pmmngrBlockSize) ↔ f < 1024 := by
    simp [pmmngrBlockSize]
  rw [boot, deinitSpecialRegions, pmmngrDeinitRegion, used_pmmngrDeinitRegionLoop,
    used_pmmInitAvailableRegions, used_pmmngrInit]
  simp only [hlow]
  by_cases hf : f < 1024
  · simp [hf]
  · have hge : 1024 ≤ f := by omega
    by_cases he : ∃ e ∈ mmap, e.frees f
    · simp [hf, hge, he]
    · simp [hf, hge, he]

/-- The frames below 4 MiB are reserved after boot, whatever the map says. -/
theorem used_boot_of_lt (memSize : ℕ) (map : ℕ → BitVec 32)
    (mmap : List MultibootMmapEntry) {f : ℕ} (hf : f < 1024) :
    used (boot memSize map mmap) f = true := by
  by_contra hne
  have hfree := (used_boot_eq_false_iff memSize map mmap f).1 (eq_false_of_ne_true hne)
  omega

/-! ### Allocation and release -/

/-- What `pmmngr_alloc_block` can do: fail and change nothing, or take the lowest
free frame of the whole bitmap words. -/
theorem pmmngrAllocBlock_cases (s : Pmm) :
    pmmngrAllocBlock s = (0, s) ∨
      ∃ f, f < 32 * (s.maxBlocks / 32) ∧ used s f = false ∧
        (∀ g < f, used s g = true) ∧
        pmmngrAllocBlock s = (f * 4096 % 2 ^ 32, incUsedBlocks (mmapSet s f)) := by
  simp only [pmmngrAllocBlock, pmmngrBlockSize]
  by_cases hcount : pmmngrGetFreeBlockCount s = 0
  · simp [hcount]
  · rw [if_neg hcount]
    cases hfind : mmapFirstFree s with
    | none => exact Or.inl rfl
    | some f =>
        obtain ⟨hlt, hclear, hset⟩ := mmapFirstFree_some hfind
        exact Or.inr ⟨f, hlt, hclear, hset, rfl⟩

@[simp] theorem maxBlocks_pmmngrAllocBlock (s : Pmm) :
    (pmmngrAllocBlock s).2.maxBlocks = s.maxBlocks := by
  rcases pmmngrAllocBlock_cases s with h | ⟨f, -, -, -, h⟩ <;> simp [h]

@[simp] theorem maxBlocks_pmmngrFreeBlock (p : ℕ) (s : Pmm) :
    (pmmngrFreeBlock p s).maxBlocks = s.maxBlocks := by
  simp [pmmngrFreeBlock]

@[simp] theorem used_pmmngrFreeBlock (p : ℕ) (s : Pmm) (f : ℕ) :
    used (pmmngrFreeBlock p s) f = (!decide (f = p / 4096) && used s f) := by
  rw [pmmngrFreeBlock, used_decUsedBlocks, used_mmapUnset, pmmngrBlockSize]

/-- The address handed out names a frame below 4 GiB. -/
theorem pmmngrAllocBlock_addr (s : Pmm) :
    ∃ g < 2 ^ 20, (pmmngrAllocBlock s).1 = g * 4096 := by
  rcases pmmngrAllocBlock_cases s with h | ⟨f, -, -, -, h⟩
  · exact ⟨0, by decide, by rw [h]⟩
  · refine ⟨f % 2 ^ 20, Nat.mod_lt _ (by decide), ?_⟩
    rw [h]
    dsimp only
    omega

/-- As long as the counter leaves room, an allocation takes the lowest clear bit of the
whole words. -/
theorem pmmngrAllocBlock_of_clear {s : Pmm} {f : ℕ} (hcount : pmmngrGetFreeBlockCount s ≠ 0)
    (hf : f < 32 * (s.maxBlocks / 32)) (hclear : used s f = false) :
    ∃ g ≤ f, used s g = false ∧ (∀ k < g, used s k = true) ∧
      pmmngrAllocBlock s = (g * 4096 % 2 ^ 32, incUsedBlocks (mmapSet s g)) := by
  cases hfind : mmapFirstFree s with
  | none =>
      have hset := mmapFirstFree_none hfind f hf
      rw [hclear] at hset
      exact absurd hset (by simp)
  | some g =>
      obtain ⟨-, hg, hbelow⟩ := mmapFirstFree_some hfind
      refine ⟨g, ?_, hg, hbelow, ?_⟩
      · by_contra hlt
        rw [hbelow f (by omega)] at hclear
        exact absurd hclear (by simp)
      · simp only [pmmngrAllocBlock, hcount, hfind, pmmngrBlockSize, if_false]

end Pmm

end Yotos
