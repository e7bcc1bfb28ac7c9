import Yotos.Pmm.Accuracy
import Mathlib.Order.Lattice.Nat

/-!
# First fit

With an accurate counter, `pmmngr_alloc_block` should fail only when every frame is
used, and hand out the lowest free one otherwise. `mmap_first_free` looks at whole
words only, and the address of frame 0 is `NULL`, so this depends on where the lowest
free frame lies.
-/

namespace Yotos

namespace Pmm

/-- The frames of the memory that the bitmap marks free. -/
def freeFrames (s : Pmm) : Set ℕ := {f | f < s.maxBlocks ∧ used s f = false}

/-- An allocation returns `NULL` exactly when no frame is free, and the address of the
lowest free frame otherwise. -/
def FirstFit (s : Pmm) : Prop :=
  ((pmmngrAllocBlock s).1 = 0 ↔ freeFrames s = ∅) ∧
    ∀ f, IsLeast (freeFrames s) f → (pmmngrAllocBlock s).1 = f * pmmngrBlockSize

/-- The lowest free frame, if there is one, lies in a whole word of the bitmap, is not
frame 0 and starts below 4 GiB. -/
def LowestInReach (s : Pmm) : Prop :=
  ∀ f, IsLeast (freeFrames s) f → f / 32 < s.maxBlocks / 32 ∧ 0 < f ∧ f < 2 ^ 20

/-- A call of the manager after `pmmngr_init`. -/
inductive Op where
  | initRegion (base size : UInt32)
  | deinitRegion (base size : UInt32)
  | allocBlock
  | freeBlock (p : UInt32)

def Op.apply (s : Pmm) : Op → Pmm
  | initRegion base size => pmmngrInitRegion base.toNat size.toNat s
  | deinitRegion base size => pmmngrDeinitRegion base.toNat size.toNat s
  | allocBlock => (pmmngrAllocBlock s).2
  | freeBlock p => pmmngrFreeBlock p.toNat s

/-- The state after `pmmngr_init` and a sequence of calls. -/
def afterOps (memSize : ℕ) (map : ℕ → BitVec 32) (ops : List Op) : Pmm :=
  ops.foldl Op.apply (pmmngrInit memSize map)

theorem maxBlocks_apply (s : Pmm) (op : Op) : (op.apply s).maxBlocks = s.maxBlocks := by
  cases op <;> simp [Op.apply, pmmngrInitRegion, pmmngrDeinitRegion]

@[simp] theorem maxBlocks_afterOps (memSize : ℕ) (map : ℕ → BitVec 32) (ops : List Op) :
    (afterOps memSize map ops).maxBlocks = memSize / 4 := by
  induction ops using List.reverseRecOn with
  | nil => rfl
  | append_singleton ops op ih =>
      rw [afterOps, List.foldl_append, List.foldl_cons, List.foldl_nil, maxBlocks_apply]
      exact ih

/-! ### One allocation -/

theorem exists_isLeast_freeFrames {s : Pmm} (h : freeFrames s ≠ ∅) :
    ∃ f, IsLeast (freeFrames s) f :=
  ⟨sInf (freeFrames s), Nat.sInf_mem (Set.nonempty_iff_ne_empty.2 h), fun _ => Nat.sInf_le⟩

/-- An accurate counter leaves room for exactly the free frames. -/
theorem freeBlockCount_of_exact {s : Pmm} (hmax : s.maxBlocks ≤ 2 ^ 30)
    (hexact : CounterExact s) : pmmngrGetFreeBlockCount s = clearCount s s.maxBlocks := by
  have hsum := used_card_add_clearCount s s.maxBlocks
  rw [CounterExact] at hexact
  rw [pmmngrGetFreeBlockCount]
  omega

theorem clearCount_eq_zero_iff (s : Pmm) :
    clearCount s s.maxBlocks = 0 ↔ freeFrames s = ∅ := by
  simp [clearCount, freeFrames, Finset.filter_eq_empty_iff, Set.eq_empty_iff_forall_notMem]

theorem alloc_of_freeFrames_empty {s : Pmm} (hmax : s.maxBlocks ≤ 2 ^ 30)
    (hexact : CounterExact s) (h : freeFrames s = ∅) : (pmmngrAllocBlock s).1 = 0 := by
  have hcount : pmmngrGetFreeBlockCount s = 0 := by
    rw [freeBlockCount_of_exact hmax hexact]
    exact (clearCount_eq_zero_iff s).2 h
  simp [pmmngrAllocBlock, hcount]

/-- A lowest free frame in a whole word is the one the search finds. -/
theorem alloc_of_lowest {s : Pmm} (hmax : s.maxBlocks ≤ 2 ^ 30) (hexact : CounterExact s)
    {f : ℕ} (hf : IsLeast (freeFrames s) f) (hword : f / 32 < s.maxBlocks / 32) :
    (pmmngrAllocBlock s).1 = f * 4096 % 2 ^ 32 := by
  obtain ⟨⟨hlt, hclear⟩, hleast⟩ := hf
  have hcount : pmmngrGetFreeBlockCount s ≠ 0 := by
    rw [freeBlockCount_of_exact hmax hexact]
    exact (clearCount_pos hlt hclear).ne'
  obtain ⟨g, hgf, hgclear, -, heq⟩ := pmmngrAllocBlock_of_clear hcount (by omega) hclear
  have hg : f ≤ g := hleast ⟨by omega, hgclear⟩
  rw [heq, show g = f by omega]

/-- The search never reaches the last partial word. -/
theorem alloc_of_partial_word {s : Pmm} {f : ℕ} (hf : IsLeast (freeFrames s) f)
    (hword : s.maxBlocks / 32 ≤ f / 32) : (pmmngrAllocBlock s).1 = 0 := by
  rcases pmmngrAllocBlock_cases s with h | ⟨g, hg, hclear, -, -⟩
  · rw [h]
  · have hle : f ≤ g := hf.2 ⟨by omega, hclear⟩
    omega

theorem firstFit_iff_of_exact {s : Pmm} (hmax : s.maxBlocks ≤ 2 ^ 30)
    (hexact : CounterExact s) : FirstFit s ↔ LowestInReach s := by
  constructor
  · rintro ⟨hnull, hlowest⟩ f hf
    have hne : (pmmngrAllocBlock s).1 ≠ 0 := by
      rw [Ne, hnull]
      exact Set.nonempty_iff_ne_empty.1 ⟨f, hf.1⟩
    have hword : f / 32 < s.maxBlocks / 32 := by
      by_contra hge
      exact hne (alloc_of_partial_word hf (by omega))
    have haddr := hlowest f hf
    rw [alloc_of_lowest hmax hexact hf hword, pmmngrBlockSize] at haddr
    rw [alloc_of_lowest hmax hexact hf hword] at hne
    exact ⟨hword, by omega, by omega⟩
  · intro h
    have hlowest : ∀ f, IsLeast (freeFrames s) f →
        (pmmngrAllocBlock s).1 = f * pmmngrBlockSize := by
      intro f hf
      obtain ⟨hword, -, hhigh⟩ := h f hf
      rw [alloc_of_lowest hmax hexact hf hword, pmmngrBlockSize]
      omega
    refine ⟨⟨?_, alloc_of_freeFrames_empty hmax hexact⟩, hlowest⟩
    intro hnull
    by_contra hne
    obtain ⟨f, hf⟩ := exists_isLeast_freeFrames hne
    have haddr := hlowest f hf
    have hpos := (h f hf).2.1
    rw [hnull, pmmngrBlockSize] at haddr
    omega

/-! ### Every reachable state -/

/-- In every reachable state with an accurate counter, the allocation is first fit
exactly when the lowest free frame is in reach of the search and of an address. -/
theorem firstFit_iff_lowestInReach (memSize : UInt32) (map : ℕ → BitVec 32) (ops : List Op)
    (hexact : CounterExact (afterOps memSize.toNat map ops)) :
    FirstFit (afterOps memSize.toNat map ops) ↔
      LowestInReach (afterOps memSize.toNat map ops) := by
  have hsize : memSize.toNat < 2 ^ 32 := memSize.toNat_lt
  apply firstFit_iff_of_exact _ hexact
  rw [maxBlocks_afterOps]
  omega

/-! ### One free region -/

/-- Memory of whole bytes of frames in which `pmmngr_init_region` freed one region. -/
def oneRegion (memSize base size : UInt32) : Pmm :=
  afterOps memSize.toNat (fun _ => 0) [Op.initRegion base size]

theorem oneRegion_eq (memSize base size : UInt32) :
    oneRegion memSize base size =
      pmmngrInitRegionLoop (size.toNat / 4096) (base.toNat / 4096)
        (pmmngrInit memSize.toNat fun _ => 0) := by
  simp [oneRegion, afterOps, Op.apply, pmmngrInitRegion, pmmngrBlockSize]

@[simp] theorem maxBlocks_oneRegion (memSize base size : UInt32) :
    (oneRegion memSize base size).maxBlocks = memSize.toNat / 4 := by
  simp [oneRegion]

variable {memSize base size : UInt32} (hbytes : 8 ∣ memSize.toNat / 4)
  (hfits : base.toNat / 4096 + size.toNat / 4096 ≤ memSize.toNat / 4)

include hbytes hfits

theorem counterExact_oneRegion : CounterExact (oneRegion memSize base size) := by
  have hsize : memSize.toNat < 2 ^ 32 := memSize.toNat_lt
  have hclear : clearCount (pmmngrInit memSize.toNat fun _ => 0) (memSize.toNat / 4) = 0 := by
    rw [clearCount_pmmngrInit _ _ le_rfl]
    simp [tailClear, Nat.mul_div_cancel' hbytes]
  have hinit : (pmmngrInit memSize.toNat fun _ => 0).usedBlocks = memSize.toNat / 4 := rfl
  have hword : (oneRegion memSize base size).usedBlocks < 2 ^ 32 := by
    rw [oneRegion_eq]
    apply usedBlocks_pmmngrInitRegionLoop_lt
    rw [hinit]
    omega
  rw [counterExact_iff_drift hword (by simp; omega), maxBlocks_oneRegion, oneRegion_eq,
    drift_pmmngrInitRegionLoop _ _ _ _ hfits, drift, hclear, hinit]
  omega

/-- The lowest free frame is the first of the region. -/
theorem isLeast_oneRegion (hsome : 0 < size.toNat / 4096) :
    IsLeast (freeFrames (oneRegion memSize base size)) (base.toNat / 4096) := by
  have hused : ∀ f, used (oneRegion memSize base size) f =
      (!decide (base.toNat / 4096 ≤ f ∧ f < base.toNat / 4096 + size.toNat / 4096) &&
        decide (f < memSize.toNat / 4)) := by
    intro f
    rw [oneRegion_eq, used_pmmngrInitRegionLoop, used_pmmngrInit, Nat.mul_div_cancel' hbytes]
    simp [Packed.member]
  constructor
  · refine ⟨by simp; omega, ?_⟩
    simp [hused, hsome]
  · rintro f ⟨hlt, hclear⟩
    rw [maxBlocks_oneRegion] at hlt
    simp only [hused, hlt, decide_true, Bool.and_true, Bool.not_eq_false'] at hclear
    exact (of_decide_eq_true hclear).1

omit hbytes hfits

/-- With the upper half of 8 MiB free, the allocation is first fit. -/
theorem firstFit_upper_half : FirstFit (oneRegion 8192 0x400000 0x400000) := by
  refine (firstFit_iff_lowestInReach 8192 (fun _ => 0) [Op.initRegion 0x400000 0x400000]
    (counterExact_oneRegion (by decide) (by decide))).2 fun f hf => ?_
  obtain rfl := hf.unique (isLeast_oneRegion (by decide) (by decide) (by decide))
  exact ⟨by rw [maxBlocks_afterOps]; decide, by decide, by decide⟩

/-- With 8224 KiB and only the last 8 frames free, the allocator says that memory is
out. -/
theorem not_firstFit_tail :
    ¬ ∀ (memSize : UInt32) (map : ℕ → BitVec 32) (ops : List Op),
      CounterExact (afterOps memSize.toNat map ops) →
        FirstFit (afterOps memSize.toNat map ops) := by
  intro h
  have hfit : FirstFit (oneRegion 8224 0x800000 0x8000) :=
    h 8224 (fun _ => 0) [Op.initRegion 0x800000 0x8000]
      (counterExact_oneRegion (by decide) (by decide))
  have hleast : IsLeast (freeFrames (oneRegion 8224 0x800000 0x8000)) 2048 :=
    isLeast_oneRegion (by decide) (by decide) (by decide)
  have hnull := alloc_of_partial_word hleast (by rw [maxBlocks_oneRegion]; decide)
  have haddr := hfit.2 2048 hleast
  rw [hnull, pmmngrBlockSize] at haddr
  omega

end Pmm

end Yotos
