import Yotos.Pmm.Ownership
import Mathlib.Order.Interval.Finset.Nat

/-!
# When the counter equals the bitmap

Boot counts every frame as used before it clears bits, although `memset` leaves
the bits of a last partial byte alone, and the two region loops count frames past
the end of memory like any other. `Balanced` says when these errors cancel. From
there on every allocation and every release moves the counter and the bitmap
together, so a run keeps whatever difference boot left.
-/

namespace Yotos

namespace Pmm

/-- The counter is the number of set bits among the first `maxBlocks`. -/
def CounterExact (s : Pmm) : Prop :=
  s.usedBlocks = ((Finset.range s.maxBlocks).filter fun f => used s f = true).card

/-- Every region has a page-aligned base and length and ends at or below 4 GiB. -/
def AlignedBelow4GiB (mmap : List MultibootMmapEntry) : Prop :=
  ∀ e ∈ mmap, 4096 ∣ e.addr.toNat ∧ 4096 ∣ e.len.toNat ∧
    e.addr.toNat + e.len.toNat ≤ 2 ^ 32

/-- Bits of the last partial byte of the bitmap that were clear before boot. -/
def tailClear (memSize : ℕ) (map : ℕ → BitVec 32) : ℕ :=
  ((Finset.Ico (8 * (memSize / 4 / 8)) (memSize / 4)).filter fun f =>
    Packed.member map f = false).card

/-- Frames below 4 MiB that lie past the end of memory and had a clear bit. -/
def pastTaken (memSize : ℕ) (map : ℕ → BitVec 32) : ℕ :=
  ((Finset.Ico (memSize / 4) 1024).filter fun f => Packed.member map f = false).card

/-- Frames past the end of memory that a region frees and that had a set bit. -/
def pastFreed (memSize : ℕ) (map : ℕ → BitVec 32) (mmap : List MultibootMmapEntry) : ℕ :=
  ((Finset.Ico (max (memSize / 4) 1024) (2 ^ 20)).filter fun f =>
    (∃ e ∈ mmap, e.frees f) ∧ Packed.member map f = true).card

/-- The frames that boot counts without a bit of the bitmap are as many as those it
takes off the counter without one. -/
def Balanced (memSize : ℕ) (map : ℕ → BitVec 32) (mmap : List MultibootMmapEntry) : Prop :=
  tailClear memSize map + pastTaken memSize map = pastFreed memSize map mmap

/-! ### The counter right after boot -/

theorem used_card_add_clearCount (s : Pmm) (m : ℕ) :
    ((Finset.range m).filter fun f => used s f = true).card + clearCount s m = m := by
  have h := Finset.card_filter_add_card_filter_not (s := Finset.range m)
    fun f => used s f = true
  simpa only [clearCount, Bool.not_eq_true, Finset.card_range] using h

/-- The counter is exact when it and the clear bits add up to the number of frames. -/
theorem counterExact_iff_drift {s : Pmm} (hword : s.usedBlocks < 2 ^ 32)
    (hlimit : s.maxBlocks ≤ 2 ^ 30) :
    CounterExact s ↔ drift s s.maxBlocks = s.maxBlocks := by
  have hsum := used_card_add_clearCount s s.maxBlocks
  unfold CounterExact drift
  omega

theorem card_filter_Ico {a b c : ℕ} (hab : a ≤ b) (hbc : b ≤ c) (P : ℕ → Prop)
    [DecidablePred P] :
    ((Finset.Ico a c).filter P).card =
      ((Finset.Ico a b).filter P).card + ((Finset.Ico b c).filter P).card := by
  rw [← Finset.Ico_union_Ico_eq_Ico hab hbc, Finset.filter_union,
    Finset.card_union_of_disjoint]
  exact Finset.disjoint_filter_filter (Finset.Ico_disjoint_Ico_consecutive a b c)

theorem clearCount_split (s : Pmm) {m n : ℕ} (h : m ≤ n) :
    clearCount s n = clearCount s m +
      ((Finset.Ico m n).filter fun f => used s f = false).card := by
  have hsplit := card_filter_Ico (Nat.zero_le m) h fun f => used s f = false
  simpa only [clearCount, Finset.range_eq_Ico] using hsplit

theorem MultibootMmapEntry.frees.lt_of_below {mmap : List MultibootMmapEntry}
    (hbelow : AlignedBelow4GiB mmap) {e : MultibootMmapEntry} (he : e ∈ mmap) {f : ℕ}
    (h : e.frees f) : f < 2 ^ 20 := by
  obtain ⟨-, -, hend⟩ := hbelow e he
  obtain ⟨-, -, hlt⟩ := h
  unfold pmmngrBlockSize at hlt
  omega

/-- The clear bits after `pmmngr_init` are those of the last partial byte and those
past the end of memory. -/
theorem clearCount_pmmngrInit (memSize : ℕ) (map : ℕ → BitVec 32) {n : ℕ}
    (hn : memSize / 4 ≤ n) :
    clearCount (pmmngrInit memSize map) n = tailClear memSize map +
      ((Finset.Ico (memSize / 4) n).filter fun f => Packed.member map f = false).card := by
  have hle : 8 * (memSize / 4 / 8) ≤ memSize / 4 := by omega
  have hbytes : clearCount (pmmngrInit memSize map) (8 * (memSize / 4 / 8)) = 0 := by
    unfold clearCount
    rw [Finset.card_eq_zero, Finset.filter_eq_empty_iff]
    intro f hf
    rw [used_pmmngrInit]
    simp [Finset.mem_range.1 hf]
  rw [clearCount_split _ (hle.trans hn), hbytes, Nat.zero_add, tailClear,
    ← card_filter_Ico hle hn]
  congr 1
  apply Finset.filter_congr
  intro f hf
  have hge := (Finset.mem_Ico.1 hf).1
  rw [used_pmmngrInit]
  simp [hge]

/-- Past the end of memory, boot takes the frames below 4 MiB and frees those of the
regions. -/
theorem card_clear_past_boot {memSize : ℕ} (map : ℕ → BitVec 32)
    {mmap : List MultibootMmapEntry} (hbelow : AlignedBelow4GiB mmap) {n : ℕ}
    (hm : memSize / 4 ≤ n) (hn : 2 ^ 20 ≤ n) :
    ((Finset.Ico (memSize / 4) n).filter fun f => used (boot memSize map mmap) f = false).card +
        pastTaken memSize map =
      ((Finset.Ico (memSize / 4) n).filter fun f => Packed.member map f = false).card +
        pastFreed memSize map mmap := by
  obtain ⟨k, hk⟩ : ∃ k, k = max (memSize / 4) 1024 := ⟨_, rfl⟩
  have hmk : memSize / 4 ≤ k := by omega
  have hkn : k ≤ n := by omega
  have hreserved : ((Finset.Ico (memSize / 4) k).filter fun f =>
      used (boot memSize map mmap) f = false).card = 0 := by
    rw [Finset.card_eq_zero, Finset.filter_eq_empty_iff]
    intro f hf
    obtain ⟨hge, hlt⟩ := Finset.mem_Ico.1 hf
    rw [used_boot_of_lt memSize map mmap (by omega)]
    simp
  have htaken : pastTaken memSize map =
      ((Finset.Ico (memSize / 4) k).filter fun f => Packed.member map f = false).card := by
    unfold pastTaken
    congr 2
    ext f
    simp only [Finset.mem_Ico]
    omega
  have hfreed : ((Finset.Ico k n).filter fun f => used (boot memSize map mmap) f = false).card =
      ((Finset.Ico k n).filter fun f => Packed.member map f = false).card +
        pastFreed memSize map mmap := by
    rw [pastFreed, ← hk, ← Finset.card_union_of_disjoint]
    · congr 1
      ext f
      simp only [Finset.mem_union, Finset.mem_filter, Finset.mem_Ico, used_boot_eq_false_iff]
      constructor
      · rintro ⟨⟨hge, hlt⟩, -, ⟨e, he, hf⟩ | ⟨-, hclear⟩⟩
        · cases hbit : Packed.member map f with
          | false => exact Or.inl ⟨⟨hge, hlt⟩, rfl⟩
          | true => exact Or.inr ⟨⟨hge, hf.lt_of_below hbelow he⟩, ⟨e, he, hf⟩, rfl⟩
        · exact Or.inl ⟨⟨hge, hlt⟩, hclear⟩
      · rintro (⟨⟨hge, hlt⟩, hclear⟩ | ⟨⟨hge, hlt⟩, hf, -⟩)
        · exact ⟨⟨hge, hlt⟩, by omega, Or.inr ⟨by omega, hclear⟩⟩
        · exact ⟨⟨hge, by omega⟩, by omega, Or.inl hf⟩
    · rw [Finset.disjoint_left]
      intro f hclear hset
      rw [Finset.mem_filter] at hclear hset
      rw [hclear.2] at hset
      exact absurd hset.2.2 (by simp)
  rw [card_filter_Ico hmk hkn fun f => used (boot memSize map mmap) f = false, hreserved, hfreed,
    card_filter_Ico hmk hkn fun f => Packed.member map f = false, htaken]
  omega

theorem drift_boot_eq_iff {memSize : ℕ} (hsize : memSize < 2 ^ 32) (map : ℕ → BitVec 32)
    {mmap : List MultibootMmapEntry} (hbelow : AlignedBelow4GiB mmap) :
    drift (boot memSize map mmap) (memSize / 4) = memSize / 4 ↔ Balanced memSize map mmap := by
  have hn : memSize / 4 ≤ 2 ^ 30 := by omega
  have hdrift := drift_boot memSize map mmap (2 ^ 30) (by decide)
  have hpast := card_clear_past_boot map hbelow hn (by decide)
  have hcard : ((Finset.Ico (memSize / 4) (2 ^ 30)).filter fun f =>
      Packed.member map f = false).card ≤ 2 ^ 30 - memSize / 4 :=
    (Finset.card_filter_le _ _).trans_eq (Nat.card_Ico _ _)
  have htail : tailClear memSize map ≤ memSize / 4 - 8 * (memSize / 4 / 8) :=
    (Finset.card_filter_le _ _).trans_eq (Nat.card_Ico _ _)
  have hfreed : pastFreed memSize map mmap ≤ 2 ^ 20 - max (memSize / 4) 1024 :=
    (Finset.card_filter_le _ _).trans_eq (Nat.card_Ico _ _)
  have htaken : pastTaken memSize map ≤ 1024 - memSize / 4 :=
    (Finset.card_filter_le _ _).trans_eq (Nat.card_Ico _ _)
  unfold drift at hdrift
  rw [clearCount_split _ hn, clearCount_pmmngrInit memSize map hn] at hdrift
  have hused : (pmmngrInit memSize map).usedBlocks = memSize / 4 := rfl
  rw [hused] at hdrift
  unfold Balanced drift
  omega

/-! ### Runs -/

/-- What a run keeps whatever the size of memory: the frames that the search can reach
lie between 4 MiB and 4 GiB, and the outstanding blocks are distinct used frames. -/
structure Client.Tracked (c : Client) : Prop where
  free : ∀ f < 32 * (c.pmm.maxBlocks / 32), used c.pmm f = false → 1024 ≤ f ∧ f < 2 ^ 20
  nodup : c.outstanding.Nodup
  held : ∀ p ∈ c.outstanding, ∃ f, p = f * 4096 ∧ 1024 ≤ f ∧ f < 2 ^ 20 ∧
    f < c.pmm.maxBlocks ∧ used c.pmm f = true

theorem Client.tracked_boot (memSize : ℕ) (map : ℕ → BitVec 32)
    {mmap : List MultibootMmapEntry} (hbelow : AlignedBelow4GiB mmap) :
    Client.Tracked { pmm := boot memSize map mmap, outstanding := [] } where
  free f hf hclear := by
    rw [maxBlocks_boot] at hf
    obtain ⟨hlow, ⟨e, he, hfrees⟩ | ⟨htail, -⟩⟩ :=
      (used_boot_eq_false_iff memSize map mmap f).1 hclear
    · exact ⟨hlow, hfrees.lt_of_below hbelow he⟩
    · omega
  nodup := List.nodup_nil
  held p hp := absurd hp List.not_mem_nil

/-- What a step does in a tracked state: nothing, mark one free frame below the end of
memory used and hand it out, or mark one outstanding frame free. -/
theorem Client.Step.effect {c c' : Client} (h : Client.Step c c') (hc : c.Tracked) :
    c' = c ∨
      (∃ f, 1024 ≤ f ∧ f < 2 ^ 20 ∧ f < c.pmm.maxBlocks ∧ used c.pmm f = false ∧
        c' = { pmm := incUsedBlocks (mmapSet c.pmm f)
               outstanding := f * 4096 :: c.outstanding }) ∨
      ∃ f, 1024 ≤ f ∧ f < 2 ^ 20 ∧ f < c.pmm.maxBlocks ∧ used c.pmm f = true ∧
        f * 4096 ∈ c.outstanding ∧
        c' = { pmm := decUsedBlocks (mmapUnset c.pmm f)
               outstanding := c.outstanding.erase (f * 4096) } := by
  cases h with
  | alloc =>
      rcases pmmngrAllocBlock_cases c.pmm with h0 | ⟨f, hlt, hclear, -, heq⟩
      · left
        rw [h0]
        rfl
      · obtain ⟨hlow, hhigh⟩ := hc.free f hlt hclear
        have haddr : f * 4096 % 2 ^ 32 = f * 4096 := by omega
        have hne : f * 4096 ≠ 0 := by omega
        refine Or.inr (Or.inl ⟨f, hlow, hhigh, by omega, hclear, ?_⟩)
        rw [heq, haddr]
        simp only [hne, if_false]
  | free p hp =>
      obtain ⟨f, rfl, hlow, hhigh, hlt, hset⟩ := hc.held p hp
      refine Or.inr (Or.inr ⟨f, hlow, hhigh, hlt, hset, hp, ?_⟩)
      rw [pmmngrFreeBlock, pmmngrBlockSize, Nat.mul_div_cancel f (by decide)]

theorem Client.Step.maxBlocks_eq {c c' : Client} (h : Client.Step c c') :
    c'.pmm.maxBlocks = c.pmm.maxBlocks := by
  cases h with
  | alloc => exact maxBlocks_pmmngrAllocBlock c.pmm
  | free p _ => exact maxBlocks_pmmngrFreeBlock p c.pmm

theorem Client.Step.tracked {c c' : Client} (h : Client.Step c c') (hc : c.Tracked) :
    c'.Tracked := by
  rcases h.effect hc with rfl | ⟨f, hlow, hhigh, hlt, hclear, rfl⟩ |
    ⟨f, hlow, hhigh, hlt, hset, hmem, rfl⟩
  · exact hc
  · -- the frame taken was free, and every outstanding block is used
    have hnew : f * 4096 ∉ c.outstanding := by
      intro hmem
      obtain ⟨g, hg, -, -, -, hused⟩ := hc.held _ hmem
      rw [show g = f by omega, hclear] at hused
      exact absurd hused (by simp)
    refine ⟨?_, List.nodup_cons.2 ⟨hnew, hc.nodup⟩, ?_⟩
    · intro g hg hfree
      rw [used_incUsedBlocks, used_mmapSet, Bool.or_eq_false_iff] at hfree
      exact hc.free g (by simpa using hg) hfree.2
    · intro p hp
      rcases List.mem_cons.1 hp with rfl | hp
      · exact ⟨f, rfl, hlow, hhigh, by simpa using hlt, by simp⟩
      · obtain ⟨g, rfl, hglow, hghigh, hgmax, hused⟩ := hc.held p hp
        exact ⟨g, rfl, hglow, hghigh, by simpa using hgmax, by simp [hused]⟩
  · refine ⟨?_, hc.nodup.erase _, ?_⟩
    · intro g hg hfree
      by_cases hgf : g = f
      · exact hgf ▸ ⟨hlow, hhigh⟩
      · exact hc.free g (by simpa using hg) (by simpa [hgf] using hfree)
    · intro p hp
      obtain ⟨hne, hp⟩ := hc.nodup.mem_erase_iff.1 hp
      obtain ⟨g, rfl, hglow, hghigh, hgmax, hused⟩ := hc.held p hp
      have hgf : g ≠ f := fun heq => hne (heq ▸ rfl)
      exact ⟨g, rfl, hglow, hghigh, by simpa using hgmax, by simp [hgf, hused]⟩

/-- A step moves the counter and the clear bits below the end of memory together. -/
theorem Client.Step.drift_eq {c c' : Client} (h : Client.Step c c') (hc : c.Tracked) :
    drift c'.pmm c.pmm.maxBlocks = drift c.pmm c.pmm.maxBlocks := by
  rcases h.effect hc with rfl | ⟨f, -, -, hlt, hclear, rfl⟩ | ⟨f, -, -, hlt, hset, -, rfl⟩
  · rfl
  · have hcount := clearCount_mmapSet hlt hclear
    unfold drift
    rw [clearCount_incUsedBlocks, ← hcount, incUsedBlocks, mmapSet]
    dsimp only
    omega
  · unfold drift
    rw [clearCount_decUsedBlocks, clearCount_mmapUnset hlt hset, decUsedBlocks, mmapUnset]
    dsimp only
    omega

theorem Client.Step.usedBlocks_lt {c c' : Client} (h : Client.Step c c') (hc : c.Tracked)
    (hword : c.pmm.usedBlocks < 2 ^ 32) : c'.pmm.usedBlocks < 2 ^ 32 := by
  rcases h.effect hc with rfl | ⟨f, -, -, -, -, rfl⟩ | ⟨f, -, -, -, -, -, rfl⟩
  · exact hword
  · exact usedBlocks_incUsedBlocks_lt _
  · exact usedBlocks_decUsedBlocks_lt _

/-- Along a run the counter keeps the difference from the bitmap that boot left. -/
theorem Client.Reachable.drift_eq {memSize : ℕ} (hsize : memSize < 2 ^ 32)
    {map : ℕ → BitVec 32} {mmap : List MultibootMmapEntry} (hbelow : AlignedBelow4GiB mmap)
    {c : Client} (h : Client.Reachable memSize map mmap c) :
    c.Tracked ∧ c.pmm.maxBlocks = memSize / 4 ∧ c.pmm.usedBlocks < 2 ^ 32 ∧
      drift c.pmm (memSize / 4) = drift (boot memSize map mmap) (memSize / 4) := by
  induction h with
  | refl =>
      exact ⟨Client.tracked_boot memSize map hbelow, maxBlocks_boot memSize map mmap,
        usedBlocks_boot_lt memSize hsize map mmap, rfl⟩
  | tail _ hstep ih =>
      obtain ⟨htracked, hmax, hword, hdrift⟩ := ih
      refine ⟨hstep.tracked htracked, hstep.maxBlocks_eq.trans hmax,
        hstep.usedBlocks_lt htracked hword, ?_⟩
      rw [← hdrift, ← hmax]
      exact hstep.drift_eq htracked

/-- For aligned regions below 4 GiB, the counter equals the number of set bits in every
state of every run exactly when what boot counts without a bit balances. -/
theorem counterExact_iff_balanced (memSize : UInt32) (map : ℕ → BitVec 32)
    (mmap : List MultibootMmapEntry) (hbelow : AlignedBelow4GiB mmap) :
    (∀ c, Client.Reachable memSize.toNat map mmap c → CounterExact c.pmm) ↔
      Balanced memSize.toNat map mmap := by
  have hsize : memSize.toNat < 2 ^ 32 := memSize.toNat_lt
  have hexact : ∀ c, Client.Reachable memSize.toNat map mmap c →
      (CounterExact c.pmm ↔ Balanced memSize.toNat map mmap) := by
    intro c hc
    obtain ⟨-, hmax, hword, hdrift⟩ := hc.drift_eq hsize hbelow
    rw [counterExact_iff_drift hword (by omega), hmax, hdrift]
    exact drift_boot_eq_iff hsize map hbelow
  constructor
  · intro h
    exact (hexact _ Relation.ReflTransGen.refl).1 (h _ Relation.ReflTransGen.refl)
  · intro h c hc
    exact (hexact c hc).2 h

theorem alignedBelow4GiB_upper_half : AlignedBelow4GiB [⟨0x400000, 0x400000, 1⟩] := by
  intro e he
  rw [List.mem_singleton.1 he]
  decide

/-- Over cleared memory no frame past the end is taken off the counter. -/
theorem pastFreed_of_clear (memSize : ℕ) (mmap : List MultibootMmapEntry) :
    pastFreed memSize (fun _ => 0) mmap = 0 := by
  unfold pastFreed
  rw [Finset.card_eq_zero, Finset.filter_eq_empty_iff]
  rintro f - ⟨-, hset⟩
  simp [Packed.member] at hset

/-- An 8 MiB machine fills whole bytes of the bitmap and its regions end with memory. -/
theorem balanced_eight_mib : Balanced 8192 (fun _ => 0) [⟨0x400000, 0x400000, 1⟩] := by
  have htail : tailClear 8192 (fun _ => 0) = 0 := by decide
  have htaken : pastTaken 8192 (fun _ => 0) = 0 := by decide
  rw [Balanced, htail, htaken, pastFreed_of_clear]

/-- The equivalence at that machine: its counter is exact in every run. -/
theorem counterExact_eight_mib :
    AlignedBelow4GiB [⟨0x400000, 0x400000, 1⟩] ∧
      ∀ c, Client.Reachable 8192 (fun _ => 0) [⟨0x400000, 0x400000, 1⟩] c →
        CounterExact c.pmm :=
  ⟨alignedBelow4GiB_upper_half,
    (counterExact_iff_balanced 8192 (fun _ => 0) [⟨0x400000, 0x400000, 1⟩]
      alignedBelow4GiB_upper_half).2 balanced_eight_mib⟩

/-- With one more frame than a multiple of eight, the bit of the last frame keeps the
zero it held before boot, and the counter takes the frame for used. -/
theorem not_counterExact_partial_byte :
    AlignedBelow4GiB [⟨0x400000, 0x400000, 1⟩] ∧
      ¬ ∀ c, Client.Reachable 8196 (fun _ => 0) [⟨0x400000, 0x400000, 1⟩] c →
        CounterExact c.pmm := by
  refine ⟨alignedBelow4GiB_upper_half, ?_⟩
  intro h
  have hexact := h _ Relation.ReflTransGen.refl
  rw [counterExact_iff_drift (usedBlocks_boot_lt 8196 (by decide) _ _)
    (by rw [maxBlocks_boot]; decide), maxBlocks_boot,
    drift_boot_eq_iff (by decide) _ alignedBelow4GiB_upper_half] at hexact
  have htail : tailClear 8196 (fun _ => 0) = 1 := by decide
  rw [Balanced, htail, pastFreed_of_clear] at hexact
  omega

end Pmm

end Yotos
