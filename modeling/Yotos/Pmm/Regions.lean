import Yotos.Pmm.Ownership

/-!
# The memory map and the frames that boot frees

The regions of the multiboot map have 64-bit, unaligned bounds. Boot passes them
through 32-bit parameters and rounds both the base and the length down to frames,
and `memset` leaves the bits of a last partial byte of the bitmap alone. The
condition `RegionsOk` says, in terms of the map and the memory size only, when
none of this reaches a frame that is not available: it holds exactly when every
frame that boot leaves free, and every frame handed out later, lies inside the
available regions.
-/

namespace Yotos

namespace Pmm

/-- The physical byte `a` belongs to the region of `e`. -/
def MultibootMmapEntry.contains (e : MultibootMmapEntry) (a : ℕ) : Prop :=
  e.addr.toNat ≤ a ∧ a < e.addr.toNat + e.len.toNat

/-- No two regions of the map share a byte. -/
def DisjointRegions (mmap : List MultibootMmapEntry) : Prop :=
  mmap.Pairwise fun e e' => ∀ a, e.contains a → ¬ e'.contains a

/-- Every byte of frame `f` lies in an available region. -/
def FrameAvailable (mmap : List MultibootMmapEntry) (f : ℕ) : Prop :=
  ∀ a, a / 4096 = f → ∃ e ∈ mmap, e.type = multibootMemoryAvailable ∧ e.contains a

/-- The byte `a` is listed as something other than available, or not listed. -/
def Forbidden (mmap : List MultibootMmapEntry) (a : ℕ) : Prop :=
  (∃ e ∈ mmap, e.type ≠ multibootMemoryAvailable ∧ e.contains a) ∨
    ∀ e ∈ mmap, ¬ e.contains a

/-- The allocator is sound for the map: frames left free by boot are available,
and no frame with a forbidden byte is handed out in any run. -/
def SoundFor (memSize : ℕ) (map : ℕ → BitVec 32) (mmap : List MultibootMmapEntry) : Prop :=
  (∀ f < (boot memSize map mmap).maxBlocks,
      used (boot memSize map mmap) f = false → FrameAvailable mmap f) ∧
    ∀ c, Client.Reachable memSize map mmap c → (pmmngrAllocBlock c.pmm).1 ≠ 0 →
      ∀ a, a / 4096 = (pmmngrAllocBlock c.pmm).1 / 4096 → ¬ Forbidden mmap a

/-- The first frame of the region as the code computes it. -/
def MultibootMmapEntry.align (e : MultibootMmapEntry) : ℕ :=
  e.addr.toNat % 2 ^ 32 / 4096

/-- The condition on the map, the memory size and the old bitmap memory:
* an available region with an unaligned base starts in a frame that is available;
* the 32-bit image of an available region above 4 GiB is available;
* the bits of a last partial byte were set, or belong to available frames;
* a freed frame past 4 GiB is available also at its 32-bit address. -/
structure RegionsOk (memSize : ℕ) (map : ℕ → BitVec 32) (mmap : List MultibootMmapEntry) :
    Prop where
  head : ∀ e ∈ mmap, e.frees e.align → e.addr.toNat % 4096 ≠ 0 →
    1024 ≤ e.align → e.align < memSize / 4 → FrameAvailable mmap e.align
  high : ∀ e ∈ mmap, 2 ^ 32 ≤ e.addr.toNat → ∀ f, e.frees f →
    1024 ≤ f → f < memSize / 4 → FrameAvailable mmap f
  tail : ∀ f, 8 * (memSize / 4 / 8) ≤ f → f < memSize / 4 → 1024 ≤ f →
    Packed.member map f = false → FrameAvailable mmap f
  wrap : ∀ e ∈ mmap, ∀ f, e.frees f → 2 ^ 20 < f → f < 32 * (memSize / 4 / 32) →
    FrameAvailable mmap (f - 2 ^ 20)

theorem MultibootMmapEntry.frees_iff (e : MultibootMmapEntry) (f : ℕ) :
    e.frees f ↔ e.type = multibootMemoryAvailable ∧ e.align ≤ f ∧
      f < e.align + e.len.toNat % 2 ^ 32 / 4096 :=
  Iff.rfl

theorem MultibootMmapEntry.frees.lt {e : MultibootMmapEntry} {f : ℕ} (h : e.frees f) :
    f < 2 ^ 21 := by
  obtain ⟨-, hle, hlt⟩ := (e.frees_iff f).1 h
  unfold MultibootMmapEntry.align at hle hlt
  omega

/-- A frame freed for a region below 4 GiB lies in the region, unless it is the
frame in which an unaligned base falls. -/
theorem FrameAvailable.of_frees {mmap : List MultibootMmapEntry} {e : MultibootMmapEntry}
    (he : e ∈ mmap) {f : ℕ} (h : e.frees f) (hlow : e.addr.toNat < 2 ^ 32)
    (hhead : f = e.align → e.addr.toNat % 4096 = 0) : FrameAvailable mmap f := by
  obtain ⟨htype, hle, hlt⟩ := (e.frees_iff f).1 h
  intro a ha
  unfold MultibootMmapEntry.align at hle hlt hhead
  rw [Nat.mod_eq_of_lt hlow] at hle hlt hhead
  refine ⟨e, he, htype, ?_, ?_⟩
  · by_cases hfe : f = e.addr.toNat / 4096
    · have halign := hhead hfe
      omega
    · omega
  · have hlen : e.len.toNat % 2 ^ 32 ≤ e.len.toNat := Nat.mod_le _ _
    omega

/-- In a map of disjoint regions the available frames are those without a
forbidden byte. -/
theorem frameAvailable_iff_not_forbidden {mmap : List MultibootMmapEntry}
    (hdisj : DisjointRegions mmap) (f : ℕ) :
    FrameAvailable mmap f ↔ ∀ a, a / 4096 = f → ¬ Forbidden mmap a := by
  have hpair : ∀ e ∈ mmap, ∀ e' ∈ mmap, e ≠ e' → ∀ a, e.contains a → ¬ e'.contains a := by
    have hsymm : Std.Symm fun e e' : MultibootMmapEntry =>
        ∀ a, e.contains a → ¬ e'.contains a := ⟨fun x y hxy a hy hx => hxy a hx hy⟩
    intro e he e' he' hne
    exact List.Pairwise.forall hdisj he he' hne
  constructor
  · intro h a ha hforb
    obtain ⟨e, he, htype, hin⟩ := h a ha
    rcases hforb with ⟨e', he', htype', hin'⟩ | hnone
    · have hne : e ≠ e' := fun heq => htype' (heq ▸ htype)
      exact hpair e he e' he' hne a hin hin'
    · exact hnone e he hin
  · intro h a ha
    have hallowed := h a ha
    by_contra hno
    apply hallowed
    by_cases hlisted : ∃ e ∈ mmap, e.contains a
    · obtain ⟨e, he, hin⟩ := hlisted
      refine Or.inl ⟨e, he, ?_, hin⟩
      intro htype
      exact hno ⟨e, he, htype, hin⟩
    · refine Or.inr fun e he hin => hlisted ⟨e, he, hin⟩

/-- Under the condition, every frame left free by boot is available. -/
theorem RegionsOk.free_available {memSize : ℕ} {map : ℕ → BitVec 32}
    {mmap : List MultibootMmapEntry} (h : RegionsOk memSize map mmap) {f : ℕ}
    (hf : f < memSize / 4) (hfree : used (boot memSize map mmap) f = false) :
    FrameAvailable mmap f := by
  obtain ⟨hlow, ⟨e, he, hfrees⟩ | ⟨htail, hclear⟩⟩ :=
    (used_boot_eq_false_iff memSize map mmap f).1 hfree
  · by_cases hhigh : 2 ^ 32 ≤ e.addr.toNat
    · exact h.high e he hhigh f hfrees hlow hf
    · by_cases hhead : f = e.align ∧ e.addr.toNat % 4096 ≠ 0
      · obtain ⟨rfl, hne⟩ := hhead
        exact h.head e he hfrees hne hlow hf
      · refine FrameAvailable.of_frees he hfrees (by omega) ?_
        intro hfe
        by_contra hne
        exact hhead ⟨hfe, hne⟩
  · exact h.tail f htail hf hlow hclear

/-- What a run keeps under the condition: the frames that the search can reach and
the blocks outstanding are available at their 32-bit addresses. -/
structure Client.Available (mmap : List MultibootMmapEntry) (c : Client) : Prop where
  free : ∀ f < 32 * (c.pmm.maxBlocks / 32), used c.pmm f = false →
    f % 2 ^ 20 = 0 ∨ FrameAvailable mmap (f % 2 ^ 20)
  held : ∀ p ∈ c.outstanding, p < 2 ^ 32 ∧ FrameAvailable mmap (p / 4096)

theorem RegionsOk.available_boot {memSize : ℕ} {map : ℕ → BitVec 32}
    {mmap : List MultibootMmapEntry} (h : RegionsOk memSize map mmap) :
    Client.Available mmap { pmm := boot memSize map mmap, outstanding := [] } where
  free f hlt hfree := by
    rw [maxBlocks_boot] at hlt
    by_cases hlow : f < 2 ^ 20
    · rw [Nat.mod_eq_of_lt hlow]
      exact Or.inr (h.free_available (by omega) hfree)
    · obtain ⟨-, ⟨e, he, hfrees⟩ | ⟨htail, -⟩⟩ :=
        (used_boot_eq_false_iff memSize map mmap f).1 hfree
      · have hlt21 := hfrees.lt
        by_cases heq : f = 2 ^ 20
        · exact Or.inl (by simp [heq])
        · have hmod : f % 2 ^ 20 = f - 2 ^ 20 := by omega
          rw [hmod]
          exact Or.inr (h.wrap e he f hfrees (by omega) hlt)
      · omega
  held p hp := absurd hp List.not_mem_nil

/-- The block that an allocation returns, if any, names an available frame. -/
theorem Client.Available.alloc {mmap : List MultibootMmapEntry} {c : Client}
    (h : c.Available mmap) (hp : (pmmngrAllocBlock c.pmm).1 ≠ 0) :
    (pmmngrAllocBlock c.pmm).1 < 2 ^ 32 ∧
      FrameAvailable mmap ((pmmngrAllocBlock c.pmm).1 / 4096) := by
  rcases pmmngrAllocBlock_cases c.pmm with h0 | ⟨f, hlt, hclear, -, heq⟩
  · exact absurd (congrArg Prod.fst h0) hp
  · rw [heq] at hp ⊢
    dsimp only at hp ⊢
    have hframe : f * 4096 % 2 ^ 32 / 4096 = f % 2 ^ 20 := by omega
    refine ⟨by omega, ?_⟩
    rw [hframe]
    rcases h.free f hlt hclear with h0 | havail
    · omega
    · exact havail

theorem Client.Step.available {mmap : List MultibootMmapEntry} {c c' : Client}
    (hstep : Client.Step c c') (h : c.Available mmap) : c'.Available mmap := by
  cases hstep with
  | alloc =>
      refine ⟨?_, ?_⟩
      · intro f hlt hfree
        rw [maxBlocks_pmmngrAllocBlock] at hlt
        apply h.free f hlt
        rcases pmmngrAllocBlock_cases c.pmm with h0 | ⟨g, -, -, -, heq⟩
        · rwa [h0] at hfree
        · rw [heq, used_incUsedBlocks, used_mmapSet, Bool.or_eq_false_iff] at hfree
          exact hfree.2
      · intro p hp
        by_cases h0 : (pmmngrAllocBlock c.pmm).1 = 0
        · simp only [h0, if_true] at hp
          exact h.held p hp
        · simp only [h0, if_false] at hp
          rcases List.mem_cons.1 hp with rfl | hp
          · exact h.alloc h0
          · exact h.held p hp
  | free p hp =>
      obtain ⟨hp32, havail⟩ := h.held p hp
      refine ⟨?_, ?_⟩
      · intro f hlt hfree
        rw [maxBlocks_pmmngrFreeBlock] at hlt
        by_cases hfp : f = p / 4096
        · have hmod : f % 2 ^ 20 = p / 4096 := by omega
          exact Or.inr (hmod ▸ havail)
        · apply h.free f hlt
          simpa [hfp] using hfree
      · intro q hq
        exact h.held q (List.mem_of_mem_erase hq)

theorem Client.Reachable.available {memSize : ℕ} {map : ℕ → BitVec 32}
    {mmap : List MultibootMmapEntry} (h : RegionsOk memSize map mmap) {c : Client}
    (hc : Client.Reachable memSize map mmap c) : c.Available mmap := by
  induction hc with
  | refl => exact h.available_boot
  | tail _ hstep ih => exact hstep.available ih

/-- Allocating again and again hands out every free frame of the whole bitmap words:
a client that only allocates comes to any given one. -/
theorem Client.exists_handing_out {t : Pmm} {f : ℕ} (n : ℕ) (c : Client)
    (hcount : Counted t c.pmm) (hf : f < 32 * (c.pmm.maxBlocks / 32))
    (hclear : used c.pmm f = false) (hn : clearCount c.pmm f ≤ n) :
    ∃ c', Relation.ReflTransGen Client.Step c c' ∧
      (pmmngrAllocBlock c'.pmm).1 = f * 4096 % 2 ^ 32 := by
  induction n generalizing c with
  | zero =>
      obtain ⟨g, hle, hg, -, heq⟩ := hcount.alloc_eq hf hclear
      have hgf : g = f := by
        by_contra hne
        have hpos := clearCount_pos (m := f) (by omega) hg
        omega
      exact ⟨c, Relation.ReflTransGen.refl, by rw [heq, hgf]⟩
  | succ n ih =>
      obtain ⟨g, hle, hg, -, heq⟩ := hcount.alloc_eq hf hclear
      by_cases hgf : g = f
      · exact ⟨c, Relation.ReflTransGen.refl, by rw [heq, hgf]⟩
      · obtain ⟨c₁, hc₁, hstep⟩ :
            ∃ c₁, c₁.pmm = (pmmngrAllocBlock c.pmm).2 ∧ Client.Step c c₁ :=
          ⟨_, rfl, Client.Step.alloc c⟩
        have hlt : g < f := by omega
        have hfewer := clearCount_mmapSet (m := f) hlt hg
        have hcount₁ : Counted t c₁.pmm := hc₁ ▸ hcount.alloc
        have hclear₁ : used c₁.pmm f = false := by
          rw [hc₁, heq, used_incUsedBlocks, used_mmapSet, hclear]
          simp [Ne.symm hgf]
        have hn₁ : clearCount c₁.pmm f ≤ n := by
          rw [hc₁, heq, clearCount_incUsedBlocks]
          omega
        obtain ⟨c', hrun, hout⟩ := ih c₁ hcount₁
          (by rwa [hc₁, maxBlocks_pmmngrAllocBlock]) hclear₁ hn₁
        exact ⟨c', Relation.ReflTransGen.head hstep hrun, hout⟩

/-- Boot and every later run use available frames only exactly when the map, the
memory size and the old bitmap bits satisfy `RegionsOk`. -/
theorem soundFor_iff_regionsOk (memSize : UInt32) (map : ℕ → BitVec 32)
    (mmap : List MultibootMmapEntry) (hdisj : DisjointRegions mmap) :
    SoundFor memSize.toNat map mmap ↔ RegionsOk memSize.toNat map mmap := by
  have hsize : memSize.toNat < 2 ^ 32 := memSize.toNat_lt
  constructor
  · rintro ⟨hfree, hout⟩
    rw [maxBlocks_boot] at hfree
    have hfrees : ∀ e ∈ mmap, ∀ f, e.frees f → 1024 ≤ f →
        used (boot memSize.toNat map mmap) f = false := fun e he f hf hlow =>
      (used_boot_eq_false_iff _ _ _ _).2 ⟨hlow, Or.inl ⟨e, he, hf⟩⟩
    exact
      { head := fun e he hf _ hlow hlt => hfree _ hlt (hfrees e he _ hf hlow)
        high := fun e he _ f hf hlow hlt => hfree f hlt (hfrees e he f hf hlow)
        tail := fun f htail hlt hlow hclear =>
          hfree f hlt ((used_boot_eq_false_iff _ _ _ _).2 ⟨hlow, Or.inr ⟨htail, hclear⟩⟩)
        wrap := by
          intro e he f hf hhigh hlt
          have hlt21 := hf.lt
          obtain ⟨c, hrun, hp⟩ := Client.exists_handing_out
            (t := pmmngrInit memSize.toNat map) (f := f) _
            { pmm := boot memSize.toNat map mmap, outstanding := [] }
            (Counted.boot hsize (by omega) map mmap)
            (by rwa [maxBlocks_boot]) (hfrees e he f hf (by omega)) le_rfl
          have hframe : f * 4096 % 2 ^ 32 / 4096 = f - 2 ^ 20 := by omega
          have havail := (frameAvailable_iff_not_forbidden hdisj _).2 (hout c hrun (by omega))
          rwa [hp, hframe] at havail }
  · intro h
    refine ⟨?_, ?_⟩
    · intro f hlt hfree
      rw [maxBlocks_boot] at hlt
      exact h.free_available hlt hfree
    · intro c hc hp
      exact (frameAvailable_iff_not_forbidden hdisj _).1 ((hc.available h).alloc hp).2

/-- An aligned map below 4 GiB meets the condition: an 8 MiB machine whose upper half
is available. -/
theorem regionsOk_eight_mib :
    RegionsOk 8192 (fun _ => 0) [⟨0x400000, 0x400000, 1⟩] where
  head e he _ hne := by
    rw [List.mem_singleton.1 he] at hne
    exact absurd (by decide) hne
  high e he hhigh := by
    rw [List.mem_singleton.1 he] at hhigh
    exact absurd hhigh (by decide)
  tail f hle hlt := by omega
  wrap e he f _ hhigh hlt := by omega

/-- The equivalence at that machine: its allocator is sound for the map. -/
theorem soundFor_eight_mib : SoundFor 8192 (fun _ => 0) [⟨0x400000, 0x400000, 1⟩] :=
  (soundFor_iff_regionsOk 8192 (fun _ => 0) [⟨0x400000, 0x400000, 1⟩]
    (List.pairwise_singleton _ _)).2 regionsOk_eight_mib

/-- A region that starts in the middle of a page makes boot free the whole page: of
the map with the single available region `[0x400800, 0x401800)`, frame `0x400` is left
free although its first half is not listed. -/
theorem not_soundFor_unaligned :
    DisjointRegions [⟨0x400800, 0x1000, 1⟩] ∧
      ¬ SoundFor 8192 (fun _ => 0) [⟨0x400800, 0x1000, 1⟩] := by
  refine ⟨List.pairwise_singleton _ _, ?_⟩
  rintro ⟨hfree, -⟩
  have hclear : used (boot 8192 (fun _ => 0) [⟨0x400800, 0x1000, 1⟩]) 1024 = false := by
    rw [used_boot_eq_false_iff]
    exact ⟨le_rfl, Or.inl ⟨_, List.mem_singleton.2 rfl, by decide⟩⟩
  obtain ⟨e, he, -, hle, -⟩ := hfree 1024 (by rw [maxBlocks_boot]; decide) hclear 0x400000 rfl
  rw [List.mem_singleton.1 he] at hle
  exact absurd hle (by decide)

end Pmm

end Yotos
