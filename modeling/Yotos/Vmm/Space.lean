import Yotos.Vmm.Refinement

/-!
# Pages of a program

`vmm_alloc_page` for one page of a program, in a kernel whose frames all have 32-bit
addresses: the page is mapped to a frame that was free, or the frame is taken and the
page table cannot be had, or nothing happens. No other page and no byte of another frame
changes, but for the tables. A store through a mapped page changes that byte only.
-/

namespace Yotos

namespace Vmm

open Bytes
open Pmm (used pmmngrAllocBlock pmmngrFreeBlock)

/-- The tables as `Paging` has them, and no free frame at or above 4 GiB. -/
structure AddressSpace (s : Vmm) (d : ℕ) : Prop extends Paging s d where
  low : ∀ f, 2 ^ 20 ≤ f → f < 32 * (s.pmm.maxBlocks / 32) → used s.pmm f = true

/-- The frame of the directory or of a page table. -/
def TableFrame (s : Vmm) (d g : ℕ) : Prop :=
  g = d ∨ ∃ i < 1023, Present (word s.memory d i) ∧ frameOf (word s.memory d i) = g

/-- No frame can be had any more. -/
def Exhausted (pmm : Pmm) : Prop := pmmngrAllocBlock pmm = (0, pmm)

/-- The flags of a user page. -/
def userFlags : ℕ := pagePresent ||| pageWritable ||| pageUser

/-- The byte that a program sees at `v`. -/
def userByte (s : Vmm) (v : ℕ) : Option UInt8 := (mmu s.memory s.cr3 v).map s.memory

variable {s s' : Vmm} {d p f g v : ℕ}

namespace AddressSpace

theorem tableFrame_used (h : AddressSpace s d) (hg : TableFrame s d g) : used s.pmm g = true := by
  rcases hg with rfl | ⟨i, hi, hp, rfl⟩
  · exact h.owned.dir
  · exact (h.owned.table i hi hp).1

/-- The frame of a page is no table. -/
theorem not_tableFrame (h : AddressSpace s d) {e : ℕ} (hp : p < windowPage)
    (he : lookup s.memory d p = some e) : ¬ TableFrame s d (frameOf e) := by
  obtain ⟨-, hne, htable⟩ := h.owned.mapped p hp e he
  rintro (heq | ⟨i, hi, hpi, heq⟩)
  · exact hne heq
  · exact htable i hi hpi heq

theorem exhausted (h : AddressSpace s d) (h0 : (pmmngrAllocBlock s.pmm).1 = 0) :
    Exhausted s.pmm := by
  rcases Pmm.pmmngrAllocBlock_cases s.pmm with heq | ⟨f, hlt, hclear, -, heq⟩
  · exact heq
  · have hge : 1024 ≤ f := by
      by_contra hlt
      exact absurd ((h.handout.reserved f (by omega)).symm.trans hclear) (by decide)
    have hfit : f < 2 ^ 20 := by
      by_contra hbig
      exact absurd ((h.low f (by omega) hlt).symm.trans hclear) (by decide)
    rw [heq] at h0
    dsimp only at h0
    omega

theorem mmu_eq (h : AddressSpace s d) (v : ℕ) : mmu s.memory s.cr3 v =
    (lookup s.memory d (v / 4096)).map fun e => frameOf e * 4096 + v % 4096 :=
  h.toPaging.mmu_eq v

theorem userByte_eq (h : AddressSpace s d) (v : ℕ) : userByte s v =
    (lookup s.memory d (v / 4096)).map fun e => s.memory (frameOf e * 4096 + v % 4096) := by
  rw [userByte, h.mmu_eq, Option.map_map]
  rfl

/-! ### Memory that differs outside the tables -/

/-- The tables are read from their own frames only. -/
theorem withMemory (h : AddressSpace s d) {m : Bytes} (hm : ∀ g x, x < 4096 → TableFrame s d g →
      m (g * 4096 + x) = s.memory (g * 4096 + x)) :
    AddressSpace { s with memory := m } d ∧ (∀ i < 1024, word m d i = word s.memory d i) ∧
      ∀ p < windowPage, lookup m d p = lookup s.memory d p := by
  have hword : ∀ g i, i < 1024 → TableFrame s d g → word m g i = word s.memory g i := by
    intro g i hi hg
    rw [word, word]
    refine load32_congr fun x hx hx' => ?_
    obtain ⟨y, hy⟩ : ∃ y, x = g * 4096 + y := ⟨x - g * 4096, by omega⟩
    rw [hy]
    exact hm g y (by omega) hg
  have hdir : ∀ i < 1024, word m d i = word s.memory d i := fun i hi => hword d i hi (Or.inl rfl)
  have hlookup : ∀ p < windowPage, lookup m d p = lookup s.memory d p := by
    intro p hp
    have hpd := div_lt_of_lt_windowPage hp
    refine lookup_congr (by rw [hdir _ (by omega)]) fun hpp => ?_
    rw [hdir _ (by omega)]
    exact hword _ _ (by omega) (Or.inr ⟨_, hpd, hpp, rfl⟩)
  refine ⟨⟨⟨h.cr3, ?_, h.owned.congr (fun i hi => ?_) hlookup, h.handout⟩, h.low⟩, hdir, hlookup⟩
  · exact (hdir 1023 (by decide)).trans h.recursive
  · dsimp only
    rw [hdir i (by omega)]
    exact ⟨Iff.rfl, rfl⟩

/-- A store through a mapped page. -/
theorem store8 (h : AddressSpace s d) {e : ℕ} (hv : v / 4096 < windowPage)
    (he : lookup s.memory d (v / 4096) = some e) (x : UInt8) :
    mmu s.memory s.cr3 v = some (frameOf e * 4096 + v % 4096) ∧
      AddressSpace { s with memory := store8 s.memory (frameOf e * 4096 + v % 4096) x } d ∧
      (∀ i < 1024, word (Bytes.store8 s.memory (frameOf e * 4096 + v % 4096) x) d i =
        word s.memory d i) ∧
      ∀ p < windowPage, lookup (Bytes.store8 s.memory (frameOf e * 4096 + v % 4096) x) d p =
        lookup s.memory d p := by
  refine ⟨by rw [h.mmu_eq, he, Option.map_some], h.withMemory fun g y hy hg => ?_⟩
  refine store8_of_ne _ _ fun heq => h.not_tableFrame hv he ?_
  obtain rfl : g = frameOf e := by omega
  exact hg

end AddressSpace

/-! ### `vmm_alloc_page` -/

/-- Page `p` is mapped to frame `f`, which was free. -/
structure PageAdded (s s' : Vmm) (d p f : ℕ) : Prop where
  space : AddressSpace s' d
  free : used s.pmm f = false
  lt : f < 2 ^ 20
  entry : lookup s'.memory d p = some (pageEntry (f * 4096) userFlags)
  others : ∀ q < windowPage, q ≠ p → lookup s'.memory d q = lookup s.memory d q
  usedIff : ∀ g, used s'.pmm g = true ↔ used s.pmm g = true ∨ g = f ∨ TableFrame s' d g
  tables : ∀ g, TableFrame s d g → TableFrame s' d g
  newTable : ∀ g, TableFrame s' d g → TableFrame s d g ∨ used s.pmm g = false
  bytes : ∀ g x, x < 4096 → ¬ TableFrame s' d g →
    s'.memory (g * 4096 + x) = s.memory (g * 4096 + x)
  pmm : s'.pmm = (pmmngrAllocBlock s.pmm).2 ∨
    s'.pmm = (pmmngrAllocBlock (pmmngrAllocBlock s.pmm).2).2

/-- Frame `f` is taken, but there is none for the page table, and none at all any more. -/
structure FrameLost (s s' : Vmm) (d p f : ℕ) : Prop where
  space : AddressSpace s' d
  free : used s.pmm f = false
  lt : f < 2 ^ 20
  noTable : ¬ Present (word s.memory d (p / 1024))
  memory : s'.memory = s.memory
  usedIff : ∀ g, used s'.pmm g = true ↔ used s.pmm g = true ∨ g = f
  pmm : s'.pmm = (pmmngrAllocBlock s.pmm).2
  exhausted : Exhausted s'.pmm

theorem frameOf_userEntry (hf : f < 2 ^ 20) : frameOf (pageEntry (f * 4096) userFlags) = f := by
  rw [pageEntry_eq hf (by decide), frameOf_add _ (by decide)]

theorem FrameLost.absent (h : FrameLost s s' d p f) : lookup s.memory d p = none := by
  rw [lookup, if_neg h.noTable]

namespace AddressSpace

/-- The allocator may have handed frames out, none of them above 4 GiB. -/
theorem withPmm (h : AddressSpace s d) {pmm : Pmm} (hpmm : Handout pmm)
    (hmax : pmm.maxBlocks = s.pmm.maxBlocks)
    (hused : ∀ g, used s.pmm g = true → used pmm g = true) :
    AddressSpace { s with pmm := pmm } d :=
  ⟨⟨h.cr3, h.recursive, h.owned.mono hused, hpmm⟩, fun f hf hlt => hused f (h.low f hf (by
    dsimp only at hlt
    rwa [hmax] at hlt))⟩

/-- Without a frame for the page table nothing is mapped. -/
theorem vmmMapPage_of_exhausted (h : AddressSpace s d) (hv : v / 4096 < windowPage)
    (hp : ¬ Present (word s.memory d (v / 4096 / 1024))) (hex : Exhausted s.pmm) (phys flags : ℕ) :
    vmmMapPage v phys flags s = some s := by
  have hi := div_lt_of_lt_windowPage hv
  have hnull : pmmngrAllocBlock s.pmm = (0, s.pmm) := hex
  refine vmmMapPage_of_noTable ?_
  rw [ensureTable_of_null h.cr3 h.recursive (by omega) hp (by rw [hnull]), hnull]

theorem alloc (h : AddressSpace s d) (hlow : 0x1000 ≤ v) (hhigh : v < 0xFFC00000) :
    (Exhausted s.pmm ∧ vmmAllocPage v userFlags s = some (0, s)) ∨
      (∃ f s', vmmAllocPage v userFlags s = some (v, s') ∧ FrameLost s s' d (v / 4096) f) ∨
      ∃ f s', vmmAllocPage v userFlags s = some (v, s') ∧ PageAdded s s' d (v / 4096) f := by
  have hwin : v / 4096 < windowPage := by
    unfold windowPage
    omega
  by_cases h0 : (pmmngrAllocBlock s.pmm).1 = 0
  · have hex := h.exhausted h0
    refine Or.inl ⟨hex, ?_⟩
    rw [vmmAllocPage, show pmmngrAllocBlock s.pmm = (0, s.pmm) from hex]
    rfl
  right
  obtain ⟨f, hf, hlt, hfree, heq, hused, hpmm⟩ := h.handout.alloc h0
  have hmono : ∀ g, used s.pmm g = true → used (pmmngrAllocBlock s.pmm).2 g = true := by
    intro g hg
    rw [hused, hg, Bool.or_true]
  have htaken : AddressSpace { s with pmm := (pmmngrAllocBlock s.pmm).2 } d :=
    h.withPmm hpmm (Pmm.maxBlocks_pmmngrAllocBlock _) hmono
  have hfresh : Fresh (used (pmmngrAllocBlock s.pmm).2) d (word s.memory d)
      (lookup s.memory d) f := h.owned.fresh hfree (by rw [hused]; simp)
  have hne : f * 4096 ≠ 0 := by omega
  have hcall : ∀ s', vmmMapPage v (f * 4096) userFlags
      { s with pmm := (pmmngrAllocBlock s.pmm).2 } = some s' →
      vmmAllocPage v userFlags s = some (v, s') := by
    intro s' hs'
    simp only [vmmAllocPage, heq, hne, if_false, Option.bind_eq_bind, hs', Option.bind_some]
    rfl
  by_cases hav : TableAvailable { s with pmm := (pmmngrAllocBlock s.pmm).2 } d (v / 4096 / 1024)
  · right
    obtain ⟨s', hs', hmapped⟩ := htaken.toPaging.vmmMapPage hwin hfresh hlt
      (show userFlags < 4096 by decide) hav
    have hchange := hmapped.change
    refine ⟨f, s', hcall s' hs', ⟨hmapped.paging, fun g hg hglt => ?_⟩, hfree, hlt,
      hmapped.entry, hmapped.others, fun g => ?_, fun g hg => ?_, fun g hg => ?_,
      fun g x hx hg => ?_, hchange.pmm⟩
    · rw [hchange.maxBlocks, Pmm.maxBlocks_pmmngrAllocBlock] at hglt
      exact (hchange.usedIff g).2 (Or.inl (hmono g (h.low g hg hglt)))
    · rw [hchange.usedIff, hused, Bool.or_eq_true, decide_eq_true_eq]
      constructor
      · rintro ((rfl | hg) | ⟨-, rfl⟩)
        · exact Or.inr (Or.inl rfl)
        · exact Or.inl hg
        · exact Or.inr (Or.inr (Or.inr ⟨_, div_lt_of_lt_windowPage hwin, hchange.present, rfl⟩))
      · rintro (hg | rfl | htab)
        · exact Or.inl (Or.inr hg)
        · exact Or.inl (Or.inl rfl)
        · rcases htab with rfl | ⟨i, hi, hpi, rfl⟩
          · exact Or.inl (Or.inr h.owned.dir)
          · by_cases hold : i ≠ v / 4096 / 1024 ∨ Present (word s.memory d (v / 4096 / 1024))
            · obtain ⟨hiff, hframe⟩ := hchange.tables i hi hold
              rw [hframe]
              exact Or.inl (Or.inr (h.owned.table i hi (hiff.1 hpi)).1)
            · simp only [not_or, not_not] at hold
              refine Or.inr ⟨hold.2, ?_⟩
              rw [hold.1]
    · rcases hg with rfl | ⟨i, hi, hpi, rfl⟩
      · exact Or.inl rfl
      · have hold : i ≠ v / 4096 / 1024 ∨ Present (word s.memory d (v / 4096 / 1024)) := by
          by_cases hii : i = v / 4096 / 1024
          · exact Or.inr (hii ▸ hpi)
          · exact Or.inl hii
        obtain ⟨hiff, hframe⟩ := hchange.tables i hi hold
        exact Or.inr ⟨i, hi, hiff.2 hpi, hframe⟩
    · rcases hg with rfl | ⟨i, hi, hpi, rfl⟩
      · exact Or.inl (Or.inl rfl)
      · by_cases hold : i ≠ v / 4096 / 1024 ∨ Present (word s.memory d (v / 4096 / 1024))
        · obtain ⟨hiff, hframe⟩ := hchange.tables i hi hold
          exact Or.inl (Or.inr ⟨i, hi, hiff.1 hpi, hframe.symm⟩)
        · simp only [not_or, not_not] at hold
          right
          have hnew := hchange.free hold.2
          rw [hused, Bool.or_eq_false_iff] at hnew
          rw [hold.1]
          exact hnew.2
    · refine hchange.bytes g x hx (fun hd => hg (Or.inl hd)) fun ht => hg (Or.inr ?_)
      exact ⟨_, div_lt_of_lt_windowPage hwin, hchange.present, ht.symm⟩
  · left
    unfold TableAvailable at hav
    obtain ⟨habsent, h0'⟩ := Classical.not_imp.1 hav
    rw [not_not] at h0'
    have hex := htaken.exhausted h0'
    refine ⟨f, _, hcall _ (htaken.vmmMapPage_of_exhausted hwin habsent hex _ _), htaken, hfree, hlt,
      habsent, rfl, fun g => ?_, rfl, hex⟩
    · dsimp only
      rw [hused, Bool.or_eq_true, decide_eq_true_eq, or_comm]

theorem of_vmmAllocPage (h : AddressSpace s d) (hlow : 0x1000 ≤ v) (hhigh : v < 0xFFC00000)
    {r : ℕ} (hcall : vmmAllocPage v userFlags s = some (r, s')) : AddressSpace s' d := by
  rcases h.alloc hlow hhigh with ⟨-, heq⟩ | ⟨f, t, heq, hlost⟩ | ⟨f, t, heq, hadded⟩
  · obtain ⟨-, rfl⟩ := Prod.mk.inj (Option.some.inj (hcall.symm.trans heq))
    exact h
  · obtain ⟨-, rfl⟩ := Prod.mk.inj (Option.some.inj (hcall.symm.trans heq))
    exact hlost.space
  · obtain ⟨-, rfl⟩ := Prod.mk.inj (Option.some.inj (hcall.symm.trans heq))
    exact hadded.space

/-! ### `vmm_unmap_page` -/

theorem unmap_none (h : AddressSpace s d) (hhigh : v < 0xFFC00000)
    (hnone : lookup s.memory d (v / 4096) = none) : vmmUnmapPage v s = some s :=
  h.toPaging.vmmUnmapPage_none (by unfold windowPage; omega) hnone

/-- A mapped page gives its frame back, and nothing else changes. -/
theorem unmap (h : AddressSpace s d) {e : ℕ} (hhigh : v < 0xFFC00000)
    (he : lookup s.memory d (v / 4096) = some e) (hframe : 1024 ≤ frameOf e) :
    ∃ s', vmmUnmapPage v s = some s' ∧ AddressSpace s' d ∧
      lookup s'.memory d (v / 4096) = none ∧
      (∀ q < windowPage, q ≠ v / 4096 → lookup s'.memory d q = lookup s.memory d q) ∧
      (∀ g, used s'.pmm g = true ↔ g ≠ frameOf e ∧ used s.pmm g = true) ∧
      ∀ g, TableFrame s' d g ↔ TableFrame s d g := by
  have hwin : v / 4096 < windowPage := by
    unfold windowPage
    omega
  obtain ⟨s', hs', hun⟩ := h.toPaging.vmmUnmapPage hwin he hframe
  have hused : ∀ g, used s'.pmm g = true ↔ g ≠ frameOf e ∧ used s.pmm g = true := by
    intro g
    rw [hun.usedEq e he g, Bool.and_eq_true, Bool.not_eq_true', decide_eq_false_iff_not]
  refine ⟨s', hs', ⟨hun.paging, fun f hf hlt => ?_⟩, hun.entry, hun.others, hused, fun g => ?_⟩
  · rw [hun.maxBlocks] at hlt
    refine (hused f).2 ⟨?_, h.low f hf hlt⟩
    have := frameOf_lt (lookup_lt he)
    omega
  · unfold TableFrame
    refine or_congr Iff.rfl (exists_congr fun i => and_congr_right fun hi => ?_)
    rw [hun.user i hi]

end AddressSpace

/-! ### A small machine -/

/-- The tables of an 8 MiB machine that has run a program before: the identity map, an
empty table for the pages from 4 MiB on, and one for the pages of the user stack. -/
def smallWord (f i : ℕ) : ℕ :=
  if f = 1024 then
    if i = 0 then 1025 * 4096 + 3
    else if i = 1 then 1026 * 4096 + 7
    else if i = 767 then 1027 * 4096 + 7
    else if i = 1023 then 1024 * 4096 + 3
    else 0
  else if f = 1025 then if i = 0 then 0 else i * 4096 + 3
  else 0

/-- Its frames above the tables are free. -/
def smallVmm : Vmm where
  pmm :=
    { memorySize := 8192
      usedBlocks := 1028
      maxBlocks := 2048
      memoryMap := fun i => if i < 32 then 0xffffffff#32 else if i = 32 then 0xf#32 else 0#32 }
  memory := fun a => UInt8.ofNat (smallWord (a / 4096) (a / 4 % 1024) / 256 ^ (a % 4))
  cr3 := 1024 * 4096

theorem word_smallVmm {f i : ℕ} (hi : i < 1024) : word smallVmm.memory f i = smallWord f i := by
  have hlt : smallWord f i < 2 ^ 32 := by
    unfold smallWord
    split_ifs <;> omega
  have hbyte : ∀ x < 4, (smallVmm.memory (f * 4096 + 4 * i + x)).toNat =
      smallWord f i / 256 ^ x % 256 := by
    intro x hx
    rw [smallVmm]
    dsimp only
    rw [show (f * 4096 + 4 * i + x) / 4096 = f by omega,
      show (f * 4096 + 4 * i + x) / 4 % 1024 = i by omega,
      show (f * 4096 + 4 * i + x) % 4 = x by omega, UInt8.toNat_ofNat']
  have h0 := hbyte 0 (by omega)
  have h1 := hbyte 1 (by omega)
  have h2 := hbyte 2 (by omega)
  have h3 := hbyte 3 (by omega)
  rw [word, load32, load16, load16, Nat.add_assoc _ 2 1, ← Nat.add_zero (f * 4096 + 4 * i), h0]
  rw [Nat.add_zero, h1, h2, h3]
  omega

theorem used_smallVmm (f : ℕ) : used smallVmm.pmm f = decide (f < 1028) := by
  have hnibble : ∀ j < 32, (0xf#32).getLsbD j = decide (j < 4) := by decide
  rw [used, Packed.member, smallVmm]
  dsimp only
  split_ifs with hlow hmid
  · rw [Pmm.getLsbD_ones (Nat.mod_lt _ (by decide)), eq_comm, decide_eq_true_eq]
    omega
  · rw [hnibble _ (Nat.mod_lt _ (by decide))]
    exact decide_eq_decide.2 (by omega)
  · rw [BitVec.getLsbD_zero, eq_comm, decide_eq_false_iff_not]
    omega

theorem addressSpace_small : AddressSpace smallVmm 1024 := by
  have hdir : ∀ i < 1023, Present (word smallVmm.memory 1024 i) →
      (i = 0 ∧ frameOf (word smallVmm.memory 1024 i) = 1025) ∨
        (i = 1 ∧ frameOf (word smallVmm.memory 1024 i) = 1026) ∨
        (i = 767 ∧ frameOf (word smallVmm.memory 1024 i) = 1027) := by
    intro i hi hp
    rw [word_smallVmm (by omega), smallWord, if_pos rfl] at hp ⊢
    split_ifs at hp ⊢ with h0 h1 h2 h3
    · exact Or.inl ⟨h0, by decide⟩
    · exact Or.inr (Or.inl ⟨h1, by decide⟩)
    · exact Or.inr (Or.inr ⟨h2, by decide⟩)
    · omega
    · exact absurd hp (by decide)
  have hpage : ∀ p < windowPage, ∀ e, lookup smallVmm.memory 1024 p = some e →
      frameOf e = p ∧ p < 1024 := by
    intro p hp e he
    obtain ⟨hpd, hpresent, rfl⟩ := lookup_eq_some.1 he
    rcases hdir _ (div_lt_of_lt_windowPage hp) hpd with ⟨hi, hf⟩ | ⟨-, hf⟩ | ⟨-, hf⟩
    · rw [hf, word_smallVmm (by omega), smallWord, if_neg (by decide), if_pos rfl] at hpresent ⊢
      split_ifs at hpresent ⊢
      · exact absurd hpresent (by decide)
      · rw [frameOf_add _ (by decide)]
        omega
    · rw [hf, word_smallVmm (by omega), smallWord, if_neg (by decide), if_neg (by decide)]
        at hpresent
      exact absurd hpresent (by decide)
    · rw [hf, word_smallVmm (by omega), smallWord, if_neg (by decide), if_neg (by decide)]
        at hpresent
      exact absurd hpresent (by decide)
  have hused : ∀ f, used smallVmm.pmm f = true ↔ f < 1028 := fun f => by
    rw [used_smallVmm, decide_eq_true_eq]
  refine ⟨⟨rfl, ?_, ⟨?_, fun i hi hp => ?_, fun i hi j hj hp hq heq => ?_, fun p hp e he => ?_,
    fun p hp q hq e e' he he' heq => ?_⟩, fun f hf => ?_, fun f hf hlt => ?_⟩, fun f hf hlt => ?_⟩
  · exact word_smallVmm (by decide)
  · exact (hused _).2 (by decide)
  · rw [hused]
    rcases hdir i hi hp with ⟨-, hf⟩ | ⟨-, hf⟩ | ⟨-, hf⟩ <;> omega
  · rcases hdir i hi hp with ⟨hi, hf⟩ | ⟨hi, hf⟩ | ⟨hi, hf⟩ <;>
      rcases hdir j hj hq with ⟨hj, hf'⟩ | ⟨hj, hf'⟩ | ⟨hj, hf'⟩ <;> omega
  · obtain ⟨hf, hlt⟩ := hpage p hp e he
    refine ⟨(hused _).2 (by omega), by omega, fun i hi hpi => ?_⟩
    rcases hdir i hi hpi with ⟨-, hf'⟩ | ⟨-, hf'⟩ | ⟨-, hf'⟩ <;> omega
  · rw [← (hpage p hp e he).1, ← (hpage q hq e' he').1, heq]
  · exact (hused f).2 (by omega)
  · exact absurd (show f < 2048 from hlt) (by omega)
  · exact absurd (show f < 2048 from hlt) (by omega)

end Vmm

end Yotos
