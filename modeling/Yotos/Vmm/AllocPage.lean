import Yotos.Vmm.Directory
import Yotos.Vmm.Space
import Yotos.Pmm.FirstFit

/-!
# What `vmm_alloc_page` reports

`vmm_alloc_page` takes a frame for the page and maps it. `vmm_map_page` returns nothing,
so a page table that cannot be had is not reported, and neither is an address that the
allocator cannot express. The state is any one in which the directory is reachable
through its window; of the allocator nothing is assumed.
-/

namespace Yotos

namespace Pmm

/-- The frame that the next allocation takes. -/
def nextFrame (pmm : Pmm) : Option ℕ :=
  if pmmngrGetFreeBlockCount pmm = 0 then none else mmapFirstFree pmm

/-- The manager once frame `f` is taken. -/
def taken (pmm : Pmm) (f : ℕ) : Pmm := incUsedBlocks (mmapSet pmm f)

theorem alloc_of_nextFrame_none {pmm : Pmm} (h : nextFrame pmm = none) :
    pmmngrAllocBlock pmm = (0, pmm) := by
  rw [nextFrame] at h
  rw [pmmngrAllocBlock]
  by_cases hcount : pmmngrGetFreeBlockCount pmm = 0
  · simp [hcount]
  · rw [if_neg hcount] at h
    simp [hcount, h]

theorem alloc_of_nextFrame {pmm : Pmm} {f : ℕ} (h : nextFrame pmm = some f) :
    pmmngrAllocBlock pmm = (f % 2 ^ 20 * 4096, taken pmm f) ∧ used pmm f = false := by
  rw [nextFrame] at h
  by_cases hcount : pmmngrGetFreeBlockCount pmm = 0
  · simp [hcount] at h
  · rw [if_neg hcount] at h
    have haddr : f * 4096 % 2 ^ 32 = f % 2 ^ 20 * 4096 := by omega
    refine ⟨?_, (mmapFirstFree_some h).2.1⟩
    simp only [pmmngrAllocBlock, hcount, h, pmmngrBlockSize, if_false, haddr]
    rfl

@[simp] theorem used_taken (pmm : Pmm) (f g : ℕ) :
    used (taken pmm f) g = (decide (g = f) || used pmm g) := by
  simp [taken]

end Pmm

namespace Vmm

open Bytes
open Pmm (used pmmngrAllocBlock nextFrame taken freeFrames)

/-- The walk of `virt` ends in frame `f`, and the entries have the given flags. -/
structure TranslatesTo (s : Vmm) (virt f flags : ℕ) : Prop where
  frame : mmu s.memory s.cr3 virt = some (f * pageSize + pageOffset virt)
  bits : pteAt s virt % pageSize = flags % pageSize ||| pagePresent
  user : entryHasFlag flags pageUser = true → entryHasFlag (pdeAt s virt) pageUser = true

/-- `virt` translates, with the given flags, to a frame that was free in `s`. -/
def Established (s s' : Vmm) (virt flags : ℕ) : Prop :=
  ∃ f ∈ freeFrames s.pmm, TranslatesTo s' virt f flags

/-- The call reports the mapping: it returns the address exactly when the mapping is
there afterwards, and otherwise `NULL`, with the same frames used as before. -/
def Reports (s : Vmm) (virt flags : ℕ) : Prop :=
  ∃ ret s', vmmAllocPage virt flags s = some (ret, s') ∧
    (ret ≠ 0 ↔ Established s s' virt flags) ∧
    (¬ Established s s' virt flags → ret = 0 ∧ ∀ g, used s'.pmm g = used s.pmm g)

/-- The frame that the allocator would hand out, if any, has an address other than
`NULL`, stays a free frame under the flags, and leaves one for the page table if there
is none yet: one whose address is neither `NULL` nor the directory's. -/
def FramesSuffice (s : Vmm) (virt flags : ℕ) : Prop :=
  ∀ f, nextFrame s.pmm = some f →
    f % 2 ^ 20 ≠ 0 ∧ (f % 2 ^ 20 ||| flags / pageSize) ∈ freeFrames s.pmm ∧
      (entryHasFlag (pdeAt s virt) pagePresent = true ∨
        ∃ t, nextFrame (taken s.pmm f) = some t ∧ t % 2 ^ 20 ≠ 0 ∧
          t % 2 ^ 20 * pageSize ≠ s.cr3)

section Entries

variable {s s' : Vmm} {d f g v flags : ℕ}

theorem pageEntry_or (hf : f < 2 ^ 20) (flags : ℕ) :
    pageEntry (f * 4096) flags = f * 4096 ||| flags ||| 1 := by
  rw [pageEntry, pagePresent, entryGetFrame_eq (by omega), frameOf,
    Nat.mul_div_cancel _ (by decide)]

/-- Flags beyond the low 12 bits end up in the frame number. -/
theorem frameOf_pageEntry (hf : f < 2 ^ 20) (flags : ℕ) :
    frameOf (pageEntry (f * 4096) flags) = f ||| flags / 4096 := by
  rw [pageEntry_or hf, frameOf, show (4096 : ℕ) = 2 ^ 12 from rfl]
  simp only [← Nat.shiftRight_eq_div_pow, Nat.shiftRight_or_distrib]
  rw [Nat.shiftRight_eq_div_pow (f * 2 ^ 12), Nat.mul_div_cancel _ (by decide)]
  simp

theorem pageEntry_mod (hf : f < 2 ^ 20) (flags : ℕ) :
    pageEntry (f * 4096) flags % 4096 = flags % 4096 ||| 1 := by
  rw [pageEntry_or hf, show (4096 : ℕ) = 2 ^ 12 from rfl, Nat.or_mod_two_pow,
    Nat.or_mod_two_pow, Nat.mul_mod_left, Nat.zero_or]

theorem Windowed.pdeAt_eq (h : Windowed s d) (v : ℕ) :
    pdeAt s v = word s.memory d (v / 4096 / 1024) := by
  rw [pdeAt, h.cr3, pdIndex_eq]
  rfl

theorem Windowed.pteAt_eq (h : Windowed s d) (v : ℕ) : pteAt s v =
    word s.memory (frameOf (word s.memory d (v / 4096 / 1024))) (v / 4096 % 1024) := by
  rw [pteAt, h.pdeAt_eq, entryGetFrame_eq (word_lt _ _ _), ptIndex_eq]
  rfl

/-- An entry that was written leads to one frame, with the flags of the call. -/
theorem Entered.established_iff (h : Entered s s' d v (g * 4096) flags) (hg : g < 2 ^ 20)
    (huser : entryHasFlag flags pageUser = true →
      entryHasFlag (word s'.memory d (v / 4096 / 1024)) pageUser = true) (t : Vmm) :
    Established t s' v flags ↔ (g ||| flags / 4096) ∈ freeFrames t.pmm := by
  have hpresent : Present (pageEntry (g * 4096) flags) := by
    rw [present_iff, pageEntry_or hg]
    exact testBit_zero_or_one _
  have hlookup : lookup s'.memory d (v / 4096) = some (pageEntry (g * 4096) flags) := by
    rw [lookup_eq_some]
    exact ⟨h.present, h.entry.symm ▸ hpresent, h.entry⟩
  have hmmu : mmu s'.memory s'.cr3 v =
      some ((g ||| flags / 4096) * pageSize + pageOffset v) := by
    rw [h.windowed.cr3, mmu_eq, hlookup, Option.map_some, frameOf_pageEntry hg, pageOffset_eq,
      pageSize]
  constructor
  · rintro ⟨f, hf, htrans⟩
    have heq := Option.some.inj (hmmu.symm.trans htrans.frame)
    rw [pageSize] at heq
    rwa [show (g ||| flags / 4096) = f by omega]
  · intro hfree
    refine ⟨_, hfree, hmmu, ?_, ?_⟩
    · rw [h.windowed.pteAt_eq, h.entry, pageSize, pageEntry_mod hg, pagePresent]
    · rwa [h.windowed.pdeAt_eq]

theorem not_established_of_unmapped (t : Vmm) (h : mmu s'.memory s'.cr3 v = none) :
    ¬ Established t s' v flags := by
  rintro ⟨f, -, htrans⟩
  have hframe := htrans.frame
  rw [h] at hframe
  exact absurd hframe (by simp)

end Entries

/-! ### The calls -/

section Calls

variable {s s' : Vmm} {d f g v flags : ℕ}

/-- A call that returns the address reports exactly when the mapping is there. -/
theorem reports_iff_of_mapped (hcall : vmmAllocPage v flags s = some (v, s')) (hv : v ≠ 0) :
    Reports s v flags ↔ Established s s' v flags := by
  constructor
  · rintro ⟨ret, t, hret, hiff, -⟩
    obtain ⟨rfl, rfl⟩ := Prod.mk.inj (Option.some.inj (hcall.symm.trans hret))
    exact hiff.1 hv
  · intro h
    exact ⟨v, s', hcall, by simp [hv, h], fun hno => absurd h hno⟩

/-- A call that returns `NULL` with nothing mapped reports exactly when it took no
frame. -/
theorem reports_iff_of_null (hcall : vmmAllocPage v flags s = some (0, s'))
    (hnone : mmu s'.memory s'.cr3 v = none) :
    Reports s v flags ↔ ∀ g, used s'.pmm g = used s.pmm g := by
  have hno : ¬ Established s s' v flags := not_established_of_unmapped s hnone
  constructor
  · rintro ⟨ret, t, hret, -, hclean⟩
    obtain ⟨rfl, rfl⟩ := Prod.mk.inj (Option.some.inj (hcall.symm.trans hret))
    exact (hclean hno).2
  · intro h
    exact ⟨0, s', hcall, by simp [hno], fun _ => ⟨rfl, h⟩⟩

theorem vmmAllocPage_of_none (h : nextFrame s.pmm = none) :
    vmmAllocPage v flags s = some (0, s) := by
  rw [vmmAllocPage, Pmm.alloc_of_nextFrame_none h]
  rfl

theorem vmmAllocPage_of_zero (h : nextFrame s.pmm = some f) (h0 : f % 2 ^ 20 = 0) :
    vmmAllocPage v flags s = some (0, { s with pmm := taken s.pmm f }) := by
  rw [vmmAllocPage, (Pmm.alloc_of_nextFrame h).1, h0]
  rfl

theorem vmmAllocPage_of_some (h : nextFrame s.pmm = some f) (h0 : f % 2 ^ 20 ≠ 0) :
    vmmAllocPage v flags s = (vmmMapPage v (f % 2 ^ 20 * 4096) flags
      { s with pmm := taken s.pmm f }).map fun t => (v, t) := by
  have hne : f % 2 ^ 20 * 4096 ≠ 0 := by omega
  rw [vmmAllocPage, (Pmm.alloc_of_nextFrame h).1]
  simp only [hne, if_false, Option.bind_eq_bind]
  cases vmmMapPage v (f % 2 ^ 20 * 4096) flags { s with pmm := taken s.pmm f } <;> rfl

/-- The table is there and has the user bit if the flags ask for it. -/
structure TableFor (s s' : Vmm) (d i flags : ℕ) : Prop extends TableThere s s' d i where
  user : entryHasFlag flags pageUser = true →
    entryHasFlag (word s'.memory d i) pageUser = true

theorem Windowed.ensureTable_present {i : ℕ} (h : Windowed s d) (flags : ℕ) (hi : i < 1023)
    (hp : Present (word s.memory d i)) :
    ∃ s', ensureTable i flags s = some (true, s') ∧ TableFor s s' d i flags := by
  refine ⟨_, ensureTable_of_present _ h.cr3 h.recursive (by omega) hp, ?_⟩
  split_ifs with hu
  · obtain ⟨hlt, hpresent, hframe, huser⟩ := or_pageUser (word_lt s.memory d i)
    have hword : word (store32 s.memory (d * 4096 + 4 * i) (word s.memory d i ||| pageUser)) d i =
        word s.memory d i ||| pageUser := by
      rw [word_store32 _ (by omega) (by omega) hlt, if_pos ⟨rfl, rfl⟩]
    refine ⟨⟨h.storeEntry hi hlt (hframe ▸ h.table_ne i hi hp), ?_, Or.inl rfl⟩, fun _ => ?_⟩
    · rw [hword]
      exact hpresent.2 hp
    · rw [hword]
      exact huser
  · exact ⟨⟨h, hp, Or.inl rfl⟩, fun hu' => absurd hu' hu⟩

theorem Windowed.ensureTable_new {i t : ℕ} (h : Windowed s d) (flags : ℕ) (hi : i < 1023)
    (hp : ¬ Present (word s.memory d i)) (ht : nextFrame s.pmm = some t)
    (h0 : t % 2 ^ 20 ≠ 0) (hd : t % 2 ^ 20 ≠ d) :
    ∃ s', ensureTable i flags s = some (true, s') ∧ TableFor s s' d i flags := by
  obtain ⟨halloc, -⟩ := Pmm.alloc_of_nextFrame ht
  have haddr : (pmmngrAllocBlock s.pmm).1 = t % 2 ^ 20 * 4096 := by rw [halloc]
  have hne : (pmmngrAllocBlock s.pmm).1 ≠ 0 := by omega
  have htlt : t % 2 ^ 20 < 2 ^ 20 := Nat.mod_lt _ (by decide)
  have helt := frame_add_lt htlt (newEntry_lt flags)
  have hframe := frameOf_add (t % 2 ^ 20) (newEntry_lt flags)
  refine ⟨_, ensureTable_of_new_table _ h.cr3 h.recursive hi hp hne haddr htlt hd, ?_⟩
  have hword : word (fill (store32 s.memory (d * 4096 + 4 * i)
      (t % 2 ^ 20 * 4096 + (3 ||| (flags &&& pageUser)))) (t % 2 ^ 20 * 4096) 0 4096) d i =
      t % 2 ^ 20 * 4096 + (3 ||| (flags &&& pageUser)) := by
    rw [word_fill _ (by omega), if_neg (Ne.symm hd), word_store32 _ (by omega) (by omega) helt,
      if_pos ⟨rfl, rfl⟩]
  refine ⟨⟨?_, ?_, Or.inr ⟨hne, rfl⟩⟩, fun hu => ?_⟩
  · exact (h.alloc.storeEntry hi helt (by rwa [hframe])).fillTable (x := 0) hd le_rfl
  · rw [hword]
    exact present_newEntry _ flags
  · rw [entryHasFlag_user] at hu
    rw [hword, entryHasFlag_user, testBit_add _ (newEntry_lt flags) (by decide), Nat.testBit_or,
      Nat.testBit_and, hu]
    rfl

/-- A new table in the frame of the directory ends in a page fault. -/
theorem Windowed.ensureTable_directory {i t : ℕ} (h : Windowed s d) (flags : ℕ) (hi : i < 1023)
    (hp : ¬ Present (word s.memory d i)) (ht : nextFrame s.pmm = some t)
    (h0 : t % 2 ^ 20 ≠ 0) (hd : t % 2 ^ 20 = d) : ensureTable i flags s = none := by
  have haddr : (pmmngrAllocBlock s.pmm).1 = d * 4096 := by
    rw [(Pmm.alloc_of_nextFrame ht).1, hd]
  rw [ensureTable_of_new h.cr3 h.recursive (by omega) hp (by omega) haddr, h.clearDirectory hi]
  rfl

/-- Without a frame for the table the page stays absent, and the address is returned all
the same. -/
theorem Windowed.not_reports_of_noTable (h : Windowed s d) (hf : nextFrame s.pmm = some f)
    (h0 : f % 2 ^ 20 ≠ 0) (hv : v ≠ 0) (hwin : v / 4096 < windowPage)
    (hnone : mmu s.memory s.cr3 v = none) (hp : ¬ Present (word s.memory d (v / 4096 / 1024)))
    (hnull : (pmmngrAllocBlock (taken s.pmm f)).1 = 0) : ¬ Reports s v flags := by
  have htaken : Windowed { s with pmm := taken s.pmm f } d :=
    h.withPmm (Pmm.usedBlocks_incUsedBlocks_lt _)
  have hi := div_lt_of_lt_windowPage hwin
  have hensure : ensureTable (v / 4096 / 1024) flags { s with pmm := taken s.pmm f } =
      some (false, { s with pmm := (pmmngrAllocBlock (taken s.pmm f)).2 }) :=
    ensureTable_of_null htaken.cr3 htaken.recursive (by omega) hp hnull
  have hcall : Vmm.vmmAllocPage v flags s =
      some (v, { s with pmm := (pmmngrAllocBlock (taken s.pmm f)).2 }) := by
    rw [vmmAllocPage_of_some hf h0, vmmMapPage_of_noTable hensure]
    rfl
  rw [reports_iff_of_mapped hcall hv]
  exact not_established_of_unmapped s hnone

/-- With a table the page is mapped, and what counts is the frame that the entry names. -/
theorem reports_iff_of_table (hf : nextFrame s.pmm = some f) (h0 : f % 2 ^ 20 ≠ 0)
    (hv : v ≠ 0) (hwin : v / 4096 < windowPage) (hflags : flags < 2 ^ 32) {s₁ : Vmm}
    (hensure : ensureTable (v / 4096 / 1024) flags { s with pmm := taken s.pmm f } =
      some (true, s₁))
    (htable : TableFor { s with pmm := taken s.pmm f } s₁ d (v / 4096 / 1024) flags) :
    Reports s v flags ↔ (f % 2 ^ 20 ||| flags / 4096) ∈ freeFrames s.pmm := by
  have hg : f % 2 ^ 20 < 2 ^ 20 := Nat.mod_lt _ (by decide)
  obtain ⟨s', hs', hentered, hdir, -⟩ :=
    htable.toTableThere.vmmMapPage hensure hwin (show f % 2 ^ 20 * 4096 < 2 ^ 32 by omega) hflags
  have hcall : vmmAllocPage v flags s = some (v, s') := by
    rw [vmmAllocPage_of_some hf h0, hs']
    rfl
  rw [reports_iff_of_mapped hcall hv]
  exact hentered.established_iff hg (by rw [hdir]; exact htable.user) s

end Calls

theorem framesSuffice_of_some {s : Vmm} {f virt flags : ℕ} (hf : nextFrame s.pmm = some f) :
    FramesSuffice s virt flags ↔
      f % 2 ^ 20 ≠ 0 ∧ (f % 2 ^ 20 ||| flags / pageSize) ∈ freeFrames s.pmm ∧
        (entryHasFlag (pdeAt s virt) pagePresent = true ∨
          ∃ t, nextFrame (taken s.pmm f) = some t ∧ t % 2 ^ 20 ≠ 0 ∧
            t % 2 ^ 20 * pageSize ≠ s.cr3) := by
  constructor
  · intro h
    exact h f hf
  · intro h g hg
    obtain rfl := Option.some.inj (hf.symm.trans hg)
    exact h

/-- For every state with the directory behind its window, every page below the window
that is not mapped and all flags, the call reports the mapping exactly when the frames
suffice. -/
theorem reports_iff_framesSuffice {s : Vmm} {d virt flags : ℕ} (h : Windowed s d)
    (hlow : 0x1000 ≤ virt) (hhigh : virt < 0xFFC00000) (hflags : flags < 2 ^ 32)
    (hnone : mmu s.memory s.cr3 virt = none) :
    Reports s virt flags ↔ FramesSuffice s virt flags := by
  have hwin : virt / 4096 < windowPage := by
    unfold windowPage
    omega
  have hi := div_lt_of_lt_windowPage hwin
  have hv : virt ≠ 0 := by omega
  cases hf : nextFrame s.pmm with
  | none =>
      rw [reports_iff_of_null (vmmAllocPage_of_none hf) hnone]
      simp [FramesSuffice, hf]
  | some f =>
      have htaken : Windowed { s with pmm := taken s.pmm f } d :=
        h.withPmm (Pmm.usedBlocks_incUsedBlocks_lt _)
      rw [framesSuffice_of_some hf, h.pdeAt_eq, h.cr3]
      by_cases h0 : f % 2 ^ 20 = 0
      · -- the address is `NULL`, and the frame is taken
        rw [reports_iff_of_null (vmmAllocPage_of_zero hf h0) hnone]
        refine iff_of_false (fun hsame => ?_) fun hc => hc.1 h0
        have hself := hsame f
        simp [(Pmm.alloc_of_nextFrame hf).2] at hself
      by_cases hp : Present (word s.memory d (virt / 4096 / 1024))
      · obtain ⟨s₁, hensure, htable⟩ := htaken.ensureTable_present flags hi hp
        rw [reports_iff_of_table hf h0 hv hwin hflags hensure htable]
        exact ⟨fun hfree => ⟨h0, hfree, Or.inl hp⟩, fun hc => hc.2.1⟩
      cases ht : nextFrame (taken s.pmm f) with
      | none =>
          have hnull := congrArg Prod.fst (Pmm.alloc_of_nextFrame_none ht)
          refine iff_of_false (h.not_reports_of_noTable hf h0 hv hwin hnone hp hnull) ?_
          rintro ⟨-, -, hc | ⟨t, hc, -⟩⟩
          · exact hp hc
          · exact absurd hc (by simp)
      | some t =>
          obtain ⟨halloc, -⟩ := Pmm.alloc_of_nextFrame ht
          by_cases ht0 : t % 2 ^ 20 = 0
          · have hnull : (pmmngrAllocBlock (taken s.pmm f)).1 = 0 := by rw [halloc, ht0]
            refine iff_of_false (h.not_reports_of_noTable hf h0 hv hwin hnone hp hnull) ?_
            rintro ⟨-, -, hc | ⟨u, hc, hu, -⟩⟩
            · exact hp hc
            · exact hu (Option.some.inj hc ▸ ht0)
          by_cases htd : t % 2 ^ 20 = d
          · -- the call ends in a page fault
            have hensure := htaken.ensureTable_directory flags hi hp ht ht0 htd
            have hcall : vmmAllocPage virt flags s = none := by
              rw [vmmAllocPage_of_some hf h0, vmmMapPage, pdIndex_eq, hensure]
              rfl
            refine iff_of_false ?_ ?_
            · rintro ⟨ret, s', hret, -⟩
              rw [hcall] at hret
              exact absurd hret (by simp)
            · rintro ⟨-, -, hc | ⟨u, hc, -, hu⟩⟩
              · exact hp hc
              · exact hu (by rw [← Option.some.inj hc, htd, pageSize])
          · obtain ⟨s₁, hensure, htable⟩ := htaken.ensureTable_new flags hi hp ht ht0 htd
            rw [reports_iff_of_table hf h0 hv hwin hflags hensure htable]
            have hne : t % 2 ^ 20 * pageSize ≠ d * 4096 := by
              rw [pageSize]
              omega
            exact ⟨fun hfree => ⟨h0, hfree, Or.inr ⟨t, rfl, ht0, hne⟩⟩, fun hc => hc.2.1⟩

/-! ### Ordinary states -/

theorem Paging.windowed {s : Vmm} {d : ℕ} (h : Paging s d) (hcounter : s.pmm.usedBlocks < 2 ^ 32) :
    Windowed s d :=
  ⟨h.cr3, h.recursive, fun _ hi hp => h.table_ne hi hp, hcounter⟩

/-- Below 4 GiB and with page flags only, the call fails to report exactly when the page
table is missing and one frame is left. -/
theorem AddressSpace.framesSuffice_iff {s : Vmm} {d virt flags : ℕ} (h : AddressSpace s d)
    (hflags : flags < 4096) :
    FramesSuffice s virt flags ↔ entryHasFlag (pdeAt s virt) pagePresent = true ∨
      ∀ f, nextFrame s.pmm = some f → nextFrame (taken s.pmm f) ≠ none := by
  have hfree : ∀ pmm : Pmm, (∀ g, used s.pmm g = true → used pmm g = true) →
      pmm.maxBlocks = s.pmm.maxBlocks → ∀ f, nextFrame pmm = some f →
      0 < f ∧ f < 2 ^ 20 ∧ f ≠ d ∧ f < s.pmm.maxBlocks ∧ used pmm f = false := by
    intro pmm hmono hmax f hf
    have hclear := (Pmm.alloc_of_nextFrame hf).2
    have hnot : used s.pmm f ≠ true := fun hu => by simp [hmono f hu] at hclear
    rw [nextFrame] at hf
    have hlt := (Pmm.mmapFirstFree_some (Option.ite_none_left_eq_some.1 hf).2).1
    rw [hmax] at hlt
    refine ⟨?_, ?_, ?_, by omega, hclear⟩
    · by_contra h0
      exact hnot (h.handout.reserved f (by omega))
    · by_contra hbig
      exact hnot (h.low f (by omega) hlt)
    · rintro rfl
      exact hnot h.owned.dir
  have hhigh : flags / pageSize = 0 := Nat.div_eq_of_lt hflags
  constructor
  · intro hs
    rw [or_iff_not_imp_left]
    intro hp f hf hnone
    rcases (hs f hf).2.2 with hp' | ⟨t, ht, -⟩
    · exact hp hp'
    · rw [hnone] at ht
      exact absurd ht (by simp)
  · intro hs f hf
    obtain ⟨hpos, hlt, -, hmax, hclear⟩ := hfree s.pmm (fun _ hu => hu) rfl f hf
    rw [Nat.mod_eq_of_lt hlt, hhigh, Nat.or_zero]
    refine ⟨hpos.ne', ⟨hmax, hclear⟩, ?_⟩
    refine hs.imp_right fun hs => ?_
    obtain ⟨t, ht⟩ := Option.ne_none_iff_exists'.1 (hs f hf)
    obtain ⟨htpos, htlt, htd, -⟩ :=
      hfree (taken s.pmm f) (fun g hu => by simp [hu]) rfl t ht
    have hmod : t % 2 ^ 20 = t := Nat.mod_eq_of_lt htlt
    refine ⟨t, ht, by omega, ?_⟩
    rw [hmod, h.cr3, pageSize]
    omega

/-! ### The last frame -/

/-- A page of a table that is there, with frames left. -/
theorem reports_small : Reports smallVmm 0x500000 7 := by
  refine (reports_iff_framesSuffice (addressSpace_small.toPaging.windowed (by decide))
    (by decide) (by decide) (by decide) (by decide +kernel)).2 ?_
  rw [addressSpace_small.framesSuffice_iff (by decide)]
  left
  decide +kernel

/-- 8 MiB with one free frame. -/
def lastFramePmm : Pmm where
  memorySize := 8192
  usedBlocks := 2047
  maxBlocks := 2048
  memoryMap := fun i => if i = 32 then 0xffffffef#32 else 0xffffffff#32

/-- The small machine with one free frame. -/
def lastFrame : Vmm := { smallVmm with pmm := lastFramePmm }

theorem windowed_lastFrame : Windowed lastFrame 1024 := by
  have h := addressSpace_small.toPaging.windowed (by decide)
  exact h.congr rfl (by decide) fun _ _ => rfl

/-- The address comes back, the last frame is gone, and nothing is mapped. -/
theorem not_reports_lastFrame :
    ¬ ∀ (s : Vmm) (d virt flags : ℕ), Windowed s d → virt % 4096 = 0 → 0x1000 ≤ virt →
      virt < 0xFFC00000 → flags < 2 ^ 32 → mmu s.memory s.cr3 virt = none →
      Reports s virt flags := by
  intro h
  have hf : nextFrame lastFrame.pmm = some 1028 := by decide +kernel
  have hnone : mmu lastFrame.memory lastFrame.cr3 0x10000000 = none := by decide +kernel
  have hp : ¬ Present (word lastFrame.memory 1024 (0x10000000 / 4096 / 1024)) := by
    decide +kernel
  have hnull : (pmmngrAllocBlock (taken lastFrame.pmm 1028)).1 = 0 := by decide +kernel
  have hreports := h lastFrame 1024 0x10000000 7 windowed_lastFrame (by decide) (by decide)
    (by decide) (by decide) hnone
  exact windowed_lastFrame.not_reports_of_noTable hf (by decide) (by decide) (by decide) hnone
    hp hnull hreports

end Vmm

end Yotos
