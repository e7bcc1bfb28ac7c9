import Yotos.Vmm.Refinement

/-!
# A new directory

`vmm_create_directory` takes a frame, maps it at `TEMP_MAP_ADDR`, clears it there and
unmaps the page again. Unmapping a page gives its frame back, so the directory that
the function returns is a free frame, and the lowest one.

`Windowed` is what every call on an address below the recursive window keeps: the
loaded directory, its recursive entry, and no table in the frame of the directory.
Nothing is asked of the allocator, so it holds whatever the calls before have done.
-/

namespace Yotos

namespace Vmm

open Bytes Library
open Pmm (used pmmngrAllocBlock pmmngrFreeBlock)

/-- `TEMP_MAP_ADDR`. -/
def tempMapAddr : ℕ := 0xFFBFF000

/-- `vmm_create_directory`: the physical address, `0` standing for `NULL`. -/
def vmmCreateDirectory (s : Vmm) : Option (ℕ × Vmm) := do
  let (dir, pmm) := Pmm.pmmngrAllocBlock s.pmm
  if dir = 0 then
    return (0, { s with pmm := pmm })
  let s ← vmmMapPage tempMapAddr dir (pagePresent ||| pageWritable) { s with pmm := pmm }
  let s ← memset tempMapAddr 0 pageSize s
  let s ← vmmUnmapPage tempMapAddr s
  return (dir, s)

/-! ### Clearing a page -/

/-- Page `p` is mapped to frame `f` by the table in frame `t`. -/
structure PageAt (m : Bytes) (d p t f : ℕ) : Prop where
  pde : Present (word m d (p / 1024))
  table : frameOf (word m d (p / 1024)) = t
  pte : Present (word m t (p % 1024))
  frame : frameOf (word m t (p % 1024)) = f

section Clearing

variable {s : Vmm} {m : Bytes} {d p t f o n : ℕ} {x : UInt8}

theorem PageAt.lookup (h : PageAt m d p t f) : lookup m d p = some (word m t (p % 1024)) := by
  obtain ⟨hpde, rfl, hpte, -⟩ := h
  exact lookup_eq_some.2 ⟨hpde, hpte, rfl⟩

theorem PageAt.mmu (h : PageAt m d p t f) (ho : o < 4096) :
    mmu m (d * 4096) (p * 4096 + o) = some (f * 4096 + o) := by
  have hpage : (p * 4096 + o) / 4096 = p := by omega
  have hoff : (p * 4096 + o) % 4096 = o := by omega
  rw [mmu_eq, hpage, hoff, h.lookup, Option.map_some, h.frame]

theorem word_store8_of_ne {g l : ℕ} (hg : g ≠ f) (hl : l < 1024) (ho : o < 4096) :
    word (store8 m (f * 4096 + o) x) g l = word m g l :=
  load32_store8_of_apart _ _ (by omega)

theorem PageAt.store8 (h : PageAt m d p t f) (hp : p < 2 ^ 20) (hd : f ≠ d) (ht : f ≠ t)
    (ho : o < 4096) : PageAt (store8 m (f * 4096 + o) x) d p t f := by
  obtain ⟨hpde, htable, hpte, hframe⟩ := h
  have hdir := word_store8_of_ne (m := m) (x := x) (l := p / 1024) (o := o) hd.symm (by omega) ho
  have htab := word_store8_of_ne (m := m) (x := x) (l := p % 1024) (o := o) ht.symm (by omega) ho
  exact ⟨hdir.symm ▸ hpde, hdir.symm ▸ htable, htab.symm ▸ hpte, htab.symm ▸ hframe⟩

/-- Filling through a mapped page, whose frame holds neither the directory nor the
table of the page. -/
theorem memset_page (hcr3 : s.cr3 = d * 4096) (h : PageAt s.memory d p t f) (hp : p < 2 ^ 20)
    (hd : f ≠ d) (ht : f ≠ t) (ho : o + n ≤ 4096) :
    memset (p * 4096 + o) x n s =
      some { s with memory := fill s.memory (f * 4096 + o) x n } := by
  induction n generalizing o s with
  | zero =>
      have hfill : fill s.memory (f * 4096 + o) x 0 = s.memory := by
        funext y
        exact fill_of_apart _ _ (by omega)
      rw [memset, hfill]
  | succ n ih =>
      have hstep := ih (o := o + 1)
        (s := { s with memory := Bytes.store8 s.memory (f * 4096 + o) x }) hcr3
        (h.store8 hp hd ht (by omega)) (by omega)
      rw [memset, hcr3, h.mmu (by omega), Option.bind_some, Nat.add_assoc, ← hcr3, hstep,
        ← Nat.add_assoc, fill_store8]

/-- Clearing the low byte of an entry clears its present bit. -/
theorem not_present_store8 (m : Bytes) (f k : ℕ) :
    ¬ Present (word (store8 m (f * 4096 + 4 * k) 0) f k) := by
  rw [present_iff, Nat.testBit_zero, decide_eq_true_eq, word, load32, load16, store8_self,
    UInt8.toNat_zero]
  omega

/-- Clearing the page of a frame that holds the directory or the table of the page ends
in a page fault: the walk is lost as soon as the entry it goes through is cleared. -/
theorem memset_page_none (hcr3 : s.cr3 = d * 4096) (h : PageAt s.memory d p t f)
    (hp : p < 2 ^ 20) (hself : f = d ∨ f = t) (hod : f = d → o ≤ 4 * (p / 1024))
    (hot : f = t → o ≤ 4 * (p % 1024)) (hn : o + n = 4096) :
    memset (p * 4096 + o) 0 n s = none := by
  induction n generalizing o s with
  | zero =>
      rcases hself with heq | heq
      · have hle := hod heq
        omega
      · have hle := hot heq
        omega
  | succ n ih =>
      rw [memset, hcr3, h.mmu (by omega), Option.bind_some, Nat.add_assoc, ← hcr3]
      obtain ⟨hpde, htable, hpte, hframe⟩ := h
      have hroom : o ≤ 4092 := by
        rcases hself with heq | heq
        · exact (hod heq).trans (by omega)
        · exact (hot heq).trans (by omega)
      -- once the walk is lost, the next byte faults
      have hlost : ∀ m', Vmm.lookup m' d p = none →
          memset (p * 4096 + (o + 1)) 0 n { s with memory := m' } = none := by
        intro m' hm'
        obtain ⟨k, rfl⟩ : ∃ k, n = k + 1 := ⟨n - 1, by omega⟩
        have hpage : (p * 4096 + (o + 1)) / 4096 = p := by omega
        rw [memset, hcr3, mmu_eq, hpage, hm']
        rfl
      by_cases hcutd : f = d ∧ o = 4 * (p / 1024)
      · apply hlost
        obtain ⟨rfl, rfl⟩ := hcutd
        rw [Vmm.lookup, if_neg (not_present_store8 _ _ _)]
      · have hdir : word (store8 s.memory (f * 4096 + o) 0) d (p / 1024) =
            word s.memory d (p / 1024) := by
          apply load32_store8_of_apart
          by_cases hfd : f = d
          · have hle := hod hfd
            subst hfd
            omega
          · omega
        by_cases hcutt : f = t ∧ o = 4 * (p % 1024)
        · apply hlost
          obtain ⟨rfl, rfl⟩ := hcutt
          rw [Vmm.lookup, hdir, if_pos hpde, htable]
          exact if_neg (not_present_store8 _ _ _)
        · have htab : word (store8 s.memory (f * 4096 + o) 0) t (p % 1024) =
              word s.memory t (p % 1024) := by
            apply load32_store8_of_apart
            by_cases hft : f = t
            · have hle := hot hft
              subst hft
              omega
            · omega
          exact ih (o := o + 1)
            (s := { s with memory := Bytes.store8 s.memory (f * 4096 + o) 0 }) hcr3
            ⟨hdir.symm ▸ hpde, hdir.symm ▸ htable, htab.symm ▸ hpte, htab.symm ▸ hframe⟩
            (fun heq => by
              have hle := hod heq
              omega)
            (fun heq => by
              have hle := hot heq
              omega) (by omega)

end Clearing

/-! ### What calls below the window keep -/

/-- The directory in frame `d` is loaded and reachable through its own entry 1023, and
no page table lies in its frame. -/
structure Windowed (s : Vmm) (d : ℕ) : Prop where
  cr3 : s.cr3 = d * 4096
  recursive : Recursive s.memory d
  table_ne : ∀ i < 1023, Present (word s.memory d i) → frameOf (word s.memory d i) ≠ d
  counter : s.pmm.usedBlocks < 2 ^ 32

theorem usedBlocks_pmmngrAllocBlock_lt {s : Pmm} (h : s.usedBlocks < 2 ^ 32) :
    (pmmngrAllocBlock s).2.usedBlocks < 2 ^ 32 := by
  rcases Pmm.pmmngrAllocBlock_cases s with h0 | ⟨f, -, -, -, heq⟩
  · rwa [h0]
  · rw [heq]
    exact Pmm.usedBlocks_incUsedBlocks_lt _

section Windowed

variable {s : Vmm} {d i t v phys flags : ℕ}

theorem Windowed.congr {s' : Vmm} (h : Windowed s d) (hcr3 : s'.cr3 = s.cr3)
    (hcounter : s'.pmm.usedBlocks < 2 ^ 32)
    (hwords : ∀ k < 1024, word s'.memory d k = word s.memory d k) : Windowed s' d where
  cr3 := hcr3.trans h.cr3
  recursive := (hwords 1023 (by decide)).trans h.recursive
  table_ne k hk hp := by
    rw [hwords k (by omega)] at hp ⊢
    exact h.table_ne k hk hp
  counter := hcounter

theorem Windowed.withPmm {pmm : Pmm} (h : Windowed s d) (hcounter : pmm.usedBlocks < 2 ^ 32) :
    Windowed { s with pmm := pmm } d :=
  h.congr rfl hcounter fun _ _ => rfl

theorem Windowed.alloc (h : Windowed s d) :
    Windowed { s with pmm := (pmmngrAllocBlock s.pmm).2 } d :=
  h.withPmm (usedBlocks_pmmngrAllocBlock_lt h.counter)

/-- Writing outside the frame of the directory. -/
theorem Windowed.storeTable {j x : ℕ} (h : Windowed s d) (ht : t ≠ d) (hj : j < 1024) :
    Windowed { s with memory := store32 s.memory (t * 4096 + 4 * j) x } d :=
  h.congr rfl h.counter fun k hk => load32_store32_of_apart _ _ (by omega)

/-- Giving entry `i` a table outside the frame of the directory. -/
theorem Windowed.storeEntry {e : ℕ} (h : Windowed s d) (hi : i < 1023) (he : e < 2 ^ 32)
    (hne : frameOf e ≠ d) :
    Windowed { s with memory := store32 s.memory (d * 4096 + 4 * i) e } d := by
  have hword : ∀ k < 1024, word (store32 s.memory (d * 4096 + 4 * i) e) d k =
      if d = d ∧ k = i then e else word s.memory d k :=
    fun k hk => word_store32 _ (by omega) hk he
  refine ⟨h.cr3, ?_, fun k hk hp => ?_, h.counter⟩
  · rw [Recursive, hword 1023 (by decide), if_neg (by omega)]
    exact h.recursive
  · dsimp only at hp ⊢
    rw [hword k (by omega)] at hp ⊢
    by_cases hki : k = i
    · rw [if_pos ⟨rfl, hki⟩]
      exact hne
    · rw [if_neg fun hc => hki hc.2] at hp ⊢
      exact h.table_ne k hk hp

theorem Windowed.fillTable {x : UInt8} {n : ℕ} (h : Windowed s d) (ht : t ≠ d) (hn : n ≤ 4096) :
    Windowed { s with memory := fill s.memory (t * 4096) x n } d :=
  h.congr rfl h.counter fun k hk => load32_congr fun y _ _ => fill_of_apart _ _ (by omega)

/-- Clearing the window of an entry that points to the directory. -/
theorem Windowed.clearDirectory {pmm : Pmm} (h : Windowed s d) (hi : i < 1023) :
    memset (tableWindow i) 0 pageSize { s with
      pmm := pmm
      memory := store32 s.memory (d * 4096 + 4 * i) (d * 4096 + (3 ||| (flags &&& pageUser))) } =
      none := by
  have hpd : (1023 * 1024 + i) / 1024 = 1023 := by omega
  have hpt : (1023 * 1024 + i) % 1024 = i := by omega
  have hplt : 1023 * 1024 + i < 2 ^ 20 := by omega
  have hdlt : d < 2 ^ 20 := by
    have hlt := word_lt s.memory d 1023
    rw [h.recursive] at hlt
    omega
  have hword : ∀ k < 1024, word (store32 s.memory (d * 4096 + 4 * i)
      (d * 4096 + (3 ||| (flags &&& pageUser)))) d k =
      if d = d ∧ k = i then d * 4096 + (3 ||| (flags &&& pageUser)) else word s.memory d k :=
    fun k hk => word_store32 _ (by omega) hk (frame_add_lt hdlt (newEntry_lt flags))
  have hrec : word (store32 s.memory (d * 4096 + 4 * i)
      (d * 4096 + (3 ||| (flags &&& pageUser)))) d 1023 = d * 4096 + 3 := by
    rw [hword 1023 (by decide), if_neg (by omega)]
    exact h.recursive
  have hdir := hword i (by omega)
  rw [if_pos ⟨rfl, rfl⟩] at hdir
  have hpage : PageAt (store32 s.memory (d * 4096 + 4 * i)
      (d * 4096 + (3 ||| (flags &&& pageUser)))) d (1023 * 1024 + i) d d := by
    refine ⟨?_, ?_, ?_, ?_⟩
    · rw [hpd, hrec]
      exact present_add d (by decide) (by decide)
    · rw [hpd, hrec, frameOf_add d (by decide)]
    · rw [hpt, hdir]
      exact present_newEntry d flags
    · rw [hpt, hdir, frameOf_add d (newEntry_lt flags)]
  have hwindow : (1023 * 1024 + i) * 4096 + 0 = tableWindow i := by
    unfold tableWindow pageSize
    omega
  rw [← hwindow, pageSize]
  exact memset_page_none (n := 4096) h.cr3 hpage hplt (Or.inl rfl)
    (fun _ => Nat.zero_le _) (fun _ => Nat.zero_le _) (Nat.zero_add 4096)

/-- A table of the directory is there, and the allocator has given at most its frame. -/
structure TableThere (s s' : Vmm) (d i : ℕ) : Prop where
  windowed : Windowed s' d
  present : Present (word s'.memory d i)
  pmm : s'.pmm = s.pmm ∨ (pmmngrAllocBlock s.pmm).1 ≠ 0 ∧ s'.pmm = (pmmngrAllocBlock s.pmm).2

/-- The first half of `vmm_map_page`: a page fault, no memory for the table, or the table. -/
theorem Windowed.ensureTable_cases (flags : ℕ) (h : Windowed s d) (hi : i < 1023) :
    ensureTable i flags s = none ∨
      (¬ Present (word s.memory d i) ∧
        ensureTable i flags s = some (false, { s with pmm := (pmmngrAllocBlock s.pmm).2 })) ∨
      ∃ s', ensureTable i flags s = some (true, s') ∧ TableThere s s' d i := by
  by_cases hp : Present (word s.memory d i)
  · refine Or.inr (Or.inr ⟨_, ensureTable_of_present _ h.cr3 h.recursive (by omega) hp, ?_⟩)
    split_ifs with hu
    · obtain ⟨hlt, hpresent, hframe, -⟩ := or_pageUser (word_lt s.memory d i)
      refine ⟨h.storeEntry hi hlt (hframe ▸ h.table_ne i hi hp), ?_, Or.inl rfl⟩
      dsimp only
      rw [word_store32 _ (by omega) (by omega) hlt, if_pos ⟨rfl, rfl⟩]
      exact hpresent.2 hp
    · exact ⟨h, hp, Or.inl rfl⟩
  by_cases hnull : (pmmngrAllocBlock s.pmm).1 = 0
  · exact Or.inr (Or.inl ⟨hp, ensureTable_of_null h.cr3 h.recursive (by omega) hp hnull⟩)
  obtain ⟨t, htlt, ht⟩ := Pmm.pmmngrAllocBlock_addr s.pmm
  have helt := frame_add_lt htlt (newEntry_lt flags)
  have hframe := frameOf_add t (newEntry_lt flags)
  by_cases htd : t = d
  · -- the table lies in the frame of the directory: clearing it loses its own entry
    left
    rw [ensureTable_of_new h.cr3 h.recursive (by omega) hp hnull ht, htd, h.clearDirectory hi]
    rfl
  · refine Or.inr (Or.inr
      ⟨_, ensureTable_of_new_table _ h.cr3 h.recursive hi hp hnull ht htlt htd, ?_, ?_,
        Or.inr ⟨hnull, rfl⟩⟩)
    · exact (h.alloc.storeEntry hi helt (by rwa [hframe])).fillTable (x := 0) htd le_rfl
    · dsimp only
      rw [word_fill _ (by omega), if_neg (Ne.symm htd), word_store32 _ (by omega) (by omega) helt,
        if_pos ⟨rfl, rfl⟩]
      exact present_newEntry t flags

/-- `vmm_map_page` wrote the entry of the page. -/
structure Entered (s s' : Vmm) (d v phys flags : ℕ) : Prop
    extends TableThere s s' d (v / 4096 / 1024) where
  entry : word s'.memory (frameOf (word s'.memory d (v / 4096 / 1024))) (v / 4096 % 1024) =
    pageEntry phys flags

/-- Once the table is there, the entry is written, and nothing else of the directory. -/
theorem TableThere.vmmMapPage {s₁ : Vmm} (h : TableThere s s₁ d (v / 4096 / 1024))
    (hs : ensureTable (v / 4096 / 1024) flags s = some (true, s₁)) (hv : v / 4096 < windowPage)
    (hphys : phys < 2 ^ 32) (hflags : flags < 2 ^ 32) :
    ∃ s', vmmMapPage v phys flags s = some s' ∧ Entered s s' d v phys flags ∧
      word s'.memory d (v / 4096 / 1024) = word s₁.memory d (v / 4096 / 1024) ∧
      s'.pmm = s₁.pmm := by
  have hi := div_lt_of_lt_windowPage hv
  have htable := h.windowed.table_ne _ hi h.present
  have hj : v / 4096 % 1024 < 1024 := Nat.mod_lt _ (by decide)
  have hdir : word (store32 s₁.memory (frameOf (word s₁.memory d (v / 4096 / 1024)) * 4096 +
      4 * (v / 4096 % 1024)) (pageEntry phys flags)) d (v / 4096 / 1024) =
      word s₁.memory d (v / 4096 / 1024) := by
    rw [word_store32 _ hj (by omega) (pageEntry_lt hphys hflags), if_neg]
    exact fun hc => htable hc.1.symm
  refine ⟨_, vmmMapPage_of_table _ hv hs h.windowed.cr3 h.windowed.recursive h.present,
    ⟨⟨h.windowed.storeTable (x := pageEntry phys flags) htable hj, ?_, h.pmm⟩, ?_⟩, hdir, rfl⟩
  · rw [hdir]
    exact h.present
  · rw [hdir, word_store32 _ hj hj (pageEntry_lt hphys hflags), if_pos ⟨rfl, rfl⟩]

theorem Windowed.vmmMapPage_cases (h : Windowed s d) (hv : v / 4096 < windowPage)
    (hphys : phys < 2 ^ 32) (hflags : flags < 2 ^ 32) :
    vmmMapPage v phys flags s = none ∨
      (¬ Present (word s.memory d (v / 4096 / 1024)) ∧
        vmmMapPage v phys flags s = some { s with pmm := (pmmngrAllocBlock s.pmm).2 }) ∨
      ∃ s', vmmMapPage v phys flags s = some s' ∧ Entered s s' d v phys flags := by
  have hi := div_lt_of_lt_windowPage hv
  rcases h.ensureTable_cases flags hi with hs | ⟨habsent, hs⟩ | ⟨s₁, hs, hthere⟩
  · left
    rw [Vmm.vmmMapPage, pdIndex_eq, hs]
    rfl
  · exact Or.inr (Or.inl ⟨habsent, vmmMapPage_of_noTable hs⟩)
  · obtain ⟨s', hs', hentered, -⟩ := hthere.vmmMapPage hs hv hphys hflags
    exact Or.inr (Or.inr ⟨s', hs', hentered⟩)

/-- `vmm_unmap_page` of a mapped page clears its entry and frees its frame. -/
theorem Windowed.vmmUnmapPage_of_pageAt {f : ℕ} (h : Windowed s d) (hv : v / 4096 < windowPage)
    (hpage : PageAt s.memory d (v / 4096) t f) :
    vmmUnmapPage v s = some { s with
      memory := store32 s.memory (t * 4096 + 4 * (v / 4096 % 1024)) 0
      pmm := pmmngrFreeBlock (f * 4096) s.pmm } := by
  have hi := div_lt_of_lt_windowPage hv
  have hj : v / 4096 % 1024 < 1024 := Nat.mod_lt _ (by decide)
  obtain ⟨hpde, rfl, hpte, rfl⟩ := hpage
  have hpde' : entryHasFlag (word s.memory d (v / 4096 / 1024)) pagePresent = true := hpde
  have hpte' : entryHasFlag (word s.memory (frameOf (word s.memory d (v / 4096 / 1024)))
    (v / 4096 % 1024)) pagePresent = true := hpte
  rw [vmmUnmapPage, pdIndex_eq, ptIndex_eq, read32_directory h.cr3 h.recursive (by omega)]
  simp only [Option.bind_eq_bind, Option.bind_some, hpde', Bool.not_true, Bool.false_eq_true,
    if_false]
  rw [read32_table h.cr3 h.recursive (by omega) hj hpde]
  simp only [Option.bind_some, hpte', Bool.not_true, Bool.false_eq_true, if_false]
  rw [write32_table h.cr3 h.recursive (by omega) hj hpde, entryGetFrame_eq (word_lt _ _ _)]
  rfl

theorem Windowed.vmmUnmapPage (h : Windowed s d) (hv : v / 4096 < windowPage) :
    ∃ s', vmmUnmapPage v s = some s' ∧ Windowed s' d := by
  have hi := div_lt_of_lt_windowPage hv
  by_cases hpde : Present (word s.memory d (v / 4096 / 1024))
  · by_cases hpte : Present (word s.memory (frameOf (word s.memory d (v / 4096 / 1024)))
        (v / 4096 % 1024))
    · refine ⟨_, h.vmmUnmapPage_of_pageAt hv ⟨hpde, rfl, hpte, rfl⟩, ?_⟩
      have hstored := h.storeTable (x := 0) (h.table_ne _ hi hpde)
        (Nat.mod_lt (v / 4096) (show 0 < 1024 by decide))
      exact hstored.withPmm (Pmm.usedBlocks_decUsedBlocks_lt _)
    · refine ⟨s, ?_, h⟩
      have hpde' : entryHasFlag (word s.memory d (v / 4096 / 1024)) pagePresent = true := hpde
      have hpte' : entryHasFlag (word s.memory (frameOf (word s.memory d (v / 4096 / 1024)))
        (v / 4096 % 1024)) pagePresent = false := eq_false_of_ne_true hpte
      rw [Vmm.vmmUnmapPage, pdIndex_eq, ptIndex_eq, read32_directory h.cr3 h.recursive (by omega)]
      simp only [Option.bind_eq_bind, Option.bind_some, hpde', Bool.not_true, Bool.false_eq_true,
        if_false]
      rw [read32_table h.cr3 h.recursive (by omega) (Nat.mod_lt _ (by decide)) hpde]
      simp only [Option.bind_some, hpte', Bool.not_false, if_true]
      rfl
  · refine ⟨s, ?_, h⟩
    have hpde' : entryHasFlag (word s.memory d (v / 4096 / 1024)) pagePresent = false :=
      eq_false_of_ne_true hpde
    rw [Vmm.vmmUnmapPage, pdIndex_eq, read32_directory h.cr3 h.recursive (by omega)]
    simp only [Option.bind_eq_bind, Option.bind_some, hpde', Bool.not_false, if_true]
    rfl

theorem Windowed.vmmAllocPage {s' : Vmm} {p : ℕ} (h : Windowed s d) (hv : v / 4096 < windowPage)
    (hflags : flags < 2 ^ 32) (hs' : vmmAllocPage v flags s = some (p, s')) :
    Windowed s' d := by
  obtain ⟨g, hg, hphys⟩ := Pmm.pmmngrAllocBlock_addr s.pmm
  rw [Vmm.vmmAllocPage] at hs'
  by_cases hnull : (pmmngrAllocBlock s.pmm).1 = 0
  · simp only [hnull, if_true] at hs'
    obtain ⟨-, rfl⟩ := Prod.mk.inj (Option.some.inj hs')
    exact h.alloc
  · simp only [hnull, if_false] at hs'
    rcases h.alloc.vmmMapPage_cases hv
        (show (pmmngrAllocBlock s.pmm).1 < 2 ^ 32 by omega) hflags
      with hs | ⟨-, hs⟩ | ⟨s₁, hs, hentered⟩
    · rw [hs] at hs'
      exact absurd hs' (by simp)
    · rw [hs] at hs'
      obtain ⟨-, rfl⟩ := Prod.mk.inj (Option.some.inj hs')
      exact h.alloc.alloc
    · rw [hs] at hs'
      obtain ⟨-, rfl⟩ := Prod.mk.inj (Option.some.inj hs')
      exact hentered.windowed

end Windowed

/-! ### The frame of the directory -/

/-- A frame that is freed right after its allocation, with at most the allocation of one
more frame in between, is the next one handed out. -/
theorem pmmngrAllocBlock_of_freed {s t : Pmm} (hcounter : s.usedBlocks < 2 ^ 32)
    (hp : (pmmngrAllocBlock s).1 ≠ 0)
    (ht : t = (pmmngrAllocBlock s).2 ∨ (pmmngrAllocBlock (pmmngrAllocBlock s).2).1 ≠ 0 ∧
      t = (pmmngrAllocBlock (pmmngrAllocBlock s).2).2) :
    used (pmmngrFreeBlock (pmmngrAllocBlock s).1 t) (frameOf (pmmngrAllocBlock s).1) = false ∧
      (pmmngrAllocBlock (pmmngrFreeBlock (pmmngrAllocBlock s).1 t)).1 =
        (pmmngrAllocBlock s).1 := by
  obtain ⟨g, hg, haddr⟩ := Pmm.pmmngrAllocBlock_addr s
  have hclear : used (pmmngrFreeBlock (pmmngrAllocBlock s).1 t) g = false := by
    rw [haddr, Pmm.used_pmmngrFreeBlock, Nat.mul_div_cancel g (by decide)]
    simp
  -- a frame was found, so the counter of `s` left room
  have hroom : ∀ u : Pmm, (pmmngrAllocBlock u).1 ≠ 0 → Pmm.pmmngrGetFreeBlockCount u ≠ 0 := by
    intro u hu hzero
    exact hu (by rw [pmmngrAllocBlock, if_pos hzero])
  rcases Pmm.pmmngrAllocBlock_cases s with h0 | ⟨f, hlt, hfree, hbelow, heq⟩
  · exact absurd (congrArg Prod.fst h0) hp
  · have hle : g ≤ f := by
      rw [heq] at haddr
      dsimp only at haddr
      omega
    -- after `t`, every frame up to `f` is used and the counter has the room of `s`
    have hstate : t.maxBlocks = s.maxBlocks ∧ (∀ k ≤ f, used t k = true) ∧
        Pmm.pmmngrGetFreeBlockCount (pmmngrFreeBlock (pmmngrAllocBlock s).1 t) ≠ 0 := by
      have hcount := hroom s hp
      have hone : ∀ k ≤ f, used (pmmngrAllocBlock s).2 k = true := by
        intro k hk
        rw [heq, Pmm.used_incUsedBlocks, Pmm.used_mmapSet]
        rcases Nat.lt_or_eq_of_le hk with hlt | rfl
        · rw [hbelow k hlt, Bool.or_true]
        · simp
      rcases ht with rfl | ⟨hp₂, rfl⟩
      · refine ⟨Pmm.maxBlocks_pmmngrAllocBlock s, hone, ?_⟩
        rw [heq, pmmngrFreeBlock, Pmm.decUsedBlocks, Pmm.mmapUnset, Pmm.incUsedBlocks, Pmm.mmapSet]
        unfold Pmm.pmmngrGetFreeBlockCount at hcount ⊢
        dsimp only
        omega
      · have hcount₂ := hroom _ hp₂
        refine ⟨?_, ?_, ?_⟩
        · rw [Pmm.maxBlocks_pmmngrAllocBlock, Pmm.maxBlocks_pmmngrAllocBlock]
        · intro k hk
          rcases Pmm.pmmngrAllocBlock_cases (pmmngrAllocBlock s).2 with h0 | ⟨e, -, -, -, heq₂⟩
          · rw [h0]
            exact hone k hk
          · rw [heq₂, Pmm.used_incUsedBlocks, Pmm.used_mmapSet, hone k hk, Bool.or_true]
        · rcases Pmm.pmmngrAllocBlock_cases (pmmngrAllocBlock s).2 with h0 | ⟨e, -, -, -, heq₂⟩
          · exact absurd (congrArg Prod.fst h0) hp₂
          · have hlt₂ := usedBlocks_pmmngrAllocBlock_lt hcounter
            rw [heq₂, pmmngrFreeBlock, Pmm.decUsedBlocks, Pmm.mmapUnset, Pmm.incUsedBlocks,
              Pmm.mmapSet]
            unfold Pmm.pmmngrGetFreeBlockCount at hcount₂ ⊢
            dsimp only
            omega
    obtain ⟨hmax, hset, hcount⟩ := hstate
    obtain ⟨k, hk, hkclear, -, halloc⟩ := Pmm.pmmngrAllocBlock_of_clear hcount
      (by rw [Pmm.maxBlocks_pmmngrFreeBlock, hmax]; omega) hclear
    have hkg : k = g := by
      by_contra hne
      rw [haddr, Pmm.used_pmmngrFreeBlock, Nat.mul_div_cancel g (by decide),
        hset k (by omega)] at hkclear
      simp [hne] at hkclear
    refine ⟨?_, ?_⟩
    · rw [haddr, frameOf, Nat.mul_div_cancel g (by decide), ← haddr]
      exact hclear
    · rw [halloc, hkg, haddr]
      exact Nat.mod_eq_of_lt (by omega)

section Create

variable {s s' : Vmm} {d dir : ℕ}

theorem tempMapAddr_page : tempMapAddr / 4096 < windowPage := by decide

theorem pageEntry_temp {g : ℕ} (hg : g < 2 ^ 20) :
    pageEntry (g * 4096) (pagePresent ||| pageWritable) = g * 4096 + 3 :=
  pageEntry_eq hg (by decide)

/-- What `vmm_create_directory` returns: `NULL`, or a cleared frame that is free again
and the next one to be handed out. -/
theorem Windowed.vmmCreateDirectory (h : Windowed s d)
    (hres : vmmCreateDirectory s = some (dir, s')) :
    Windowed s' d ∧ (dir ≠ 0 → (∀ x < 4096, s'.memory (dir + x) = 0) ∧
      used s'.pmm (frameOf dir) = false ∧ (pmmngrAllocBlock s'.pmm).1 = dir) := by
  obtain ⟨g, hg, haddr⟩ := Pmm.pmmngrAllocBlock_addr s.pmm
  rw [Vmm.vmmCreateDirectory] at hres
  by_cases hnull : (pmmngrAllocBlock s.pmm).1 = 0
  · simp only [hnull, if_true] at hres
    obtain ⟨rfl, rfl⟩ := Prod.mk.inj (Option.some.inj hres)
    exact ⟨h.alloc, fun hne => absurd rfl hne⟩
  · have hne : g * 4096 ≠ 0 := haddr ▸ hnull
    simp only [haddr, hne, if_false] at hres
    have hdest : tempMapAddr = tempMapAddr / 4096 * 4096 + 0 := by decide
    have hunmapped : ∀ s₁ : Vmm, s₁.cr3 = d * 4096 →
        ¬ Present (word s₁.memory d (tempMapAddr / 4096 / 1024)) →
        memset tempMapAddr 0 pageSize s₁ = none := by
      intro s₁ hcr3 habsent
      rw [pageSize, show (4096 : ℕ) = 4095 + 1 from rfl, memset, hcr3, mmu_eq, lookup,
        if_neg habsent]
      rfl
    rcases h.alloc.vmmMapPage_cases tempMapAddr_page (show g * 4096 < 2 ^ 32 by omega)
      (show pagePresent ||| pageWritable < 2 ^ 32 by decide)
      with hs | ⟨habsent, hs⟩ | ⟨s₁, hs, hentered⟩
    · rw [hs] at hres
      exact absurd hres (by simp)
    · -- no memory for the page table: the page is not mapped, and clearing it faults
      rw [hs] at hres
      simp only [Option.bind_eq_bind, Option.bind_some] at hres
      rw [hunmapped { s with pmm := (pmmngrAllocBlock (pmmngrAllocBlock s.pmm).2).2 } h.cr3
        habsent] at hres
      exact absurd hres (by simp)
    · rw [hs] at hres
      simp only [Option.bind_eq_bind, Option.bind_some] at hres
      have hwin := hentered.windowed
      have hi := div_lt_of_lt_windowPage tempMapAddr_page
      have htable := hwin.table_ne _ hi hentered.present
      have hpage : PageAt s₁.memory d (tempMapAddr / 4096)
          (frameOf (word s₁.memory d (tempMapAddr / 4096 / 1024))) g := by
        refine ⟨hentered.present, rfl, ?_, ?_⟩
        · rw [hentered.entry, pageEntry_temp hg]
          exact present_add g (by decide) (by decide)
        · rw [hentered.entry, pageEntry_temp hg, frameOf_add g (by decide)]
      by_cases hself : g = d ∨ g = frameOf (word s₁.memory d (tempMapAddr / 4096 / 1024))
      · have hnone := memset_page_none (n := 4096) hwin.cr3 hpage (by decide) hself
          (fun _ => Nat.zero_le _) (fun _ => Nat.zero_le _) (Nat.zero_add 4096)
        rw [← hdest] at hnone
        rw [pageSize, hnone] at hres
        exact absurd hres (by simp)
      · rw [not_or] at hself
        have hclear := memset_page (o := 0) (n := 4096) (x := 0) hwin.cr3 hpage (by decide)
          hself.1 hself.2 (Nat.zero_add 4096).le
        rw [← hdest, Nat.add_zero] at hclear
        rw [pageSize, hclear] at hres
        have hwords : ∀ t k, t ≠ g → k < 1024 →
            word (fill s₁.memory (g * 4096) 0 4096) t k = word s₁.memory t k := by
          intro t k ht hk
          rw [word_fill _ hk, if_neg ht]
        have hcleared : PageAt (fill s₁.memory (g * 4096) 0 4096) d (tempMapAddr / 4096)
            (frameOf (word s₁.memory d (tempMapAddr / 4096 / 1024))) g := by
          obtain ⟨hpde, htab, hpte, hframe⟩ := hpage
          have hdir := hwords d (tempMapAddr / 4096 / 1024) (Ne.symm hself.1) (by omega)
          have htabw := hwords _ (tempMapAddr / 4096 % 1024) (Ne.symm hself.2) (by decide)
          exact ⟨hdir.symm ▸ hpde, hdir.symm ▸ htab, htabw.symm ▸ hpte, htabw.symm ▸ hframe⟩
        have hunmap := (hwin.fillTable (x := 0) hself.1 le_rfl).vmmUnmapPage_of_pageAt
          tempMapAddr_page hcleared
        simp only [Option.bind_some, hunmap] at hres
        obtain ⟨rfl, rfl⟩ := Prod.mk.inj (Option.some.inj hres)
        refine ⟨?_, fun _ => ⟨fun x hx => ?_, ?_⟩⟩
        · exact ((hwin.fillTable (x := 0) hself.1 le_rfl).storeTable (x := 0) htable
            (by decide)).withPmm (Pmm.usedBlocks_decUsedBlocks_lt _)
        · dsimp only
          rw [store32_of_apart _ _ (by omega)]
          exact fill_of_mem _ _ (by omega)
        · have hfreed := pmmngrAllocBlock_of_freed h.counter hnull (t := s₁.pmm) hentered.pmm
          rwa [haddr] at hfreed

end Create

/-! ### Runs -/

/-- The calls of a run that also creates directories. -/
inductive DirectoryCall
  | alloc (v flags : ℕ)
  | unmap (v : ℕ)
  | createDirectory

/-- Addresses below the recursive window, and 32-bit flags. The addresses above are the
directory and the page tables themselves. -/
def DirectoryCall.BelowWindow : DirectoryCall → Prop
  | .alloc v flags => v < 0xFFC00000 ∧ flags < 2 ^ 32
  | .unmap v => v < 0xFFC00000
  | .createDirectory => True

def directoryStep (s : Vmm) : DirectoryCall → Option Vmm
  | .alloc v flags => (vmmAllocPage v flags s).map Prod.snd
  | .unmap v => vmmUnmapPage v s
  | .createDirectory => (vmmCreateDirectory s).map Prod.snd

/-- The directory is a cleared frame that no later call hands out: in every state that
a run from `s` reaches it is marked used, and an allocation gives another frame. -/
def DirectoryKept (s : Vmm) (dir : ℕ) : Prop :=
  (∀ x < 4096, s.memory (dir + x) = 0) ∧
    ∀ calls s', (∀ c ∈ calls, c.BelowWindow) → run directoryStep s calls = some s' →
      used s'.pmm (frameOf dir) = true ∧ (pmmngrAllocBlock s'.pmm).1 ≠ dir

theorem Windowed.step {s s' : Vmm} {d : ℕ} {c : DirectoryCall} (h : Windowed s d)
    (hc : c.BelowWindow) (hs' : directoryStep s c = some s') : Windowed s' d := by
  cases c with
  | alloc v flags =>
      obtain ⟨⟨p, t⟩, ht, rfl⟩ := Option.map_eq_some_iff.1 hs'
      exact h.vmmAllocPage (by unfold windowPage; have := hc.1; omega) hc.2 ht
  | unmap v =>
      obtain ⟨t, ht, hwin⟩ := h.vmmUnmapPage (v := v) (by
        unfold windowPage
        have hlt : v < 0xFFC00000 := hc
        omega)
      obtain rfl := Option.some.inj (ht.symm.trans hs')
      exact hwin
  | createDirectory =>
      obtain ⟨⟨dir, t⟩, ht, rfl⟩ := Option.map_eq_some_iff.1 hs'
      exact (h.vmmCreateDirectory ht).1

theorem Windowed.run {s s' : Vmm} {d : ℕ} {calls : List DirectoryCall} (h : Windowed s d)
    (hcalls : ∀ c ∈ calls, c.BelowWindow) (hrun : run directoryStep s calls = some s') :
    Windowed s' d := by
  induction calls generalizing s with
  | nil =>
      obtain rfl := Option.some.inj hrun
      exact h
  | cons c calls ih =>
      obtain ⟨t, ht, hrun⟩ := run_cons_eq_some.1 hrun
      exact ih (h.step (hcalls c List.mem_cons_self) ht)
        (fun c' hc' => hcalls c' (List.mem_cons_of_mem _ hc')) hrun

theorem windowed_vmmInit {memSize : ℕ} (hsize : memSize < 2 ^ 32) (map : ℕ → BitVec 32)
    (mmap : List Pmm.MultibootMmapEntry) (memory : Bytes)
    (hinit : InitSucceeds (Pmm.boot memSize map mmap)) :
    Windowed (vmmInit memory (Pmm.boot memSize map mmap))
      (directoryFrame (Pmm.boot memSize map mmap)) := by
  have hpmm := handout_boot memSize map mmap
  obtain ⟨-, -, -, -, hne, -⟩ := hinit.frames hpmm
  obtain ⟨hinitial, hafter⟩ := hinit.initial hpmm memory
  refine ⟨hinitial.cr3, hinitial.recursive, fun i hi hp => ?_, ?_⟩
  · obtain rfl := (hinitial.present_iff hi).1 hp
    rw [hinitial.frameOf_table]
    exact hne
  · rw [hafter, afterInit]
    exact usedBlocks_pmmngrAllocBlock_lt
      (usedBlocks_pmmngrAllocBlock_lt (Pmm.usedBlocks_boot_lt memSize hsize map mmap))

theorem Windowed.directory_lost {s s' : Vmm} {d dir : ℕ} (h : Windowed s d)
    (hres : Vmm.vmmCreateDirectory s = some (dir, s')) (hdir : dir ≠ 0) : ¬ DirectoryKept s' dir := by
  intro hkept
  obtain ⟨-, hfree, -⟩ := (h.vmmCreateDirectory hres).2 hdir
  obtain ⟨hused, -⟩ := hkept.2 [] s' (by simp) rfl
  rw [hfree] at hused
  exact absurd hused (by simp)

/-- In every state that calls below the recursive window reach from boot, a directory that
`vmm_create_directory` returns is a free frame, and the next allocation hands it out. -/
theorem not_directoryKept (memSize : UInt32) (map : ℕ → BitVec 32)
    (mmap : List Pmm.MultibootMmapEntry) (memory : Bytes)
    (hinit : InitSucceeds (Pmm.boot memSize.toNat map mmap)) (calls : List DirectoryCall)
    (hcalls : ∀ c ∈ calls, c.BelowWindow) (s : Vmm)
    (hrun : run directoryStep (vmmInit memory (Pmm.boot memSize.toNat map mmap)) calls = some s)
    (dir : ℕ) (s' : Vmm) (hres : vmmCreateDirectory s = some (dir, s')) (hdir : dir ≠ 0) :
    ¬ DirectoryKept s' dir ∧ (pmmngrAllocBlock s'.pmm).1 = dir := by
  have hwin := (windowed_vmmInit memSize.toNat_lt map mmap memory hinit).run hcalls hrun
  exact ⟨hwin.directory_lost hres hdir, ((hwin.vmmCreateDirectory hres).2 hdir).2.2⟩

/-! ### The first directory of an 8 MiB machine -/

/-- With the frames there and the roles of the frames kept, a directory is returned. -/
theorem Paging.exists_vmmCreateDirectory {s : Vmm} {d : ℕ} (h : Paging s d)
    (hcounter : s.pmm.usedBlocks < 2 ^ 32) (hp : (pmmngrAllocBlock s.pmm).1 ≠ 0)
    (hav : (pmmngrAllocBlock (pmmngrAllocBlock s.pmm).2).1 ≠ 0) :
    ∃ s', vmmCreateDirectory s = some ((pmmngrAllocBlock s.pmm).1, s') := by
  obtain ⟨f, -, hflt, hfree, heq, hused, hpmm⟩ := h.handout.alloc hp
  have htaken : Paging { s with pmm := (pmmngrAllocBlock s.pmm).2 } d :=
    ⟨h.cr3, h.recursive, h.owned.mono fun g hg => by rw [hused, hg, Bool.or_true], hpmm⟩
  have hfresh : Fresh (used (pmmngrAllocBlock s.pmm).2) d (word s.memory d)
      (lookup s.memory d) f := h.owned.fresh hfree (by rw [hused]; simp)
  obtain ⟨s₁, hs₁, hmapped⟩ := htaken.vmmMapPage tempMapAddr_page hfresh hflt
    (show pagePresent ||| pageWritable < 4096 by decide) fun _ => hav
  have hi := div_lt_of_lt_windowPage tempMapAddr_page
  obtain ⟨hpde, hpte, hentry⟩ := lookup_eq_some.1 hmapped.entry
  have hframe : frameOf (pageEntry (f * 4096) (pagePresent ||| pageWritable)) = f := by
    rw [pageEntry_temp hflt, frameOf_add f (by decide)]
  have hpage : PageAt s₁.memory d (tempMapAddr / 4096)
      (frameOf (word s₁.memory d (tempMapAddr / 4096 / 1024))) f :=
    ⟨hpde, rfl, hentry.symm ▸ hpte, hentry.symm ▸ hframe⟩
  obtain ⟨-, hfd, hft⟩ := hmapped.paging.owned.mapped _ tempMapAddr_page _ hmapped.entry
  rw [hframe] at hfd hft
  have hwin : Windowed s₁ d := by
    refine ⟨hmapped.paging.cr3, hmapped.paging.recursive,
      fun i hi hp => hmapped.paging.table_ne hi hp, ?_⟩
    have hlt := usedBlocks_pmmngrAllocBlock_lt hcounter
    rcases hmapped.change.pmm with hpmm₁ | hpmm₁
    · rwa [hpmm₁]
    · rw [hpmm₁]
      exact usedBlocks_pmmngrAllocBlock_lt hlt
  have hclear := memset_page (o := 0) (n := 4096) (x := 0) hwin.cr3 hpage (by decide) hfd
    (hft _ hi hpde).symm (Nat.zero_add 4096).le
  rw [show tempMapAddr / 4096 * 4096 + 0 = tempMapAddr by decide, Nat.add_zero] at hclear
  obtain ⟨s₂, hs₂, -⟩ := (hwin.fillTable (x := 0) hfd le_rfl).vmmUnmapPage tempMapAddr_page
  refine ⟨s₂, ?_⟩
  rw [heq] at hp ⊢
  simp only [vmmCreateDirectory, heq, hp, if_false, Option.bind_eq_bind, hs₁, Option.bind_some,
    pageSize, hclear, hs₂]
  rfl

/-- With every frame below `f` used and every one from `f` to the end of memory free, an
allocation takes frame `f`. -/
theorem alloc_of_used_below {t s : Pmm} {f n : ℕ} (hs : Pmm.Counted t s)
    (hmax : 32 * (s.maxBlocks / 32) = n) (hf : f < n) (hn : n ≤ 2 ^ 20)
    (hbelow : ∀ k < f, used s k = true) (habove : ∀ k, f ≤ k → k < n → used s k = false) :
    (pmmngrAllocBlock s).1 = f * 4096 ∧ Pmm.Counted t (pmmngrAllocBlock s).2 ∧
      32 * ((pmmngrAllocBlock s).2.maxBlocks / 32) = n ∧
      (∀ k < f + 1, used (pmmngrAllocBlock s).2 k = true) ∧
      ∀ k, f + 1 ≤ k → k < n → used (pmmngrAllocBlock s).2 k = false := by
  obtain ⟨g, hg, hgfree, -, heq⟩ := hs.alloc_eq (by rwa [hmax]) (habove f le_rfl hf)
  have hgf : g = f := by
    by_contra hne
    exact absurd ((hbelow g (by omega)).symm.trans hgfree) (by decide)
  refine ⟨?_, hs.alloc, by rw [Pmm.maxBlocks_pmmngrAllocBlock, hmax], ?_, ?_⟩
  · rw [heq, hgf]
    exact Nat.mod_eq_of_lt (by omega)
  · intro k hk
    rw [heq, Pmm.used_incUsedBlocks, Pmm.used_mmapSet, hgf]
    by_cases hkf : k = f
    · simp [hkf]
    · rw [hbelow k (by omega), Bool.or_true]
  · intro k hk hk'
    rw [heq, Pmm.used_incUsedBlocks, Pmm.used_mmapSet, hgf, habove k (by omega) hk',
      Bool.or_false]
    exact decide_eq_false (by omega)

/-- Four allocations in a row succeed on the 8 MiB machine, and the third gives the
third frame above 4 MiB. -/
theorem alloc_afterInit_eightMib :
    (pmmngrAllocBlock (afterInit eightMib)).1 = 0x402000 ∧
      (pmmngrAllocBlock (pmmngrAllocBlock (afterInit eightMib)).2).1 ≠ 0 := by
  have hcounted : Pmm.Counted (Pmm.pmmngrInit 8192 fun _ => 0) eightMib :=
    Pmm.Counted.boot (by decide) (by decide) _ _
  have hmax : 32 * (eightMib.maxBlocks / 32) = 2048 := by
    rw [eightMib, Pmm.maxBlocks_boot]
  have hclear : ∀ f, 1024 ≤ f → f < 2048 → used eightMib f = false := by
    intro f hf hlt
    rw [eightMib, Pmm.used_boot_eq_false_iff]
    refine ⟨hf, Or.inl ⟨_, List.mem_singleton.2 rfl, by decide, hf, ?_⟩⟩
    change f < 1024 + 1024
    omega
  obtain ⟨-, hs₁, hmax₁, hbelow₁, habove₁⟩ := alloc_of_used_below hcounted hmax
    (f := 1024) (by decide) (by decide) (handout_boot _ _ _).reserved hclear
  obtain ⟨-, hs₂, hmax₂, hbelow₂, habove₂⟩ := alloc_of_used_below hs₁ hmax₁ (by decide)
    (by decide) hbelow₁ habove₁
  obtain ⟨h₃, hs₃, hmax₃, hbelow₃, habove₃⟩ := alloc_of_used_below hs₂ hmax₂ (by decide)
    (by decide) hbelow₂ habove₂
  obtain ⟨h₄, -⟩ := alloc_of_used_below hs₃ hmax₃ (by decide) (by decide) hbelow₃ habove₃
  rw [afterInit, h₃, h₄]
  exact ⟨rfl, by decide⟩

theorem exists_vmmCreateDirectory_eightMib :
    ∃ s', vmmCreateDirectory (vmmInit (fun _ => 0) eightMib) = some (0x402000, s') := by
  have hpmm : Handout eightMib := handout_boot _ _ _
  have hok : PageZeroOk (fun _ => 0) eightMib := fun hpresent =>
    absurd (show Present 0 from hpresent) (by decide)
  have htracks := hok.tracks initSucceeds_eightMib hpmm
  obtain ⟨-, hafter⟩ := initSucceeds_eightMib.initial hpmm fun _ => 0
  obtain ⟨h₃, h₄⟩ := alloc_afterInit_eightMib
  have hcounter : (vmmInit (fun _ => 0) eightMib).pmm.usedBlocks < 2 ^ 32 :=
    (windowed_vmmInit (by decide) _ _ _ initSucceeds_eightMib).counter
  rw [← hafter] at h₃ h₄
  obtain ⟨s', hs'⟩ := htracks.paging.exists_vmmCreateDirectory hcounter (by rw [h₃]; decide) h₄
  exact ⟨s', by rw [hs', h₃]⟩

/-- The first directory created after boot, at `0x402000`, is handed out again by the
next allocation. -/
theorem not_directoryKept_first : ∃ s',
    vmmCreateDirectory (vmmInit (fun _ => 0) eightMib) = some (0x402000, s') ∧
      ¬ DirectoryKept s' 0x402000 ∧ (pmmngrAllocBlock s'.pmm).1 = 0x402000 := by
  obtain ⟨s', hs'⟩ := exists_vmmCreateDirectory_eightMib
  exact ⟨s', hs', not_directoryKept 8192 (fun _ => 0) [⟨0x400000, 0x400000, 1⟩] (fun _ => 0)
    initSucceeds_eightMib [] (by simp) _ rfl 0x402000 s' hs' (by decide)⟩

/-- Not every directory is kept: the first one of the 8 MiB machine is not. -/
theorem not_forall_directoryKept :
    ¬ ∀ (memSize : UInt32) (map : ℕ → BitVec 32) (mmap : List Pmm.MultibootMmapEntry)
      (memory : Bytes), InitSucceeds (Pmm.boot memSize.toNat map mmap) →
      ∀ (calls : List DirectoryCall) (s : Vmm), (∀ c ∈ calls, c.BelowWindow) →
      run directoryStep (vmmInit memory (Pmm.boot memSize.toNat map mmap)) calls = some s →
      ∀ (dir : ℕ) (s' : Vmm), vmmCreateDirectory s = some (dir, s') → dir ≠ 0 →
      DirectoryKept s' dir := by
  intro h
  obtain ⟨s', hs'⟩ := exists_vmmCreateDirectory_eightMib
  have hkept := h 8192 (fun _ => 0) [⟨0x400000, 0x400000, 1⟩] (fun _ => 0) initSucceeds_eightMib []
    _ (by simp) rfl 0x402000 s' hs' (by decide)
  have hwin := windowed_vmmInit (by decide) (fun _ => 0) [⟨0x400000, 0x400000, 1⟩] (fun _ => 0)
    initSucceeds_eightMib
  exact hwin.directory_lost hs' (by decide) hkept

end Vmm

end Yotos
