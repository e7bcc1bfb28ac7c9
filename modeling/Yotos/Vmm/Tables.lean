import Yotos.Vmm.Ownership

/-!
# Mapping and unmapping a page

`Paging s d`: the directory in frame `d` is loaded and reachable through the window,
and the frames have the roles that its tables give them. On such a state an access
through the window is an access to the frame behind it, so `vmm_map_page` and
`vmm_unmap_page` never fault, change the entry of one page, and keep the state so.
-/

namespace Yotos

namespace Vmm

open Bytes
open Pmm (used pmmngrAllocBlock pmmngrFreeBlock)

/-- The frames of the allocator have the roles that the tables in memory give them. -/
structure Paging (s : Vmm) (d : ℕ) : Prop where
  cr3 : s.cr3 = d * 4096
  recursive : Recursive s.memory d
  owned : Owned (used s.pmm) d (word s.memory d) (lookup s.memory d)
  handout : Handout s.pmm

theorem lookup_congr {m m' : Bytes} {d p : ℕ}
    (hpde : Present (word m' d (p / 1024)) ↔ Present (word m d (p / 1024)))
    (hpte : Present (word m d (p / 1024)) →
      word m' (frameOf (word m' d (p / 1024))) (p % 1024) =
        word m (frameOf (word m d (p / 1024))) (p % 1024)) :
    lookup m' d p = lookup m d p := by
  unfold lookup
  by_cases h : Present (word m d (p / 1024))
  · rw [if_pos h, if_pos (hpde.2 h)]
    simp only [hpte h]
  · rw [if_neg h, if_neg (hpde.not.2 h)]

theorem div_lt_of_lt_windowPage {p : ℕ} (hp : p < windowPage) : p / 1024 < 1023 := by
  unfold windowPage at hp
  omega

/-! ### Accesses through the window -/

section Window

variable {s : Vmm} {d i j v : ℕ}

theorem read32_directory (hcr3 : s.cr3 = d * 4096) (hrec : Recursive s.memory d)
    (hi : i < 1024) : read32 (directoryWindow + 4 * i) s = some (word s.memory d i) := by
  rw [read32, hcr3, hrec.mmu_directory (by omega)]
  rfl

theorem write32_directory (hcr3 : s.cr3 = d * 4096) (hrec : Recursive s.memory d)
    (hi : i < 1024) :
    write32 (directoryWindow + 4 * i) v s =
      some { s with memory := store32 s.memory (d * 4096 + 4 * i) v } := by
  rw [write32, hcr3, hrec.mmu_directory (by omega)]
  rfl

theorem read32_table (hcr3 : s.cr3 = d * 4096) (hrec : Recursive s.memory d) (hi : i < 1024)
    (hj : j < 1024) (hpde : Present (word s.memory d i)) :
    read32 (tableWindow i + 4 * j) s =
      some (word s.memory (frameOf (word s.memory d i)) j) := by
  rw [read32, hcr3, hrec.mmu_table hi (by omega) hpde]
  rfl

theorem write32_table (hcr3 : s.cr3 = d * 4096) (hrec : Recursive s.memory d) (hi : i < 1024)
    (hj : j < 1024) (hpde : Present (word s.memory d i)) :
    write32 (tableWindow i + 4 * j) v s =
      some { s with
        memory := store32 s.memory (frameOf (word s.memory d i) * 4096 + 4 * j) v } := by
  rw [write32, hcr3, hrec.mmu_table hi (by omega) hpde]
  rfl

theorem fill_store8 (m : Bytes) (a n : ℕ) (x : UInt8) :
    fill (store8 m a x) (a + 1) x n = fill m a x (n + 1) := by
  funext y
  by_cases hy : y = a
  · rw [fill_of_apart _ _ (by omega), fill_of_mem _ _ (by omega), hy, store8_self]
  · by_cases hin : a + 1 ≤ y ∧ y < a + 1 + n
    · rw [fill_of_mem _ _ hin, fill_of_mem _ _ (by omega)]
    · rw [fill_of_apart _ _ (by omega), fill_of_apart _ _ (by omega), store8_of_ne _ _ hy]

/-- Clearing through the window of a table, whose frame is not the directory's. -/
theorem memset_table {o n : ℕ} {x : UInt8} (hcr3 : s.cr3 = d * 4096)
    (hrec : Recursive s.memory d) (hi : i < 1024) (hpde : Present (word s.memory d i))
    (hne : frameOf (word s.memory d i) ≠ d) (ho : o + n ≤ 4096) :
    memset (tableWindow i + o) x n s =
      some { s with
        memory := fill s.memory (frameOf (word s.memory d i) * 4096 + o) x n } := by
  induction n generalizing o s with
  | zero =>
      have hfill : fill s.memory (frameOf (word s.memory d i) * 4096 + o) x 0 = s.memory := by
        funext y
        exact fill_of_apart _ _ (by omega)
      rw [memset, hfill]
  | succ n ih =>
      have hwords : ∀ k < 1024, word (store8 s.memory
          (frameOf (word s.memory d i) * 4096 + o) x) d k = word s.memory d k := by
        intro k hk
        exact load32_store8_of_apart _ _ (by omega)
      have hrec' : Recursive (store8 s.memory (frameOf (word s.memory d i) * 4096 + o) x) d :=
        (hwords 1023 (by omega)).trans hrec
      have hstep := ih (o := o + 1)
        (s := { s with memory := store8 s.memory (frameOf (word s.memory d i) * 4096 + o) x })
        hcr3 hrec' ((hwords i hi).symm ▸ hpde) ((hwords i hi).symm ▸ hne) (by omega)
      simp only [hwords i hi] at hstep
      rw [memset, hcr3, hrec.mmu_table hi (by omega) hpde, Option.bind_some, Nat.add_assoc,
        ← hcr3, hstep, ← Nat.add_assoc, fill_store8]

end Window

/-! ### The table of a page -/

section Steps

variable {s : Vmm} {d i f flags : ℕ}

theorem Paging.table_ne (h : Paging s d) (hi : i < 1023) (hp : Present (word s.memory d i)) :
    frameOf (word s.memory d i) ≠ d :=
  (h.owned.table i hi hp).2

/-- Setting the user bit of a directory entry. -/
theorem or_pageUser {e : ℕ} (he : e < 2 ^ 32) :
    e ||| pageUser < 2 ^ 32 ∧ (Present (e ||| pageUser) ↔ Present e) ∧
      frameOf (e ||| pageUser) = frameOf e ∧ entryHasFlag (e ||| pageUser) pageUser = true := by
  refine ⟨Nat.or_lt_two_pow he (by decide), ?_, ?_, ?_⟩
  · rw [present_iff, present_iff, Nat.testBit_or, show Nat.testBit pageUser 0 = false by decide,
      Bool.or_false]
  · unfold frameOf
    rw [show (4096 : ℕ) = 2 ^ 12 from rfl, ← Nat.shiftRight_eq_div_pow, ← Nat.shiftRight_eq_div_pow,
      Nat.shiftRight_or_distrib, show pageUser >>> 12 = 0 by decide, Nat.or_zero]
  · rw [entryHasFlag_user, Nat.testBit_or, show Nat.testBit pageUser 2 = true by decide,
      Bool.or_true]

/-- The table of directory entry `i` is there, and only its frame and the directory's were
written. If it is new, its frame was free and is taken. -/
structure TableChange (s s' : Vmm) (d i : ℕ) : Prop where
  present : Present (word s'.memory d i)
  usedIff : ∀ g, used s'.pmm g = true ↔ used s.pmm g = true ∨
    (¬ Present (word s.memory d i) ∧ g = frameOf (word s'.memory d i))
  free : ¬ Present (word s.memory d i) → used s.pmm (frameOf (word s'.memory d i)) = false
  tables : ∀ k < 1023, (k ≠ i ∨ Present (word s.memory d i)) →
    (Present (word s'.memory d k) ↔ Present (word s.memory d k)) ∧
      frameOf (word s'.memory d k) = frameOf (word s.memory d k)
  bytes : ∀ g x, x < 4096 → g ≠ d → g ≠ frameOf (word s'.memory d i) →
    s'.memory (g * 4096 + x) = s.memory (g * 4096 + x)
  pmm : s'.pmm = s.pmm ∨ s'.pmm = (pmmngrAllocBlock s.pmm).2

theorem TableChange.maxBlocks {s' : Vmm} (h : TableChange s s' d i) :
    s'.pmm.maxBlocks = s.pmm.maxBlocks := by
  rcases h.pmm with heq | heq
  · rw [heq]
  · rw [heq, Pmm.maxBlocks_pmmngrAllocBlock]

/-- What `vmm_map_page` does to the directory before it writes the entry of the page. -/
structure TableReady (s s' : Vmm) (d i f flags : ℕ) : Prop where
  paging : Paging s' d
  fresh : Fresh (used s'.pmm) d (word s'.memory d) (lookup s'.memory d) f
  present : Present (word s'.memory d i)
  lookup : ∀ p < windowPage, lookup s'.memory d p = lookup s.memory d p
  user : entryHasFlag flags pageUser = true →
    entryHasFlag (word s'.memory d i) pageUser = true
  userKept : ∀ k < 1023, Present (word s.memory d k) →
    entryHasFlag (word s.memory d k) pageUser = true →
    entryHasFlag (word s'.memory d k) pageUser = true
  change : TableChange s s' d i

/-- A table that is there already. -/
theorem TableChange.of_present {m : Bytes} (hp : Present (word s.memory d i))
    (hpde : ∀ k < 1023, (Present (word m d k) ↔ Present (word s.memory d k)) ∧
      frameOf (word m d k) = frameOf (word s.memory d k)) (hi : i < 1023)
    (hbytes : ∀ g x, x < 4096 → g ≠ d → m (g * 4096 + x) = s.memory (g * 4096 + x)) :
    TableChange s { s with memory := m } d i where
  present := (hpde i hi).1.2 hp
  usedIff _ := ⟨Or.inl, fun h => h.resolve_right fun hno => hno.1 hp⟩
  free hno := absurd hp hno
  tables k hk _ := hpde k hk
  bytes g x hx hd _ := hbytes g x hx hd
  pmm := Or.inl rfl

/-- The table was there: its entry keeps its frame, and gets the user bit if asked. -/
theorem Paging.setUser (h : Paging s d) (hi : i < 1023) (hp : Present (word s.memory d i))
    (hf : Fresh (used s.pmm) d (word s.memory d) (lookup s.memory d) f) :
    TableReady s { s with
      memory := store32 s.memory (d * 4096 + 4 * i) (word s.memory d i ||| pageUser) }
      d i f flags := by
  obtain ⟨hlt, hpresent, hframe, huser⟩ := or_pageUser (word_lt s.memory d i)
  have hword : ∀ g l, l < 1024 → word (store32 s.memory (d * 4096 + 4 * i)
      (word s.memory d i ||| pageUser)) g l =
      if g = d ∧ l = i then word s.memory d i ||| pageUser else word s.memory g l :=
    fun g l hl => word_store32 _ (by omega) hl hlt
  have hpde : ∀ k < 1023, (Present (word (store32 s.memory (d * 4096 + 4 * i)
      (word s.memory d i ||| pageUser)) d k) ↔ Present (word s.memory d k)) ∧
      frameOf (word (store32 s.memory (d * 4096 + 4 * i)
        (word s.memory d i ||| pageUser)) d k) = frameOf (word s.memory d k) := by
    intro k hk
    rw [hword d k (by omega)]
    by_cases hki : k = i
    · rw [if_pos ⟨rfl, hki⟩, hki]
      exact ⟨hpresent, hframe⟩
    · rw [if_neg fun hc => hki hc.2]
      exact ⟨Iff.rfl, rfl⟩
  have hlookup : ∀ p < windowPage, lookup (store32 s.memory (d * 4096 + 4 * i)
      (word s.memory d i ||| pageUser)) d p = lookup s.memory d p := by
    intro p hpw
    have hpd := div_lt_of_lt_windowPage hpw
    refine lookup_congr (hpde _ hpd).1 fun hpp => ?_
    rw [(hpde _ hpd).2, hword _ _ (by omega), if_neg fun hc => h.table_ne hpd hpp hc.1]
  refine ⟨⟨h.cr3, ?_, h.owned.congr hpde hlookup, h.handout⟩, hf.congr hpde hlookup, ?_,
    hlookup, fun _ => ?_, fun k hk _ hu => ?_, .of_present hp hpde hi fun g x hx hg =>
      store32_of_apart _ _ (by omega)⟩
  · rw [Recursive, hword d 1023 (by decide), if_neg fun hc => by omega]
    exact h.recursive
  · exact (hpde i hi).1.2 hp
  · rw [hword d i (by omega), if_pos ⟨rfl, rfl⟩]
    exact huser
  · rw [hword d k (by omega)]
    split
    · exact huser
    · exact hu

/-- A new table: the frame `t` just allocated, cleared and entered. -/
theorem Paging.newTable {t x : ℕ} {pmm : Pmm} (h : Paging s d) (hi : i < 1023)
    (hp : ¬ Present (word s.memory d i))
    (hf : Fresh (used s.pmm) d (word s.memory d) (lookup s.memory d) f)
    (ht : t < 2 ^ 20) (hx : x < 4096) (hbit : x.testBit 0 = true)
    (hxuser : entryHasFlag flags pageUser = true → x.testBit 2 = true)
    (hfree : used s.pmm t = false) (hpmm : Handout pmm)
    (heq : pmm = (pmmngrAllocBlock s.pmm).2)
    (hused : ∀ g, used pmm g = (decide (g = t) || used s.pmm g)) :
    TableReady s { s with
      pmm := pmm
      memory := fill (store32 s.memory (d * 4096 + 4 * i) (t * 4096 + x)) (t * 4096) 0 4096 }
      d i f flags := by
  have hmono : ∀ g, used s.pmm g = true → used pmm g = true := by
    intro g hg
    rw [hused, hg, Bool.or_true]
  have hfresh : Fresh (used pmm) d (word s.memory d) (lookup s.memory d) t :=
    h.owned.fresh hfree (by rw [hused]; simp)
  have htf : t ≠ f := by
    rintro rfl
    exact absurd (hfree.symm.trans hf.used) (by decide)
  have hdt : d ≠ t := hfresh.dir.symm
  have hword : ∀ g l, l < 1024 → word (fill (store32 s.memory (d * 4096 + 4 * i)
      (t * 4096 + x)) (t * 4096) 0 4096) g l =
      if g = t then 0 else if g = d ∧ l = i then t * 4096 + x else word s.memory g l := by
    intro g l hl
    rw [word_fill _ hl, word_store32 _ (by omega) hl (by omega)]
  have hdir : ∀ k < 1024, word (fill (store32 s.memory (d * 4096 + 4 * i)
      (t * 4096 + x)) (t * 4096) 0 4096) d k =
      if k = i then t * 4096 + x else word s.memory d k := by
    intro k hk
    rw [hword d k hk, if_neg hdt]
    simp only [true_and]
  have hnew : Present (t * 4096 + x) := present_add t hx hbit
  have hlookup : ∀ p < windowPage, lookup (fill (store32 s.memory (d * 4096 + 4 * i)
      (t * 4096 + x)) (t * 4096) 0 4096) d p = lookup s.memory d p := by
    intro p hpw
    have hpd := div_lt_of_lt_windowPage hpw
    by_cases hpi : p / 1024 = i
    · -- the pages of the new table are absent, as they were before
      have habsent : lookup s.memory d p = none := by
        rw [lookup, hpi, if_neg hp]
      rw [habsent, lookup, hpi, hdir i (by omega), if_pos rfl, if_pos hnew, frameOf_add t hx,
        hword t _ (by omega), if_pos rfl]
      rfl
    · refine lookup_congr ?_ fun hpp => ?_
      · rw [hdir _ (by omega), if_neg hpi]
      · rw [hdir _ (by omega), if_neg hpi, hword _ _ (by omega),
          if_neg (hfresh.table _ hpd hpp), if_neg fun hc => h.table_ne hpd hpp hc.1]
  have hk : frameOf (word (fill (store32 s.memory (d * 4096 + 4 * i)
      (t * 4096 + x)) (t * 4096) 0 4096) d i) = t := by
    rw [hdir i (by omega), if_pos rfl, frameOf_add t hx]
  have hother : ∀ k < 1024, k ≠ i → word (fill (store32 s.memory (d * 4096 + 4 * i)
      (t * 4096 + x)) (t * 4096) 0 4096) d k = word s.memory d k := by
    intro k hk hki
    rw [hdir k hk, if_neg hki]
  have hother' := fun k (hk : k < 1023) => hother k (by omega)
  refine ⟨⟨h.cr3, ?_, ?_, hpmm⟩, ?_, ?_, hlookup, fun hu => ?_, fun k hk hpk hu => ?_,
    ⟨?_, fun g => ?_, fun _ => ?_, fun k hk hki => ?_, fun g x hx hg hgt => ?_,
      Or.inr heq⟩⟩
  · exact (hother 1023 (by omega) (by omega)).trans h.recursive
  · exact (h.owned.mono hmono).addTable hfresh hk hother' hlookup
  · exact (hf.mono hmono).addTable htf hk hother' hlookup
  · rw [hdir i (by omega), if_pos rfl]
    exact hnew
  · rw [hdir i (by omega), if_pos rfl, entryHasFlag_user, testBit_add t hx (by decide)]
    exact hxuser hu
  · rw [hother' k hk fun hki => hp (hki ▸ hpk)]
    exact hu
  · rw [hdir i (by omega), if_pos rfl]
    exact hnew
  · rw [hk, hused, Bool.or_eq_true, decide_eq_true_eq, or_comm, and_iff_right hp]
  · rw [hk]
    exact hfree
  · rw [hother' k hk (hki.resolve_right hp)]
    exact ⟨Iff.rfl, rfl⟩
  · rw [hk] at hgt
    dsimp only
    rw [fill_of_apart _ _ (by omega), store32_of_apart _ _ (by omega)]

/-- The allocation of a page table, if one is needed, succeeds. -/
def TableAvailable (s : Vmm) (d i : ℕ) : Prop :=
  ¬ Present (word s.memory d i) → (pmmngrAllocBlock s.pmm).1 ≠ 0

theorem flags_and_user_lt (flags : ℕ) : flags &&& pageUser < 4096 :=
  (Nat.and_le_right).trans_lt (by decide)

/-- The entry of a new table. -/
theorem newEntry_eq {t : ℕ} (flags : ℕ) :
    t * 4096 ||| pagePresent ||| pageWritable ||| (flags &&& pageUser) =
      t * 4096 + (3 ||| (flags &&& pageUser)) := by
  rw [Nat.or_assoc, Nat.or_assoc, ← Nat.or_assoc pagePresent,
    show pagePresent ||| pageWritable = 3 by decide,
    frame_or t (or_lt (by decide) (flags_and_user_lt flags))]

theorem newEntry_lt (flags : ℕ) : (3 ||| (flags &&& pageUser)) < 4096 :=
  or_lt (by decide) (flags_and_user_lt flags)

theorem present_newEntry (t flags : ℕ) : Present (t * 4096 + (3 ||| (flags &&& pageUser))) := by
  refine present_add t (newEntry_lt flags) ?_
  rw [Nat.testBit_or]
  rfl

/-- A table that is there, which gets the user bit if asked. -/
theorem ensureTable_of_present (flags : ℕ) (hcr3 : s.cr3 = d * 4096)
    (hrec : Recursive s.memory d) (hi : i < 1024) (hp : Present (word s.memory d i)) :
    ensureTable i flags s = some (true, if entryHasFlag flags pageUser = true then
      { s with memory := store32 s.memory (d * 4096 + 4 * i) (word s.memory d i ||| pageUser) }
      else s) := by
  have hp' : entryHasFlag (word s.memory d i) pagePresent = true := hp
  rw [ensureTable, read32_directory hcr3 hrec hi]
  by_cases hu : entryHasFlag flags pageUser = true
  · simp only [Option.bind_eq_bind, Option.bind_some, hp', Bool.not_true, Bool.false_eq_true,
      if_false, hu, if_true]
    rw [write32_directory hcr3 hrec hi]
    rfl
  · simp only [Option.bind_eq_bind, Option.bind_some, hp', Bool.not_true, Bool.false_eq_true,
      if_false, hu]
    rfl

/-- No frame for the table. -/
theorem ensureTable_of_null (hcr3 : s.cr3 = d * 4096) (hrec : Recursive s.memory d)
    (hi : i < 1024) (hp : ¬ Present (word s.memory d i))
    (hnull : (pmmngrAllocBlock s.pmm).1 = 0) :
    ensureTable i flags s = some (false, { s with pmm := (pmmngrAllocBlock s.pmm).2 }) := by
  have hp' : entryHasFlag (word s.memory d i) pagePresent = false := eq_false_of_ne_true hp
  rw [ensureTable, read32_directory hcr3 hrec hi]
  simp only [Option.bind_eq_bind, Option.bind_some, hp', Bool.not_false, if_true, hnull]
  rfl

/-- A new table is entered and then cleared through its window. -/
theorem ensureTable_of_new {t : ℕ} (hcr3 : s.cr3 = d * 4096) (hrec : Recursive s.memory d)
    (hi : i < 1024) (hp : ¬ Present (word s.memory d i))
    (hne : (pmmngrAllocBlock s.pmm).1 ≠ 0) (ht : (pmmngrAllocBlock s.pmm).1 = t * 4096) :
    ensureTable i flags s = (memset (tableWindow i) 0 pageSize { s with
      pmm := (pmmngrAllocBlock s.pmm).2
      memory := store32 s.memory (d * 4096 + 4 * i)
        (t * 4096 + (3 ||| (flags &&& pageUser))) }).bind fun s => some (true, s) := by
  have hp' : entryHasFlag (word s.memory d i) pagePresent = false := eq_false_of_ne_true hp
  rw [ensureTable, read32_directory hcr3 hrec hi]
  simp only [Option.bind_eq_bind, Option.bind_some, hp', Bool.not_false, if_true, hne, if_false]
  rw [write32_directory (s := { s with pmm := (pmmngrAllocBlock s.pmm).2 }) hcr3 hrec hi, ht,
    newEntry_eq]
  rfl

/-- The same for a frame other than that of the directory, where the window stands. -/
theorem ensureTable_of_new_table {t : ℕ} (flags : ℕ) (hcr3 : s.cr3 = d * 4096)
    (hrec : Recursive s.memory d) (hi : i < 1023) (hp : ¬ Present (word s.memory d i))
    (hne : (pmmngrAllocBlock s.pmm).1 ≠ 0) (ht : (pmmngrAllocBlock s.pmm).1 = t * 4096)
    (htlt : t < 2 ^ 20) (htd : t ≠ d) :
    ensureTable i flags s = some (true, { s with
      pmm := (pmmngrAllocBlock s.pmm).2
      memory := fill (store32 s.memory (d * 4096 + 4 * i)
        (t * 4096 + (3 ||| (flags &&& pageUser)))) (t * 4096) 0 4096 }) := by
  have hxlt := newEntry_lt flags
  have hword : ∀ k < 1024, word (store32 s.memory (d * 4096 + 4 * i)
      (t * 4096 + (3 ||| (flags &&& pageUser)))) d k =
      if d = d ∧ k = i then t * 4096 + (3 ||| (flags &&& pageUser)) else word s.memory d k :=
    fun k hk => word_store32 _ (by omega) hk (by omega)
  have hdir := hword i (by omega)
  rw [if_pos ⟨rfl, rfl⟩] at hdir
  have hrec' : Recursive (store32 s.memory (d * 4096 + 4 * i)
      (t * 4096 + (3 ||| (flags &&& pageUser)))) d := by
    rw [Recursive, hword 1023 (by decide), if_neg fun hc => by omega]
    exact hrec
  have hframe := frameOf_add t hxlt
  have hclear := memset_table (o := 0) (n := 4096) (x := 0) (i := i) (d := d)
    (s := { s with
      pmm := (pmmngrAllocBlock s.pmm).2
      memory := store32 s.memory (d * 4096 + 4 * i)
        (t * 4096 + (3 ||| (flags &&& pageUser))) }) hcr3 hrec' (by omega)
    (by rw [hdir]; exact present_newEntry t flags) (by rw [hdir, hframe]; exact htd) (by omega)
  simp only [hdir, hframe, Nat.add_zero] at hclear
  rw [ensureTable_of_new hcr3 hrec (by omega) hp hne ht, pageSize, hclear]
  rfl

theorem Paging.ensureTable (h : Paging s d) (hi : i < 1023)
    (hf : Fresh (used s.pmm) d (word s.memory d) (lookup s.memory d) f)
    (hav : TableAvailable s d i) :
    ∃ s', ensureTable i flags s = some (true, s') ∧ TableReady s s' d i f flags := by
  by_cases hp : Present (word s.memory d i)
  · refine ⟨_, ensureTable_of_present _ h.cr3 h.recursive (by omega) hp, ?_⟩
    split_ifs with hu
    · exact h.setUser hi hp hf
    · exact ⟨h, hf, hp, fun _ _ => rfl, fun hu' => absurd hu' hu, fun _ _ _ hk => hk,
        .of_present hp (fun _ _ => ⟨Iff.rfl, rfl⟩) hi fun _ _ _ _ => rfl⟩
  · obtain ⟨t, hlow, hlt, hfree, heq, hused, hpmm⟩ := h.handout.alloc (hav hp)
    have hbitu : entryHasFlag flags pageUser = true →
        (3 ||| (flags &&& pageUser)).testBit 2 = true := by
      intro hu
      rw [entryHasFlag_user] at hu
      rw [Nat.testBit_or, Nat.testBit_and, hu, show Nat.testBit pageUser 2 = true by decide]
      rfl
    have hbit : (3 ||| (flags &&& pageUser)).testBit 0 = true := by
      rw [Nat.testBit_or]
      rfl
    have htd : t ≠ d := by
      rintro rfl
      exact absurd (hfree.symm.trans h.owned.dir) (by decide)
    exact ⟨_, ensureTable_of_new_table _ h.cr3 h.recursive hi hp (hav hp) heq hlt htd,
      h.newTable hi hp hf hlt (newEntry_lt flags) hbit hbitu hfree hpmm rfl hused⟩

/-! ### The entry of a page -/

/-- Writing the entry of page `p` through the frame of its table. -/
theorem Paging.setEntry (h : Paging s d) {p x : ℕ} (hp : p < windowPage)
    (hpde : Present (word s.memory d (p / 1024))) (hx : x < 2 ^ 32) :
    (∀ k < 1024, word (store32 s.memory
        (frameOf (word s.memory d (p / 1024)) * 4096 + 4 * (p % 1024)) x) d k =
        word s.memory d k) ∧
      lookup (store32 s.memory
        (frameOf (word s.memory d (p / 1024)) * 4096 + 4 * (p % 1024)) x) d p =
        (if Present x then some x else none) ∧
      ∀ q < windowPage, q ≠ p → lookup (store32 s.memory
        (frameOf (word s.memory d (p / 1024)) * 4096 + 4 * (p % 1024)) x) d q =
        lookup s.memory d q := by
  have hi := div_lt_of_lt_windowPage hp
  have hne := h.table_ne hi hpde
  have hword : ∀ g l, l < 1024 → word (store32 s.memory
      (frameOf (word s.memory d (p / 1024)) * 4096 + 4 * (p % 1024)) x) g l =
      if g = frameOf (word s.memory d (p / 1024)) ∧ l = p % 1024 then x else word s.memory g l :=
    fun g l hl => word_store32 _ (by omega) hl hx
  have hdir : ∀ k < 1024, word (store32 s.memory
      (frameOf (word s.memory d (p / 1024)) * 4096 + 4 * (p % 1024)) x) d k =
      word s.memory d k := by
    intro k hk
    rw [hword d k hk, if_neg fun hc => hne hc.1.symm]
  refine ⟨hdir, ?_, fun q hq hqp => ?_⟩
  · have hpte := hword (frameOf (word s.memory d (p / 1024))) (p % 1024) (by omega)
    rw [if_pos ⟨rfl, rfl⟩] at hpte
    rw [lookup, hdir _ (by omega), if_pos hpde]
    simp only [hpte]
  · have hj := div_lt_of_lt_windowPage hq
    refine lookup_congr ?_ fun hqq => ?_
    · rw [hdir _ (by omega)]
    · rw [hdir _ (by omega), hword _ _ (by omega), if_neg]
      rintro ⟨hframe, hmod⟩
      have hdiv := h.owned.table_inj _ hj _ hi hqq hpde hframe
      omega

/-- Writing the entry once the table is there. -/
theorem vmmMapPage_of_table {s₁ : Vmm} {v : ℕ} (phys : ℕ) (hv : v / 4096 < windowPage)
    (hs₁ : ensureTable (v / 4096 / 1024) flags s = some (true, s₁)) (hcr3 : s₁.cr3 = d * 4096)
    (hrec : Recursive s₁.memory d) (hp : Present (word s₁.memory d (v / 4096 / 1024))) :
    vmmMapPage v phys flags s = some { s₁ with
      memory := store32 s₁.memory (frameOf (word s₁.memory d (v / 4096 / 1024)) * 4096 +
        4 * (v / 4096 % 1024)) (pageEntry phys flags) } := by
  have hi := div_lt_of_lt_windowPage hv
  rw [vmmMapPage, pdIndex_eq, ptIndex_eq, hs₁]
  simp only [Option.bind_eq_bind, Option.bind_some, if_true]
  exact write32_table hcr3 hrec (by omega) (by omega) hp

/-- Without a table nothing is mapped. -/
theorem vmmMapPage_of_noTable {s₁ : Vmm} {v phys : ℕ}
    (hs₁ : ensureTable (v / 4096 / 1024) flags s = some (false, s₁)) :
    vmmMapPage v phys flags s = some s₁ := by
  rw [vmmMapPage, pdIndex_eq, hs₁]
  rfl

/-- What `vmm_map_page` does to the address space. -/
structure Mapped (s s' : Vmm) (d p f flags : ℕ) : Prop where
  paging : Paging s' d
  entry : lookup s'.memory d p = some (pageEntry (f * 4096) flags)
  others : ∀ q < windowPage, q ≠ p → lookup s'.memory d q = lookup s.memory d q
  user : entryHasFlag flags pageUser = true →
    entryHasFlag (word s'.memory d (p / 1024)) pageUser = true
  userKept : ∀ k < 1023, Present (word s.memory d k) →
    entryHasFlag (word s.memory d k) pageUser = true →
    entryHasFlag (word s'.memory d k) pageUser = true
  change : TableChange s s' d (p / 1024)

theorem Paging.vmmMapPage {v : ℕ} (h : Paging s d) (hv : v / 4096 < windowPage)
    (hf : Fresh (used s.pmm) d (word s.memory d) (lookup s.memory d) f) (hlt : f < 2 ^ 20)
    (hflags : flags < 4096) (hav : TableAvailable s d (v / 4096 / 1024)) :
    ∃ s', vmmMapPage v (f * 4096) flags s = some s' ∧ Mapped s s' d (v / 4096) f flags := by
  have hi := div_lt_of_lt_windowPage hv
  have hensure : ∃ s₁, Vmm.ensureTable (v / 4096 / 1024) flags s = some (true, s₁) ∧
      TableReady s s₁ d (v / 4096 / 1024) f flags := h.ensureTable hi hf hav
  obtain ⟨s₁, hs₁, hready⟩ := hensure
  have hentry := pageEntry_eq hlt hflags
  have hpresent : Present (pageEntry (f * 4096) flags) := by
    rw [hentry]
    exact present_add f (or_lt hflags (by decide)) (testBit_zero_or_one flags)
  have hxlt : pageEntry (f * 4096) flags < 2 ^ 32 := by
    have hor := or_lt hflags (show 1 < 4096 by decide)
    omega
  obtain ⟨hdir, hsame, hothers⟩ := hready.paging.setEntry hv hready.present hxlt
  rw [if_pos hpresent] at hsame
  refine ⟨{ s₁ with memory := store32 s₁.memory (frameOf (word s₁.memory d (v / 4096 / 1024)) *
    4096 + 4 * (v / 4096 % 1024)) (pageEntry (f * 4096) flags) }, ?_, ⟨?_, ?_, ?_, ?_⟩, hsame,
    fun q hq hqp => ?_, fun hu => ?_, fun k hk hpk hu => ?_, ⟨?_, fun g => ?_, fun hno => ?_,
      fun k hk hki => ?_, fun g x hx hg hgt => ?_, hready.change.pmm⟩⟩
  · exact vmmMapPage_of_table _ hv hs₁ hready.paging.cr3 hready.paging.recursive hready.present
  · exact hready.paging.cr3
  · exact (hdir 1023 (by decide)).trans hready.paging.recursive
  · refine hready.paging.owned.map hready.fresh ?_ hsame (fun k hk => hdir k (by omega)) hothers
    rw [hentry, frameOf_add f (or_lt hflags (by decide))]
  · exact hready.paging.handout
  · rw [hothers q hq hqp, hready.lookup q hq]
  · rw [hdir _ (by omega)]
    exact hready.user hu
  · rw [hdir k (by omega)]
    exact hready.userKept k hk hpk hu
  · rw [hdir (v / 4096 / 1024) (by omega)]
    exact hready.present
  · rw [hdir (v / 4096 / 1024) (by omega)]
    exact hready.change.usedIff g
  · rw [hdir (v / 4096 / 1024) (by omega)]
    exact hready.change.free hno
  · rw [hdir k (by omega)]
    exact hready.change.tables k hk hki
  · rw [hdir (v / 4096 / 1024) (by omega)] at hgt
    dsimp only
    rw [store32_of_apart _ _ (by omega)]
    exact hready.change.bytes g x hx hg hgt

/-- `vmm_unmap_page` of a page that is not mapped does nothing. -/
theorem Paging.vmmUnmapPage_none {v : ℕ} (h : Paging s d) (hv : v / 4096 < windowPage)
    (hnone : lookup s.memory d (v / 4096) = none) : vmmUnmapPage v s = some s := by
  have hi := div_lt_of_lt_windowPage hv
  rw [Vmm.vmmUnmapPage, pdIndex_eq, ptIndex_eq, read32_directory h.cr3 h.recursive (by omega)]
  simp only [Option.bind_eq_bind, Option.bind_some]
  by_cases hp : Present (word s.memory d (v / 4096 / 1024))
  · rw [show entryHasFlag (word s.memory d (v / 4096 / 1024)) pagePresent = true from hp,
      read32_table h.cr3 h.recursive (by omega) (by omega) hp]
    have hpte : ¬ Present (word s.memory (frameOf (word s.memory d (v / 4096 / 1024)))
        (v / 4096 % 1024)) := by
      intro hpte
      have hsome := lookup_eq_some.2 ⟨hp, hpte, rfl⟩
      rw [hnone] at hsome
      exact absurd hsome (by simp)
    simp only [Bool.not_true, Bool.false_eq_true, if_false, Option.bind_some,
      show entryHasFlag (word s.memory (frameOf (word s.memory d (v / 4096 / 1024)))
        (v / 4096 % 1024)) pagePresent = false from eq_false_of_ne_true hpte, Bool.not_false,
      if_true]
    rfl
  · simp only [show entryHasFlag (word s.memory d (v / 4096 / 1024)) pagePresent = false from
      eq_false_of_ne_true hp, Bool.not_false, if_true]
    rfl

/-- What `vmm_unmap_page` does to a mapped page. -/
structure Unmapped (s s' : Vmm) (d p : ℕ) : Prop where
  paging : Paging s' d
  entry : lookup s'.memory d p = none
  others : ∀ q < windowPage, q ≠ p → lookup s'.memory d q = lookup s.memory d q
  user : ∀ k < 1023, word s'.memory d k = word s.memory d k
  usedEq : ∀ x, lookup s.memory d p = some x → ∀ g,
    used s'.pmm g = (!decide (g = frameOf x) && used s.pmm g)
  maxBlocks : s'.pmm.maxBlocks = s.pmm.maxBlocks

theorem Paging.vmmUnmapPage {v x : ℕ} (h : Paging s d) (hv : v / 4096 < windowPage)
    (hx : lookup s.memory d (v / 4096) = some x) (hframe : 1024 ≤ frameOf x) :
    ∃ s', vmmUnmapPage v s = some s' ∧ Unmapped s s' d (v / 4096) := by
  have hi := div_lt_of_lt_windowPage hv
  obtain ⟨hp, hpte, rfl⟩ := lookup_eq_some.1 hx
  have hpte' : entryHasFlag (word s.memory (frameOf (word s.memory d (v / 4096 / 1024)))
    (v / 4096 % 1024)) pagePresent = true := hpte
  have hp' : entryHasFlag (word s.memory d (v / 4096 / 1024)) pagePresent = true := hp
  obtain ⟨hdir, hsame, hothers⟩ := h.setEntry hv hp (x := 0) (by decide)
  rw [if_neg (by decide)] at hsame
  have hmod := entryGetFrame_eq (word_lt s.memory (frameOf (word s.memory d (v / 4096 / 1024)))
    (v / 4096 % 1024))
  have hfit := frameOf_lt (word_lt s.memory (frameOf (word s.memory d (v / 4096 / 1024)))
    (v / 4096 % 1024))
  refine ⟨{ s with
    memory := store32 s.memory (frameOf (word s.memory d (v / 4096 / 1024)) * 4096 +
      4 * (v / 4096 % 1024)) 0
    pmm := pmmngrFreeBlock (entryGetFrame (word s.memory
      (frameOf (word s.memory d (v / 4096 / 1024))) (v / 4096 % 1024))) s.pmm },
    ?_, ⟨h.cr3, ?_, ?_, ?_⟩, hsame, hothers, fun k hk => hdir k (by omega), fun x hx' g => ?_,
    Pmm.maxBlocks_pmmngrFreeBlock _ _⟩
  · rw [Vmm.vmmUnmapPage, pdIndex_eq, ptIndex_eq, read32_directory h.cr3 h.recursive (by omega)]
    simp only [Option.bind_eq_bind, Option.bind_some, hp', Bool.not_true, Bool.false_eq_true,
      if_false]
    rw [read32_table h.cr3 h.recursive (by omega) (by omega) hp]
    simp only [Option.bind_some, hpte', Bool.not_true, Bool.false_eq_true, if_false]
    rw [write32_table h.cr3 h.recursive (by omega) (by omega) hp]
    rfl
  · exact (hdir 1023 (by decide)).trans h.recursive
  · refine h.owned.unmap hv hx hsame (fun k hk => hdir k (by omega)) hothers fun g hg => ?_
    have hne : g ≠ entryGetFrame (word s.memory (frameOf (word s.memory d (v / 4096 / 1024)))
        (v / 4096 % 1024)) / 4096 := by
      rw [hmod, Nat.mul_div_cancel _ (by decide)]
      exact hg
    rw [Pmm.used_pmmngrFreeBlock, decide_eq_false hne, Bool.not_false, Bool.true_and]
  · refine h.handout.free ?_ ?_
    · rw [hmod, Nat.mul_div_cancel _ (by decide)]
      exact hframe
    · rw [hmod, Nat.mul_div_cancel _ (by decide)]
      exact hfit
  · obtain rfl := Option.some.inj (hx.symm.trans hx')
    rw [Pmm.used_pmmngrFreeBlock, hmod, Nat.mul_div_cancel _ (by decide)]

end Steps

end Vmm

end Yotos
