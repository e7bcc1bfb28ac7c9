import Yotos.Library.Run
import Yotos.Vmm.Init

/-!
# The page tables refine a flat map

The purpose of the tables is a map from pages to a frame and flags: `vmm_alloc_page`
sets it at one page to the frame just allocated, `vmm_unmap_page` clears it at one page.
A run of these calls on pages between 4 MiB and the recursive window follows that map
step by step, with the identity mapping of the first 4 MiB untouched and every frame in
one role only, exactly when the word that `vmm_init` leaves in entry 0 of the first
table does no harm: page 0 lies outside the map, but it is mapped when that word says so.
-/

namespace Yotos

namespace Vmm

open Bytes Library
open Pmm (used pmmngrAllocBlock pmmngrFreeBlock)

/-- What a page is mapped to. -/
structure Mapping where
  frame : ℕ
  flags : ℕ

/-- The abstract address space: a mapping for each page. -/
abbrev Flat := ℕ → Option Mapping

def Flat.set (flat : Flat) (p : ℕ) (x : Option Mapping) : Flat :=
  fun q => if q = p then x else flat q

theorem Flat.set_self (flat : Flat) (p : ℕ) (x : Option Mapping) : flat.set p x p = x :=
  if_pos rfl

theorem Flat.set_of_ne (flat : Flat) (x : Option Mapping) {p q : ℕ} (h : q ≠ p) :
    flat.set p x q = flat q :=
  if_neg h

/-- The calls of a run. -/
inductive Call
  | alloc (v flags : ℕ)
  | unmap (v : ℕ)

/-- Addresses between 4 MiB and the recursive window, and flags in the low 12 bits. -/
def Call.InRange : Call → Prop
  | .alloc v flags => 0x400000 ≤ v ∧ v < 0xFFC00000 ∧ flags < 0x1000
  | .unmap v => 0x400000 ≤ v ∧ v < 0xFFC00000

/-- One call, on the machine and on the flat map. The frame is the one that the
allocator hands out to the call. -/
def step (x : Vmm × Flat) : Call → Option (Vmm × Flat)
  | .alloc v flags => do
      let (_, s) ← vmmAllocPage v flags x.1
      return (s, x.2.set (v / 4096) (some ⟨frameOf (pmmngrAllocBlock x.1.pmm).1, flags⟩))
  | .unmap v => do
      let s ← vmmUnmapPage v x.1
      return (s, x.2.set (v / 4096) none)

/-- The frame allocations that the call makes succeed. -/
def NoFailure (x : Vmm × Flat) : Call → Prop
  | .alloc v _ => (pmmngrAllocBlock x.1.pmm).1 ≠ 0 ∧
      (entryHasFlag (load32 x.1.memory (x.1.cr3 + 4 * pdIndex v)) pagePresent = false →
        (pmmngrAllocBlock (pmmngrAllocBlock x.1.pmm).2).1 ≠ 0)
  | .unmap _ => True

/-- The directory entry of an address. -/
def pdeAt (s : Vmm) (v : ℕ) : ℕ := load32 s.memory (s.cr3 + 4 * pdIndex v)

/-- The table entry of an address. -/
def pteAt (s : Vmm) (v : ℕ) : ℕ := load32 s.memory (entryGetFrame (pdeAt s v) + 4 * ptIndex v)

/-- Ring 3 may use the page: both levels say so. -/
def userAccessible (s : Vmm) (v : ℕ) : Bool :=
  entryHasFlag (pdeAt s v) pageUser && entryHasFlag (pteAt s v) pageUser

/-- The state of the tables, compared with the flat map. -/
structure Refines (s : Vmm) (flat : Flat) : Prop where
  translate : ∀ v, 0x400000 ≤ v → v < 0xFFC00000 →
    mmu s.memory s.cr3 v = (flat (v / 4096)).map fun x => x.frame * 4096 + v % 4096
  flags : ∀ v, 0x400000 ≤ v → v < 0xFFC00000 → ∀ x, flat (v / 4096) = some x →
    pteAt s v = pageEntry (x.frame * 4096) x.flags
  user : ∀ v, 0x400000 ≤ v → v < 0xFFC00000 → ∀ x, flat (v / 4096) = some x →
    userAccessible s v = entryHasFlag x.flags pageUser
  identity : ∀ v, 0x1000 ≤ v → v < 0x400000 → mmu s.memory s.cr3 v = some v ∧
    pteAt s v = v / 4096 * 4096 + 3
  distinct : ∀ v w a b, v < 0xFFC00000 → w < 0xFFC00000 → mmu s.memory s.cr3 v = some a →
    mmu s.memory s.cr3 w = some b → a / 4096 = b / 4096 → v / 4096 = w / 4096
  roles : ∀ v a, v < 0xFFC00000 → mmu s.memory s.cr3 v = some a →
    a / 4096 * 4096 ≠ s.cr3 ∧ used s.pmm (a / 4096) = true ∧
      ∀ w < 0xFFC00000, entryHasFlag (pdeAt s w) pagePresent = true →
        a / 4096 * 4096 ≠ entryGetFrame (pdeAt s w)

/-- The stale entry of page 0 is absent, or its frame has no other role: it is no
identity-mapped frame, not the directory, not the first table, and marked used. -/
def PageZeroOk (memory : Bytes) (pmm : Pmm) : Prop :=
  Present (staleEntry memory pmm) →
    ¬ (1 ≤ frameOf (staleEntry memory pmm) ∧ frameOf (staleEntry memory pmm) < 1024) ∧
      frameOf (staleEntry memory pmm) ≠ directoryFrame pmm ∧
      frameOf (staleEntry memory pmm) ≠ firstTableFrame pmm ∧
      used (afterInit pmm) (frameOf (staleEntry memory pmm)) = true

/-! ### The invariant -/

/-- The invariant of a run, in terms of frames and page numbers. -/
structure Tracks (d : ℕ) (s : Vmm) (flat : Flat) : Prop where
  paging : Paging s d
  identity : ∀ p, 1 ≤ p → p < 1024 → lookup s.memory d p = some (p * 4096 + 3)
  entries : ∀ p, 1024 ≤ p → p < windowPage →
    lookup s.memory d p = (flat p).map fun x => pageEntry (x.frame * 4096) x.flags
  bounds : ∀ p x, flat p = some x → 1024 ≤ x.frame ∧ x.frame < 2 ^ 20 ∧ x.flags < 4096
  user : ∀ p, 1024 ≤ p → p < windowPage → ∀ x, flat p = some x →
    entryHasFlag x.flags pageUser = true → entryHasFlag (word s.memory d (p / 1024)) pageUser = true

theorem page_bounds {v : ℕ} (hlow : 0x400000 ≤ v) (hhigh : v < 0xFFC00000) :
    1024 ≤ v / 4096 ∧ v / 4096 < windowPage := by
  unfold windowPage
  omega

section Invariant

variable {d : ℕ} {s : Vmm} {flat : Flat}

theorem Paging.pdeAt_eq (h : Paging s d) (v : ℕ) :
    pdeAt s v = word s.memory d (v / 4096 / 1024) := by
  rw [pdeAt, h.cr3, pdIndex_eq]
  rfl

theorem Paging.pteAt_eq (h : Paging s d) {v e : ℕ}
    (he : lookup s.memory d (v / 4096) = some e) : pteAt s v = e := by
  obtain ⟨-, -, rfl⟩ := lookup_eq_some.1 he
  rw [pteAt, h.pdeAt_eq, entryGetFrame_eq (word_lt _ _ _), ptIndex_eq]
  rfl

theorem Paging.mmu_eq (h : Paging s d) (v : ℕ) :
    mmu s.memory s.cr3 v =
      (lookup s.memory d (v / 4096)).map fun e => frameOf e * 4096 + v % 4096 := by
  rw [h.cr3]
  exact Vmm.mmu_eq _ _ _

/-- An address of a page translates to the frame of its entry. -/
theorem Paging.exists_entry (h : Paging s d) {v a : ℕ} (ha : mmu s.memory s.cr3 v = some a) :
    ∃ e, lookup s.memory d (v / 4096) = some e ∧ a / 4096 = frameOf e := by
  rw [h.mmu_eq, Option.map_eq_some_iff] at ha
  obtain ⟨e, he, rfl⟩ := ha
  refine ⟨e, he, ?_⟩
  omega

theorem Tracks.refines (h : Tracks d s flat) : Refines s flat := by
  have hentry : ∀ v, 0x400000 ≤ v → v < 0xFFC00000 → ∀ x, flat (v / 4096) = some x →
      lookup s.memory d (v / 4096) = some (pageEntry (x.frame * 4096) x.flags) := by
    intro v hlow hhigh x hx
    obtain ⟨hp, hp'⟩ := page_bounds hlow hhigh
    rw [h.entries _ hp hp', hx, Option.map_some]
  constructor
  case translate =>
    intro v hlow hhigh
    obtain ⟨hp, hp'⟩ := page_bounds hlow hhigh
    rw [h.paging.mmu_eq, h.entries _ hp hp', Option.map_map]
    cases hx : flat (v / 4096) with
    | none => rw [Option.map_none, Option.map_none]
    | some x =>
        obtain ⟨-, hf, hfl⟩ := h.bounds _ x hx
        simp only [Option.map_some, Function.comp_apply, pageEntry_eq hf hfl,
          frameOf_add _ (or_lt hfl (show 1 < 4096 by decide))]
  case flags => exact fun v hlow hhigh x hx => h.paging.pteAt_eq (hentry v hlow hhigh x hx)
  case user =>
    intro v hlow hhigh x hx
    obtain ⟨hp, hp'⟩ := page_bounds hlow hhigh
    obtain ⟨-, hf, hfl⟩ := h.bounds _ x hx
    rw [userAccessible, h.paging.pteAt_eq (hentry v hlow hhigh x hx), user_pageEntry hf hfl,
      h.paging.pdeAt_eq]
    cases hu : entryHasFlag x.flags pageUser with
    | false => exact Bool.and_false _
    | true => rw [h.user _ hp hp' x hx hu, Bool.and_true]
  case identity =>
    intro v hlow hhigh
    have he := h.identity (v / 4096) (by omega) (by omega)
    refine ⟨?_, h.paging.pteAt_eq he⟩
    rw [h.paging.mmu_eq, he, Option.map_some, frameOf_add _ (by decide)]
    congr 1
    omega
  case distinct =>
    intro v w a b hv hw ha hb hab
    obtain ⟨e, he, hae⟩ := h.paging.exists_entry ha
    obtain ⟨e', he', hbe⟩ := h.paging.exists_entry hb
    exact h.paging.owned.distinct _ (by unfold windowPage; omega) _ (by unfold windowPage; omega)
      e e' he he' (by rw [← hae, ← hbe, hab])
  case roles =>
    intro v a hv ha
    obtain ⟨e, he, hae⟩ := h.paging.exists_entry ha
    obtain ⟨hu, hd, ht⟩ := h.paging.owned.mapped _ (by unfold windowPage; omega) e he
    rw [hae, h.paging.cr3]
    refine ⟨by omega, hu, fun w hw hp => ?_⟩
    rw [h.paging.pdeAt_eq] at hp ⊢
    rw [entryGetFrame_eq (word_lt _ _ _)]
    have hne := ht (w / 4096 / 1024) (by omega) hp
    omega

/-! ### Steps -/

theorem Tracks.alloc {v flags : ℕ} (h : Tracks d s flat) (hlow : 0x400000 ≤ v)
    (hhigh : v < 0xFFC00000) (hflags : flags < 0x1000) (hno : NoFailure (s, flat) (.alloc v flags)) :
    ∃ s', step (s, flat) (.alloc v flags) =
        some (s', flat.set (v / 4096) (some ⟨frameOf (pmmngrAllocBlock s.pmm).1, flags⟩)) ∧
      Tracks d s' (flat.set (v / 4096) (some ⟨frameOf (pmmngrAllocBlock s.pmm).1, flags⟩)) := by
  obtain ⟨hp, hp'⟩ := page_bounds hlow hhigh
  obtain ⟨hne, htable⟩ := hno
  obtain ⟨f, hf, hflt, hfree, heq, hused, hpmm⟩ := h.paging.handout.alloc hne
  have hframe : frameOf (pmmngrAllocBlock s.pmm).1 = f := by
    rw [heq]
    exact Nat.mul_div_cancel f (by decide)
  -- the data frame is taken before the tables are touched
  have htaken : Paging { s with pmm := (pmmngrAllocBlock s.pmm).2 } d :=
    ⟨h.paging.cr3, h.paging.recursive,
      h.paging.owned.mono fun g hg => by rw [hused, hg, Bool.or_true], hpmm⟩
  have hfresh : Fresh (used (pmmngrAllocBlock s.pmm).2) d (word s.memory d)
      (lookup s.memory d) f := h.paging.owned.fresh hfree (by rw [hused]; simp)
  have hav : TableAvailable { s with pmm := (pmmngrAllocBlock s.pmm).2 } d (v / 4096 / 1024) := by
    intro habsent
    apply htable
    change entryHasFlag (pdeAt s v) pagePresent = false
    rw [h.paging.pdeAt_eq]
    exact eq_false_of_ne_true habsent
  obtain ⟨s', hs', hmapped⟩ := htaken.vmmMapPage hp' hfresh hflt hflags hav
  refine ⟨s', ?_, hmapped.paging, ?_, ?_, ?_, ?_⟩
  · have hcall : vmmAllocPage v flags s = some (v, s') := by
      have hpos : f * 4096 ≠ 0 := by omega
      simp only [vmmAllocPage, heq, hpos, if_false, Option.bind_eq_bind, hs', Option.bind_some]
      rfl
    rw [step, hcall]
    rfl
  · intro p hp₁ hp₂
    rw [hmapped.others p (by unfold windowPage; omega) (by omega)]
    exact h.identity p hp₁ hp₂
  · intro p hp₁ hp₂
    by_cases hpv : p = v / 4096
    · rw [hpv, hmapped.entry, Flat.set_self, Option.map_some, hframe]
    · rw [hmapped.others p hp₂ hpv, Flat.set_of_ne _ _ hpv]
      exact h.entries p hp₁ hp₂
  · intro p x hx
    by_cases hpv : p = v / 4096
    · rw [hpv, Flat.set_self] at hx
      obtain rfl := Option.some.inj hx
      rw [hframe]
      exact ⟨hf, hflt, hflags⟩
    · rw [Flat.set_of_ne _ _ hpv] at hx
      exact h.bounds p x hx
  · intro p hp₁ hp₂ x hx hu
    by_cases hpv : p = v / 4096
    · rw [hpv, Flat.set_self] at hx
      obtain rfl := Option.some.inj hx
      rw [hpv]
      exact hmapped.user hu
    · rw [Flat.set_of_ne _ _ hpv] at hx
      have hpresent : Present (word s.memory d (p / 1024)) := by
        have he := h.entries p hp₁ hp₂
        rw [hx, Option.map_some] at he
        exact (lookup_eq_some.1 he).1
      exact hmapped.userKept _ (div_lt_of_lt_windowPage hp₂) hpresent (h.user p hp₁ hp₂ x hx hu)

theorem Tracks.unmap {v : ℕ} (h : Tracks d s flat) (hlow : 0x400000 ≤ v)
    (hhigh : v < 0xFFC00000) :
    ∃ s', step (s, flat) (.unmap v) = some (s', flat.set (v / 4096) none) ∧
      Tracks d s' (flat.set (v / 4096) none) := by
  obtain ⟨hp, hp'⟩ := page_bounds hlow hhigh
  have hentry := h.entries _ hp hp'
  cases hx : flat (v / 4096) with
  | none =>
      rw [hx, Option.map_none] at hentry
      have hsame : flat.set (v / 4096) none = flat := by
        funext q
        by_cases hq : q = v / 4096
        · rw [hq, Flat.set_self, hx]
        · rw [Flat.set_of_ne _ _ hq]
      refine ⟨s, ?_, ?_⟩
      · rw [step, h.paging.vmmUnmapPage_none hp' hentry]
        rfl
      · rw [hsame]
        exact h
  | some x =>
      rw [hx, Option.map_some] at hentry
      obtain ⟨hf, hflt, hfl⟩ := h.bounds _ x hx
      obtain ⟨s', hs', hunmapped⟩ := h.paging.vmmUnmapPage hp' hentry (by
        rw [pageEntry_eq hflt hfl, frameOf_add _ (or_lt hfl (show 1 < 4096 by decide))]
        exact hf)
      refine ⟨s', ?_, hunmapped.paging, ?_, ?_, ?_, ?_⟩
      · rw [step, hs']
        rfl
      · intro p hp₁ hp₂
        rw [hunmapped.others p (by unfold windowPage; omega) (by omega)]
        exact h.identity p hp₁ hp₂
      · intro p hp₁ hp₂
        by_cases hpv : p = v / 4096
        · rw [hpv, hunmapped.entry, Flat.set_self, Option.map_none]
        · rw [hunmapped.others p hp₂ hpv, Flat.set_of_ne _ _ hpv]
          exact h.entries p hp₁ hp₂
      · intro p y hy
        by_cases hpv : p = v / 4096
        · rw [hpv, Flat.set_self] at hy
          exact absurd hy (by simp)
        · rw [Flat.set_of_ne _ _ hpv] at hy
          exact h.bounds p y hy
      · intro p hp₁ hp₂ y hy hu
        by_cases hpv : p = v / 4096
        · rw [hpv, Flat.set_self] at hy
          exact absurd hy (by simp)
        · rw [Flat.set_of_ne _ _ hpv] at hy
          rw [hunmapped.user _ (div_lt_of_lt_windowPage hp₂)]
          exact h.user p hp₁ hp₂ y hy hu

/-- A run of calls whose allocations succeed never faults and follows the flat map. -/
theorem Tracks.run {calls : List Call} (h : Tracks d s flat)
    (hrange : ∀ c ∈ calls, c.InRange) (hno : AllSteps step NoFailure (s, flat) calls) :
    ∃ s' flat', run step (s, flat) calls = some (s', flat') ∧ Tracks d s' flat' := by
  induction calls generalizing s flat with
  | nil => exact ⟨s, flat, rfl, h⟩
  | cons c calls ih =>
      have hc := hrange c List.mem_cons_self
      have hnext : ∃ s' flat', step (s, flat) c = some (s', flat') ∧ Tracks d s' flat' := by
        cases c with
        | alloc v flags =>
            obtain ⟨s', hs', htracks⟩ := h.alloc hc.1 hc.2.1 hc.2.2 hno.1
            exact ⟨s', _, hs', htracks⟩
        | unmap v =>
            obtain ⟨s', hs', htracks⟩ := h.unmap hc.1 hc.2
            exact ⟨s', _, hs', htracks⟩
      obtain ⟨s', flat', hs', htracks⟩ := hnext
      obtain ⟨s'', flat'', hrun, hfinal⟩ :=
        ih htracks (fun c' hc' => hrange c' (List.mem_cons_of_mem _ hc')) (hno.2 _ hs')
      exact ⟨s'', flat'', run_cons_eq_some.2 ⟨_, hs', hrun⟩, hfinal⟩

end Invariant

/-! ### The directory of `vmm_init` -/

/-- The two frames that `vmm_init` takes. -/
theorem InitSucceeds.frames {pmm : Pmm} (h : InitSucceeds pmm) (hpmm : Handout pmm) :
    1024 ≤ directoryFrame pmm ∧ directoryFrame pmm < 2 ^ 20 ∧ 1024 ≤ firstTableFrame pmm ∧
      firstTableFrame pmm < 2 ^ 20 ∧ firstTableFrame pmm ≠ directoryFrame pmm ∧
      used (afterInit pmm) (directoryFrame pmm) = true ∧
      used (afterInit pmm) (firstTableFrame pmm) = true ∧ Handout (afterInit pmm) ∧
      (pmmngrAllocBlock pmm).1 = directoryFrame pmm * 4096 ∧
      (pmmngrAllocBlock (pmmngrAllocBlock pmm).2).1 = firstTableFrame pmm * 4096 := by
  obtain ⟨d, hd, hdlt, -, hdeq, hdused, hpmm₁⟩ := hpmm.alloc h.1
  obtain ⟨t, ht, htlt, htfree, hteq, htused, hpmm₂⟩ := hpmm₁.alloc h.2
  have hdir : directoryFrame pmm = d := by
    rw [directoryFrame, hdeq]
    exact Nat.mul_div_cancel d (by decide)
  have htab : firstTableFrame pmm = t := by
    rw [firstTableFrame, hteq]
    exact Nat.mul_div_cancel t (by decide)
  have hdtaken : used (pmmngrAllocBlock pmm).2 d = true := by
    rw [hdused]
    simp
  rw [hdir, htab, afterInit]
  refine ⟨hd, hdlt, ht, htlt, ?_, ?_, ?_, hpmm₂, hdeq, hteq⟩
  · rintro rfl
    exact absurd (htfree.symm.trans hdtaken) (by decide)
  · rw [htused, hdtaken, Bool.or_true]
  · rw [htused]
    simp

theorem InitSucceeds.initial {pmm : Pmm} (h : InitSucceeds pmm) (hpmm : Handout pmm)
    (memory : Bytes) :
    Initial (vmmInit memory pmm) (directoryFrame pmm) (firstTableFrame pmm)
        (staleEntry memory pmm) ∧ (vmmInit memory pmm).pmm = afterInit pmm := by
  obtain ⟨-, hdlt, ht, htlt, hne, -, -, -, hdeq, hteq⟩ := h.frames hpmm
  exact initial_vmmInit hdeq hdlt hteq htlt (by omega) hne

/-- With a harmless stale entry, the directory of `vmm_init` starts a run. -/
theorem PageZeroOk.tracks {memory : Bytes} {pmm : Pmm} (hok : PageZeroOk memory pmm)
    (h : InitSucceeds pmm) (hpmm : Handout pmm) :
    Tracks (directoryFrame pmm) (vmmInit memory pmm) fun _ => none := by
  obtain ⟨hd, hdlt, ht, htlt, hne, hdu, htu, hpmm', -, -⟩ := h.frames hpmm
  obtain ⟨hinit, hafter⟩ := h.initial hpmm memory
  -- the entry of a page below the window: page 0 is stale, the rest of 4 MiB is identity
  have hcases : ∀ p < windowPage, ∀ e, lookup (vmmInit memory pmm).memory
      (directoryFrame pmm) p = some e →
      (p = 0 ∧ Present (staleEntry memory pmm) ∧ e = staleEntry memory pmm) ∨
        (1 ≤ p ∧ p < 1024 ∧ frameOf e = p) := by
    intro p hp e he
    by_cases hp0 : p = 0
    · rw [hp0, hinit.lookup_zero] at he
      obtain ⟨hpresent, heq⟩ := Option.ite_none_right_eq_some.1 he
      exact Or.inl ⟨hp0, hpresent, (Option.some.inj heq).symm⟩
    · by_cases hlow : p < 1024
      · rw [hinit.lookup_identity (by omega) hlow] at he
        obtain rfl := Option.some.inj he
        exact Or.inr ⟨by omega, hlow, frameOf_add p (by decide)⟩
      · rw [hinit.lookup_none (by omega) hp] at he
        exact absurd he (by simp)
  refine ⟨⟨hinit.cr3, hinit.recursive, ⟨?_, ?_, ?_, ?_, ?_⟩, ?_⟩, ?_, ?_, ?_, ?_⟩
  · rw [hafter]
    exact hdu
  · intro i hi hp
    obtain rfl := (hinit.present_iff hi).1 hp
    rw [hinit.frameOf_table, hafter]
    exact ⟨htu, hne⟩
  · intro i hi j hj hpi hpj _
    rw [(hinit.present_iff hi).1 hpi, (hinit.present_iff hj).1 hpj]
  · intro p hp e he
    rw [hafter]
    have htable : ∀ i < 1023, Present (word (vmmInit memory pmm).memory (directoryFrame pmm) i) →
        frameOf (word (vmmInit memory pmm).memory (directoryFrame pmm) i) = firstTableFrame pmm := by
      intro i hi hpi
      obtain rfl := (hinit.present_iff hi).1 hpi
      exact hinit.frameOf_table
    rcases hcases p hp e he with ⟨-, hpresent, rfl⟩ | ⟨hlow, hlt, hframe⟩
    · obtain ⟨-, hd', ht', hu'⟩ := hok hpresent
      refine ⟨hu', hd', fun i hi hpi => ?_⟩
      rw [htable i hi hpi]
      exact ht'.symm
    · rw [hframe]
      refine ⟨hpmm'.reserved p hlt, by omega, fun i hi hpi => ?_⟩
      rw [htable i hi hpi]
      omega
  · intro p hp q hq e e' he he' heq
    rcases hcases p hp e he with ⟨rfl, hpresent, rfl⟩ | ⟨hlow, hlt, hframe⟩ <;>
      rcases hcases q hq e' he' with ⟨rfl, hpresent', rfl⟩ | ⟨hlow', hlt', hframe'⟩
    · rfl
    · have hno := (hok hpresent).1
      omega
    · have hno := (hok hpresent').1
      omega
    · omega
  · rw [hafter]
    exact hpmm'
  · intro p hp hlt
    exact hinit.lookup_identity hp hlt
  · intro p hp hlt
    rw [hinit.lookup_none hp hlt]
    rfl
  · exact fun p x hx => absurd hx (by simp)
  · exact fun p _ _ x hx => absurd hx (by simp)

/-- A stale entry that is in the way breaks the state right after `vmm_init`. -/
theorem Refines.pageZeroOk {memory : Bytes} {pmm : Pmm} {flat : Flat}
    (hrefines : Refines (vmmInit memory pmm) flat) (h : InitSucceeds pmm) (hpmm : Handout pmm) :
    PageZeroOk memory pmm := by
  intro hpresent
  obtain ⟨hd, hdlt, ht, htlt, hne, hdu, htu, hpmm', -, -⟩ := h.frames hpmm
  obtain ⟨hinit, hafter⟩ := h.initial hpmm memory
  have hpde : ∀ v, pdeAt (vmmInit memory pmm) v =
      word (vmmInit memory pmm).memory (directoryFrame pmm) (v / 4096 / 1024) := by
    intro v
    rw [pdeAt, hinit.cr3, pdIndex_eq]
    rfl
  have hzero : mmu (vmmInit memory pmm).memory (vmmInit memory pmm).cr3 0 =
      some (frameOf (staleEntry memory pmm) * 4096) := by
    rw [hinit.cr3, mmu_eq, Nat.zero_div, hinit.lookup_zero, if_pos hpresent, Option.map_some,
      Nat.zero_mod, Nat.add_zero]
  have hdiv : frameOf (staleEntry memory pmm) * 4096 / 4096 = frameOf (staleEntry memory pmm) :=
    Nat.mul_div_cancel _ (by decide)
  obtain ⟨hcr3, hu, htab⟩ := hrefines.roles 0 _ (by decide) hzero
  rw [hdiv] at hcr3 hu htab
  refine ⟨?_, ?_, ?_, hafter ▸ hu⟩
  · rintro ⟨hlow, hlt⟩
    -- the identity page of that frame is another page
    have hid := (hrefines.identity (frameOf (staleEntry memory pmm) * 4096) (by omega)
      (by omega)).1
    have hpage := hrefines.distinct 0 (frameOf (staleEntry memory pmm) * 4096) _ _ (by decide)
      (by omega) hzero hid rfl
    omega
  · intro heq
    rw [hinit.cr3, heq] at hcr3
    exact hcr3 rfl
  · intro heq
    have hp0 : Present (word (vmmInit memory pmm).memory (directoryFrame pmm) 0) :=
      (hinit.present_iff (by decide)).2 rfl
    refine htab 0 (by decide) ?_ ?_
    · rw [hpde]
      exact hp0
    · rw [hpde, entryGetFrame_eq (word_lt _ _ _), heq]
      rw [show 0 / 4096 / 1024 = 0 from rfl, hinit.frameOf_table]

/-- From the directory of `vmm_init`, every run of calls in range whose allocations
succeed refines the flat map. -/
def AlwaysRefines (memory : Bytes) (pmm : Pmm) : Prop :=
  ∀ calls : List Call, (∀ c ∈ calls, c.InRange) →
    AllSteps step NoFailure (vmmInit memory pmm, fun _ => none) calls →
    ∃ s flat, run step (vmmInit memory pmm, fun _ => none) calls = some (s, flat) ∧
      Refines s flat

theorem AlwaysRefines.pageZeroOk {memory : Bytes} {pmm : Pmm} (h : AlwaysRefines memory pmm)
    (hinit : InitSucceeds pmm) (hpmm : Handout pmm) : PageZeroOk memory pmm := by
  obtain ⟨s, flat, hrun, hrefines⟩ := h [] (by simp) trivial
  obtain ⟨rfl, rfl⟩ := Prod.mk.inj (Option.some.inj hrun)
  exact hrefines.pageZeroOk hinit hpmm

/-- After boot and a `vmm_init` whose allocations succeed, the tables refine the flat
map in every run if and only if the stale entry of page 0 is harmless. -/
theorem alwaysRefines_iff_pageZeroOk (memSize : ℕ) (map : ℕ → BitVec 32)
    (mmap : List Pmm.MultibootMmapEntry) (memory : Bytes)
    (hinit : InitSucceeds (Pmm.boot memSize map mmap)) :
    AlwaysRefines memory (Pmm.boot memSize map mmap) ↔
      PageZeroOk memory (Pmm.boot memSize map mmap) := by
  have hpmm := handout_boot memSize map mmap
  constructor
  · exact fun h => h.pageZeroOk hinit hpmm
  · intro hok calls hrange hno
    obtain ⟨s, flat, hrun, htracks⟩ := (hok.tracks hinit hpmm).run hrange hno
    exact ⟨s, flat, hrun, htracks.refines⟩

/-! ### An 8 MiB machine -/

/-- 8 MiB of memory with the upper half available. -/
def eightMib : Pmm := Pmm.boot 8192 (fun _ => 0) [⟨0x400000, 0x400000, 1⟩]

theorem initSucceeds_eightMib : InitSucceeds eightMib := by
  have hcounted : Pmm.Counted (Pmm.pmmngrInit 8192 fun _ => 0) eightMib :=
    Pmm.Counted.boot (by decide) (by decide) _ _
  have hmax : eightMib.maxBlocks = 2048 := by
    rw [eightMib, Pmm.maxBlocks_boot]
  have hclear : ∀ f, 1024 ≤ f → f < 1026 → used eightMib f = false := by
    intro f hf hlt
    rw [eightMib, Pmm.used_boot_eq_false_iff]
    refine ⟨hf, Or.inl ⟨_, List.mem_singleton.2 rfl, by decide, ?_, ?_⟩⟩
    · exact hf
    · change f < 1024 + 1024
      omega
  have hres : ∀ f < 1024, used eightMib f = true := (handout_boot _ _ _).reserved
  obtain ⟨g, hg, hgfree, -, heq⟩ := hcounted.alloc_eq (f := 1024) (by rw [hmax]; decide)
    (hclear 1024 (by decide) (by decide))
  have hg1024 : g = 1024 := by
    by_contra hne
    exact absurd ((hres g (by omega)).symm.trans hgfree) (by decide)
  have hused : ∀ f, used (pmmngrAllocBlock eightMib).2 f =
      (decide (f = 1024) || used eightMib f) := by
    intro f
    rw [heq, Pmm.used_incUsedBlocks, Pmm.used_mmapSet, hg1024]
  obtain ⟨k, hk, hkfree, -, heq'⟩ := hcounted.alloc.alloc_eq (f := 1025)
    (by rw [Pmm.maxBlocks_pmmngrAllocBlock, hmax]; decide)
    (by rw [hused, hclear 1025 (by decide) (by decide)]; decide)
  rw [hused, Bool.or_eq_false_iff, decide_eq_false_iff_not] at hkfree
  have hk1025 : 1025 ≤ k := by
    by_contra hlt
    exact absurd ((hres k (by omega)).symm.trans hkfree.2) (by decide)
  refine ⟨?_, ?_⟩
  · rw [heq, hg1024]
    decide
  · rw [heq', show k = 1025 by omega]
    decide

/-- Cleared memory leaves nothing stale. -/
theorem alwaysRefines_cleared : AlwaysRefines (fun _ => 0) eightMib := by
  refine (alwaysRefines_iff_pageZeroOk 8192 (fun _ => 0) [⟨0x400000, 0x400000, 1⟩] (fun _ => 0)
    initSucceeds_eightMib).2 fun hpresent => ?_
  have hzero : staleEntry (fun _ => 0) (Pmm.boot 8192 (fun _ => 0) [⟨0x400000, 0x400000, 1⟩]) = 0 :=
    rfl
  rw [hzero] at hpresent
  exact absurd hpresent (by decide)

/-- Memory in which every word is `0x1003`, a present entry of frame 1. -/
def dirtyMemory : Bytes := fun x => if x % 4 = 0 then 3 else if x % 4 = 1 then 0x10 else 0

theorem word_dirtyMemory (f : ℕ) : word dirtyMemory f 0 = 0x1003 := by
  have h0 : f * 4096 % 4 = 0 := by omega
  rw [word, Nat.mul_zero, Nat.add_zero]
  generalize f * 4096 = a at h0
  have h1 : (a + 1) % 4 = 1 := by omega
  have h2 : (a + 2) % 4 = 2 := by omega
  have h3 : (a + 2 + 1) % 4 = 3 := by omega
  simp only [load32, load16, dirtyMemory, h0, h1, h2, h3]
  decide

theorem staleEntry_dirtyMemory (pmm : Pmm) : staleEntry dirtyMemory pmm = 0x1003 :=
  word_dirtyMemory _

/-- Page 0 shares frame 1 with the identity-mapped page 1. -/
theorem not_alwaysRefines_dirtyMemory :
    ¬ ∀ (memSize : ℕ) (map : ℕ → BitVec 32) (mmap : List Pmm.MultibootMmapEntry)
      (memory : Bytes), InitSucceeds (Pmm.boot memSize map mmap) →
      AlwaysRefines memory (Pmm.boot memSize map mmap) := by
  intro h
  have hok := (h 8192 (fun _ => 0) [⟨0x400000, 0x400000, 1⟩] dirtyMemory
    initSucceeds_eightMib).pageZeroOk initSucceeds_eightMib (handout_boot _ _ _)
  have hpage := (hok (by rw [staleEntry_dirtyMemory]; decide)).1
  rw [staleEntry_dirtyMemory] at hpage
  exact hpage (by decide)

end Vmm

end Yotos
