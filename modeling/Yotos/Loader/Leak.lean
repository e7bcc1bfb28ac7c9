import Yotos.Loader.Free
import Yotos.Loader.Load

/-!
# What a program finds in its stack

`process_create` maps the pages of the stack and clears none of them. A run of it asks
for the same pages and writes the same bytes whatever the free frames hold, so it
succeeds from every such memory once it succeeds from one. The pages of the stack then
show what the frames held before.
-/

namespace Yotos

namespace Loader

open Bytes Library Library.Access Kheap
open Fat16 (Fs VfsNode)
open Vmm
open Pmm (used pmmngrAllocBlock)

variable {fs₀ : Fs} {bs bs₀ : List Block} {node : VfsNode} {content m : Bytes} {k k₁ : Kernel}
  {d p q v : ℕ} {s s' s₀ : Vmm} {ds es all : List (Access ℕ UInt8)} {proc : Process}

/-! ### Two memories with the same tables -/

theorem store32_congr {m' : Bytes} {a x : ℕ} (y : ℕ) (h : m' x = m x) :
    store32 m' a y x = store32 m a y x := by
  unfold store32 store16 store8
  split_ifs
  · rfl
  · rfl
  · rfl
  · rfl
  · exact h

theorem fill_congr {m' : Bytes} {a x n : ℕ} {y : UInt8} (h : m' x = m x) :
    fill m' a y n x = fill m a y n x := by
  unfold fill
  split_ifs
  · rfl
  · exact h

/-- Only entry `i` of the directory was written. -/
theorem tableFrame_cases {i g : ℕ} (hwords : ∀ k < 1023, k ≠ i →
      word s'.memory d k = word s.memory d k) (hg : TableFrame s' d g) :
    TableFrame s d g ∨ frameOf (word s'.memory d i) = g := by
  rcases hg with rfl | ⟨k, hk, hp, rfl⟩
  · exact Or.inl (Or.inl rfl)
  · by_cases hki : k = i
    · exact Or.inr (by rw [hki])
    · rw [hwords k hk hki] at hp ⊢
      exact Or.inl (Or.inr ⟨k, hk, hp, rfl⟩)

/-- `vmm_alloc_page` does the same over all memories with the same tables: the result, the
allocator and the stores do not depend on anything else. -/
theorem exists_alloc_uniform (h : AddressSpace s d) (hhigh : v < 0xFFC00000) :
    ∃ (r : ℕ) (pmm : Pmm) (F : Bytes → Bytes), ∀ mem, SameTables d s mem →
      vmmAllocPage v userFlags { s with memory := mem } =
          some (r, { s with pmm := pmm, memory := F mem }) ∧
        SameTables d { s with pmm := pmm, memory := F s.memory } (F mem) := by
  have hwin : v / 4096 < windowPage := by
    unfold windowPage
    omega
  have hi := div_lt_of_lt_windowPage hwin
  have hj : v / 4096 % 1024 < 1024 := Nat.mod_lt _ (by decide)
  have hdir : ∀ mem, SameTables d s mem →
      AddressSpace { s with memory := mem } d ∧ ∀ i < 1024, word mem d i = word s.memory d i :=
    fun mem hmem => ⟨(h.withMemory hmem).1, (h.withMemory hmem).2.1⟩
  by_cases hnull : (pmmngrAllocBlock s.pmm).1 = 0
  · refine ⟨0, (pmmngrAllocBlock s.pmm).2, id, fun mem hmem => ⟨?_, hmem⟩⟩
    simp only [vmmAllocPage, hnull, if_true]
    rfl
  obtain ⟨f, -, hf, hfree, heq, hused, hpmm⟩ := h.handout.alloc hnull
  have hcall : ∀ mem s₁, vmmMapPage v (pmmngrAllocBlock s.pmm).1 userFlags
      { s with pmm := (pmmngrAllocBlock s.pmm).2, memory := mem } = some s₁ →
      vmmAllocPage v userFlags { s with memory := mem } = some (v, s₁) := by
    intro mem s₁ hs₁
    simp only [vmmAllocPage, hnull, if_false, Option.bind_eq_bind, hs₁, Option.bind_some]
    rfl
  have hentry : pageEntry (pmmngrAllocBlock s.pmm).1 userFlags < 2 ^ 32 :=
    pageEntry_lt (by omega) (by decide)
  by_cases hp : Present (word s.memory d (v / 4096 / 1024))
  · -- the table is there: its entry and that of the page are written
    obtain ⟨hlt, hpresent, hframe, -⟩ := or_pageUser (word_lt s.memory d (v / 4096 / 1024))
    have htable := h.toPaging.table_ne hi hp
    obtain ⟨F, hF⟩ : ∃ F : Bytes → Bytes, F = fun mem => store32 (store32 mem
        (d * 4096 + 4 * (v / 4096 / 1024)) (word s.memory d (v / 4096 / 1024) ||| pageUser))
        (frameOf (word s.memory d (v / 4096 / 1024)) * 4096 + 4 * (v / 4096 % 1024))
        (pageEntry (pmmngrAllocBlock s.pmm).1 userFlags) := ⟨_, rfl⟩
    have hpde : ∀ mem, word (store32 mem (d * 4096 + 4 * (v / 4096 / 1024))
        (word s.memory d (v / 4096 / 1024) ||| pageUser)) d (v / 4096 / 1024) =
        word s.memory d (v / 4096 / 1024) ||| pageUser := by
      intro mem
      rw [word_store32 _ (by omega) (by omega) hlt, if_pos ⟨rfl, rfl⟩]
    refine ⟨v, (pmmngrAllocBlock s.pmm).2, F, fun mem hmem => ⟨hcall mem _ ?_, ?_⟩⟩
    · obtain ⟨hspace, hsame⟩ := hdir mem hmem
      have hens := ensureTable_of_present userFlags (i := v / 4096 / 1024)
        (s := { s with pmm := (pmmngrAllocBlock s.pmm).2, memory := mem }) hspace.cr3
        hspace.recursive (by omega) (by rwa [hsame _ (by omega)])
      rw [if_pos (by decide)] at hens
      simp only [hsame _ (show v / 4096 / 1024 < 1024 by omega)] at hens
      have hmap := vmmMapPage_of_table (pmmngrAllocBlock s.pmm).1 hwin hens hspace.cr3
        (by
          rw [Recursive, word_store32 _ (by omega) (by decide) hlt, if_neg fun hc => by omega]
          exact hspace.recursive)
        (by
          dsimp only
          rw [hpde]
          exact hpresent.2 hp)
      dsimp only at hmap
      rw [hmap, hpde, hframe, hF]
    · intro g x hx hg
      have hwords : ∀ k < 1023, k ≠ v / 4096 / 1024 →
          word (F s.memory) d k = word s.memory d k := by
        intro k hk hki
        rw [hF]
        dsimp only
        rw [word_store32 _ hj (by omega) hentry, if_neg fun hc => htable hc.1.symm,
          word_store32 _ (by omega) (by omega) hlt, if_neg fun hc => hki hc.2]
      have hold : TableFrame s d g := by
        rcases tableFrame_cases (s := s) hwords hg with hg | hg
        · exact hg
        · rw [hF] at hg
          dsimp only at hg
          rw [word_store32 _ hj (by omega) hentry, if_neg fun hc => htable hc.1.symm, hpde,
            hframe] at hg
          exact Or.inr ⟨_, hi, hp, hg⟩
      rw [hF]
      exact store32_congr _ (store32_congr _ (hmem g x hx hold))
  by_cases hnull' : (pmmngrAllocBlock (pmmngrAllocBlock s.pmm).2).1 = 0
  · -- no frame for the table
    refine ⟨v, (pmmngrAllocBlock (pmmngrAllocBlock s.pmm).2).2, id,
      fun mem hmem => ⟨hcall mem _ ?_, hmem⟩⟩
    obtain ⟨hspace, hsame⟩ := hdir mem hmem
    exact vmmMapPage_of_noTable (ensureTable_of_null (d := d) hspace.cr3 hspace.recursive (by omega)
      (by rwa [hsame _ (by omega)]) hnull')
  · -- a new table, cleared
    obtain ⟨t, -, htlt, htfree, hteq, -⟩ := hpmm.alloc hnull'
    have htd : t ≠ d := by
      rintro rfl
      rw [hused, h.owned.dir, Bool.or_true] at htfree
      cases htfree
    have helt := frame_add_lt htlt (newEntry_lt userFlags)
    have hframe := frameOf_add t (newEntry_lt userFlags)
    obtain ⟨F, hF⟩ : ∃ F : Bytes → Bytes, F = fun mem => store32 (fill (store32 mem
        (d * 4096 + 4 * (v / 4096 / 1024)) (t * 4096 + (3 ||| (userFlags &&& pageUser))))
        (t * 4096) 0 4096) (t * 4096 + 4 * (v / 4096 % 1024))
        (pageEntry (pmmngrAllocBlock s.pmm).1 userFlags) := ⟨_, rfl⟩
    have hpde : ∀ mem, word (fill (store32 mem (d * 4096 + 4 * (v / 4096 / 1024))
        (t * 4096 + (3 ||| (userFlags &&& pageUser)))) (t * 4096) 0 4096) d (v / 4096 / 1024) =
        t * 4096 + (3 ||| (userFlags &&& pageUser)) := by
      intro mem
      rw [word_fill _ (by omega), if_neg (Ne.symm htd), word_store32 _ (by omega) (by omega) helt,
        if_pos ⟨rfl, rfl⟩]
    refine ⟨v, (pmmngrAllocBlock (pmmngrAllocBlock s.pmm).2).2, F,
      fun mem hmem => ⟨hcall mem _ ?_, ?_⟩⟩
    · obtain ⟨hspace, hsame⟩ := hdir mem hmem
      have hens := ensureTable_of_new_table userFlags (i := v / 4096 / 1024)
        (s := { s with pmm := (pmmngrAllocBlock s.pmm).2, memory := mem }) hspace.cr3
        hspace.recursive hi (by rwa [hsame _ (by omega)]) hnull' hteq htlt htd
      have hmap := vmmMapPage_of_table (pmmngrAllocBlock s.pmm).1 hwin hens hspace.cr3
        (by
          rw [Recursive, word_fill _ (by decide), if_neg (Ne.symm htd),
            word_store32 _ (by omega) (by decide) helt, if_neg fun hc => by omega]
          exact hspace.recursive)
        (by
          dsimp only
          rw [hpde]
          exact present_newEntry t userFlags)
      dsimp only at hmap
      rw [hmap, hpde, hframe, hF]
    · intro g x hx hg
      by_cases hgt : g = t
      · rw [hF, hgt]
        dsimp only
        refine store32_congr _ ?_
        rw [fill_of_mem _ _ (by omega), fill_of_mem _ _ (by omega)]
      · have hwords : ∀ k < 1023, k ≠ v / 4096 / 1024 →
            word (F s.memory) d k = word s.memory d k := by
          intro k hk hki
          rw [hF]
          dsimp only
          rw [word_store32 _ hj (by omega) hentry, if_neg fun hc => htd hc.1.symm,
            word_fill _ (by omega), if_neg (Ne.symm htd), word_store32 _ (by omega) (by omega) helt,
            if_neg fun hc => hki hc.2]
        have hold : TableFrame s d g := by
          rcases tableFrame_cases (s := s) hwords hg with hg | hg
          · exact hg
          · rw [hF] at hg
            dsimp only at hg
            rw [word_store32 _ hj (by omega) hentry, if_neg fun hc => htd hc.1.symm, hpde,
              hframe] at hg
            exact absurd hg.symm hgt
        rw [hF]
        exact store32_congr _ (fill_congr (store32_congr _ (hmem g x hx hold)))

theorem alloc_sameTables (h : AddressSpace s d) (hm : SameTables d s m) (hhigh : v < 0xFFC00000)
    (hs' : vmmAllocPage v userFlags s = some (p, s')) :
    ∃ m', vmmAllocPage v userFlags { s with memory := m } = some (p, { s' with memory := m' }) ∧
      SameTables d s' m' := by
  obtain ⟨r, pmm, F, hF⟩ := exists_alloc_uniform h hhigh
  obtain ⟨hsame, -⟩ := hF s.memory fun _ _ _ _ => rfl
  obtain ⟨rfl, rfl⟩ := Prod.mk.inj (Option.some.inj (hs'.symm.trans hsame))
  exact ⟨F m, hF m hm⟩

/-! ### The accesses one by one -/

/-- One access of the loader, `none` when it cannot be done. -/
def access (s : Vmm) : Access ℕ UInt8 → Option Vmm
  | .map v => (vmmAllocPage v userFlags s).bind fun r => if r.1 = 0 then none else some r.2
  | .write v x =>
      (mmu s.memory s.cr3 v).map fun phys => { s with memory := store8 s.memory phys x }

/-- The access stays below the recursive window. -/
def BelowWindow : Access ℕ UInt8 → Prop
  | .map v => 4096 ∣ v ∧ v < 0xFFC00000
  | .write v _ => v < 0xFFC00000

theorem access_map_eq_some (h : access s (.map v) = some s') :
    v ≠ 0 ∧ vmmAllocPage v userFlags s = some (v, s') := by
  obtain ⟨⟨p, t⟩, hp, ht⟩ := Option.bind_eq_some_iff.1 h
  obtain ⟨hne, heq⟩ := Option.ite_none_left_eq_some.1 ht
  obtain rfl := Option.some.inj heq
  have hpv : p = v := by
    simp only [vmmAllocPage] at hp
    split_ifs at hp
    · exact absurd (Prod.mk.inj (Option.some.inj hp)).1.symm hne
    · obtain ⟨t, -, ht⟩ := Option.bind_eq_some_iff.1 hp
      exact (Prod.mk.inj (Option.some.inj ht)).1.symm
  exact ⟨hpv ▸ hne, hpv ▸ hp⟩

/-- A page that was had: it is mapped to a free frame, or its table cannot be had. -/
theorem access_map_cases (h : AddressSpace s d) (hv : BelowWindow (.map v))
    (hs' : access s (.map v) = some s') :
    (∃ f, FrameLost s s' d (v / 4096) f) ∨ ∃ f, PageAdded s s' d (v / 4096) f := by
  obtain ⟨hne, hs'⟩ := access_map_eq_some hs'
  have hlow : 0x1000 ≤ v := Nat.le_of_dvd (Nat.pos_of_ne_zero hne) hv.1
  rcases h.alloc hlow hv.2 with ⟨-, hnull⟩ | ⟨f, t, ht, hlost⟩ | ⟨f, t, ht, hadded⟩
  · obtain ⟨h0, -⟩ := Prod.mk.inj (Option.some.inj (hs'.symm.trans hnull))
    exact absurd h0 hne
  · obtain ⟨-, rfl⟩ := Prod.mk.inj (Option.some.inj (hs'.symm.trans ht))
    exact Or.inl ⟨f, hlost⟩
  · obtain ⟨-, rfl⟩ := Prod.mk.inj (Option.some.inj (hs'.symm.trans ht))
    exact Or.inr ⟨f, hadded⟩

/-- A store goes to the frame of a mapped page. -/
theorem access_write_cases {x : UInt8} (h : AddressSpace s d) (hv : v < 0xFFC00000)
    (hs' : access s (.write v x) = some s') :
    ∃ e, lookup s.memory d (v / 4096) = some e ∧ v / 4096 < windowPage ∧
      s' = { s with memory := store8 s.memory (frameOf e * 4096 + v % 4096) x } := by
  obtain ⟨phys, hphys, rfl⟩ := Option.map_eq_some_iff.1 hs'
  rw [h.mmu_eq, Option.map_eq_some_iff] at hphys
  obtain ⟨e, he, rfl⟩ := hphys
  exact ⟨e, he, by unfold windowPage; omega, rfl⟩

/-- The tables stay in order, and a frame that is still free has not been touched. -/
structure Grown (s s' : Vmm) (d : ℕ) : Prop where
  space : AddressSpace s' d
  free : ∀ g, used s'.pmm g = false → used s.pmm g = false
  bytes : ∀ g y, y < 4096 → used s'.pmm g = false →
    s'.memory (g * 4096 + y) = s.memory (g * 4096 + y)

theorem Grown.trans {t : Vmm} (h : Grown s s' d) (h' : Grown s' t d) : Grown s t d where
  space := h'.space
  free g hg := h.free g (h'.free g hg)
  bytes g y hy hg := (h'.bytes g y hy hg).trans (h.bytes g y hy (h'.free g hg))

theorem access_grown {a : Access ℕ UInt8} (h : AddressSpace s d) (ha : BelowWindow a)
    (hs' : access s a = some s') : Grown s s' d := by
  cases a with
  | map v =>
      rcases access_map_cases h ha hs' with ⟨f, hlost⟩ | ⟨f, hadded⟩
      · refine ⟨hlost.space, fun g hg => ?_, fun g y _ _ => by rw [hlost.memory]⟩
        by_contra hused
        rw [(hlost.usedIff g).2 (Or.inl (eq_true_of_ne_false hused))] at hg
        cases hg
      · refine ⟨hadded.space, fun g hg => ?_, fun g y hy hg => hadded.bytes g y hy fun ht => ?_⟩
        · by_contra hused
          rw [(hadded.usedIff g).2 (Or.inl (eq_true_of_ne_false hused))] at hg
          cases hg
        · rw [hadded.space.tableFrame_used ht] at hg
          cases hg
  | write v x =>
      obtain ⟨e, he, hwin, rfl⟩ := access_write_cases h ha hs'
      refine ⟨(h.store8 hwin he x).2.1, fun g hg => hg, fun g y hy hg => store8_of_ne _ _ ?_⟩
      intro heq
      obtain rfl : g = frameOf e := by omega
      rw [(h.owned.mapped _ hwin e he).1] at hg
      cases hg

theorem run_grown (h : AddressSpace s d) (hds : ∀ a ∈ ds, BelowWindow a)
    (hrun : run access s ds = some s') : Grown s s' d := by
  induction ds generalizing s with
  | nil =>
      obtain rfl := Option.some.inj hrun
      exact ⟨h, fun _ hg => hg, fun _ _ _ _ => rfl⟩
  | cons a ds ih =>
      obtain ⟨t, ht, hrun⟩ := run_cons_eq_some.1 hrun
      have hstep := access_grown h (hds a List.mem_cons_self) ht
      exact hstep.trans (ih hstep.space (fun b hb => hds b (List.mem_cons_of_mem _ hb)) hrun)

/-- The same accesses can be done over another memory with the same tables. -/
theorem access_sameTables {a : Access ℕ UInt8} (h : AddressSpace s d) (hm : SameTables d s m)
    (ha : BelowWindow a) (hs' : access s a = some s') :
    ∃ m', access { s with memory := m } a = some { s' with memory := m' } ∧
      SameTables d s' m' := by
  cases a with
  | map v =>
      obtain ⟨hne, hs'⟩ := access_map_eq_some hs'
      obtain ⟨m', hm', hsame⟩ := alloc_sameTables h hm ha.2 hs'
      refine ⟨m', ?_, hsame⟩
      rw [access, hm', Option.bind_some, if_neg hne]
  | write v x =>
      obtain ⟨e, he, hwin, rfl⟩ := access_write_cases h ha hs'
      obtain ⟨hspace, -, hlookup⟩ := h.withMemory hm
      refine ⟨store8 m (frameOf e * 4096 + v % 4096) x, ?_, fun g y hy hg => ?_⟩
      · rw [access, hspace.mmu_eq, hlookup _ hwin, he]
        rfl
      · have hold : TableFrame s d g := by
          rcases hg with hg | ⟨k, hk, hp, hg⟩
          · exact Or.inl hg
          · have hword := (h.store8 hwin he x).2.2.1 k (by omega)
            dsimp only at hp hg
            rw [hword] at hp hg
            exact Or.inr ⟨k, hk, hp, hg⟩
        have hne : g * 4096 + y ≠ frameOf e * 4096 + v % 4096 := by
          intro heq
          obtain rfl : g = frameOf e := by omega
          exact h.not_tableFrame hwin he hold
        rw [store8_of_ne _ _ hne]
        exact (hm g y hy hold).trans (store8_of_ne _ _ hne).symm

theorem run_sameTables (h : AddressSpace s d) (hm : SameTables d s m)
    (hds : ∀ a ∈ ds, BelowWindow a) (hrun : run access s ds = some s') :
    ∃ m', run access { s with memory := m } ds = some { s' with memory := m' } := by
  induction ds generalizing s m with
  | nil =>
      obtain rfl := Option.some.inj hrun
      exact ⟨m, rfl⟩
  | cons a ds ih =>
      obtain ⟨t, ht, hrun⟩ := run_cons_eq_some.1 hrun
      have ha := hds a List.mem_cons_self
      obtain ⟨m₁, hm₁, hsame⟩ := access_sameTables h hm ha ht
      obtain ⟨m', hm'⟩ := ih (access_grown h ha ht).space hsame
        (fun b hb => hds b (List.mem_cons_of_mem _ hb)) hrun
      exact ⟨m', run_cons_eq_some.2 ⟨_, hm₁, hm'⟩⟩

/-! ### The pages of the stack -/

/-- Further pages leave a mapped page alone. -/
theorem run_maps_keep {e : ℕ} {vs : List ℕ} (h : AddressSpace s d) (hq : q < windowPage)
    (he : lookup s.memory d q = some e) (hvs : ∀ v ∈ vs, BelowWindow (.map v) ∧ v / 4096 ≠ q)
    (hrun : run access s (vs.map .map) = some s') :
    AddressSpace s' d ∧ lookup s'.memory d q = some e ∧
      ∀ y < 4096, s'.memory (frameOf e * 4096 + y) = s.memory (frameOf e * 4096 + y) := by
  induction vs generalizing s with
  | nil =>
      obtain rfl := Option.some.inj hrun
      exact ⟨h, he, fun _ _ => rfl⟩
  | cons v vs ih =>
      rw [List.map_cons] at hrun
      obtain ⟨t, ht, hrun⟩ := run_cons_eq_some.1 hrun
      obtain ⟨hv, hne⟩ := hvs v List.mem_cons_self
      have hstep : AddressSpace t d ∧ lookup t.memory d q = some e ∧
          ∀ y < 4096, t.memory (frameOf e * 4096 + y) = s.memory (frameOf e * 4096 + y) := by
        rcases access_map_cases h hv ht with ⟨f, hlost⟩ | ⟨f, hadded⟩
        · rw [hlost.memory]
          exact ⟨hlost.space, he, fun _ _ => rfl⟩
        · have he' := (hadded.others q hq (Ne.symm hne)).trans he
          exact ⟨hadded.space, he', fun y hy => hadded.bytes _ y hy
            (hadded.space.not_tableFrame hq he')⟩
      obtain ⟨hspace, hkept, hbytes⟩ := hstep
      obtain ⟨hspace', hkept', hbytes'⟩ := ih hspace hkept
        (fun w hw => hvs w (List.mem_cons_of_mem _ hw)) hrun
      exact ⟨hspace', hkept', fun y hy => (hbytes' y hy).trans (hbytes y hy)⟩

/-- The first page of the stack shows a frame that was free, as it was. -/
theorem stack_stale (h : AddressSpace s₀ d) (hds : ∀ a ∈ ds, BelowWindow a)
    (hrun : run access s₀ (ds ++ stackPages.map .map) = some s') :
    ∃ f, used s₀.pmm f = false ∧
      ∀ y < 4096, userByte s' (userStackVirt + y) = some (s₀.memory (f * 4096 + y)) := by
  obtain ⟨s, hs, hrun⟩ := run_append_eq_some.1 hrun
  have hgrown := run_grown h hds hs
  have hstack : stackPages = userStackVirt :: 0xBFFFE000 :: [0xBFFFD000, 0xBFFFC000] := by decide
  rw [hstack, List.map_cons] at hrun
  obtain ⟨t, ht, hrun⟩ := run_cons_eq_some.1 hrun
  have hfirst : BelowWindow (.map userStackVirt) := ⟨by decide, by decide⟩
  rcases access_map_cases hgrown.space hfirst ht with ⟨f, hlost⟩ | ⟨f, hadded⟩
  · -- without a table for the first page there is no frame for the second
    rw [List.map_cons] at hrun
    obtain ⟨u, hu, -⟩ := run_cons_eq_some.1 hrun
    obtain ⟨hne, hu⟩ := access_map_eq_some hu
    rw [vmmAllocPage, show pmmngrAllocBlock t.pmm = (0, t.pmm) from hlost.exhausted] at hu
    exact absurd (Prod.mk.inj (Option.some.inj hu)).1.symm hne
  · have hq : userStackVirt / 4096 < windowPage := by decide
    obtain ⟨hspace, hentry, hbytes⟩ := run_maps_keep hadded.space hq hadded.entry (by
      intro v hv
      simp only [List.mem_cons, List.not_mem_nil, or_false] at hv
      rcases hv with rfl | rfl | rfl <;> exact ⟨⟨by decide, by decide⟩, by decide⟩) hrun
    rw [frameOf_userEntry hadded.lt] at hbytes
    have hnoTable : ¬ TableFrame t d f := by
      have hno := hadded.space.not_tableFrame hq hadded.entry
      rwa [frameOf_userEntry hadded.lt] at hno
    refine ⟨f, hgrown.free f hadded.free, fun y hy => ?_⟩
    have hpage : (userStackVirt + y) / 4096 = userStackVirt / 4096 := by
      unfold userStackVirt
      omega
    have hoff : (userStackVirt + y) % 4096 = y := by
      unfold userStackVirt
      omega
    rw [hspace.userByte_eq, hpage, hoff, hentry, Option.map_some, frameOf_userEntry hadded.lt,
      hbytes y hy, hadded.bytes f y hy hnoTable, hgrown.bytes f y hy hadded.free]

/-! ### Two runs of `process_create` -/

/-- No segment reaches into the recursive window, where the page tables are. -/
def SegmentsBelow (content : Bytes) (size : ℕ) : Prop :=
  ∀ ph ∈ segments content size, (∀ v ∈ ph.pages, v < 0xFFC00000) ∧
    ∀ x < ph.extent size, (ph.pVaddr + x) % 2 ^ 32 < 0xFFC00000

instance : Decidable (SegmentsBelow content node.size) :=
  inferInstanceAs (Decidable (∀ _ ∈ segments _ _, _))

/-- What the program sees in its pages does not depend on what the free frames held. -/
def NoLeak (node : VfsNode) (content : Bytes) (k : Kernel) : Prop :=
  ∀ m, SameUsed k.vmm m → ∀ proc k₁ proc' k₁', processCreate node k = .done (some proc) k₁ →
    processCreate node { k with vmm := { k.vmm with memory := m } } = .done (some proc') k₁' →
      ∀ v, page v ∈ programPages content node.size → userByte k₁.vmm v = userByte k₁'.vmm v

theorem SegmentsBelow.belowWindow (h : SegmentsBelow content node.size) {a : Access ℕ UInt8}
    (ha : a ∈ accesses content node.size ++ stackPages.map .map) : BelowWindow a := by
  rcases List.mem_append.1 ha with ha | ha
  · obtain ⟨ph, hph, ha⟩ := List.mem_flatMap.1 ha
    obtain ⟨hpages, hextent⟩ := h ph hph
    rcases List.mem_append.1 ha with ha | ha
    · obtain ⟨v, hv, rfl⟩ := List.mem_map.1 ha
      refine ⟨?_, hpages v hv⟩
      obtain ⟨i, -, rfl⟩ := List.mem_map.1 hv
      exact Nat.dvd_add (Nat.dvd_mul_left _ _) (Nat.dvd_mul_right _ _)
    · obtain ⟨x, hx, rfl⟩ := List.mem_map.1 ha
      exact hextent x (List.mem_range.1 hx)
  · obtain ⟨v, hv, rfl⟩ := List.mem_map.1 ha
    have hstack : ∀ v ∈ stackPages, 4096 ∣ v ∧ v < 0xFFC00000 := by decide
    exact hstack v hv

/-- The accesses done so far lead from `s₀` to the state of the kernel. -/
def Accessed (fs₀ : Fs) (bs₀ : List Block) (node : VfsNode) (content : Bytes) (s₀ : Vmm)
    (ds : List (Access ℕ UInt8)) (k : Kernel) : Prop :=
  Held fs₀ bs₀ node content k.fs ∧ run access s₀ ds = some k.vmm

theorem run_access_append {a : Access ℕ UInt8} (hds : run access s₀ ds = some s)
    (ha : access s a = some s') : run access s₀ (ds ++ [a]) = some s' :=
  run_append_eq_some.2 ⟨s, hds, run_cons_eq_some.2 ⟨s', ha, run_nil s'⟩⟩

theorem Accessed.start (hopen : Opened k.fs node content bs) :
    Accessed k.fs bs node content k.vmm [] k :=
  ⟨hopen.held, run_nil _⟩

/-- A run of the loader does the accesses of its list. -/
theorem loads_accessed (hall : accesses content node.size <+: all) :
    Loads fs₀ bs₀ node content all (Accessed fs₀ bs₀ node content s₀) (fun _ => True)
      fun _ => True where
  map {ds v k} _ hJ := by
    rw [allocPage, show pagePresent ||| pageWritable ||| pageUser = userFlags from rfl]
    cases halloc : vmmAllocPage v userFlags k.vmm with
    | none => trivial
    | some r =>
        obtain ⟨p, s⟩ := r
        rw [Outcome.sat_done]
        by_cases h0 : p = 0
        · rw [if_pos h0]
          trivial
        · rw [if_neg h0]
          have haccess : access k.vmm (.map v) = some s := by
            rw [access, halloc, Option.bind_some, if_neg h0]
          exact ⟨hJ.1, run_access_append hJ.2 haccess⟩
  write {ds v x k} _ hJ := by
    rw [storeByte]
    cases hmmu : mmu k.vmm.memory k.vmm.cr3 v with
    | none => trivial
    | some phys =>
        have haccess : access k.vmm (.write v x) =
            some { k.vmm with memory := store8 k.vmm.memory phys x } := by
          rw [access, hmmu, Option.map_some]
        exact ⟨hJ.1, run_access_append hJ.2 haccess⟩
  accesses := hall
  held hJ := hJ.1
  read hJ hvmm _ hheld := ⟨hheld, hvmm ▸ hJ.2⟩
  stop _ _ := trivial

/-- With room to read and a list that can be done, nothing fails. -/
theorem loads_of_run (hall : accesses content node.size <+: all)
    (hrun : run access s₀ all = some s') (hroom : ReadRoom fs₀ bs₀)
    (hacc : Accepted content node.size) :
    Loads fs₀ bs₀ node content all (Accessed fs₀ bs₀ node content s₀) (fun _ => False)
      fun _ => False where
  map {ds v k} hpre hJ := by
    obtain ⟨es, rfl⟩ := hpre
    obtain ⟨t, ht, -⟩ := run_append_eq_some.1 hrun
    obtain ⟨t', ht', hstep⟩ := run_append_eq_some.1 ht
    obtain rfl := Option.some.inj (hJ.2.symm.trans ht')
    obtain ⟨u, hu, hnil⟩ := run_cons_eq_some.1 hstep
    obtain ⟨hne, halloc⟩ := access_map_eq_some hu
    rw [allocPage, show pagePresent ||| pageWritable ||| pageUser = userFlags from rfl, halloc,
      Outcome.sat_done, if_neg hne]
    exact ⟨hJ.1, run_access_append hJ.2 hu⟩
  write {ds v x k} hpre hJ := by
    obtain ⟨es, rfl⟩ := hpre
    obtain ⟨t, ht, -⟩ := run_append_eq_some.1 hrun
    obtain ⟨t', ht', hstep⟩ := run_append_eq_some.1 ht
    obtain rfl := Option.some.inj (hJ.2.symm.trans ht')
    obtain ⟨u, hu, hnil⟩ := run_cons_eq_some.1 hstep
    obtain ⟨phys, hphys, rfl⟩ := Option.map_eq_some_iff.1 hu
    rw [storeByte, hphys]
    exact ⟨hJ.1, run_access_append hJ.2 hu⟩
  accesses := hall
  held hJ := hJ.1
  read hJ hvmm _ hheld := ⟨hheld, hvmm ▸ hJ.2⟩
  stop _ hstop := by
    rcases hstop with hno | ⟨-, hno⟩
    · exact hno hroom
    · exact hno hacc

/-- What a success of `process_create` has done. -/
theorem processCreate_accessed (hopen : Opened k.fs node content bs)
    (hdone : processCreate node k = .done (some proc) k₁) :
    HeapRoom k ∧ Accepted content node.size ∧
      run access k.vmm (accesses content node.size ++ stackPages.map .map) = some k₁.vmm := by
  rcases processCreate_cases hopen with ⟨k', hrun, -⟩ | ⟨p, kstack, bs₂, k₂, hrun, hprep, hroom⟩
  · cases (Outcome.done.inj (hrun.symm.trans hdone)).1
  rw [hrun] at hdone
  have hread : HeapRoom k := by
    by_contra hno
    obtain ⟨-, -, hnone, -⟩ := (createWith_of_elfLoad_fails
      (elfLoad_of_not_readRoom hprep.opened.held fun hyes => hno (hroom.2 hyes))).of_eq_done hdone
    cases hnone
  obtain ⟨hacc, -, -, haccessed⟩ := (createWith_sat p kstack
    (loads_accessed (List.prefix_append _ _)) List.prefix_rfl
    (Accessed.start hprep.opened)).of_eq_done hdone
  rw [hprep.vmm] at haccessed
  exact ⟨hread, hacc, haccessed⟩

/-- With room in the heap, a file that can be loaded and accesses that can be done,
`process_create` succeeds. -/
theorem exists_processCreate (hopen : Opened k.fs node content bs) (hroom : HeapRoom k)
    (hacc : Accepted content node.size)
    (hrun : run access k.vmm (accesses content node.size ++ stackPages.map .map) = some s') :
    ∃ proc k₁, processCreate node k = .done (some proc) k₁ ∧ k₁.vmm = s' := by
  rcases processCreate_cases hopen with ⟨_, -, -, -, hno⟩ |
    ⟨p, kstack, bs₂, k₂, hcreate, hprep, hread⟩
  · exact absurd hroom hno
  rw [← hprep.vmm] at hrun
  obtain ⟨r, k₁, hk₁, hr⟩ := (createWith_sat p kstack
    (loads_of_run (List.prefix_append _ _) hrun (hread.1 hroom) hacc) List.prefix_rfl
    (Accessed.start hprep.opened)).exists_done
  cases r with
  | none =>
      obtain ⟨_, hfalse, -⟩ := hr
      exact hfalse.elim
  | some proc =>
      refine ⟨proc, k₁, hcreate.trans hk₁, ?_⟩
      exact Option.some.inj (hr.2.2.2.symm.trans hrun)

/-- The first page of the stack always shows what its frame held. -/
theorem not_noLeak (node : VfsNode) (content : Bytes) (k k₁ : Kernel) (d : ℕ) (bs : List Block)
    (proc : Process) (hspace : AddressSpace k.vmm d) (hopen : Opened k.fs node content bs)
    (hbelow : SegmentsBelow content node.size)
    (hdone : processCreate node k = .done (some proc) k₁) : ¬ NoLeak node content k := by
  obtain ⟨hroom, hacc, hrun⟩ := processCreate_accessed hopen hdone
  obtain ⟨f, -, hseen⟩ := stack_stale hspace
    (fun a ha => hbelow.belowWindow (List.mem_append_left _ ha)) hrun
  -- the free frames are filled with another byte
  obtain ⟨c, hc⟩ : ∃ c : UInt8, c ≠ k.vmm.memory (f * 4096) := by
    by_cases h0 : k.vmm.memory (f * 4096) = 0
    · exact ⟨1, by rw [h0]; decide⟩
    · exact ⟨0, fun h => h0 h.symm⟩
  obtain ⟨m, hm⟩ : ∃ m : Bytes, m = fun a =>
    if used k.vmm.pmm (a / 4096) then k.vmm.memory a else c := ⟨_, rfl⟩
  have hsame : SameUsed k.vmm m := by
    intro g y hy hg
    rw [hm]
    dsimp only
    rw [show (g * 4096 + y) / 4096 = g by omega, if_pos hg]
  obtain ⟨m', hrun'⟩ := run_sameTables hspace
    (fun g y hy hg => hsame g y hy (hspace.tableFrame_used hg))
    (fun a ha => hbelow.belowWindow ha) hrun
  obtain ⟨proc', k₁', hdone', hvmm⟩ := exists_processCreate
    (k := { k with vmm := { k.vmm with memory := m } }) hopen hroom hacc hrun'
  obtain ⟨f', hfree, hseen'⟩ := stack_stale (hsame.addressSpace hspace)
    (fun a ha => hbelow.belowWindow (List.mem_append_left _ ha)) hrun'
  intro hnoLeak
  have heq := hnoLeak m hsame proc k₁ proc' k₁' hdone hdone' userStackVirt (by
    refine List.mem_map_of_mem (List.mem_append_right _ ?_)
    decide)
  have hfilled : m (f' * 4096) = c := by
    rw [hm]
    dsimp only at hfree ⊢
    rw [Nat.mul_div_cancel _ (by decide), hfree, if_neg (by decide)]
  have hleft := hseen 0 (by decide)
  have hright := hseen' 0 (by decide)
  rw [← hvmm, Nat.add_zero, Nat.add_zero, ← heq] at hright
  rw [Nat.add_zero, Nat.add_zero, hright] at hleft
  exact hc (hfilled.symm.trans (Option.some.inj hleft))

/-! ### On the small machine -/

/-- The memory of the small machine, with `0xAA` in the free frames. -/
def dirtyMemory : Bytes := fun a =>
  if used (programKernel smallProgram).vmm.pmm (a / 4096) then
    (programKernel smallProgram).vmm.memory a
  else 0xAA

theorem processCreate_clean :
    (processCreate (programNode smallProgram) (programKernel smallProgram)).Sat
      (fun r k₁ => r.isSome = true ∧ userByte k₁.vmm userStackVirt = some 0) fun _ => False := by
  decide +kernel

theorem processCreate_dirty :
    (processCreate (programNode smallProgram) { programKernel smallProgram with
      vmm := { (programKernel smallProgram).vmm with memory := dirtyMemory } }).Sat
      (fun r k₁ => r.isSome = true ∧ userByte k₁.vmm userStackVirt = some 0xAA)
      fun _ => False := by
  decide +kernel

/-- The program finds the `0xAA` in its stack. -/
theorem not_forall_noLeak : ¬ ∀ (node : VfsNode) (content : Bytes) (k : Kernel) (d : ℕ)
    (bs : List Block), AddressSpace k.vmm d → Opened k.fs node content bs →
      NoLeak node content k := by
  intro hall
  obtain ⟨r, k₁, hk₁, hr, hclean⟩ := processCreate_clean.exists_done
  obtain ⟨r', k₁', hk₁', hr', hdirty⟩ := processCreate_dirty.exists_done
  obtain ⟨proc, rfl⟩ := Option.isSome_iff_exists.1 hr
  obtain ⟨proc', rfl⟩ := Option.isSome_iff_exists.1 hr'
  have hsame : SameUsed (programKernel smallProgram).vmm dirtyMemory := by
    intro f y hy hf
    rw [dirtyMemory, show (f * 4096 + y) / 4096 = f by omega, if_pos hf]
  have heq := hall (programNode smallProgram) (programContent smallProgram)
    (programKernel smallProgram) 1024 initialBlocks addressSpace_small
    (opened_program length_smallProgram) dirtyMemory hsame proc k₁ proc' k₁' hk₁ hk₁'
    userStackVirt (by decide +kernel)
  rw [hclean, hdirty] at heq
  exact absurd heq (by decide)

/-- A file of two segments leaks what its frames held. -/
theorem not_noLeak_small :
    ¬ NoLeak (programNode smallProgram) (programContent smallProgram)
      (programKernel smallProgram) := by
  obtain ⟨r, k₁, hk₁, hr⟩ := processCreate_smallProgram.exists_done
  obtain ⟨proc, rfl⟩ := Option.isSome_iff_exists.1 hr
  exact not_noLeak _ _ _ k₁ 1024 initialBlocks proc addressSpace_small
    (opened_program length_smallProgram) (by decide +kernel) hk₁

end Loader

end Yotos
