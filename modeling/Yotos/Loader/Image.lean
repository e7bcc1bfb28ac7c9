import Yotos.Loader.Trace
import Yotos.Vmm.Space

/-!
# The image of a program

What a run of the loader makes of an address space: `Image` lists the frames it took, by
page, and says what is in them, in terms of the accesses done. Nothing else has changed
but the tables. When the memory ends with a page whose table cannot be had, the frame for
that page is taken and not mapped. It is in `lost`.
-/

namespace Yotos

namespace Loader

open Bytes Library Library.Access
open Vmm
open Pmm (used pmmngrAllocBlock)

variable {d g v : ℕ} {s₀ s s' : Vmm} {ds es : List (Access ℕ UInt8)} {taken : List (ℕ × ℕ)}
  {lost : List ℕ} {x : UInt8}

/-- The number of a page. -/
def page (v : ℕ) : ℕ := v / pageSize

/-- The pages mapped by a run, in order. -/
def mappedPages (ds : List (Access ℕ UInt8)) : List ℕ := (mapped ds).map page

@[simp] theorem mappedPages_append (ds es : List (Access ℕ UInt8)) :
    mappedPages (ds ++ es) = mappedPages ds ++ mappedPages es := by
  rw [mappedPages, mapped_append, List.map_append]
  rfl

@[simp] theorem mappedPages_map (v : ℕ) : mappedPages [.map v] = [page v] := rfl

@[simp] theorem mappedPages_write (v : ℕ) (x : UInt8) : mappedPages [.write v x] = [] := rfl

/-- The address space after the accesses `ds`, with the frames taken for pages, the last
one first. -/
structure Image (d : ℕ) (s₀ s : Vmm) (ds : List (Access ℕ UInt8)) (taken : List (ℕ × ℕ))
    (lost : List ℕ) : Prop where
  space : AddressSpace s d
  usedIff : ∀ g, used s.pmm g = true ↔ used s₀.pmm g = true ∨ g ∈ taken.map Prod.snd ∨
    g ∈ lost ∨ TableFrame s d g
  free : ∀ g, g ∈ taken.map Prod.snd ∨ g ∈ lost →
    used s₀.pmm g = false ∧ g < 2 ^ 20 ∧ ¬ TableFrame s d g
  nodup : (taken.map Prod.snd ++ lost).Nodup
  entry : ∀ q f, taken.lookup q = some f →
    lookup s.memory d q = some (pageEntry (f * 4096) userFlags)
  others : ∀ q < windowPage, taken.lookup q = none →
    lookup s.memory d q = lookup s₀.memory d q
  tables : ∀ g, TableFrame s₀ d g → TableFrame s d g
  newTable : ∀ g, TableFrame s d g → TableFrame s₀ d g ∨ used s₀.pmm g = false
  bytes : ∀ g y, y < 4096 → g ∉ taken.map Prod.snd → ¬ TableFrame s d g →
    s.memory (g * 4096 + y) = s₀.memory (g * 4096 + y)
  data : ∀ q f, taken.lookup q = some f → ∀ y < 4096, s.memory (f * 4096 + y) =
    (visible page ds (q * 4096 + y)).getD (s₀.memory (f * 4096 + y))
  pages : ∀ q ∈ taken.map Prod.fst, q ∈ mappedPages ds ∧ q < windowPage
  complete : lost = [] → taken.map Prod.fst = (mappedPages ds).reverse
  incomplete : lost ≠ [] → ∃ q < windowPage,
    mappedPages ds = (taken.map Prod.fst).reverse ++ [q] ∧ ¬ Present (word s.memory d (q / 1024))
  gone : ∀ q < windowPage, q ∈ mappedPages ds → taken.lookup q = none →
    lookup s.memory d q = none
  exhausted : lost ≠ [] → Exhausted s.pmm
  written : ∀ v x, .write v x ∈ ds → page v ∈ taken.map Prod.fst
  pmm : taken = [] → lost = [] → s.pmm = s₀.pmm

theorem page_eq (v : ℕ) : page v = v / 4096 := rfl

theorem page_mul_add {q y : ℕ} (hy : y < 4096) : page (q * 4096 + y) = q := by
  rw [page_eq]
  omega

theorem lookup_mem {q f : ℕ} (h : taken.lookup q = some f) :
    q ∈ taken.map Prod.fst ∧ f ∈ taken.map Prod.snd := by
  obtain ⟨xs, ys, rfl, -⟩ := List.lookup_eq_some_iff.1 h
  simp

theorem lookup_eq_none {q : ℕ} : taken.lookup q = none ↔ q ∉ taken.map Prod.fst := by
  rw [List.lookup_eq_none_iff]
  constructor
  · rintro h hmem
    obtain ⟨p, hp, rfl⟩ := List.mem_map.1 hmem
    exact absurd (h p hp) (by simp)
  · intro h p hp
    rw [bne_iff_ne]
    rintro rfl
    exact h (List.mem_map_of_mem hp)

/-- Distinct frames have distinct pages. -/
theorem eq_of_lookup_eq (hnodup : (taken.map Prod.snd).Nodup) {q q' f : ℕ}
    (h : taken.lookup q = some f) (h' : taken.lookup q' = some f) : q = q' := by
  have hmem : ∀ {q}, taken.lookup q = some f → (q, f) ∈ taken := by
    intro q hq
    obtain ⟨xs, ys, rfl, -⟩ := List.lookup_eq_some_iff.1 hq
    simp
  exact congrArg Prod.fst (List.inj_on_of_nodup_map hnodup (hmem h) (hmem h') rfl)

namespace Image

/-- Before the first access. -/
theorem start (h : AddressSpace s d) : Image d s s [] [] [] where
  space := h
  usedIff g := ⟨Or.inl, fun hg => by
    rcases hg with hg | hg | hg | hg
    · exact hg
    · cases hg
    · cases hg
    · exact h.tableFrame_used hg⟩
  free g hg := by
    rcases hg with hg | hg <;> cases hg
  nodup := List.nodup_nil
  entry q f hq := by cases hq
  others _ _ _ := rfl
  tables _ hg := hg
  newTable _ hg := Or.inl hg
  bytes _ _ _ _ _ := rfl
  data q f hq := by cases hq
  pages q hq := by cases hq
  complete _ := rfl
  incomplete hne := absurd rfl hne
  gone q _ hq := by cases hq
  exhausted hne := absurd rfl hne
  written v x h := by cases h
  pmm _ _ := rfl

/-- A frame that was used at the start and holds no table has its bytes. -/
theorem kept (h : Image d s₀ s ds taken lost) (hg : used s₀.pmm g = true)
    (ht : ¬ TableFrame s d g) {y : ℕ} (hy : y < 4096) :
    s.memory (g * 4096 + y) = s₀.memory (g * 4096 + y) := by
  refine h.bytes g y hy (fun hmem => ?_) ht
  exact absurd (hg.symm.trans (h.free g (Or.inl hmem)).1) (by decide)

/-- A free frame has its bytes, too. -/
theorem kept_of_free (h : Image d s₀ s ds taken lost) (hg : used s.pmm g = false) :
    used s₀.pmm g = false ∧ g ∉ taken.map Prod.snd ∧ g ∉ lost ∧ ¬ TableFrame s d g := by
  have hno := (not_congr (h.usedIff g)).1 (by simp [hg])
  simp only [not_or, Bool.not_eq_true] at hno
  exact hno

theorem taken_used (h : Image d s₀ s ds taken lost) (hg : g ∈ taken.map Prod.snd ∨ g ∈ lost) :
    used s.pmm g = true :=
  (h.usedIff g).2 (hg.elim (fun hg => Or.inr (Or.inl hg)) fun hg => Or.inr (Or.inr (Or.inl hg)))

/-- A page that is mapped. -/
theorem added {f : ℕ} (h : Image d s₀ s ds taken lost) (hadd : PageAdded s s' d (page v) f)
    (hv : page v < windowPage) :
    Image d s₀ s' (ds ++ [.map v]) ((page v, f) :: taken) lost := by
  obtain ⟨hfree₀, hftaken, hflost, hftable⟩ := h.kept_of_free hadd.free
  have hfused : used s'.pmm f = true := (hadd.usedIff f).2 (Or.inr (Or.inl rfl))
  -- the allocator was not at its end
  have hnotex : ¬ Exhausted s.pmm := by
    intro hex
    have hsame : s'.pmm = s.pmm := by
      have h1 : (pmmngrAllocBlock s.pmm).2 = s.pmm := congrArg Prod.snd hex
      rcases hadd.pmm with heq | heq
      · rw [heq, h1]
      · rw [heq, h1, h1]
    rw [hsame, hadd.free] at hfused
    cases hfused
  have hlost : lost = [] := by
    by_contra hlost
    exact hnotex (h.exhausted hlost)
  have hfnew : ¬ TableFrame s' d f := hadd.space.not_tableFrame hv hadd.entry |> fun hno => by
    rwa [frameOf_userEntry hadd.lt] at hno
  have hkeep : ∀ g, g ∈ taken.map Prod.snd ∨ g ∈ lost → ¬ TableFrame s' d g := by
    intro g hg ht
    rcases hadd.newTable g ht with ht | ht
    · exact (h.free g hg).2.2 ht
    · rw [h.taken_used hg] at ht
      cases ht
  have hne : ∀ q g, taken.lookup q = some g → g ≠ f := by
    rintro q g hq rfl
    exact hftaken (lookup_mem hq).2
  refine
    { space := hadd.space
      usedIff := fun g => ?_
      free := fun g hg => ?_
      nodup := ?_
      entry := fun q g hq => ?_
      others := fun q hq hnone => ?_
      tables := fun g hg => hadd.tables g (h.tables g hg)
      newTable := fun g hg => ?_
      bytes := fun g y hy hg ht => ?_
      data := fun q g hq y hy => ?_
      pages := fun q hq => ?_
      complete := fun _ => ?_
      incomplete := fun hne => absurd hlost hne
      gone := fun q hwin hq hnone => ?_
      exhausted := fun hne => absurd hlost hne
      written := fun w x hw => ?_
      pmm := fun hno => by cases hno }
  · rw [hadd.usedIff, h.usedIff, List.map_cons, List.mem_cons]
    constructor
    · rintro ((hg | hg | hg | hg) | rfl | hg)
      · exact Or.inl hg
      · exact Or.inr (Or.inl (Or.inr hg))
      · exact Or.inr (Or.inr (Or.inl hg))
      · exact Or.inr (Or.inr (Or.inr (hadd.tables g hg)))
      · exact Or.inr (Or.inl (Or.inl rfl))
      · exact Or.inr (Or.inr (Or.inr hg))
    · rintro (hg | (rfl | hg) | hg | hg)
      · exact Or.inl (Or.inl hg)
      · exact Or.inr (Or.inl rfl)
      · exact Or.inl (Or.inr (Or.inl hg))
      · exact Or.inl (Or.inr (Or.inr (Or.inl hg)))
      · exact Or.inr (Or.inr hg)
  · rw [List.map_cons, List.mem_cons] at hg
    rcases hg with (rfl | hg) | hg
    · exact ⟨hfree₀, hadd.lt, hfnew⟩
    · exact ⟨(h.free g (Or.inl hg)).1, (h.free g (Or.inl hg)).2.1, hkeep g (Or.inl hg)⟩
    · exact ⟨(h.free g (Or.inr hg)).1, (h.free g (Or.inr hg)).2.1, hkeep g (Or.inr hg)⟩
  · rw [List.map_cons, List.cons_append, List.nodup_cons, List.mem_append, not_or]
    exact ⟨⟨hftaken, hflost⟩, h.nodup⟩
  · rw [List.lookup_cons] at hq
    by_cases heq : q = page v
    · rw [heq, beq_self_eq_true] at hq
      obtain rfl := Option.some.inj hq
      rw [heq]
      exact hadd.entry
    · rw [beq_eq_false_iff_ne.2 heq] at hq
      rw [hadd.others q (h.pages q (lookup_mem hq).1).2 heq]
      exact h.entry q g hq
  · rw [List.lookup_cons] at hnone
    by_cases heq : q = page v
    · rw [heq, beq_self_eq_true] at hnone
      cases hnone
    · rw [beq_eq_false_iff_ne.2 heq] at hnone
      rw [hadd.others q hq heq]
      exact h.others q hq hnone
  · rcases hadd.newTable g hg with hg | hg
    · exact h.newTable g hg
    · exact Or.inr (h.kept_of_free hg).1
  · rw [List.map_cons, List.mem_cons, not_or] at hg
    rw [hadd.bytes g y hy ht]
    exact h.bytes g y hy hg.2 fun hold => ht (hadd.tables g hold)
  · rw [List.lookup_cons] at hq
    rw [visible_map, page_mul_add hy]
    by_cases heq : q = page v
    · rw [heq, beq_self_eq_true] at hq
      obtain rfl := Option.some.inj hq
      rw [if_pos heq.symm, Option.getD_none, hadd.bytes _ y hy hfnew]
      exact h.bytes _ y hy hftaken hftable
    · rw [beq_eq_false_iff_ne.2 heq] at hq
      rw [if_neg fun hc => heq hc.symm, hadd.bytes _ y hy (hkeep g (Or.inl (lookup_mem hq).2))]
      exact h.data q g hq y hy
  · rw [List.map_cons, List.mem_cons] at hq
    rw [mappedPages_append, mappedPages_map, List.mem_append, List.mem_singleton]
    rcases hq with rfl | hq
    · exact ⟨Or.inr rfl, hv⟩
    · exact ⟨Or.inl (h.pages q hq).1, (h.pages q hq).2⟩
  · rw [mappedPages_append, mappedPages_map, List.map_cons, List.reverse_append, h.complete hlost]
    rfl
  · rw [List.lookup_cons] at hnone
    by_cases heq : q = page v
    · rw [heq, beq_self_eq_true] at hnone
      cases hnone
    · rw [beq_eq_false_iff_ne.2 heq] at hnone
      rw [mappedPages_append, mappedPages_map, List.mem_append, List.mem_singleton] at hq
      refine absurd (lookup_eq_none.1 hnone) (not_not.2 ?_)
      rw [h.complete hlost, List.mem_reverse]
      exact hq.resolve_right heq
  · rw [List.mem_append, List.mem_singleton] at hw
    rw [List.map_cons]
    exact List.mem_cons_of_mem _ (h.written w x (hw.resolve_right (by simp)))

/-- A page whose table cannot be had. -/
theorem lose {f : ℕ} (h : Image d s₀ s ds taken lost) (hlose : FrameLost s s' d (page v) f)
    (hv : page v < windowPage) :
    Image d s₀ s' (ds ++ [.map v]) taken (f :: lost) := by
  obtain ⟨hfree₀, hftaken, hflost, hftable⟩ := h.kept_of_free hlose.free
  have hlost : lost = [] := by
    by_contra hne
    have hsame : s'.pmm = s.pmm := hlose.pmm.trans (congrArg Prod.snd (h.exhausted hne))
    have hfused := (hlose.usedIff f).2 (Or.inr rfl)
    rw [hsame, hlose.free] at hfused
    cases hfused
  have htables : ∀ g, TableFrame s' d g ↔ TableFrame s d g := by
    intro g
    rw [TableFrame, TableFrame, hlose.memory]
  refine
    { space := hlose.space
      usedIff := fun g => ?_
      free := fun g hg => ?_
      nodup := ?_
      entry := fun q g hq => ?_
      others := fun q hq hnone => ?_
      tables := fun g hg => (htables g).2 (h.tables g hg)
      newTable := fun g hg => h.newTable g ((htables g).1 hg)
      bytes := fun g y hy hg ht => ?_
      data := fun q g hq y hy => ?_
      pages := fun q hq => ?_
      complete := fun hlost => by cases hlost
      incomplete := fun _ => ⟨page v, hv, ?_, ?_⟩
      gone := fun q hwin hq hnone => ?_
      exhausted := fun _ => hlose.exhausted
      written := fun w x hw => ?_
      pmm := fun _ hno => by cases hno }
  · rw [hlose.usedIff, h.usedIff, htables, List.mem_cons]
    constructor
    · rintro ((hg | hg | hg | hg) | rfl)
      · exact Or.inl hg
      · exact Or.inr (Or.inl hg)
      · exact Or.inr (Or.inr (Or.inl (Or.inr hg)))
      · exact Or.inr (Or.inr (Or.inr hg))
      · exact Or.inr (Or.inr (Or.inl (Or.inl rfl)))
    · rintro (hg | hg | (rfl | hg) | hg)
      · exact Or.inl (Or.inl hg)
      · exact Or.inl (Or.inr (Or.inl hg))
      · exact Or.inr rfl
      · exact Or.inl (Or.inr (Or.inr (Or.inl hg)))
      · exact Or.inl (Or.inr (Or.inr (Or.inr hg)))
  · rw [htables]
    rcases hg with hg | hg
    · exact h.free g (Or.inl hg)
    · rcases List.mem_cons.1 hg with rfl | hg
      · exact ⟨hfree₀, hlose.lt, hftable⟩
      · exact h.free g (Or.inr hg)
  · refine (List.nodup_middle).2 (List.nodup_cons.2 ⟨?_, h.nodup⟩)
    rw [List.mem_append, not_or]
    exact ⟨hftaken, hflost⟩
  · rw [hlose.memory]
    exact h.entry q g hq
  · rw [hlose.memory]
    exact h.others q hq hnone
  · rw [hlose.memory]
    exact h.bytes g y hy hg fun ht' => ht ((htables g).2 ht')
  · have hne : page v ≠ q := by
      rintro rfl
      have hentry := h.entry _ g hq
      rw [hlose.absent] at hentry
      cases hentry
    rw [visible_map, page_mul_add hy, if_neg hne, hlose.memory]
    exact h.data q g hq y hy
  · rw [mappedPages_append, List.mem_append]
    exact ⟨Or.inl (h.pages q hq).1, (h.pages q hq).2⟩
  · rw [mappedPages_append, mappedPages_map, h.complete hlost, List.reverse_reverse]
  · rw [hlose.memory]
    exact hlose.noTable
  · rw [hlose.memory]
    rw [mappedPages_append, mappedPages_map, List.mem_append, List.mem_singleton] at hq
    rcases hq with hq | rfl
    · exact h.gone q hwin hq hnone
    · exact hlose.absent
  · rw [List.mem_append, List.mem_singleton] at hw
    exact h.written w x (hw.resolve_right (by simp))

/-- A store in a page that was taken. -/
theorem stored {f : ℕ} (h : Image d s₀ s ds taken lost) (hf : taken.lookup (page v) = some f)
    (hspace : AddressSpace { s with memory := store8 s.memory (f * 4096 + v % 4096) x } d)
    (hdir : ∀ i < 1024, word (store8 s.memory (f * 4096 + v % 4096) x) d i = word s.memory d i)
    (hlookup : ∀ p < windowPage,
      lookup (store8 s.memory (f * 4096 + v % 4096) x) d p = lookup s.memory d p) :
    Image d s₀ { s with memory := store8 s.memory (f * 4096 + v % 4096) x }
      (ds ++ [.write v x]) taken lost := by
  obtain ⟨hpage, hftaken⟩ := lookup_mem hf
  have htables : ∀ g, TableFrame { s with
      memory := store8 s.memory (f * 4096 + v % 4096) x } d g ↔ TableFrame s d g := by
    intro g
    unfold TableFrame
    refine or_congr Iff.rfl (exists_congr fun i => and_congr_right fun hi => ?_)
    dsimp only
    rw [hdir i (by omega)]
  have hstore : ∀ g y, y < 4096 → g ≠ f →
      store8 s.memory (f * 4096 + v % 4096) x (g * 4096 + y) = s.memory (g * 4096 + y) :=
    fun g y hy hg => store8_of_ne _ _ (by omega)
  refine
    { space := hspace
      usedIff := fun g => by rw [htables]; exact h.usedIff g
      free := fun g hg => by rw [htables]; exact h.free g hg
      nodup := h.nodup
      entry := fun q g hq => ?_
      others := fun q hq hnone => (hlookup q hq).trans (h.others q hq hnone)
      tables := fun g hg => (htables g).2 (h.tables g hg)
      newTable := fun g hg => h.newTable g ((htables g).1 hg)
      bytes := fun g y hy hg ht => ?_
      data := fun q g hq y hy => ?_
      pages := fun q hq => ?_
      complete := fun hlost => ?_
      incomplete := fun hlost => ?_
      gone := fun q hwin hq hnone => ?_
      exhausted := h.exhausted
      written := fun w y hw => ?_
      pmm := h.pmm }
  · rw [hlookup q (h.pages q (lookup_mem hq).1).2]
    exact h.entry q g hq
  · have hne : g ≠ f := by
      rintro rfl
      exact hg hftaken
    exact (hstore g y hy hne).trans (h.bytes g y hy hg fun ht' => ht ((htables g).2 ht'))
  · rw [visible_write]
    by_cases hv : v = q * 4096 + y
    · obtain rfl : page v = q := by rw [hv, page_mul_add hy]
      obtain rfl := Option.some.inj (hf.symm.trans hq)
      have hy' : v % 4096 = y := by
        rw [page_eq] at hv
        omega
      rw [if_pos hv, hy', Option.getD_some]
      exact store8_self _ _ _
    · rw [if_neg hv, ← h.data q g hq y hy]
      refine store8_of_ne _ _ fun heq => hv ?_
      obtain rfl : g = f := by omega
      have := eq_of_lookup_eq (List.nodup_append.1 h.nodup).1 hq hf
      rw [page_eq] at this
      omega
  · rw [mappedPages_append, mappedPages_write, List.append_nil]
    exact h.pages q hq
  · rw [mappedPages_append, mappedPages_write, List.append_nil]
    exact h.complete hlost
  · obtain ⟨q, hq, hpages, hno⟩ := h.incomplete hlost
    have hqd := div_lt_of_lt_windowPage hq
    rw [mappedPages_append, mappedPages_write, List.append_nil]
    refine ⟨q, hq, hpages, ?_⟩
    dsimp only
    rwa [hdir _ (by omega)]
  · rw [mappedPages_append, mappedPages_write, List.append_nil] at hq
    exact (hlookup q hwin).trans (h.gone q hwin hq hnone)
  · rw [List.mem_append, List.mem_singleton] at hw
    rcases hw with hw | hw
    · exact h.written w y hw
    · obtain ⟨rfl, -⟩ := Access.write.inj hw
      exact hpage

end Image

end Loader

end Yotos
