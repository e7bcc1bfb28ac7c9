import Yotos.Fat16.Alloc
import Yotos.Fat16.Contents
import Mathlib.Data.Finset.Card
import Mathlib.Order.Interval.Finset.Nat

/-!
# Freeing a chain

`fat_free_chain` follows the links that it erases. On any table it comes to an end,
since every round but the last one clears an entry that was not zero, whatever the
links are. On a chain it clears the entries of the chain and nothing else, in the one
or two copies that `fat_set_entry` keeps.
-/

namespace Yotos

namespace Fat16

open Bytes Library

/-- The 16-bit cluster numbers whose entry is not zero. -/
def nonzeroEntries (b : Bpb) (d : Disk) : Finset ℕ :=
  (Finset.range 65536).filter fun k => fatAt b d k ≠ 0

/-- The second disk is the first one with the entries of `l` zero. -/
structure Freed (b : Bpb) (d d' : Disk) (l : List ℕ) : Prop where
  first : ∀ k < 256 * b.fatSize, fatAt b d' k = if k ∈ l then 0 else fatAt b d k
  second : 1 < b.fatCount.toNat →
    ∀ k < 256 * b.fatSize, fat2At b d' k = if k ∈ l then 0 else fat2At b d k
  frame : ∀ a, (∀ c ∈ l, a < fatAddr b c ∨ fatAddr b c + 2 ≤ a) →
    (1 < b.fatCount.toNat → ∀ c ∈ l, a < fatAddr b c + 512 * b.fatSize ∨
      fatAddr b c + 512 * b.fatSize + 2 ≤ a) → d' a = d a

variable {b : Bpb} {d d' : Disk} {c k fuel n : ℕ} {l : List ℕ}

/-! ### One entry -/

theorem fat2At_eq (b : Bpb) (d : Disk) (k : ℕ) : fat2At b d k = fatAt b d (k + 256 * b.fatSize) := by
  have haddr : fatAddr b k + 512 * b.fatSize = fatAddr b (k + 256 * b.fatSize) := by
    unfold fatAddr
    omega
  rw [fat2At, fatAt, haddr]

/-- Clearing an entry clears nothing else, but the same entry of the second copy. -/
theorem fatAt_fatSetEntry_zero (h : c < 65536) (k : ℕ) :
    fatAt b (fatSetEntry b d c 0) k =
      if k = c ∨ (1 < b.fatCount.toNat ∧ k = c + 256 * b.fatSize) then 0 else fatAt b d k := by
  have hstore : ∀ (m : Disk) (x : ℕ), fatAt b (store16 m (fatAddr b x) 0) k =
      if k = x then 0 else fatAt b m k := by
    intro m x
    by_cases hk : k = x
    · rw [if_pos hk, hk, fatAt, load16_store16]
    · rw [if_neg hk]
      apply load16_store16_of_apart
      unfold fatAddr
      omega
  have haddr : fatAddr b c + 512 * b.fatSize = fatAddr b (c + 256 * b.fatSize) := by
    unfold fatAddr
    omega
  rw [fatSetEntry_eq h]
  by_cases hcount : 1 < b.fatCount.toNat
  · simp only [hcount, if_true, true_and, haddr, hstore]
    by_cases hk : k = c + 256 * b.fatSize
    · simp [hk]
    · simp [hk]
  · simp [hcount, hstore]

/-- A zero entry stays zero. -/
theorem nonzeroEntries_fatSetEntry_subset (h : c < 65536) :
    nonzeroEntries b (fatSetEntry b d c 0) ⊆ (nonzeroEntries b d).erase c := by
  intro k hk
  obtain ⟨hlt, hne⟩ := Finset.mem_filter.1 hk
  rw [fatAt_fatSetEntry_zero h] at hne
  split_ifs at hne with hcond
  · exact absurd rfl hne
  · exact Finset.mem_erase.2 ⟨fun hkc => hcond (Or.inl hkc), Finset.mem_filter.2 ⟨hlt, hne⟩⟩

/-! ### Every table -/

theorem fatFreeChain_zero (b : Bpb) (fuel : ℕ) (d : Disk) : fatFreeChain b fuel 0 d = some d := by
  cases fuel <;> simp [fatFreeChain, isCluster]

/-- One round more than there are entries to clear is enough. -/
theorem exists_fatFreeChain (hcard : (nonzeroEntries b d).card ≤ n) (hc : c < 65536) :
    ∃ d', fatFreeChain b (n + 1) c d = some d' := by
  induction n generalizing c d with
  | zero =>
      have hzero : fatAt b d c = 0 := by
        by_contra hne
        have hmem : c ∈ nonzeroEntries b d :=
          Finset.mem_filter.2 ⟨Finset.mem_range.2 hc, hne⟩
        have := Finset.card_pos.2 ⟨c, hmem⟩
        omega
      rw [fatFreeChain, fatEntry_eq hc, hzero]
      split_ifs
      · exact ⟨_, fatFreeChain_zero b 0 _⟩
      · exact ⟨d, rfl⟩
  | succ n ih =>
      rw [fatFreeChain, fatEntry_eq hc]
      split_ifs
      · by_cases hzero : fatAt b d c = 0
        · rw [hzero]
          exact ⟨_, fatFreeChain_zero b (n + 1) _⟩
        · have hmem : c ∈ nonzeroEntries b d :=
            Finset.mem_filter.2 ⟨Finset.mem_range.2 hc, hzero⟩
          have hle := Finset.card_le_card (nonzeroEntries_fatSetEntry_subset (b := b) (d := d) hc)
          rw [Finset.card_erase_of_mem hmem] at hle
          exact ih (by omega) (fatAt_lt b d c)
      · exact ⟨d, rfl⟩

theorem fatFreeChain_mono (h : fatFreeChain b fuel c d = some d') (hle : fuel ≤ n) :
    fatFreeChain b n c d = some d' := by
  induction fuel generalizing c d n with
  | zero =>
      rw [fatFreeChain] at h
      split_ifs at h with hc
      cases n <;> simp [fatFreeChain, hc, h]
  | succ fuel ih =>
      obtain ⟨n, rfl⟩ := Nat.exists_eq_add_of_le' (show 1 ≤ n by omega)
      rw [fatFreeChain] at h ⊢
      split_ifs at h ⊢ with hc
      · exact ih h (by omega)
      · exact h

/-! ### A chain -/

theorem Freed.refl (b : Bpb) (d : Disk) : Freed b d d [] where
  first := by simp
  second := by simp
  frame := by simp

/-- The entries of the rest of the chain are cleared after the first one. -/
theorem Freed.cons (hc : c < 256 * b.fatSize) (hlt : c < 65536)
    (h : Freed b (fatSetEntry b d c 0) d' l) : Freed b d d' (c :: l) where
  first k hk := by
    rw [h.first k hk, fatAt_fatSetEntry_zero hlt]
    by_cases hkl : k ∈ l
    · simp [hkl]
    · have hother : ¬ k = c + 256 * b.fatSize := by omega
      simp [hkl, hother]
  second hcount k hk := by
    rw [h.second hcount k hk, fat2At_eq, fatAt_fatSetEntry_zero hlt, ← fat2At_eq]
    by_cases hkl : k ∈ l
    · simp [hkl]
    · have hother : ¬ k + 256 * b.fatSize = c := by omega
      simp [hkl, hother, hcount]
  frame a ha ha₂ := by
    have hrest := h.frame a (fun x hx => ha x (List.mem_cons_of_mem _ hx))
      fun hcount x hx => ha₂ hcount x (List.mem_cons_of_mem _ hx)
    rw [hrest]
    exact fatSetEntry_of_apart hlt (ha c List.mem_cons_self)
      fun hcount => ha₂ hcount c List.mem_cons_self

theorem exists_freed (h : ClusterChain b (clusterTop b) d c l) :
    ∃ d', fatFreeChain b l.length c d = some d' ∧ Freed b d d' l := by
  have hinside : ∀ {x}, InUse (clusterTop b) x → x < 256 * b.fatSize ∧ x < 0xFFF8 := by
    intro x hx
    have := hx.2
    unfold clusterTop at this
    omega
  induction l generalizing c d with
  | nil =>
      have hmark : 0xFFF8 ≤ c := h
      refine ⟨d, ?_, Freed.refl b d⟩
      rw [List.length_nil, fatFreeChain, if_neg]
      rw [isCluster_iff]
      omega
  | cons x xs ih =>
      have hnodup := h.nodup fun a ha hend => by
        have := hinside ha
        unfold EndMark at hend
        omega
      obtain ⟨rfl, hin, hrest⟩ := h
      obtain ⟨htable, hlt⟩ := hinside hin
      have hc : x < 65536 := by omega
      -- the links behind the erased entry are still there
      have hrest' : ClusterChain b (clusterTop b) (fatSetEntry b d x 0) (fatAt b d x) xs := by
        refine hrest.congr fun y hy => ?_
        obtain ⟨hytable, -⟩ := hinside (hrest.inside_of_mem hy)
        have hne : y ≠ x := by
          rintro rfl
          exact (List.nodup_cons.1 hnodup).1 hy
        exact fatAt_fatSetEntry_of_ne hc hytable hne
      obtain ⟨d', hrun, hfreed⟩ := ih hrest'
      refine ⟨d', ?_, hfreed.cons htable hc⟩
      rw [List.length_cons, fatFreeChain, if_pos (isCluster_iff.2 ⟨hin.1, hlt⟩), fatEntry_eq hc]
      exact hrun

/-- On every disk `fat_free_chain` comes to an end, and from the start of a chain it
clears the entries of the chain. -/
theorem fatFreeChain_ends (b : Bpb) (d : Disk) (start : UInt16) :
    ∃ d' fuel, (∀ n ≥ fuel, fatFreeChain b n start.toNat d = some d') ∧
      ∀ l, ClusterChain b (clusterTop b) d start.toNat l → Freed b d d' l := by
  obtain ⟨d', hrun⟩ := exists_fatFreeChain (b := b) (d := d) le_rfl start.toNat_lt
  have hruns : ∀ n ≥ (nonzeroEntries b d).card + 1, fatFreeChain b n start.toNat d = some d' :=
    fun n hn => fatFreeChain_mono hrun hn
  refine ⟨d', _, hruns, fun l hl => ?_⟩
  obtain ⟨d'', hrun'', hfreed⟩ := exists_freed hl
  have hboth := hruns (max ((nonzeroEntries b d).card + 1) l.length) (le_max_left _ _)
  rw [fatFreeChain_mono hrun'' (le_max_right _ _)] at hboth
  obtain rfl := Option.some.inj hboth
  exact hfreed

end Fat16

end Yotos
