import Mathlib.Data.Finset.Card
import Mathlib.Data.Nat.Notation
import Mathlib.Order.Interval.Finset.Nat

/-!
# Orbits of a bounded table

A walk along a table whose values stay below `N` meets all its values within the first
`N` steps: among `N + 1` values two are equal, and from there on the walk repeats.
-/

namespace Yotos

namespace Library

variable {f : ℕ → ℕ} {c N : ℕ}

/-- Two of the first `N + 1` values are equal. -/
theorem exists_iterate_eq (h : ∀ i, f^[i] c < N) :
    ∃ i j, i < j ∧ j ≤ N ∧ f^[i] c = f^[j] c := by
  have hmaps : Set.MapsTo (fun i => f^[i] c) (Finset.range (N + 1)) (Finset.range N) :=
    fun i _ => Finset.mem_coe.2 (Finset.mem_range.2 (h i))
  obtain ⟨i, hi, j, hj, hne, heq⟩ :=
    Finset.exists_ne_map_eq_of_card_lt_of_maps_to (by simp) hmaps
  have hiN := Finset.mem_range.1 hi
  have hjN := Finset.mem_range.1 hj
  rcases Nat.lt_or_gt_of_ne hne with hlt | hgt
  · exact ⟨i, j, hlt, by omega, heq⟩
  · exact ⟨j, i, hgt, by omega, heq.symm⟩

/-- Every value of the walk is met within `N` steps. -/
theorem exists_iterate_lt (h : ∀ i, f^[i] c < N) (m : ℕ) : ∃ i < N, f^[i] c = f^[m] c := by
  induction m using Nat.strong_induction_on with
  | _ m ih =>
      rcases Nat.lt_or_ge m N with hlt | hge
      · exact ⟨m, hlt, rfl⟩
      · obtain ⟨i, j, hij, hjN, heq⟩ := exists_iterate_eq h
        have hback : f^[m - j + i] c = f^[m] c := by
          rw [Function.iterate_add_apply, heq, ← Function.iterate_add_apply,
            Nat.sub_add_cancel (Nat.le_trans hjN hge)]
        obtain ⟨k, hk, hvalue⟩ := ih (m - j + i) (by omega)
        exact ⟨k, hk, hvalue.trans hback⟩

end Library

end Yotos
