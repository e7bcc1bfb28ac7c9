import Mathlib.Data.List.DropRight
import Mathlib.Data.List.GetD
import Mathlib.Tactic.TypeStar

/-!
# Padded fields

A field of fixed width holds a shorter list filled up with a blank. Padding is
`List.rightpad`, and trimming drops the blanks at the end: trimming undoes padding
exactly on the lists that do not end in a blank, and padding undoes trimming on every
full field.
-/

namespace Yotos

namespace Library

variable {α : Type*} {x : α} {l : List α} {n : ℕ}

/-- The field read place by place. -/
theorem map_range_getD (h : l.length ≤ n) :
    (List.range n).map (fun i => l.getD i x) = l.rightpad n x := by
  apply List.ext_getElem
  · simp [h]
  · intro i hi hi'
    simp [List.rightpad, List.getElem_append, List.getD_eq_getElem?_getD]
    split_ifs with hlt
    · simp [hlt]
    · simp [List.getElem?_eq_none (Nat.le_of_not_lt hlt)]

variable [DecidableEq α]

theorem rdropWhile_append_replicate (l : List α) (x : α) (k : ℕ) :
    (l ++ List.replicate k x).rdropWhile (· = x) = l.rdropWhile (· = x) := by
  induction k with
  | zero => simp
  | succ k ih =>
      rw [List.replicate_succ', ← List.append_assoc, List.rdropWhile_concat_pos _ _ _ (by simp)]
      exact ih

/-- Trimming sees through the padding. -/
theorem rdropWhile_rightpad (n : ℕ) (x : α) (l : List α) :
    (l.rightpad n x).rdropWhile (· = x) = l.rdropWhile (· = x) :=
  rdropWhile_append_replicate l x _

theorem rdropWhile_eq_self_iff_getLast? :
    l.rdropWhile (· = x) = l ↔ l.getLast? ≠ some x := by
  rw [List.rdropWhile_eq_self_iff]
  cases l using List.reverseRecOn with
  | nil => simp
  | append_singleton l y => simp

/-- What is trimmed off is blank. -/
theorem exists_append_replicate (l : List α) (x : α) :
    ∃ k, l = l.rdropWhile (· = x) ++ List.replicate k x := by
  refine ⟨(l.rtakeWhile (· = x)).length, ?_⟩
  have hblank : l.rtakeWhile (· = x) = List.replicate (l.rtakeWhile (· = x)).length x := by
    apply List.eq_replicate_of_mem
    intro y hy
    simpa using List.mem_rtakeWhile_imp hy
  rw [← hblank, List.rdropWhile_append_rtakeWhile]

/-- Nothing is lost where a missing place reads as a blank. -/
theorem getD_rdropWhile (l : List α) (x : α) (i : ℕ) :
    (l.rdropWhile (· = x)).getD i x = l.getD i x := by
  obtain ⟨k, hk⟩ := exists_append_replicate l x
  generalize l.rdropWhile (· = x) = m at hk ⊢
  subst hk
  rcases Nat.lt_or_ge i m.length with hlt | hge
  · rw [List.getD_append _ _ _ _ hlt]
  · rw [List.getD_append_right _ _ _ _ hge, List.getD_eq_default _ _ hge,
      List.getD_eq_getElem?_getD, List.getElem?_getD_replicate_default_eq]

end Library

end Yotos
