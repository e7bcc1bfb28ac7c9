import Mathlib.Logic.Function.Basic
import Mathlib.Data.List.Basic

/-!
# A sequence in the front of an array

The first `n` places of an array, as a list. The loop that moves them up by one place,
from the back on, makes room for a new first value.
-/

namespace Yotos

namespace Library

variable {α : Type*}

/-- The loop `for (i = n; i > 0; i--) a[i] = a[i - 1]`. -/
def shift : (n : ℕ) → (a : ℕ → α) → ℕ → α
  | 0, a => a
  | n + 1, a => shift n (Function.update a (n + 1) (a n))

/-- The first `n` places. -/
def front (n : ℕ) (a : ℕ → α) : List α := (List.range n).map a

variable {a : ℕ → α} {n i : ℕ} {x : α}

/-- Each place up to `n` has what the place below had. -/
theorem shift_apply (n : ℕ) (a : ℕ → α) (i : ℕ) :
    shift n a i = if 0 < i ∧ i ≤ n then a (i - 1) else a i := by
  induction n generalizing a with
  | zero =>
      rw [shift, if_neg]
      omega
  | succ n ih =>
      rw [shift, ih]
      rcases eq_or_ne i (n + 1) with rfl | hi
      · simp
      · have hpred : 0 < i ∧ i ≤ n → i - 1 ≠ n + 1 := by omega
        have hiff : 0 < i ∧ i ≤ n ↔ 0 < i ∧ i ≤ n + 1 := by omega
        simp only [Function.update_of_ne hi, ← hiff]
        split_ifs with h
        · rw [Function.update_of_ne (hpred h)]
        · rfl

/-- After the shift, the new first value stands before the old front. -/
theorem front_update_shift (n : ℕ) (a : ℕ → α) (x : α) :
    front (n + 1) (Function.update (shift n a) 0 x) = x :: front n a := by
  rw [front, List.range_succ_eq_map, List.map_cons, List.map_map, front]
  congr 1
  apply List.map_congr_left
  intro i hi
  have hle : i + 1 ≤ n := List.mem_range.1 hi
  simp [shift_apply, hle]

@[simp] theorem length_front : (front n a).length = n := by simp [front]

theorem front_succ (n : ℕ) (a : ℕ → α) : front (n + 1) a = front n a ++ [a n] := by
  simp [front, List.range_succ]

theorem dropLast_front (n : ℕ) (a : ℕ → α) : (front n a).dropLast = front (n - 1) a := by
  cases n with
  | zero => rfl
  | succ n => rw [front_succ, List.dropLast_concat, Nat.add_sub_cancel]

theorem head?_front (h : 0 < n) (a : ℕ → α) : (front n a).head? = some (a 0) := by
  rw [front, List.head?_eq_getElem?, List.getElem?_map, List.getElem?_range h, Option.map_some]

theorem mem_front : x ∈ front n a ↔ ∃ i < n, a i = x := by simp [front]

end Library

end Yotos
