import Mathlib.Data.Nat.Notation
import Mathlib.Order.Nat
import Mathlib.Tactic.TypeStar

/-!
# Counted loops

`for (i = 0; i < n; i++) if (...) return ...;` is `(List.range n).findSome?`, and a loop
that runs to its end and updates a state is `(List.range n).foldl`.
-/

namespace Yotos

namespace Library

variable {α : Type*} {f : ℕ → Option α} {n i : ℕ} {a : α}

theorem findSome?_congr_range {g : ℕ → Option α} (h : ∀ i < n, f i = g i) :
    (List.range n).findSome? f = (List.range n).findSome? g := by
  induction n with
  | zero => rfl
  | succ n ih =>
      rw [List.range_succ, List.findSome?_append, List.findSome?_append,
        ih fun i hi => h i (by omega), List.findSome?_singleton, List.findSome?_singleton,
        h n (by omega)]

theorem findSome?_range_eq_none :
    (List.range n).findSome? f = none ↔ ∀ i < n, f i = none := by
  simp only [List.findSome?_eq_none_iff, List.mem_range]

/-- The hit is the first one. -/
theorem findSome?_range_eq_some :
    (List.range n).findSome? f = some a ↔ ∃ i < n, f i = some a ∧ ∀ j < i, f j = none := by
  induction n with
  | zero => simp
  | succ n ih =>
      rw [List.range_succ, List.findSome?_append, Option.or_eq_some_iff, ih,
        findSome?_range_eq_none, List.findSome?_singleton]
      constructor
      · rintro (⟨i, hi, hhit⟩ | ⟨hnone, hhit⟩)
        · exact ⟨i, by omega, hhit⟩
        · exact ⟨n, by omega, hhit, hnone⟩
      · rintro ⟨i, hi, hhit, hbefore⟩
        rcases Nat.lt_succ_iff_lt_or_eq.1 hi with hlt | rfl
        · exact Or.inl ⟨i, hlt, hhit, hbefore⟩
        · exact Or.inr ⟨hbefore, hhit⟩

/-- What holds after `k` rounds holds, with `n` for `k`, after the loop. -/
theorem foldl_range_invariant {σ : Type*} {g : σ → ℕ → σ} {s : σ} (inv : ℕ → σ → Prop)
    (hzero : inv 0 s) (hstep : ∀ k < n, ∀ t, inv k t → inv (k + 1) (g t k)) :
    inv n ((List.range n).foldl g s) := by
  induction n with
  | zero => exact hzero
  | succ n ih =>
      rw [List.range_succ, List.foldl_append, List.foldl_cons, List.foldl_nil]
      exact hstep n (Nat.lt_succ_self n) _ (ih fun k hk => hstep k (Nat.lt_succ_of_lt hk))

/-- Two nested loops, over the cells of `n` rows of length `m` in order. -/
theorem foldl_rows_invariant {σ : Type*} {m : ℕ} {g : σ → ℕ → ℕ → σ} {s : σ} (inv : ℕ → σ → Prop)
    (hzero : inv 0 s)
    (hstep : ∀ y < n, ∀ x < m, ∀ t, inv (y * m + x) t → inv (y * m + x + 1) (g t y x)) :
    inv (n * m) ((List.range n).foldl (fun t y => (List.range m).foldl (fun t x => g t y x) t) s) := by
  refine foldl_range_invariant (fun y => inv (y * m)) (by rwa [Nat.zero_mul]) ?_
  intro y hy t ht
  rw [Nat.succ_mul]
  exact foldl_range_invariant (fun x => inv (y * m + x)) ht (hstep y hy)

end Library

end Yotos
