import Mathlib.Tactic.TypeStar
import Mathlib.Data.List.Nodup
import Mathlib.Data.List.Perm.Subperm
import Mathlib.Data.Nat.Notation

/-!
# Chains of links

A table `next` links every element to another one. `Chain next inside stop c l`
says that the walk from `c` visits exactly the elements of `l`, all of them
`inside`, and then reaches a `stop` value. A chain is determined by its start, it
repeats nothing, and it only depends on the links of its own elements.
-/

namespace Yotos

namespace Library

variable {α : Type*}

/-- The walk from `c` along `next` visits `l` and stops. -/
def Chain (next : α → α) (inside stop : α → Prop) : α → List α → Prop
  | c, [] => stop c
  | c, x :: xs => x = c ∧ inside c ∧ Chain next inside stop (next c) xs

namespace Chain

variable {next next' : α → α} {inside inside' stop : α → Prop} {c x y : α} {l xs ys : List α}

theorem inside_of_mem (h : Chain next inside stop c l) (hx : x ∈ l) : inside x := by
  induction l generalizing c with
  | nil => cases hx
  | cons y ys ih =>
      obtain ⟨rfl, hin, hrest⟩ := h
      rcases List.mem_cons.1 hx with rfl | hx
      · exact hin
      · exact ih hrest hx

/-- The part of a chain from one of its elements on. -/
theorem suffix (h : Chain next inside stop c (xs ++ x :: ys)) :
    Chain next inside stop x (x :: ys) := by
  induction xs generalizing c with
  | nil =>
      obtain rfl := h.1
      exact h
  | cons y zs ih => exact ih h.2.2

theorem after (h : Chain next inside stop c (xs ++ x :: ys)) :
    Chain next inside stop (next x) ys :=
  h.suffix.2.2

/-- Every link out of a chain's element leads on in the chain, or stops. -/
theorem next_mem_or_stop (h : Chain next inside stop c l) (hx : x ∈ l) :
    next x ∈ l ∨ stop (next x) := by
  obtain ⟨xs, ys, rfl⟩ := List.append_of_mem hx
  have hafter := h.after
  cases ys with
  | nil => exact Or.inr hafter
  | cons y ys =>
      left
      rw [← hafter.1]
      simp

/-- Consecutive elements are linked. -/
theorem next_getElem {i : ℕ} (h : Chain next inside stop c l) (hx : l[i]? = some x)
    (hy : l[i + 1]? = some y) : next x = y := by
  induction l generalizing c i with
  | nil => exact absurd hx (by simp)
  | cons z zs ih =>
      obtain ⟨rfl, hin, hrest⟩ := h
      cases i with
      | zero =>
          obtain rfl := Option.some.inj hx
          cases zs with
          | nil => exact absurd hy (by simp)
          | cons w ws =>
              obtain rfl := Option.some.inj hy
              exact hrest.1.symm
      | succ i => exact ih hrest hx hy

theorem unique (hex : ∀ a, inside a → ¬ stop a) (h : Chain next inside stop c l)
    (h' : Chain next inside stop c ys) : l = ys := by
  induction l generalizing c ys with
  | nil =>
      cases ys with
      | nil => rfl
      | cons y zs => exact absurd h (hex c h'.2.1)
  | cons x xs ih =>
      cases ys with
      | nil => exact absurd h' (hex c h.2.1)
      | cons y zs => rw [h.1, h'.1, ih h.2.2 h'.2.2]

/-- An element seen twice would start two chains of different lengths. -/
theorem nodup (hex : ∀ a, inside a → ¬ stop a) (h : Chain next inside stop c l) :
    l.Nodup := by
  induction l generalizing c with
  | nil => exact List.nodup_nil
  | cons x xs ih =>
      refine List.nodup_cons.2 ⟨fun hmem => ?_, ih h.2.2⟩
      obtain ⟨us, vs, rfl⟩ := List.append_of_mem hmem
      have hwhole : Chain next inside stop x (x :: (us ++ x :: vs)) := by
        obtain rfl := h.1
        exact h
      have heq := unique hex hwhole h.2.2.suffix
      have hlen := congrArg List.length heq
      simp only [List.length_cons, List.length_append] at hlen
      omega

/-- A chain of numbers below `N` has at most `N` elements. -/
theorem length_le {next : ℕ → ℕ} {inside stop : ℕ → Prop} {c N : ℕ} {l : List ℕ}
    (hex : ∀ a, inside a → ¬ stop a) (hlt : ∀ a, inside a → a < N)
    (h : Chain next inside stop c l) : l.length ≤ N := by
  have hsub : l ⊆ List.range N := fun x hx => List.mem_range.2 (hlt x (h.inside_of_mem hx))
  have hle := (List.subperm_of_subset (h.nodup hex) hsub).length_le
  rwa [List.length_range] at hle

theorem congr (h : Chain next inside stop c l) (hnext : ∀ x ∈ l, next' x = next x) :
    Chain next' inside stop c l := by
  induction l generalizing c with
  | nil => exact h
  | cons y ys ih =>
      obtain ⟨rfl, hin, hrest⟩ := h
      refine ⟨rfl, hin, ?_⟩
      rw [hnext y (by simp)]
      exact ih hrest fun x hx => hnext x (by simp [hx])

/-- The last element is linked to a new one, which becomes the new end. -/
theorem snoc (h : Chain next inside stop c (xs ++ [x])) (hnext : ∀ z ∈ xs, next' z = next z)
    (hx : next' x = y) (hy : inside y) (hstop : stop (next' y)) :
    Chain next' inside stop c (xs ++ [x, y]) := by
  induction xs generalizing c with
  | nil =>
      obtain ⟨rfl, hin, -⟩ := h
      exact ⟨rfl, hin, hx.symm, hx.symm ▸ hy, hx.symm ▸ hstop⟩
  | cons z zs ih =>
      obtain ⟨rfl, hin, hrest⟩ := h
      refine ⟨rfl, hin, ?_⟩
      rw [hnext z (by simp)]
      exact ih hrest fun w hw => hnext w (by simp [hw])

theorem single (hc : inside c) (hstop : stop (next c)) : Chain next inside stop c [c] :=
  ⟨rfl, hc, hstop⟩

end Chain

end Library

end Yotos
