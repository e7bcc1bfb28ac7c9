import Mathlib.Data.List.Basic
import Mathlib.Tactic.TypeStar

/-!
# Computations that may get stuck

A computation on a state ends with a result or gets stuck in some state. `Sat` is its
triple, with one condition for either end.
-/

namespace Yotos

namespace Library

variable {σ α β : Type*}

/-- How a computation ends. -/
inductive Outcome (σ α : Type*)
  | done (a : α) (s : σ)
  | stuck (s : σ)

namespace Outcome

/-- The state at the end. -/
def state : Outcome σ α → σ
  | done _ s => s
  | stuck s => s

def bind (r : Outcome σ α) (f : α → σ → Outcome σ β) : Outcome σ β :=
  match r with
  | done a s => f a s
  | stuck s => stuck s

/-- `P` holds of the result and the state, or `F` of the state it is stuck in. -/
def Sat (r : Outcome σ α) (P : α → σ → Prop) (F : σ → Prop) : Prop :=
  match r with
  | done a s => P a s
  | stuck s => F s

variable {r : Outcome σ α} {f : α → σ → Outcome σ β} {P P' : α → σ → Prop} {F F' : σ → Prop}
  {Q : β → σ → Prop}

instance [∀ a s, Decidable (P a s)] [∀ s, Decidable (F s)] : Decidable (r.Sat P F) :=
  match r with
  | done a s => inferInstanceAs (Decidable (P a s))
  | stuck s => inferInstanceAs (Decidable (F s))

@[simp] theorem sat_done {a : α} {s : σ} : (done a s).Sat P F ↔ P a s := Iff.rfl

@[simp] theorem sat_stuck {s : σ} : (stuck s : Outcome σ α).Sat P F ↔ F s := Iff.rfl

@[simp] theorem bind_done {a : α} {s : σ} : (done a s).bind f = f a s := rfl

@[simp] theorem bind_stuck {s : σ} : (stuck s : Outcome σ α).bind f = stuck s := rfl

theorem Sat.mono (h : r.Sat P F) (hP : ∀ a s, P a s → P' a s) (hF : ∀ s, F s → F' s) :
    r.Sat P' F' := by
  cases r with
  | done a s => exact hP a s h
  | stuck s => exact hF s h

theorem Sat.bind (h : r.Sat P F) (hf : ∀ a s, P a s → (f a s).Sat Q F) : (r.bind f).Sat Q F := by
  cases r with
  | done a s => exact hf a s h
  | stuck s => exact h

theorem Sat.of_eq_done {a : α} {s : σ} (h : r.Sat P F) (hr : r = done a s) : P a s := by
  rw [hr] at h
  exact h

/-- A computation that does not get stuck has a result. -/
theorem Sat.exists_done (h : r.Sat P fun _ => False) : ∃ a s, r = done a s ∧ P a s := by
  cases r with
  | done a s => exact ⟨a, s, rfl, h⟩
  | stuck s => exact h.elim

/-- The same condition at either end is one on the last state. -/
theorem Sat.state (h : r.Sat (fun _ s => F s) F) : F r.state := by
  cases r with
  | done a s => exact h
  | stuck s => exact h

theorem bind_eq_done {b : β} {s : σ} (h : r.bind f = done b s) :
    ∃ a t, r = done a t ∧ f a t = done b s := by
  cases r with
  | done a t => exact ⟨a, t, rfl, h⟩
  | stuck t => cases h

end Outcome

end Library

end Yotos
