import Mathlib.Data.List.Basic
import Mathlib.Logic.Function.Basic
import Mathlib.Order.Lattice
import Mathlib.Order.Nat

/-!
# Stores

Lists that are found by a key, written in pieces, and made empty. Beside them stands the
rule by which a system is compared with another: what simulates each of its steps
simulates its runs.
-/

namespace Yotos

namespace Library

variable {κ α σ τ ε : Type*}

/-! ## Simulation -/

/-- A run of a labelled transition relation. -/
inductive Steps (step : σ → ε → σ → Prop) : σ → List ε → σ → Prop
  | nil (s : σ) : Steps step s [] s
  | cons {s t u : σ} {e : ε} {es : List ε} (h : step s e t) (rest : Steps step t es u) :
      Steps step s (e :: es) u

/-- A relation that simulates steps simulates runs. -/
theorem Steps.simulate {step : σ → ε → σ → Prop} {step' : τ → ε → τ → Prop} {rel : σ → τ → Prop}
    (hstep : ∀ s t e x, rel s x → step s e t → ∃ y, step' x e y ∧ rel t y) {s t : σ} {x : τ}
    {es : List ε} (hx : rel s x) (h : Steps step s es t) : ∃ y, Steps step' x es y ∧ rel t y := by
  induction h generalizing x with
  | nil s => exact ⟨x, .nil x, hx⟩
  | cons h rest ih =>
      obtain ⟨y, hy, hrel⟩ := hstep _ _ _ x hx h
      obtain ⟨z, hz, hlast⟩ := ih hrel
      exact ⟨z, .cons hy hz, hlast⟩

/-! ## Pieces of a list -/

/-- `data` in place of what was from `offset` on. -/
def splice (content : List α) (offset : ℕ) (data : List α) : List α :=
  content.take offset ++ data ++ content.drop (offset + data.length)

variable {content data : List α} {offset x : ℕ}

theorem length_splice (h : offset ≤ content.length) :
    (splice content offset data).length = max content.length (offset + data.length) := by
  rw [splice, List.length_append, List.length_append, List.length_take_of_le h, List.length_drop]
  omega

theorem splice_nil (content : List α) (offset : ℕ) : splice content offset [] = content := by
  rw [splice, List.append_nil, List.length_nil, Nat.add_zero, List.take_append_drop]

theorem getElem?_splice (h : offset ≤ content.length) :
    (splice content offset data)[x]? =
      if offset ≤ x ∧ x < offset + data.length then data[x - offset]? else content[x]? := by
  have htake : (content.take offset).length = offset := List.length_take_of_le h
  rw [splice, List.append_assoc]
  rcases Nat.lt_or_ge x offset with hlt | hge
  · rw [if_neg (by omega), List.getElem?_append_left (by omega), List.getElem?_take_of_lt hlt]
  · rw [List.getElem?_append_right (by omega), htake]
    rcases Nat.lt_or_ge x (offset + data.length) with hin | hout
    · rw [if_pos ⟨hge, hin⟩, List.getElem?_append_left (by omega)]
    · rw [if_neg (by omega), List.getElem?_append_right (by omega), List.getElem?_drop,
        show offset + data.length + (x - offset - data.length) = x by omega]

/-! ## Stores -/

abbrev Store (κ α : Type*) := κ → Option (List α)

namespace Store

variable [DecidableEq κ]

def write (s : Store κ α) (k : κ) (offset : ℕ) (data : List α) : Store κ α :=
  Function.update s k ((s k).map fun content => splice content offset data)

def create (s : Store κ α) (k : κ) : Store κ α := Function.update s k (some [])

theorem write_self {s : Store κ α} {k : κ} (hk : s k = some content) (offset : ℕ) (data : List α) :
    s.write k offset data k = some (splice content offset data) := by
  rw [write, Function.update_self, hk, Option.map_some]

theorem write_of_ne {s : Store κ α} {k j : κ} (h : j ≠ k) (offset : ℕ) (data : List α) :
    s.write k offset data j = s j :=
  Function.update_of_ne h _ _

theorem create_self (s : Store κ α) (k : κ) : s.create k k = some [] := Function.update_self ..

theorem create_of_ne (s : Store κ α) {k j : κ} (h : j ≠ k) : s.create k j = s j :=
  Function.update_of_ne h _ _

end Store

end Library

end Yotos
