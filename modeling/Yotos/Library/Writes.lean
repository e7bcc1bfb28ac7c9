import Mathlib.Data.List.Basic
import Mathlib.Order.Lattice

/-!
# Logs of range writes

A write puts `size` values at consecutive places from `offset` on. A log of writes,
oldest first, has a latest value at each place that some write covers, and an extent: the
first place past a given one and past every write.
-/

namespace Yotos

namespace Library

/-- The values `value 0`, …, `value (size - 1)` at the places from `offset` on. -/
structure Write (β : Type*) where
  offset : ℕ
  size : ℕ
  value : ℕ → β

variable {β : Type*}

def Write.Covers (w : Write β) (x : ℕ) : Prop := w.offset ≤ x ∧ x < w.offset + w.size

instance (w : Write β) (x : ℕ) : Decidable (w.Covers x) :=
  inferInstanceAs (Decidable (_ ∧ _))

/-- The value at place `x` that was written last. -/
def lastWritten (log : List (Write β)) (x : ℕ) : Option β :=
  log.foldl (fun v w => if w.Covers x then some (w.value (x - w.offset)) else v) none

/-- The extent of what was `n` places long. A write of nothing does not count. -/
def extent (n : ℕ) (log : List (Write β)) : ℕ :=
  log.foldl (fun n w => if w.size = 0 then n else max n (w.offset + w.size)) n

variable {log : List (Write β)} {w : Write β} {n x : ℕ}

@[simp] theorem lastWritten_nil : lastWritten ([] : List (Write β)) x = none := rfl

@[simp] theorem extent_nil : extent n ([] : List (Write β)) = n := rfl

theorem lastWritten_append_singleton : lastWritten (log ++ [w]) x =
    if w.Covers x then some (w.value (x - w.offset)) else lastWritten log x := by
  simp [lastWritten]

theorem extent_append_singleton : extent n (log ++ [w]) =
    if w.size = 0 then extent n log else max (extent n log) (w.offset + w.size) := by
  simp [extent]

/-- A write of nothing covers no place. -/
theorem lastWritten_append_of_size_eq_zero (h : w.size = 0) :
    lastWritten (log ++ [w]) x = lastWritten log x := by
  rw [lastWritten_append_singleton, if_neg]
  rintro ⟨hle, hlt⟩
  omega

end Library

end Yotos
