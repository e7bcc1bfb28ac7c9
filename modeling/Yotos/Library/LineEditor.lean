import Mathlib.Data.List.Basic

/-!
# Line editors

A line of at most `limit` characters is typed: a character that does not fit is ignored, a
rubout removes the last one, and the enter key hands the line over and starts the next.
-/

namespace Yotos

namespace Library

variable {α β : Type*}

inductive Keystroke (α β : Type*)
  | char (a : α)
  | rubout
  /-- the enter key of the device `b` -/
  | enter (b : β)
  deriving DecidableEq

/-- The line after one keystroke. -/
def stroke (limit : ℕ) (line : List α) : Keystroke α β → List α
  | .char a => if line.length < limit then line ++ [a] else line
  | .rubout => line.dropLast
  | .enter _ => []

def strokes (limit : ℕ) (line : List α) (keys : List (Keystroke α β)) : List α :=
  keys.foldl (stroke limit) line

/-- The lines that are handed over, with the device of the enter key. -/
def entered (limit : ℕ) : (line : List α) → List (Keystroke α β) → List (List α × β)
  | _, [] => []
  | line, .enter b :: keys => (line, b) :: entered limit [] keys
  | line, .char a :: keys => entered limit (stroke limit line (.char a : Keystroke α β)) keys
  | line, .rubout :: keys => entered limit (stroke limit line (.rubout : Keystroke α β)) keys

variable {limit : ℕ} {line : List α}

theorem length_stroke_le (h : line.length ≤ limit) (k : Keystroke α β) :
    (stroke limit line k).length ≤ limit := by
  cases k with
  | char a =>
      rw [stroke]
      split_ifs with hlt
      · rw [List.length_append, List.length_singleton]
        exact hlt
      · exact h
  | rubout =>
      rw [stroke, List.length_dropLast]
      omega
  | enter b => exact Nat.zero_le limit

theorem entered_cons (line : List α) (k : Keystroke α β) (keys : List (Keystroke α β)) :
    entered limit line (k :: keys) =
      entered limit line [k] ++ entered limit (stroke limit line k) keys := by
  cases k <;> rfl

end Library

end Yotos
