import Mathlib.Data.List.Basic
import Mathlib.Tactic.TypeStar

/-!
# The latest value in a log

A log lists the values that were stored, oldest first, each with its key. What a key holds
afterwards is the latest value for it, or what it held before when there is none.
-/

namespace Yotos

namespace Library

variable {κ β : Type*} [DecidableEq κ]

def latest (log : List (κ × β)) (k : κ) : Option β :=
  ((log.filter fun p => p.1 = k).getLast?).map Prod.snd

variable {log log' : List (κ × β)} {k k' : κ} {v : β}

@[simp] theorem latest_nil : latest ([] : List (κ × β)) k = none := rfl

theorem latest_append : latest (log ++ log') k = (latest log' k).or (latest log k) := by
  rw [latest, List.filter_append, List.getLast?_append, Option.map_or]
  rfl

theorem latest_singleton_self : latest [(k, v)] k = some v := by
  simp [latest]

theorem latest_singleton_of_ne (h : k' ≠ k) : latest [(k', v)] k = none := by
  simp [latest, h]

/-- Two logs, one after the other. -/
theorem getD_latest_append (x : β) : (latest (log ++ log') k).getD x =
    (latest log' k).getD ((latest log k).getD x) := by
  rw [latest_append]
  cases latest log' k with
  | none => rfl
  | some _ => rfl

end Library

end Yotos
