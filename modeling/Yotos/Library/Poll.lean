import Mathlib.Logic.Function.Iterate
import Mathlib.Tactic.TypeStar

/-!
# Polling

A loop that reads a register until its value says to stop, a bounded number of times. Each
read may change the device.
-/

namespace Yotos

namespace Library

variable {σ β α : Type*}

/-- Read until `stop` returns something, at most `n` times. -/
def poll (read : σ → β × σ) (stop : β → Option α) : (n : ℕ) → σ → Option α × σ
  | 0, s => (none, s)
  | n + 1, s =>
      match stop (read s).1 with
      | some a => (some a, (read s).2)
      | none => poll read stop n (read s).2

variable {read : σ → β × σ} {stop : β → Option α} {n k : ℕ} {s : σ} {a : α}

theorem poll_of_none (h : stop (read s).1 = none) :
    poll read stop (n + 1) s = poll read stop n (read s).2 := by
  simp [poll, h]

theorem poll_of_some (h : stop (read s).1 = some a) :
    poll read stop (n + 1) s = (some a, (read s).2) := by
  simp [poll, h]

/-- Reads that do not stop the loop. -/
theorem poll_skip (h : ∀ i < k, stop (read ((fun s => (read s).2)^[i] s)).1 = none) :
    poll read stop (k + n) s = poll read stop n ((fun s => (read s).2)^[k] s) := by
  induction k generalizing s with
  | zero => rw [Nat.zero_add, Function.iterate_zero_apply]
  | succ k ih =>
      have hfirst : stop (read s).1 = none := h 0 (Nat.zero_lt_succ k)
      rw [Nat.add_right_comm, poll_of_none hfirst, ih, Function.iterate_succ_apply]
      intro i hi
      have hnext := h (i + 1) (Nat.succ_lt_succ hi)
      rwa [Function.iterate_succ_apply] at hnext

/-- The loop gives up. -/
theorem poll_eq_none (h : ∀ i < n, stop (read ((fun s => (read s).2)^[i] s)).1 = none) :
    poll read stop n s = (none, (fun s => (read s).2)^[n] s) := by
  have hskip := poll_skip (n := 0) h
  rwa [Nat.add_zero] at hskip

/-- The loop stops at the first read that says so. -/
theorem poll_eq_some (hkn : k < n)
    (h : ∀ i < k, stop (read ((fun s => (read s).2)^[i] s)).1 = none)
    (hstop : stop (read ((fun s => (read s).2)^[k] s)).1 = some a) :
    poll read stop n s = (some a, (read ((fun s => (read s).2)^[k] s)).2) := by
  obtain ⟨m, rfl⟩ := Nat.exists_eq_add_of_lt hkn
  rw [Nat.add_assoc, poll_skip h, poll_of_some hstop]

end Library

end Yotos
