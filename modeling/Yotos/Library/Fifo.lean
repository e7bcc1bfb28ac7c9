import Mathlib.Data.Nat.Notation
import Mathlib.Tactic.TypeStar

/-!
# Bounded queues

What a first-in first-out queue of bounded capacity may answer: an element that is put into
a full queue may be lost, and nothing else ever is. `BoundedFifo` relates the contents
before and after to the operations with their results.
-/

namespace Yotos

namespace Library

variable {α : Type*}

/-- An operation on a queue, with its result. -/
inductive QueueOp (α : Type*)
  | put (a : α)
  | get (r : Option α)

/-- The queue `q` became `q'` by these operations. -/
inductive BoundedFifo (capacity : ℕ) : List α → List (QueueOp α) → List α → Prop
  | nil (q : List α) : BoundedFifo capacity q [] q
  | put {q q' : List α} {a : α} {ops : List (QueueOp α)}
      (h : BoundedFifo capacity (q ++ [a]) ops q') : BoundedFifo capacity q (.put a :: ops) q'
  | lost {q q' : List α} {a : α} {ops : List (QueueOp α)} (hfull : capacity ≤ q.length)
      (h : BoundedFifo capacity q ops q') : BoundedFifo capacity q (.put a :: ops) q'
  | get {q q' : List α} {a : α} {ops : List (QueueOp α)} (h : BoundedFifo capacity q ops q') :
      BoundedFifo capacity (a :: q) (.get (some a) :: ops) q'
  | empty {q' : List α} {ops : List (QueueOp α)} (h : BoundedFifo capacity [] ops q') :
      BoundedFifo capacity [] (.get none :: ops) q'

/-- The elements that were put in. -/
def puts (ops : List (QueueOp α)) : List α :=
  ops.filterMap fun
    | .put a => some a
    | .get _ => none

/-- The elements that were taken out. -/
def gets (ops : List (QueueOp α)) : List α :=
  ops.filterMap fun
    | .put _ => none
    | .get r => r

namespace BoundedFifo

variable {capacity : ℕ} {q q' q'' : List α} {ops ops' : List (QueueOp α)} {a : α}

theorem append (h : BoundedFifo capacity q ops q') (h' : BoundedFifo capacity q' ops' q'') :
    BoundedFifo capacity q (ops ++ ops') q'' := by
  induction h with
  | nil => exact h'
  | put _ ih => exact .put (ih h')
  | lost hfull _ ih => exact .lost hfull (ih h')
  | get _ ih => exact .get (ih h')
  | empty _ ih => exact .empty (ih h')

theorem eq_of_nil (h : BoundedFifo capacity q [] q') : q' = q := by
  cases h
  rfl

/-- After an element was put in, accepted or not, the queue is not empty. -/
theorem ne_nil_of_put (hpos : 0 < capacity) (h : BoundedFifo capacity q (ops ++ [.put a]) q') :
    q' ≠ [] := by
  induction ops generalizing q with
  | nil =>
      cases h with
      | put h => simp [h.eq_of_nil]
      | lost hfull h =>
          rw [h.eq_of_nil]
          rintro rfl
          exact absurd hfull (Nat.not_le_of_gt hpos)
  | cons op ops ih =>
      cases h with
      | put h => exact ih h
      | lost _ h => exact ih h
      | get h => exact ih h
      | empty h => exact ih h

/-- What was taken out and what is left appears in the order in which it was put in, each
element at most once. -/
theorem sublist (h : BoundedFifo capacity q ops q') :
    (gets ops ++ q').Sublist (q ++ puts ops) := by
  induction h with
  | nil q => simp [gets, puts]
  | @put q q' a ops _ ih =>
      have hputs : puts (QueueOp.put a :: ops) = a :: puts ops := rfl
      have hgets : gets (QueueOp.put a :: ops) = gets ops := rfl
      rw [hputs, hgets]
      rwa [List.append_assoc, List.singleton_append] at ih
  | @lost q q' a ops _ _ ih =>
      have hputs : puts (QueueOp.put a :: ops) = a :: puts ops := rfl
      have hgets : gets (QueueOp.put a :: ops) = gets ops := rfl
      rw [hputs, hgets]
      exact ih.trans ((List.sublist_cons_self a _).append_left q)
  | @get q q' a ops _ ih =>
      have hgets : gets (QueueOp.get (some a) :: ops) = a :: gets ops := rfl
      rw [hgets]
      exact ih.cons_cons a
  | empty _ ih => exact ih

end BoundedFifo

end Library

end Yotos
