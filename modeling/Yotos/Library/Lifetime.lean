import Mathlib.Data.Set.Insert

/-!
# Logs of objects that are made, used and released

`Legal L log L'` reads a log from the live objects `L` on: an object is made only when it
is not live, used and released only when it is, and `L'` are the live ones at the end.
In a legal log a released object is neither used nor released until it is made again.
-/

namespace Yotos

namespace Library

/-- What happens to objects; `refuse` is a request for one that fails. -/
inductive Event (α : Type*) where
  | make (a : α)
  | use (a : α)
  | release (a : α)
  | refuse
  deriving DecidableEq

variable {α : Type*}

inductive Legal : Set α → List (Event α) → Set α → Prop
  | nil (L : Set α) : Legal L [] L
  | make {L L' : Set α} {a : α} {log : List (Event α)} (h : a ∉ L)
      (hrest : Legal (insert a L) log L') : Legal L (.make a :: log) L'
  | use {L L' : Set α} {a : α} {log : List (Event α)} (h : a ∈ L) (hrest : Legal L log L') :
      Legal L (.use a :: log) L'
  | release {L L' : Set α} {a : α} {log : List (Event α)} (h : a ∈ L)
      (hrest : Legal (L \ {a}) log L') : Legal L (.release a :: log) L'
  | refuse {L L' : Set α} {log : List (Event α)} (hrest : Legal L log L') :
      Legal L (.refuse :: log) L'

variable {L L' L'' : Set α} {log log' : List (Event α)} {a : α}

namespace Legal

theorem append (h : Legal L log L') (h' : Legal L' log' L'') : Legal L (log ++ log') L'' := by
  induction h with
  | nil => exact h'
  | make ha _ ih => exact .make ha (ih h')
  | use ha _ ih => exact .use ha (ih h')
  | release ha _ ih => exact .release ha (ih h')
  | refuse _ ih => exact .refuse (ih h')

theorem append_right (h : Legal L (log ++ log') L'') : ∃ L', Legal L log L' ∧ Legal L' log' L'' := by
  induction log generalizing L with
  | nil => exact ⟨L, .nil L, h⟩
  | cons e log ih =>
      rw [List.cons_append] at h
      cases h with
      | make ha hrest =>
          obtain ⟨L', hlog, hlog'⟩ := ih hrest
          exact ⟨L', .make ha hlog, hlog'⟩
      | use ha hrest =>
          obtain ⟨L', hlog, hlog'⟩ := ih hrest
          exact ⟨L', .use ha hlog, hlog'⟩
      | release ha hrest =>
          obtain ⟨L', hlog, hlog'⟩ := ih hrest
          exact ⟨L', .release ha hlog, hlog'⟩
      | refuse hrest =>
          obtain ⟨L', hlog, hlog'⟩ := ih hrest
          exact ⟨L', .refuse hlog, hlog'⟩

/-- Nothing happens to an object that is not live and is not made. -/
theorem not_mem_of_not_made (h : Legal L log L') (ha : a ∉ L) (hmake : .make a ∉ log) :
    .use a ∉ log ∧ .release a ∉ log := by
  induction h with
  | nil => simp
  | @make L L' b log hb _ ih =>
      have hne : a ≠ b := by
        rintro rfl
        simp at hmake
      have hrest := ih (by simp [hne, ha]) fun hmem => hmake (List.mem_cons_of_mem _ hmem)
      simpa using hrest
  | @use L L' b log hb _ ih =>
      have hne : a ≠ b := by
        rintro rfl
        exact ha hb
      have hrest := ih ha fun hmem => hmake (List.mem_cons_of_mem _ hmem)
      simpa [hne] using hrest
  | @release L L' b log hb _ ih =>
      have hne : a ≠ b := by
        rintro rfl
        exact ha hb
      have hrest := ih (fun hmem => ha hmem.1) fun hmem => hmake (List.mem_cons_of_mem _ hmem)
      simpa [hne] using hrest
  | refuse _ ih =>
      have hrest := ih ha fun hmem => hmake (List.mem_cons_of_mem _ hmem)
      simpa using hrest

/-- After its release an object is not used and not released again, unless it is made
again. -/
theorem of_released (h : Legal L (log ++ .release a :: log') L') (hmake : .make a ∉ log') :
    .use a ∉ log' ∧ .release a ∉ log' := by
  obtain ⟨M, -, hrest⟩ := h.append_right
  cases hrest with
  | release _ hrest => exact hrest.not_mem_of_not_made (by simp) hmake

end Legal

end Library

end Yotos
