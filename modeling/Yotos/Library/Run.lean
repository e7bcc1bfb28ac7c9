import Mathlib.Tactic.TypeStar

/-!
# Runs of a partial transition function

A system is given by `step : σ → ε → Option σ`, undefined when the event cannot
happen in the state. `run` follows a list of events, and `AllSteps` says that every
step of a run meets a condition on the state before it.
-/

namespace Yotos

namespace Library

variable {σ ε : Type*} (step : σ → ε → Option σ)

/-- The state after a list of events. -/
def run : σ → List ε → Option σ
  | s, [] => some s
  | s, e :: es => (step s e).bind fun t => run t es

/-- Every step of the run meets `ok`. -/
def AllSteps (ok : σ → ε → Prop) : σ → List ε → Prop
  | _, [] => True
  | s, e :: es => ok s e ∧ ∀ t, step s e = some t → AllSteps ok t es

instance decidableAllSteps (ok : σ → ε → Prop) [∀ s e, Decidable (ok s e)] :
    ∀ s es, Decidable (AllSteps step ok s es)
  | _, [] => isTrue trivial
  | s, e :: es =>
      match h : step s e with
      | none => decidable_of_iff (ok s e)
          (Iff.symm (and_iff_left fun _ ht => absurd (h.symm.trans ht) (Option.some_ne_none _).symm))
      | some u =>
          haveI := decidableAllSteps ok u es
          decidable_of_iff (ok s e ∧ AllSteps step ok u es)
            (and_congr_right fun _ =>
              ⟨fun hu _ ht => Option.some.inj (h.symm.trans ht) ▸ hu, fun hall => hall u h⟩)

variable {step}

@[simp] theorem run_nil (s : σ) : run step s [] = some s := rfl

theorem run_cons_eq_some {s u : σ} {e : ε} {es : List ε} :
    run step s (e :: es) = some u ↔ ∃ t, step s e = some t ∧ run step t es = some u := by
  rw [run, Option.bind_eq_some_iff]

theorem run_append_eq_some {s u : σ} {ds es : List ε} :
    run step s (ds ++ es) = some u ↔ ∃ t, run step s ds = some t ∧ run step t es = some u := by
  induction ds generalizing s with
  | nil => simp
  | cons d ds ih =>
      rw [List.cons_append, run_cons_eq_some]
      simp only [ih, run_cons_eq_some]
      constructor
      · rintro ⟨t, ht, t', hds, hes⟩
        exact ⟨t', ⟨t, ht, hds⟩, hes⟩
      · rintro ⟨t', ⟨t, ht, hds⟩, hes⟩
        exact ⟨t, ht, t', hds, hes⟩

/-- A guarded transition. -/
theorem guard_eq_some {p : Prop} [Decidable p] {s t : σ} :
    (if p then some s else none) = some t ↔ p ∧ s = t := by
  rw [Option.ite_none_right_eq_some, Option.some.injEq]

/-- Two conditions that agree under an invariant hold of the same runs, if the steps that
meet the first one preserve the invariant. -/
theorem allSteps_congr {ok ok' : σ → ε → Prop} {inv : σ → Prop}
    (hstep : ∀ s e t, inv s → ok s e → step s e = some t → inv t)
    (hok : ∀ s e, inv s → (ok s e ↔ ok' s e)) {s : σ} (hs : inv s) (es : List ε) :
    AllSteps step ok s es ↔ AllSteps step ok' s es := by
  induction es generalizing s with
  | nil => rfl
  | cons e es ih =>
      constructor
      · rintro ⟨he, hes⟩
        exact ⟨(hok s e hs).1 he, fun t ht => (ih (hstep s e t hs he ht)).1 (hes t ht)⟩
      · rintro ⟨he, hes⟩
        have he' := (hok s e hs).2 he
        exact ⟨he', fun t ht => (ih (hstep s e t hs he' ht)).2 (hes t ht)⟩

/-- The condition holds of a step after a run. -/
theorem AllSteps.of_run {ok : σ → ε → Prop} {s t : σ} {es : List ε} {e : ε}
    (h : AllSteps step ok s (es ++ [e])) (hrun : run step s es = some t) : ok t e := by
  induction es generalizing s with
  | nil =>
      obtain rfl := Option.some.inj hrun
      exact h.1
  | cons d es ih =>
      obtain ⟨u, hu, hrun⟩ := run_cons_eq_some.1 hrun
      exact ih (h.2 u hu) hrun

/-- What every permitted step preserves, every run of permitted steps preserves. -/
theorem run_invariant {ok : σ → ε → Prop} {inv : σ → Prop}
    (hstep : ∀ s e t, inv s → ok s e → step s e = some t → inv t) {s t : σ} {es : List ε}
    (hs : inv s) (hes : AllSteps step ok s es) (hrun : run step s es = some t) : inv t := by
  induction es generalizing s with
  | nil =>
      obtain rfl := Option.some.inj hrun
      exact hs
  | cons e es ih =>
      obtain ⟨u, hu, hrun⟩ := run_cons_eq_some.1 hrun
      exact ih (hstep s e u hs hes.1 hu) (hes.2 u hu) hrun

/-- What every step preserves, every run preserves. -/
theorem run_invariant_of_step {inv : σ → Prop}
    (hstep : ∀ s e t, inv s → step s e = some t → inv t) {s t : σ} {es : List ε}
    (hs : inv s) (hrun : run step s es = some t) : inv t := by
  have hall : ∀ (es : List ε) (s : σ), AllSteps step (fun _ _ => True) s es := by
    intro es
    induction es with
    | nil => exact fun _ => trivial
    | cons e es ih => exact fun s => ⟨trivial, fun t _ => ih t⟩
  exact run_invariant (fun s e t hs _ => hstep s e t hs) hs (hall es s) hrun

end Library

end Yotos
