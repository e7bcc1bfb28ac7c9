import Mathlib.Data.List.Basic
import Mathlib.Tactic.TypeStar

/-!
# Computations with a log

A computation on a state ends with a result, or without one when its fuel runs out, and
logs events on its way. The log of a composition is the two logs one after the other, so
what a computation has logged stays logged. `Sat` is the triple of such a computation under
a contract, which asks two things of the events: as long as they are `given`, they all pass
the `check` and are all as the contract `ensures`, or neither is so.
-/

namespace Yotos

namespace Library

variable {σ ε α β γ : Type*}

/-- How a computation ends, and what it logged. -/
structure Traced (σ ε α : Type*) where
  value : Option α
  state : σ
  log : List ε

/-- What is asked of the events of a log. -/
structure Contract (ε : Type*) where
  given : ε → Prop
  check : ε → Prop
  ensures : ε → Prop

namespace Traced

/-- Nothing but a result, which may be missing. -/
def lift (a : Option α) (s : σ) : Traced σ ε α := ⟨a, s, []⟩

/-- A result. -/
def ret (a : α) (s : σ) : Traced σ ε α := lift (some a) s

/-- A result, and these events. -/
def note (es : List ε) (a : α) (s : σ) : Traced σ ε α := ⟨some a, s, es⟩

def bind (r : Traced σ ε α) (f : α → σ → Traced σ ε β) : Traced σ ε β :=
  match r.value with
  | none => ⟨none, r.state, r.log⟩
  | some a => ⟨(f a r.state).value, (f a r.state).state, r.log ++ (f a r.state).log⟩

/-- The triple: while all events are as given, either none of them fails and `P` holds of
the result and the state, or there are events that fail, in both ways. -/
def Sat (K : Contract ε) (r : Traced σ ε α) (P : α → σ → Prop) : Prop :=
  (∀ e ∈ r.log, K.given e) →
    ((∀ e ∈ r.log, K.check e ∧ K.ensures e) ∧ ∀ a, r.value = some a → P a r.state) ∨
      (∃ e ∈ r.log, ¬ K.check e) ∧ ∃ e ∈ r.log, ¬ K.ensures e

variable {K : Contract ε} {r : Traced σ ε α} {f : α → σ → Traced σ ε β} {P P' : α → σ → Prop}
  {Q : β → σ → Prop} {a : α} {s : σ}

theorem bind_of_none (h : r.value = none) : r.bind f = ⟨none, r.state, r.log⟩ := by
  simp [bind, h]

theorem bind_of_some (h : r.value = some a) :
    r.bind f = ⟨(f a r.state).value, (f a r.state).state, r.log ++ (f a r.state).log⟩ := by
  simp [bind, h]

@[simp] theorem ret_bind (a : α) (s : σ) (f : α → σ → Traced σ ε β) :
    (ret a s : Traced σ ε α).bind f = f a s := rfl

@[simp] theorem lift_some_bind (a : α) (s : σ) (f : α → σ → Traced σ ε β) :
    (lift (some a) s : Traced σ ε α).bind f = f a s := rfl

theorem Sat.lift {o : Option α} (h : ∀ a, o = some a → P a s) :
    (lift o s : Traced σ ε α).Sat K P :=
  fun _ => Or.inl ⟨fun _ he => absurd he List.not_mem_nil, h⟩

theorem Sat.ret (h : P a s) : (ret a s : Traced σ ε α).Sat K P :=
  Sat.lift fun a' ha => by
    obtain rfl := Option.some.inj ha
    exact h

/-- The events of one step, where the last state settles both questions. -/
theorem Sat.note {es : List ε} (h : (∀ e ∈ es, K.given e) →
    ((∀ e ∈ es, K.check e ∧ K.ensures e) ∧ P a s) ∨
      (∃ e ∈ es, ¬ K.check e) ∧ ∃ e ∈ es, ¬ K.ensures e) :
    (note es a s).Sat K P := by
  intro hgiven
  rcases h hgiven with ⟨hall, hP⟩ | hbad
  · refine Or.inl ⟨hall, fun a' ha => ?_⟩
    obtain rfl := Option.some.inj ha
    exact hP
  · exact Or.inr hbad

theorem Sat.mono (h : r.Sat K P) (hP : ∀ a s, P a s → P' a s) : r.Sat K P' := by
  intro hgiven
  rcases h hgiven with ⟨hall, hr⟩ | hbad
  · exact Or.inl ⟨hall, fun a ha => hP _ _ (hr a ha)⟩
  · exact Or.inr hbad

/-- Once both kinds of events are in the log, the rest does not matter. -/
theorem Sat.bind (h : r.Sat K P) (hf : ∀ a s, P a s → (f a s).Sat K Q) : (r.bind f).Sat K Q := by
  cases hvalue : r.value with
  | none =>
      rw [bind_of_none hvalue]
      intro hgiven
      rcases h hgiven with ⟨hall, -⟩ | hbad
      · exact Or.inl ⟨hall, fun b hb => by cases hb⟩
      · exact Or.inr hbad
  | some a =>
      rw [bind_of_some hvalue]
      intro hgiven
      have hleft : ∀ e ∈ r.log, K.given e := fun e he => hgiven e (List.mem_append_left _ he)
      rcases h hleft with ⟨hall, hr⟩ | ⟨⟨e, he, hcheck⟩, e', he', hensures⟩
      · rcases hf a r.state (hr a hvalue) fun e he => hgiven e (List.mem_append_right _ he) with
          ⟨hall', hr'⟩ | ⟨⟨e, he, hcheck⟩, e', he', hensures⟩
        · exact Or.inl ⟨fun e he => (List.mem_append.1 he).elim (hall e) (hall' e), hr'⟩
        · exact Or.inr ⟨⟨e, List.mem_append_right _ he, hcheck⟩,
            e', List.mem_append_right _ he', hensures⟩
      · exact Or.inr ⟨⟨e, List.mem_append_left _ he, hcheck⟩,
          e', List.mem_append_left _ he', hensures⟩

/-- What the triple says about the log. -/
theorem Sat.ensures_iff (h : r.Sat K P) (hgiven : ∀ e ∈ r.log, K.given e) :
    (∀ e ∈ r.log, K.ensures e) ↔ ∀ e ∈ r.log, K.check e := by
  rcases h hgiven with ⟨hall, -⟩ | ⟨⟨e, he, hcheck⟩, e', he', hensures⟩
  · exact iff_of_true (fun e he => (hall e he).2) fun e he => (hall e he).1
  · exact iff_of_false (fun hall => hensures (hall e' he')) fun hall => hcheck (hall e he)

end Traced

end Library

end Yotos
