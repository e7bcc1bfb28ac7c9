import Yotos.Snake.Body

/-!
# Turning back

The main loop compares a key with the direction that the key before it left, not with the
direction of the last move. A key across the last move and then, with no other direction
in between that is taken, the opposite one make the snake turn straight back.
-/

namespace Yotos

namespace Snake

open Library

def opposite (v : Pt) : Pt := ⟨-v.x, -v.y⟩

/-- The last of the directions across `v` is followed by the opposite of `v`, and then
only by directions along `v`. -/
def TurnsBack (v : Pt) (es : List Pt) : Prop :=
  ∃ us p ts, es = us ++ p :: opposite v :: ts ∧ Across p v ∧ ∀ e ∈ ts, ¬ Across e v

/-- The keys of the tick turn the snake back. -/
def Reverses (s : Snake) (keys : List UInt8) : Prop :=
  ¬ Quits keys ∧ TurnsBack (heading s) (moves keys)

/-- The direction of the next move, if there is one, is not opposite to that of the last,
and the head does not run into the second cell. -/
def NotTurnedBack (s : Snake) (keys : List UInt8) : Prop :=
  ∀ d ∈ drain keys s, heading d ≠ opposite (heading s) ∧ newHead d ≠ s.snake 1

variable {s d : Snake} {keys : List UInt8} {v c e : Pt} {es : List Pt}

theorem not_across_opposite (h : IsDir v) : ¬ Across (opposite v) v := by
  simp only [IsDir, Across, opposite] at h ⊢
  omega

/-- After any direction is asked for, the snake moves along that direction or the
opposite one. -/
theorem across_steer (hc : IsDir c) (he : IsDir e) :
    Across (steer c e) v ↔ Across e v := by
  unfold steer
  split_ifs with hacross
  · rfl
  · simp only [IsDir, Across] at hacross hc he ⊢
    omega

theorem steer_eq_opposite_iff (hc : IsDir c) (he : IsDir e) :
    steer c e = opposite v ↔
      ¬ Across e v ∧ (Across c v ∧ e = opposite v ∨ c = opposite v) := by
  obtain ⟨x, y⟩ := e
  obtain ⟨x', y'⟩ := c
  unfold steer
  split_ifs with hacross
  · simp only [IsDir, Across, opposite, Pt.mk.injEq] at hacross hc he ⊢
    omega
  · simp only [IsDir, Across, opposite, Pt.mk.injEq] at hacross hc he ⊢
    omega

/-- One more direction turns the snake back if the one before was across, or leaves it
turned back. -/
theorem turnsBack_concat (hv : IsDir v) : TurnsBack v (es ++ [e]) ↔
    ¬ Across e v ∧ ((∃ us p, es = us ++ [p] ∧ Across p v) ∧ e = opposite v ∨ TurnsBack v es) := by
  constructor
  · rintro ⟨us, p, ts, heq, hp, hts⟩
    rcases List.eq_nil_or_concat ts with rfl | ⟨ts', x, rfl⟩
    · rw [List.append_cons us] at heq
      obtain ⟨rfl, hlast⟩ := List.append_inj' heq rfl
      obtain rfl := List.singleton_inj.1 hlast
      exact ⟨not_across_opposite hv, Or.inl ⟨⟨us, p, rfl, hp⟩, rfl⟩⟩
    · rw [List.concat_eq_append] at heq hts
      rw [← List.cons_append, ← List.cons_append, ← List.append_assoc] at heq
      obtain ⟨rfl, hlast⟩ := List.append_inj' heq rfl
      obtain rfl := List.singleton_inj.1 hlast
      rw [List.forall_mem_append, List.forall_mem_singleton] at hts
      exact ⟨hts.2, Or.inr ⟨us, p, ts', rfl, hp, hts.1⟩⟩
  · rintro ⟨hacross, ⟨⟨us, p, rfl, hp⟩, rfl⟩ | ⟨us, p, ts, rfl, hp, hts⟩⟩
    · exact ⟨us, p, [], by simp, hp, by simp⟩
    · refine ⟨us, p, ts ++ [e], by simp, hp, ?_⟩
      rw [List.forall_mem_append, List.forall_mem_singleton]
      exact ⟨hts, hacross⟩

/-- The direction after the keys is across `v` if the last one asked for is. -/
theorem across_foldl_steer (hv : IsDir v) (hes : ∀ e ∈ es, IsDir e) :
    Across (es.foldl steer v) v ↔ ∃ us p, es = us ++ [p] ∧ Across p v := by
  rcases List.eq_nil_or_concat es with rfl | ⟨us, p, rfl⟩
  · simp only [IsDir, Across] at hv ⊢
    simp
    omega
  · rw [List.concat_eq_append] at hes ⊢
    rw [List.forall_mem_append, List.forall_mem_singleton] at hes
    rw [List.foldl_concat, across_steer (hv.foldl_steer hes.1) hes.2]
    constructor
    · exact fun hp => ⟨us, p, rfl, hp⟩
    · rintro ⟨us', p', heq, hp⟩
      obtain ⟨-, hlast⟩ := List.append_inj' heq rfl
      rwa [List.singleton_inj.1 hlast]

/-- The directions that turn the snake back are the ones that end opposite. -/
theorem foldl_steer_eq_opposite_iff (hv : IsDir v) (hes : ∀ e ∈ es, IsDir e) :
    es.foldl steer v = opposite v ↔ TurnsBack v es := by
  induction es using List.reverseRecOn with
  | nil =>
      have hne : v ≠ opposite v := by
        obtain ⟨x, y⟩ := v
        simp only [IsDir, opposite, ne_eq, Pt.mk.injEq] at hv ⊢
        omega
      simp [TurnsBack, hne]
  | append_singleton es e ih =>
      rw [List.forall_mem_append, List.forall_mem_singleton] at hes
      rw [List.foldl_concat, turnsBack_concat hv, ← across_foldl_steer hv hes.1, ← ih hes.1]
      exact steer_eq_opposite_iff (hv.foldl_steer hes.1) hes.2

/-- One tick turns back if and only if its keys do. -/
theorem notTurnedBack_iff (h : Inv s) : NotTurnedBack s keys ↔ ¬ Reverses s keys := by
  have hdirs : ∀ e ∈ moves keys, IsDir e := fun e he => isDir_of_mem_moves he
  have hfold := foldl_steer_eq_opposite_iff h.isDir hdirs
  have hsecond : ∀ v, newHead (withHeading s v) = s.snake 1 ↔ v = opposite (heading s) := by
    intro v
    obtain ⟨x, y⟩ := v
    change Pt.mk ((s.snake 0).x + x) ((s.snake 0).y + y) = s.snake 1 ↔ _
    rw [h.head_eq]
    generalize s.snake 1 = p
    obtain ⟨px, py⟩ := p
    simp only [opposite, heading, Pt.mk.injEq]
    omega
  rw [Reverses, ← hfold]
  by_cases hquits : Quits keys
  · simp [NotTurnedBack, drain_eq_none.2 hquits, hquits]
  · simp [NotTurnedBack, drain_eq_some.2 ⟨hquits, rfl⟩, hquits, hsecond]

/-- In a game the snake never turns straight back if and only if no tick has keys that
turn it. -/
theorem notTurnedBack_iff_not_reverses (vga : ℤ → UInt16) (draws : List UInt32)
    (ticks : List (List UInt8)) (s : Snake) (hstart : start vga draws = some s) :
    AllSteps step NotTurnedBack s ticks ↔
      AllSteps step (fun s keys => ¬ Reverses s keys) s ticks := by
  have hstep : ∀ s keys t, Inv s → NotTurnedBack s keys → step s keys = some t → Inv t :=
    fun _ _ _ h _ hstep => h.step hstep
  exact allSteps_congr hstep (fun _ _ h => notTurnedBack_iff h) (inv_of_start hstart).1 ticks

/-- Keys that leave the snake in another direction than the opposite one do not turn it. -/
theorem not_reverses_of_foldl (hv : IsDir (heading s))
    (hne : (moves keys).foldl steer (heading s) ≠ opposite (heading s)) : ¬ Reverses s keys :=
  fun h => hne ((foldl_steer_eq_opposite_iff hv fun _ he => isDir_of_mem_moves he).2 h.2)

/-- Several keys in each tick, on the food that `rng` gives first: up and right again, and
then down, right and up. -/
theorem notTurnedBack_iff_not_reverses_turning :
    ∃ s, start (fun _ => 0) (rngDraws 2 initialSeed) = some s ∧
      AllSteps step NotTurnedBack s [chars "wd", chars "sdw"] := by
  obtain ⟨s, hstart, hheading, hnext⟩ : ∃ s,
      start (fun _ => 0) (rngDraws 2 initialSeed) = some s ∧ heading s = ⟨1, 0⟩ ∧
        ∀ t ∈ step s (chars "wd"), heading t = ⟨1, 0⟩ :=
    ⟨_, rfl, rfl, by decide +kernel⟩
  have hdir : IsDir ⟨1, 0⟩ := Or.inr ⟨rfl, Or.inl rfl⟩
  refine ⟨s, hstart, (notTurnedBack_iff_not_reverses _ _ _ s hstart).2 ⟨?_, fun t ht => ⟨?_, ?_⟩⟩⟩
  · refine not_reverses_of_foldl (hheading ▸ hdir) ?_
    rw [hheading]
    decide
  · have ht' := hnext t ht
    refine not_reverses_of_foldl (ht' ▸ hdir) ?_
    rw [ht']
    decide
  · exact fun _ _ => trivial

/-- Up and then left in the first tick: the snake, which came from the left, is dead. -/
theorem not_notTurnedBack_up_left :
    ¬ ∀ (vga : ℤ → UInt16) (draws : List UInt32) (ticks : List (List UInt8)) (s : Snake),
      start vga draws = some s → AllSteps step NotTurnedBack s ticks := by
  intro hall
  obtain ⟨s, hstart, hheading⟩ : ∃ s, start (fun _ => 0) [0, 0] = some s ∧ heading s = ⟨1, 0⟩ :=
    ⟨_, rfl, rfl⟩
  have htick := (hall _ _ [['w'.toUInt8, 'a'.toUInt8]] s hstart).1
  rw [notTurnedBack_iff (inv_of_start hstart).1] at htick
  apply htick
  refine ⟨by decide, [], ⟨0, -1⟩, [], ?_, ?_, by simp⟩
  · rw [hheading]
    decide
  · rw [hheading]
    decide

end Snake

end Yotos
