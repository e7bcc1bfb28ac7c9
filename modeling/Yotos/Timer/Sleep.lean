import Yotos.Process.Machine
import Yotos.Timer.Basic
import Mathlib.Algebra.Group.Nat.Defs

/-!
# How long `sleep` waits

`sleep` computes both the number of ticks and the target in 32 bits and compares the
counter with the target as it stands. It waits long enough, whenever the interrupts come,
exactly when neither the product nor the counter wraps on the way.
-/

namespace Yotos

namespace Timer

open Library

/-- The interrupts that `sleep` is to wait for, in exact arithmetic. -/
def neededTicks (t : Timer) (milliseconds : UInt32) : ℕ :=
  max (milliseconds.toNat * t.timerFrequency.toNat / 1000) (if 0 < milliseconds then 1 else 0)

/-- However the interrupts fall, `sleep` returns only after enough of them. -/
def WaitsFor (t : Timer) (milliseconds : UInt32) : Prop :=
  ∀ events s, run step (call t milliseconds) events = some s → s.control = .returned →
    neededTicks t milliseconds ≤ s.interrupts

/-- The product fits 32 bits, and so does the counter, also when the interrupts that are
needed come, all but one, before it is read for the target. -/
def NoWrap (t : Timer) (milliseconds : UInt32) : Prop :=
  milliseconds = 0 ∨
    (milliseconds.toNat * t.timerFrequency.toNat < 2 ^ 32 ∧
      t.timerTicks.toNat + 2 * neededTicks t milliseconds - 1 < 2 ^ 32)

variable {t : Timer} {milliseconds : UInt32} {s : Sleeper} {j m : ℕ}

/-- The processes sleep with the frequency that `kmain` installs. -/
theorem sleepTicks_kmain (t : Timer) (milliseconds : UInt32) :
    sleepTicks (timerInstall Process.timerFrequency t) milliseconds =
      Process.sleepTicks milliseconds := rfl

/-! ### The number of ticks -/

theorem sleepTicks_toNat (t : Timer) (milliseconds : UInt32) :
    (sleepTicks t milliseconds).toNat =
      max (milliseconds.toNat * t.timerFrequency.toNat % 2 ^ 32 / 1000)
        (if 0 < milliseconds then 1 else 0) := by
  have hquot : (milliseconds * t.timerFrequency / 1000).toNat =
      milliseconds.toNat * t.timerFrequency.toNat % 2 ^ 32 / 1000 := by
    rw [UInt32.toNat_div, UInt32.toNat_mul]
    rfl
  have hzero : milliseconds * t.timerFrequency / 1000 = 0 ↔
      milliseconds.toNat * t.timerFrequency.toNat % 2 ^ 32 / 1000 = 0 := by
    rw [← UInt32.toNat_inj, hquot]
    rfl
  rw [sleepTicks, apply_ite UInt32.toNat, hquot]
  by_cases hpos : 0 < milliseconds
  · simp only [hzero, hpos, and_true, if_true]
    split_ifs with hq
    · rw [hq]
      rfl
    · omega
  · simp [hpos]

theorem neededTicks_of_zero (t : Timer) : neededTicks t 0 = 0 := by
  simp [neededTicks]

theorem neededTicks_pos (t : Timer) (h : milliseconds ≠ 0) : 0 < neededTicks t milliseconds := by
  have hpos : 0 < milliseconds := UInt32.pos_iff_ne_zero.2 h
  rw [neededTicks, if_pos hpos]
  omega

/-- Without a wrap the number of ticks is the right one. -/
theorem sleepTicks_eq_neededTicks
    (h : milliseconds.toNat * t.timerFrequency.toNat < 2 ^ 32) :
    (sleepTicks t milliseconds).toNat = neededTicks t milliseconds := by
  rw [sleepTicks_toNat, Nat.mod_eq_of_lt h, neededTicks]

/-- With a wrap it is too small. -/
theorem sleepTicks_lt_neededTicks
    (h : 2 ^ 32 ≤ milliseconds.toNat * t.timerFrequency.toNat) :
    (sleepTicks t milliseconds).toNat < neededTicks t milliseconds := by
  rw [sleepTicks_toNat, neededTicks]
  split_ifs <;> omega

/-! ### Enough without a wrap -/

/-- The counter after some interrupts. -/
def counterAt (t : Timer) (n : ℕ) : ℕ := (t.timerTicks.toNat + n) % 2 ^ 32

/-- How the call stands: unless enough interrupts have come, the target lies ahead of the
counter of the call by the number of ticks. -/
structure Waiting (t : Timer) (milliseconds : UInt32) (s : Sleeper) : Prop where
  frequency : s.timer.timerFrequency = t.timerFrequency
  counter : s.timer.timerTicks.toNat = counterAt t s.interrupts
  control : match s.control with
    | .sleep ms => ms = milliseconds
    | .timerWait ticks => ticks.toNat = neededTicks t milliseconds
    | .spin target => neededTicks t milliseconds ≤ s.interrupts ∨
        t.timerTicks.toNat + neededTicks t milliseconds ≤ target.toNat
    | .returned => neededTicks t milliseconds ≤ s.interrupts

theorem waiting_call (t : Timer) (milliseconds : UInt32) :
    Waiting t milliseconds (call t milliseconds) where
  frequency := rfl
  counter := (Nat.mod_eq_of_lt t.timerTicks.toNat_lt).symm
  control := rfl

theorem Waiting.timerIrq (h : Waiting t milliseconds s) :
    Waiting t milliseconds
      { s with timer := timerHandler s.timer, interrupts := s.interrupts + 1 } where
  frequency := h.frequency
  counter := by
    have hcounter := h.counter
    simp only [timerHandler, UInt32.toNat_add, hcounter, counterAt]
    change (_ + 1) % 2 ^ 32 = _
    omega
  control := by
    have hcontrol := h.control
    cases hc : s.control <;> simp only [hc] at hcontrol ⊢
    · exact hcontrol
    · exact hcontrol
    · omega
    · omega

theorem Waiting.cpu {s' : Sleeper} (h : Waiting t milliseconds s)
    (hproduct : milliseconds.toNat * t.timerFrequency.toNat < 2 ^ 32)
    (hcounter : t.timerTicks.toNat + 2 * neededTicks t milliseconds - 1 < 2 ^ 32)
    (hstep : step s .cpu = some s') : Waiting t milliseconds s' := by
  have hnow := h.counter
  have hcontrol := h.control
  have hlt := t.timerTicks.toNat_lt
  unfold counterAt at hnow
  cases hc : s.control with
  | sleep ms =>
      simp only [hc] at hcontrol
      subst hcontrol
      simp only [step, hc, Option.some.injEq] at hstep
      subst hstep
      refine ⟨h.frequency, h.counter, ?_⟩
      rw [← sleepTicks_eq_neededTicks hproduct, sleepTicks, sleepTicks, h.frequency]
  | timerWait ticks =>
      simp only [hc] at hcontrol
      simp only [step, hc, Option.some.injEq] at hstep
      subst hstep
      refine ⟨h.frequency, h.counter, ?_⟩
      simp only [UInt32.toNat_add, hcontrol, hnow]
      omega
  | spin target =>
      simp only [hc] at hcontrol
      simp only [step, hc] at hstep
      split_ifs at hstep with hbefore
      · obtain rfl := Option.some.inj hstep
        exact h
      · obtain rfl := Option.some.inj hstep
        refine ⟨h.frequency, h.counter, ?_⟩
        have hreached := UInt32.le_iff_toNat_le.1 (UInt32.not_lt.1 hbefore)
        rw [hnow] at hreached
        dsimp only
        omega
  | returned => simp [step, hc] at hstep

theorem waitsFor_of_noWrap (h : NoWrap t milliseconds) : WaitsFor t milliseconds := by
  rcases h with rfl | ⟨hproduct, hcounter⟩
  · intro events s _ _
    rw [neededTicks_of_zero]
    exact Nat.zero_le _
  · intro events s hrun hreturned
    have hwaiting : Waiting t milliseconds s := by
      refine run_invariant_of_step (fun s e s' hs hstep => ?_) (waiting_call t milliseconds) hrun
      cases e with
      | timerIrq =>
          simp only [step] at hstep
          split_ifs at hstep
          obtain rfl := Option.some.inj hstep
          exact hs.timerIrq
      | cpu => exact hs.cpu hproduct hcounter hstep
    have hcontrol := hwaiting.control
    rw [hreturned] at hcontrol
    exact hcontrol

/-! ### Too few with a wrap -/

/-- Interrupts alone only count. -/
theorem run_timerIrq (hc : s.control ≠ .returned) (n : ℕ) :
    ∃ s', run step s (List.replicate n .timerIrq) = some s' ∧ s'.control = s.control ∧
      s'.interrupts = s.interrupts + n ∧
        s'.timer.timerTicks.toNat = (s.timer.timerTicks.toNat + n) % 2 ^ 32 := by
  induction n generalizing s with
  | zero => exact ⟨s, rfl, rfl, rfl, (Nat.mod_eq_of_lt s.timer.timerTicks.toNat_lt).symm⟩
  | succ n ih =>
      have hstep : step s .timerIrq =
          some { s with timer := timerHandler s.timer, interrupts := s.interrupts + 1 } := by
        rw [step, if_neg hc]
      have hnext : (timerHandler s.timer).timerTicks.toNat =
          (s.timer.timerTicks.toNat + 1) % 2 ^ 32 := by
        simp [timerHandler]
      obtain ⟨s', hrun, hcontrol, hinterrupts, hticks⟩ :=
        ih (s := { s with timer := timerHandler s.timer, interrupts := s.interrupts + 1 }) hc
      dsimp only at hticks hinterrupts hcontrol
      refine ⟨s', run_cons_eq_some.2 ⟨_, hstep, hrun⟩, hcontrol, by omega, ?_⟩
      rw [hticks, hnext]
      omega

/-- The call returns after `j + m` interrupts if the counter, read after `j` of them, is
not below the target any more. -/
theorem exists_return (t : Timer) (milliseconds : UInt32)
    (h : (counterAt t j + (sleepTicks t milliseconds).toNat) % 2 ^ 32 ≤ counterAt t (j + m)) :
    ∃ events s, run step (call t milliseconds) events = some s ∧ s.control = .returned ∧
      s.interrupts = j + m := by
  -- the ticks are computed at once, and the target is read after `j` interrupts
  obtain ⟨s₁, hrun₁, hcontrol₁, hinterrupts₁, hticks₁⟩ := run_timerIrq (n := j)
    (s := { call t milliseconds with control := .timerWait (sleepTicks t milliseconds) })
    (by simp)
  dsimp only at hcontrol₁ hinterrupts₁ hticks₁
  have hcpu₁ : step s₁ .cpu =
      some { s₁ with control := .spin (s₁.timer.timerTicks + sleepTicks t milliseconds) } := by
    simp only [step, hcontrol₁]
  obtain ⟨s₂, hrun₂, hcontrol₂, hinterrupts₂, hticks₂⟩ := run_timerIrq (n := m)
    (s := { s₁ with control := .spin (s₁.timer.timerTicks + sleepTicks t milliseconds) })
    (by simp)
  dsimp only at hcontrol₂ hinterrupts₂ hticks₂
  have hnot : ¬ s₂.timer.timerTicks < s₁.timer.timerTicks + sleepTicks t milliseconds := by
    rw [UInt32.lt_iff_toNat_lt, UInt32.toNat_add, hticks₂, hticks₁]
    unfold counterAt at h
    change ¬ (((t.timerTicks.toNat + j) % 2 ^ 32 + m) % 2 ^ 32 <
      ((t.timerTicks.toNat + j) % 2 ^ 32 + (sleepTicks t milliseconds).toNat) % 2 ^ 32)
    omega
  have hcpu₂ : step s₂ .cpu = some { s₂ with control := .returned } := by
    simp only [step, hcontrol₂, hnot, if_false]
  refine ⟨.cpu :: (List.replicate j .timerIrq ++ .cpu :: (List.replicate m .timerIrq ++ [.cpu])),
    { s₂ with control := .returned }, ?_, rfl, ?_⟩
  · refine run_cons_eq_some.2 ⟨_, rfl, run_append_eq_some.2 ⟨s₁, hrun₁, ?_⟩⟩
    refine run_cons_eq_some.2 ⟨_, hcpu₁, run_append_eq_some.2 ⟨s₂, hrun₂, ?_⟩⟩
    exact run_cons_eq_some.2 ⟨_, hcpu₂, rfl⟩
  · change s₂.interrupts = j + m
    rw [hinterrupts₂, hinterrupts₁]
    simp [call]

theorem noWrap_of_waitsFor (h : WaitsFor t milliseconds) : NoWrap t milliseconds := by
  have henough : ∀ j m, (counterAt t j + (sleepTicks t milliseconds).toNat) % 2 ^ 32 ≤
      counterAt t (j + m) → neededTicks t milliseconds ≤ j + m := by
    intro j m hle
    obtain ⟨events, s, hrun, hreturned, hinterrupts⟩ := exists_return t milliseconds hle
    rw [← hinterrupts]
    exact h events s hrun hreturned
  have hlt := t.timerTicks.toNat_lt
  unfold counterAt at henough
  rcases eq_or_ne milliseconds 0 with hms | hms
  · exact Or.inl hms
  have hpos := neededTicks_pos t hms
  -- read at once, the target does not wrap
  have htarget : t.timerTicks.toNat + (sleepTicks t milliseconds).toNat < 2 ^ 32 := by
    by_contra hwrap
    have hticks := (sleepTicks t milliseconds).toNat_lt
    have := henough 0 0 (by omega)
    omega
  have hproduct : milliseconds.toNat * t.timerFrequency.toNat < 2 ^ 32 := by
    by_contra hwrap
    have hfew := sleepTicks_lt_neededTicks (Nat.not_lt.1 hwrap)
    have := henough 0 (sleepTicks t milliseconds).toNat (by omega)
    omega
  refine Or.inr ⟨hproduct, ?_⟩
  rw [sleepTicks_eq_neededTicks hproduct] at htarget henough
  -- nor when all the interrupts but one come before
  by_contra hwrap
  have := henough (neededTicks t milliseconds - 1) 0 (by omega)
  omega

/-- With any installed frequency and at any tick count, `sleep` waits long enough if and
only if nothing wraps. -/
theorem waitsFor_iff_noWrap (frequencyHz ticks milliseconds : UInt32) (t : Timer) :
    WaitsFor { timerInstall frequencyHz t with timerTicks := ticks } milliseconds ↔
      NoWrap { timerInstall frequencyHz t with timerTicks := ticks } milliseconds :=
  ⟨noWrap_of_waitsFor, waitsFor_of_noWrap⟩

/-- At 100 Hz, half a day is too long for the product: `sleep` waits for one tick. -/
theorem not_waitsFor_half_day :
    ¬ ∀ (frequencyHz ticks milliseconds : UInt32) (t : Timer),
      WaitsFor { timerInstall frequencyHz t with timerTicks := ticks } milliseconds := by
  intro h
  rcases noWrap_of_waitsFor (h 100 0 42949673 ⟨0, 0, 0⟩) with hzero | ⟨hproduct, -⟩
  · exact absurd hzero (by decide)
  · exact absurd hproduct (by decide)

end Timer

end Yotos
