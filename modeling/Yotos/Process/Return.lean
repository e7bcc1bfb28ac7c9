import Yotos.Process.Machine

/-!
# What the caller of `process_run` gets back

A process that leaves through `SYS_EXIT` comes through a trap gate, so its caller gets
IF back as it was. A process that is killed leaves from inside the timer interrupt:
the end of interrupt is sent, but the flags that the interrupt gate pushed are
abandoned together with the stack, and the caller goes on with IF clear.
-/

namespace Yotos

namespace Process

open Library

/-- `process_run` is over. -/
def Control.left : Control → Bool
  | .kernel | .lost => true
  | .entering | .user | .syscall .. | .sleeping .. | .exiting => false

/-- The events `es` take the process that `s` has just called to the state `t` in
which it is left. -/
structure LeavesAfter (s : Machine) (es : List Event) (t : Machine) : Prop where
  run : run step s es = some t
  inside : AllSteps step (fun u _ => u.control.left = false) s es
  left : t.control.left = true

/-- The caller is back with IF set and every interrupt taken in between acknowledged
exactly once, so both lines are still delivered. -/
structure Intact (s t : Machine) : Prop where
  returned : t.control = .kernel
  interruptFlag : t.interruptFlag = true
  idle : ∀ l, t.inService l = false
  balance : ∀ l, t.acked l + s.taken l = s.acked l + t.taken l
  stray : t.strayEoi = s.strayEoi
  timer : canTake t 0 = true
  keyboard : canTake t 1 = true

/-- The step is no tick that finds a kill pending. -/
def NoKillTick (s : Machine) (e : Event) : Prop :=
  match e with
  | .timerIrq => ¬ KillsNow s
  | _ => True

instance (s : Machine) : Decidable (KillsNow s) :=
  inferInstanceAs (Decidable (_ ∧ _))

instance (s : Machine) : ∀ e, Decidable (NoKillTick s e)
  | .timerIrq => inferInstanceAs (Decidable (¬ KillsNow s))
  | .keyboardIrq _ | .getchar | .flush | .run | .saveRegisters | .enterUser | .int80 _ _
  | .serve | .resume => isTrue trivial

/-- What holds between two steps inside the process called from `s₀`. -/
structure Inside (s₀ s : Machine) : Prop where
  notLeft : s.control.left = false
  interruptFlag : s.interruptFlag = true
  idle : ∀ l, s.inService l = false
  balance : ∀ l, s.acked l + s₀.taken l = s₀.acked l + s.taken l
  stray : s.strayEoi = s₀.strayEoi
  saved : s.control ≠ .entering → s.saved = true
  syscallIf : ∀ eax ebx savedIf, s.control = .syscall eax ebx savedIf → savedIf = true
  sleepingIf : ∀ target savedIf, s.control = .sleeping target savedIf → savedIf = true

theorem inside_processRun {s : Machine} (hif : s.interruptFlag = true)
    (hidle : ∀ l, s.inService l = false) : Inside s (processRun s) where
  notLeft := rfl
  interruptFlag := hif
  idle := hidle
  balance _ := rfl
  stray := rfl
  saved h := absurd rfl h
  syscallIf _ _ _ h := Control.noConfusion h
  sleepingIf _ _ h := Control.noConfusion h

theorem bump_balance {a b a' b' : ℕ → ℕ} (h : ∀ l, a l + b' l = a' l + b l) (line l : ℕ) :
    bump a line l + b' l = a' l + bump b line l := by
  have hl := h l
  unfold bump
  split <;> omega

/-- An interrupt that comes back leaves everything as it was. -/
theorem Inside.interrupt {s₀ s t : Machine} (line : ℕ) (h : Inside s₀ s)
    (hcontrol : t.control = s.control) (hif : t.interruptFlag = s.interruptFlag)
    (hservice : t.inService = s.inService) (htaken : t.taken = bump s.taken line)
    (hacked : t.acked = bump s.acked line) (hstray : t.strayEoi = s.strayEoi)
    (hsaved : t.saved = s.saved) : Inside s₀ t where
  notLeft := by rw [hcontrol, h.notLeft]
  interruptFlag := by rw [hif, h.interruptFlag]
  idle := by rw [hservice]; exact h.idle
  balance := by rw [htaken, hacked]; exact bump_balance h.balance line
  stray := by rw [hstray, h.stray]
  saved := by rw [hcontrol, hsaved]; exact h.saved
  syscallIf := by rw [hcontrol]; exact h.syscallIf
  sleepingIf := by rw [hcontrol]; exact h.sleepingIf

theorem Inside.serve {s₀ s t : Machine} (h : Inside s₀ s) (hstep : step s .serve = some t) :
    Inside s₀ t := by
  cases hcontrol : s.control with
  | syscall eax ebx savedIf =>
      have hsaved := h.saved (by rw [hcontrol]; exact Control.noConfusion)
      have hif := h.syscallIf eax ebx savedIf hcontrol
      subst hif
      simp only [step, hcontrol, Option.some.injEq] at hstep
      subst hstep
      unfold syscallHandler
      split_ifs with hexit hread hsleep
      · exact ⟨rfl, h.interruptFlag, h.idle, h.balance, h.stray, fun _ => hsaved,
          fun _ _ _ heq => Control.noConfusion heq, fun _ _ heq => Control.noConfusion heq⟩
      · exact ⟨rfl, rfl, h.idle, h.balance, h.stray, fun _ => hsaved,
          fun _ _ _ heq => Control.noConfusion heq, fun _ _ heq => Control.noConfusion heq⟩
      · refine ⟨rfl, h.interruptFlag, h.idle, h.balance, h.stray, fun _ => hsaved,
          fun _ _ _ heq => Control.noConfusion heq, fun target savedIf heq => ?_⟩
        exact ((Control.sleeping.inj heq).2).symm
      · exact ⟨rfl, rfl, h.idle, h.balance, h.stray, fun _ => hsaved,
          fun _ _ _ heq => Control.noConfusion heq, fun _ _ heq => Control.noConfusion heq⟩
  | sleeping target savedIf =>
      have hsaved := h.saved (by rw [hcontrol]; exact Control.noConfusion)
      have hif := h.sleepingIf target savedIf hcontrol
      subst hif
      simp only [step, hcontrol] at hstep
      split at hstep
      · exact absurd hstep (by simp)
      · obtain rfl := Option.some.inj hstep
        exact ⟨rfl, rfl, h.idle, h.balance, h.stray, fun _ => hsaved,
          fun _ _ _ heq => Control.noConfusion heq, fun _ _ heq => Control.noConfusion heq⟩
  | kernel => simp [step, hcontrol] at hstep
  | entering => simp [step, hcontrol] at hstep
  | user => simp [step, hcontrol] at hstep
  | exiting => simp [step, hcontrol] at hstep
  | lost => simp [step, hcontrol] at hstep

/-- A step inside the process that is no killing tick stays inside, or gives the
caller everything back. -/
theorem Inside.after_step {s₀ s t : Machine} {e : Event} (h : Inside s₀ s) (hno : NoKillTick s e)
    (hstep : step s e = some t) : Inside s₀ t ∨ (t.control.left = true ∧ Intact s₀ t) := by
  cases e with
  | timerIrq =>
      obtain ⟨htake, rfl⟩ := guard_eq_some.1 hstep
      rw [irqStub_timer htake hno]
      exact Or.inl (h.interrupt 0 rfl rfl rfl rfl rfl rfl rfl)
  | keyboardIrq scancode =>
      obtain ⟨htake, rfl⟩ := guard_eq_some.1 hstep
      rw [irqStub_keyboard htake]
      left
      split
      · exact h.interrupt 1 rfl rfl rfl rfl rfl rfl rfl
      · exact h.interrupt 1 rfl rfl rfl rfl rfl rfl rfl
  | serve => exact Or.inl (h.serve hstep)
  | getchar =>
      obtain ⟨hcontrol, -⟩ := guard_eq_some.1 hstep
      have hleft := h.notLeft
      rw [hcontrol] at hleft
      exact absurd hleft (by decide)
  | flush =>
      obtain ⟨hcontrol, -⟩ := guard_eq_some.1 hstep
      have hleft := h.notLeft
      rw [hcontrol] at hleft
      exact absurd hleft (by decide)
  | run =>
      obtain ⟨hcontrol, -⟩ := guard_eq_some.1 hstep
      have hleft := h.notLeft
      rw [hcontrol] at hleft
      exact absurd hleft (by decide)
  | saveRegisters =>
      obtain ⟨hcontrol, rfl⟩ := guard_eq_some.1 hstep
      exact Or.inl ⟨h.notLeft, h.interruptFlag, h.idle, h.balance, h.stray, fun _ => rfl,
        h.syscallIf, h.sleepingIf⟩
  | enterUser =>
      obtain ⟨⟨-, hsaved⟩, rfl⟩ := guard_eq_some.1 hstep
      exact Or.inl ⟨rfl, rfl, h.idle, h.balance, h.stray, fun _ => hsaved,
        fun _ _ _ heq => Control.noConfusion heq, fun _ _ heq => Control.noConfusion heq⟩
  | int80 eax ebx =>
      obtain ⟨hcontrol, rfl⟩ := guard_eq_some.1 hstep
      rw [throughGate_syscallGate]
      refine Or.inl ⟨rfl, h.interruptFlag, h.idle, h.balance, h.stray, fun _ => ?_,
        fun _ _ _ heq => ?_, fun _ _ heq => Control.noConfusion heq⟩
      · exact h.saved (by rw [hcontrol]; exact Control.noConfusion)
      · exact (Control.syscall.inj heq).2.2.symm.trans h.interruptFlag
  | resume =>
      obtain ⟨hcontrol, rfl⟩ := guard_eq_some.1 hstep
      have hsaved := h.saved (by rw [hcontrol]; exact Control.noConfusion)
      have hkernel : (kernelResumeAfterExit s).control = .kernel := by
        simp [kernelResumeAfterExit, hsaved]
      right
      refine ⟨by rw [hkernel]; rfl, hkernel, h.interruptFlag, h.idle, h.balance, h.stray, ?_, ?_⟩
      · exact canTake_iff.2 ⟨h.interruptFlag, fun l _ => h.idle l⟩
      · exact canTake_iff.2 ⟨h.interruptFlag, fun l _ => h.idle l⟩

/-- A tick that finds a kill pending leaves the process with IF clear. -/
theorem left_of_killTick {s t : Machine} {e : Event} (hkill : ¬ NoKillTick s e)
    (hstep : step s e = some t) : t.control.left = true ∧ t.interruptFlag = false := by
  cases e with
  | timerIrq =>
      obtain ⟨htake, rfl⟩ := guard_eq_some.1 hstep
      obtain ⟨hpending, hcurrent⟩ := not_not.1 hkill
      obtain ⟨p, hp⟩ := Option.ne_none_iff_exists'.1 hcurrent
      rw [irqStub_timer_kill htake hpending hp]
      refine ⟨?_, rfl⟩
      dsimp only
      cases s.saved <;> rfl
  | _ => exact absurd trivial hkill

/-- A process that has been left takes no further events. -/
theorem eq_nil_of_left {s : Machine} {es : List Event}
    (hin : AllSteps step (fun u _ => u.control.left = false) s es)
    (hleft : s.control.left = true) : es = [] := by
  cases es with
  | nil => rfl
  | cons e es => exact absurd (hin.1.symm.trans hleft) (by decide)

theorem Inside.intact_iff {s₀ s t : Machine} {es : List Event} (h : Inside s₀ s)
    (hrun : LeavesAfter s es t) : Intact s₀ t ↔ AllSteps step NoKillTick s es := by
  induction es generalizing s with
  | nil =>
      obtain rfl := Option.some.inj hrun.run
      exact absurd (h.notLeft.symm.trans hrun.left) (by decide)
  | cons e es ih =>
      obtain ⟨u, hu, hrest⟩ := run_cons_eq_some.1 hrun.run
      have hin := hrun.inside.2 u hu
      have htail : AllSteps step NoKillTick s (e :: es) ↔
          NoKillTick s e ∧ AllSteps step NoKillTick u es := by
        refine and_congr_right fun _ => ⟨fun hall => hall u hu, fun hall v hv => ?_⟩
        exact Option.some.inj (hu.symm.trans hv) ▸ hall
      rw [htail]
      by_cases hno : NoKillTick s e
      · rcases h.after_step hno hu with hstay | ⟨hleft, hintact⟩
        · rw [ih hstay ⟨hrest, hin, hrun.left⟩]
          exact (and_iff_right hno).symm
        · obtain rfl := eq_nil_of_left hin hleft
          obtain rfl := Option.some.inj hrest
          exact iff_of_true hintact ⟨hno, trivial⟩
      · obtain ⟨hleft, hclear⟩ := left_of_killTick hno hu
        obtain rfl := eq_nil_of_left hin hleft
        obtain rfl := Option.some.inj hrest
        refine iff_of_false (fun hintact => ?_) (fun hall => hno hall.1)
        exact absurd (hclear.symm.trans hintact.interruptFlag) (by decide)

/-- Called with IF set and no interrupt in service, `process_run` gives its caller an
intact machine exactly when no tick finds a kill pending, that is when the process
leaves through `SYS_EXIT`. -/
theorem intact_iff_noKillTick (s t : Machine) (es : List Event)
    (hif : s.interruptFlag = true) (hidle : ∀ l, s.inService l = false)
    (hrun : LeavesAfter (processRun s) es t) :
    Intact s t ↔ AllSteps step NoKillTick (processRun s) es :=
  (inside_processRun hif hidle).intact_iff hrun

/-- A process that sleeps through a tick and exits. -/
def exitEvents : List Event :=
  [.saveRegisters, .enterUser, .int80 4 10, .serve, .timerIrq, .serve, .int80 1 0, .timerIrq,
    .serve, .keyboardIrq 0x1E, .resume]

theorem intact_exitEvents :
    ∃ t, run step (processRun initial) exitEvents = some t ∧ Intact initial t := by
  refine ⟨(run step (processRun initial) exitEvents).getD initial, by rfl, ?_⟩
  exact (intact_iff_noKillTick initial _ exitEvents rfl (fun _ => rfl)
    ⟨by rfl, by decide, by rfl⟩).2 (by decide)

/-- A process stopped by Ctrl+C. -/
def killEvents : List Event :=
  [.saveRegisters, .enterUser, .keyboardIrq 0x1D, .keyboardIrq 0x2E, .timerIrq]

theorem interruptFlag_killEvents :
    (run step (processRun initial) killEvents).map (fun t => (t.control, t.interruptFlag)) =
      some (.kernel, false) := by
  decide

/-- After a kill the shell runs with IF clear. -/
theorem not_intact_killEvents :
    ¬ ∀ s es t, s.interruptFlag = true → (∀ l, s.inService l = false) →
      LeavesAfter (processRun s) es t → Intact s t := by
  intro h
  obtain ⟨t, ht, hflags⟩ := Option.map_eq_some_iff.1 interruptFlag_killEvents
  obtain ⟨hcontrol, hclear⟩ := Prod.mk.inj hflags
  have hintact := h initial killEvents t rfl (fun _ => rfl)
    ⟨ht, by decide, by rw [hcontrol]; rfl⟩
  exact absurd (hclear.symm.trans hintact.interruptFlag) (by decide)

end Process

end Yotos
