import Yotos.Process.Machine

/-!
# Who a kill request reaches

Ctrl+C sets `kill_pending` while a process is current, and a later tick kills the
process that is current then. The two are the same process as long as no process
leaves through `SYS_EXIT` with the request still pending: `process_exit` does not clear
`kill_pending`, so the next process run is killed in its place.
-/

namespace Yotos

namespace Process

open Library

/-- Every kill recorded hit the process its requests were made for. -/
def KillsOwn (s : Machine) : Prop :=
  ∀ v rs, (v, rs) ∈ s.kills → ∀ r ∈ rs, r = v

/-- The step is the `process_exit` of a `SYS_EXIT`. -/
def exitsNow (s : Machine) : Event → Bool
  | .serve =>
      match s.control with
      | .syscall eax _ _ => eax == sysExit
      | _ => false
  | _ => false

/-- No process leaves through `SYS_EXIT` with a kill pending. -/
def LeavesNoRequest (s : Machine) (e : Event) : Prop :=
  exitsNow s e = true → s.killPending = false

instance (s : Machine) (e : Event) : Decidable (LeavesNoRequest s e) :=
  inferInstanceAs (Decidable (_ → _))

/-- `process_run` has been called and has not been left. -/
def Control.inProcess : Control → Bool
  | .entering | .user | .syscall .. | .sleeping .. => true
  | .kernel | .exiting | .lost => false

/-- What a run keeps: a process is current exactly inside `process_run`, and a pending
request was made for the current process. -/
structure Attributed (s : Machine) : Prop where
  current : s.currentProcess ≠ none ↔ s.control.inProcess = true
  pending : s.killPending = true → s.currentProcess ≠ none
  requests : ∀ r ∈ s.requests, s.killPending = true ∧ s.currentProcess = some r
  own : KillsOwn s

theorem attributed_initial : Attributed initial where
  current := by decide
  pending h := absurd h (by decide)
  requests r hr := absurd hr List.not_mem_nil
  own v rs h := absurd h List.not_mem_nil

/-- A step that leaves the process and the kill state alone keeps the attribution. -/
theorem Attributed.of_eq {s t : Machine} (h : Attributed s)
    (hcontrol : t.control.inProcess = s.control.inProcess)
    (hcurrent : t.currentProcess = s.currentProcess) (hpending : t.killPending = s.killPending)
    (hrequests : t.requests = s.requests) (hkills : t.kills = s.kills) : Attributed t where
  current := by rw [hcurrent, hcontrol, h.current]
  pending := by rw [hpending, hcurrent]; exact h.pending
  requests := by rw [hrequests, hpending, hcurrent]; exact h.requests
  own := by
    intro v rs
    rw [hkills]
    exact h.own v rs

theorem Attributed.timerIrq {s : Machine} (h : Attributed s) (htake : canTake s 0 = true) :
    Attributed (irqStub 0 timerHandler s) := by
  by_cases hkill : KillsNow s
  · obtain ⟨hpending, hcurrent⟩ := hkill
    obtain ⟨p, hp⟩ := Option.ne_none_iff_exists'.1 hcurrent
    rw [irqStub_timer_kill htake hpending hp]
    refine ⟨?_, by simp, by simp, ?_⟩
    · dsimp only
      cases s.saved <;> simp [Control.inProcess]
    · -- the requests pending were made for the current process
      intro v rs hmem r hr
      rcases List.mem_cons.1 hmem with heq | hmem
      · obtain ⟨rfl, rfl⟩ := Prod.mk.inj heq
        have hcur := (h.requests r hr).2
        rw [hp] at hcur
        exact (Option.some.inj hcur).symm
      · exact h.own v rs hmem r hr
  · rw [irqStub_timer htake hkill]
    exact h.of_eq rfl rfl rfl rfl rfl

theorem Attributed.keyboardIrq {s : Machine} (h : Attributed s) (htake : canTake s 1 = true)
    (scancode : UInt8) : Attributed (irqStub 1 (keyboardIrqHandler scancode) s) := by
  rw [irqStub_keyboard htake]
  cases hkill : (s.keyboard.keyboardHandler (processIsRunning s) scancode).2 with
  | false => exact h.of_eq rfl rfl rfl rfl rfl
  | true =>
      obtain ⟨p, hp⟩ := Option.isSome_iff_exists.1 (Keyboard.running_of_keyboardHandler hkill)
      refine ⟨h.current, fun _ => by simp [processSignalKill, hp], ?_, h.own⟩
      intro r hr
      have hmem : r = p ∨ r ∈ s.requests := by
        simpa [processSignalKill, hp] using hr
      rcases hmem with rfl | hmem
      · exact ⟨rfl, hp⟩
      · exact ⟨rfl, (h.requests r hmem).2⟩

theorem Attributed.serve {s t : Machine} (h : Attributed s)
    (hok : LeavesNoRequest s .serve) (hstep : step s .serve = some t) : Attributed t := by
  cases hcontrol : s.control with
  | syscall eax ebx savedIf =>
      simp only [step, hcontrol, Option.some.injEq] at hstep
      subst hstep
      unfold syscallHandler
      split_ifs with hexit hread hsleep
      · subst hexit
        have hpending := hok (by simp [exitsNow, hcontrol])
        refine ⟨by simp [clearCurrent, Control.inProcess], ?_, ?_, h.own⟩
        · intro hp
          exact absurd (hpending.symm.trans hp) (by decide)
        · intro r hr
          exact absurd (hpending.symm.trans (h.requests r hr).1) (by decide)
      · exact h.of_eq (by rw [hcontrol]; rfl) rfl rfl rfl rfl
      · exact h.of_eq (by rw [hcontrol]; rfl) rfl rfl rfl rfl
      · exact h.of_eq (by rw [hcontrol]; rfl) rfl rfl rfl rfl
  | sleeping target savedIf =>
      simp only [step, hcontrol] at hstep
      split at hstep
      · exact absurd hstep (by simp)
      · obtain rfl := Option.some.inj hstep
        exact h.of_eq (by rw [hcontrol]; rfl) rfl rfl rfl rfl
  | kernel => simp [step, hcontrol] at hstep
  | entering => simp [step, hcontrol] at hstep
  | user => simp [step, hcontrol] at hstep
  | exiting => simp [step, hcontrol] at hstep
  | lost => simp [step, hcontrol] at hstep

/-- Every step but the one excluded keeps the attribution. -/
theorem Attributed.step (s : Machine) (e : Event) (t : Machine) (h : Attributed s)
    (hok : LeavesNoRequest s e) (hstep : step s e = some t) : Attributed t := by
  cases e with
  | timerIrq =>
      obtain ⟨htake, rfl⟩ := guard_eq_some.1 hstep
      exact h.timerIrq htake
  | keyboardIrq scancode =>
      obtain ⟨htake, rfl⟩ := guard_eq_some.1 hstep
      exact h.keyboardIrq htake scancode
  | serve => exact h.serve hok hstep
  | getchar =>
      obtain ⟨-, rfl⟩ := guard_eq_some.1 hstep
      exact h.of_eq rfl rfl rfl rfl rfl
  | flush =>
      obtain ⟨-, rfl⟩ := guard_eq_some.1 hstep
      exact h.of_eq rfl rfl rfl rfl rfl
  | run =>
      obtain ⟨hcontrol, rfl⟩ := guard_eq_some.1 hstep
      -- outside `process_run` there is no current process, so nothing is pending
      have hnone : s.currentProcess = none := by
        by_contra hcur
        have hin := h.current.1 hcur
        rw [hcontrol] at hin
        exact absurd hin (by decide)
      refine ⟨by simp [processRun, Control.inProcess], by simp [processRun], ?_, h.own⟩
      intro r hr
      have hcur := (h.requests r hr).2
      rw [hnone] at hcur
      exact absurd hcur (by simp)
  | saveRegisters =>
      obtain ⟨-, rfl⟩ := guard_eq_some.1 hstep
      exact h.of_eq rfl rfl rfl rfl rfl
  | enterUser =>
      obtain ⟨⟨hcontrol, -⟩, rfl⟩ := guard_eq_some.1 hstep
      exact h.of_eq (by rw [hcontrol]; rfl) rfl rfl rfl rfl
  | int80 eax ebx =>
      obtain ⟨hcontrol, rfl⟩ := guard_eq_some.1 hstep
      exact h.of_eq (by rw [hcontrol]; rfl) rfl rfl rfl rfl
  | resume =>
      obtain ⟨hcontrol, rfl⟩ := guard_eq_some.1 hstep
      refine h.of_eq ?_ rfl rfl rfl rfl
      rw [hcontrol]
      unfold kernelResumeAfterExit
      cases s.saved <;> rfl

/-- In every run in which no process leaves through `SYS_EXIT` with a kill pending, a
kill only ever hits the process that was current when Ctrl+C was pressed. -/
theorem killsOwn_of_leavesNoRequest (es : List Event) (s : Machine)
    (hrun : run step initial es = some s) (hok : AllSteps step LeavesNoRequest initial es) :
    KillsOwn s :=
  (run_invariant Attributed.step attributed_initial hok hrun).own

/-- A process exits by itself, and the next one is stopped by Ctrl+C. -/
def killRun : List Event :=
  [.run, .saveRegisters, .enterUser, .int80 1 0, .serve, .resume,
    .run, .saveRegisters, .enterUser, .keyboardIrq 0x1D, .keyboardIrq 0x2E, .timerIrq]

theorem killsOwn_killRun :
    ∃ s, run step initial killRun = some s ∧ s.kills = [(1, [1])] ∧ KillsOwn s := by
  refine ⟨((run step initial killRun).getD initial), by rfl, by rfl, ?_⟩
  exact killsOwn_of_leavesNoRequest killRun _ (by rfl) (by decide)

/-- Ctrl+C in the first process, which exits before the next tick; the tick comes when
a second process runs. -/
def staleRun : List Event :=
  [.run, .saveRegisters, .enterUser, .keyboardIrq 0x1D, .keyboardIrq 0x2E, .int80 1 0, .serve,
    .resume, .run, .saveRegisters, .enterUser, .timerIrq]

theorem kills_staleRun : (run step initial staleRun).map (·.kills) = some [(1, [0])] := by
  decide

/-- The request made for the first process kills the second one. -/
theorem not_killsOwn_staleRun :
    ¬ ∀ es s, run step initial es = some s → KillsOwn s := by
  intro h
  obtain ⟨s, hs, hkills⟩ := Option.map_eq_some_iff.1 kills_staleRun
  have hown := h staleRun s hs 1 [0] (by rw [hkills]; exact List.mem_singleton.2 rfl) 0
    (List.mem_singleton.2 rfl)
  exact absurd hown (by decide)

end Process

end Yotos
