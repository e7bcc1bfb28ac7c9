import Yotos.Library.Run
import Yotos.Process.Keyboard
import Mathlib.Order.Nat

/-!
# Processes, interrupts and the way out of a process

The kernel runs one process at a time: `process_run` enters ring 3 through
`enter_user_mode`, and the process leaves through `process_exit`, called from the
`SYS_EXIT` system call or from the timer interrupt once a kill is pending. Both end in
`kernel_resume_after_exit`, which abandons the stack it runs on.

The model keeps the interrupt flag of the CPU and the in-service bits of the master
PIC. Lines 0 (timer) and 1 (keyboard) are the only ones unmasked. An IRQ goes through
an interrupt gate, so nothing interrupts its handler and the whole handler is one step;
a system call goes through a trap gate, so interrupts can arrive before each of its
steps.

A function that may not come back to its caller returns in `Flow`: `.error` means that
the stack was abandoned. A process is named by the number of the `process_run` call
that started it, since `process_free` makes the address of a `process_t` available
again.
-/

namespace Yotos

namespace Process

open Library

/-- What the CPU is doing between two steps. The saved flag is the IF pushed by the
trap gate. -/
inductive Control
  /-- the kernel thread, outside `process_run` -/
  | kernel
  /-- `process_run` before the `iret` of `enter_user_mode` -/
  | entering
  | user
  | syscall (eax ebx : UInt32) (savedIf : Bool)
  /-- the loop of `timer_wait` -/
  | sleeping (target : UInt32) (savedIf : Bool)
  /-- `process_exit` with `current_process` cleared -/
  | exiting
  /-- the stack was switched to registers that no running `process_run` saved -/
  | lost
  deriving DecidableEq

structure Machine where
  control : Control
  interruptFlag : Bool
  inService : ℕ → Bool
  keyboard : Keyboard
  timerTicks : UInt32
  currentProcess : Option ℕ
  killPending : Bool
  exitCode : ℕ → Int32
  /-- whether the `process_saved_*` registers are those of the current `process_run` -/
  saved : Bool
  userEax : UInt32
  /-- the number of `process_run` calls so far -/
  runs : ℕ
  /-- for each line, the interrupts the CPU took and those acknowledged -/
  taken : ℕ → ℕ
  acked : ℕ → ℕ
  /-- acknowledgements that found nothing in service -/
  strayEoi : ℕ
  /-- the processes the kill requests now pending were made for -/
  requests : List ℕ
  /-- each process killed, with the requests that were pending -/
  kills : List (ℕ × List ℕ)

/-- The machine when the shell starts. -/
def initial : Machine where
  control := .kernel
  interruptFlag := true
  inService _ := false
  keyboard := Keyboard.initial
  timerTicks := 0
  currentProcess := none
  killPending := false
  exitCode _ := 0
  saved := false
  userEax := 0
  runs := 0
  taken _ := 0
  acked _ := 0
  strayEoi := 0
  requests := []
  kills := []

def bump (f : ℕ → ℕ) (line : ℕ) : ℕ → ℕ := fun l => if l = line then f l + 1 else f l

def assign (f : ℕ → Bool) (line : ℕ) (v : Bool) : ℕ → Bool :=
  fun l => if l = line then v else f l

/-! ### Gates and the PIC -/

/-- The attributes `install_idt` gives the IRQ vectors. -/
def irqGate : UInt8 := 0x8E

/-- The attributes `syscall_install` gives vector `0x80`. -/
def syscallGate : UInt8 := 0xEF

/-- Going through a gate: an interrupt gate (type 14) clears IF. -/
def throughGate (attributes : UInt8) (s : Machine) : Machine :=
  { s with interruptFlag := s.interruptFlag && attributes &&& 0x0F != 0x0E }

/-- The line in service with the highest priority. -/
def highestInService (s : Machine) : Option ℕ := (List.range 8).find? s.inService

/-- `PIC_sendEOI` for a line of the master PIC: a non-specific end of interrupt. -/
def picSendEoi (s : Machine) : Machine :=
  match highestInService s with
  | some line => { s with inService := assign s.inService line false, acked := bump s.acked line }
  | none => { s with strayEoi := s.strayEoi + 1 }

/-- The CPU takes `line` when IF is set and no line of the same or a higher priority is
in service. -/
def canTake (s : Machine) (line : ℕ) : Bool :=
  s.interruptFlag && (List.range (line + 1)).all fun l => !s.inService l

/-- The CPU takes `line`. -/
def takeIrq (line : ℕ) (s : Machine) : Machine :=
  throughGate irqGate
    { s with inService := assign s.inService line true, taken := bump s.taken line }

/-! ### `process.c` -/

/-- The outcome of kernel code that may abandon its stack. -/
abbrev Flow := Except Machine Machine

def processIsRunning (s : Machine) : Bool := s.currentProcess.isSome

def processSignalKill (s : Machine) : Machine :=
  { s with
    killPending := true
    requests := s.currentProcess.toList ++ s.requests }

/-- `kernel_resume_after_exit`: stack and registers only. -/
def kernelResumeAfterExit (s : Machine) : Machine :=
  { s with control := if s.saved then .kernel else .lost }

/-- The assignments of `process_exit`. -/
def clearCurrent (code : Int32) (s : Machine) : Machine :=
  { s with
    exitCode := match s.currentProcess with
      | some p => fun q => if q = p then code else s.exitCode q
      | none => s.exitCode
    currentProcess := none }

def processExit (code : Int32) (s : Machine) : Flow :=
  .error (kernelResumeAfterExit (clearCurrent code s))

/-- Note the kill of the current process for the record. -/
def noteKill (s : Machine) : Machine :=
  { s with
    requests := []
    kills := match s.currentProcess with
      | some p => (p, s.requests) :: s.kills
      | none => s.kills }

/-- `process_check_kill`, called from the timer interrupt. -/
def processCheckKill (s : Machine) : Flow :=
  if s.killPending = false ∨ s.currentProcess = none then .ok s
  else processExit 1 (picSendEoi (noteKill { s with killPending := false }))

/-- `process_run` up to the call of `enter_user_mode`. -/
def processRun (s : Machine) : Machine :=
  { s with
    currentProcess := some s.runs
    runs := s.runs + 1
    saved := false
    control := .entering }

/-- The `iret` of `enter_user_mode`, with IF set in the flags it pops. -/
def enterUserMode (s : Machine) : Machine :=
  { s with interruptFlag := true, control := .user }

/-! ### Interrupts -/

def timerHandler (s : Machine) : Flow :=
  processCheckKill { s with timerTicks := s.timerTicks + 1 }

def keyboardIrqHandler (scancode : UInt8) (s : Machine) : Flow :=
  let (k, kill) := s.keyboard.keyboardHandler (processIsRunning s) scancode
  let s := { s with keyboard := k }
  .ok (if kill then processSignalKill s else s)

/-- `irq_dispatch`: the handler, then the end of interrupt. -/
def irqDispatch (handler : Machine → Flow) (s : Machine) : Flow := do
  let s ← handler s
  return picSendEoi s

/-- The IRQ stub: the `iret` restores the flags pushed by the gate, unless the handler
abandoned the stack. -/
def irqStub (line : ℕ) (handler : Machine → Flow) (s : Machine) : Machine :=
  match irqDispatch handler (takeIrq line s) with
  | .ok t => { t with interruptFlag := s.interruptFlag }
  | .error t => t

/-! ### System calls -/

def sysExit : UInt32 := 1
def sysReadkey : UInt32 := 3
def sysSleep : UInt32 := 4

/-- The frequency `kmain` installs the timer with. -/
def timerFrequency : UInt32 := 100

/-- The number of ticks `sleep` waits for. -/
def sleepTicks (milliseconds : UInt32) : UInt32 :=
  let ticks := milliseconds * timerFrequency / 1000
  if ticks = 0 ∧ 0 < milliseconds then 1 else ticks

/-- The `iret` of the system call stub. -/
def syscallReturn (eax : UInt32) (savedIf : Bool) (s : Machine) : Machine :=
  { s with userEax := eax, interruptFlag := savedIf, control := .user }

/-- `syscall_handler`, up to its return or the next point where it waits. What
`SYS_WRITE` prints is no part of this machine. -/
def syscallHandler (eax ebx : UInt32) (savedIf : Bool) (s : Machine) : Machine :=
  if eax = sysExit then
    { clearCurrent ebx.toInt32 s with control := .exiting }
  else if eax = sysReadkey then
    let (c, k) := s.keyboard.keyboardGetchar
    syscallReturn c.toUInt32 savedIf { s with keyboard := k }
  else if eax = sysSleep then
    { s with control := .sleeping (s.timerTicks + sleepTicks ebx) savedIf }
  else
    syscallReturn eax savedIf s

/-! ### Steps -/

inductive Event
  | timerIrq
  | keyboardIrq (scancode : UInt8)
  /-- the shell reads a character, or empties the keyboard buffer -/
  | getchar
  | flush
  /-- `process_run` is called, saves the registers, and drops to ring 3 -/
  | run
  | saveRegisters
  | enterUser
  /-- `int 0x80`, the progress of the call, and the end of `process_exit` -/
  | int80 (eax ebx : UInt32)
  | serve
  | resume

def step (s : Machine) : Event → Option Machine
  | .timerIrq => if canTake s 0 then some (irqStub 0 timerHandler s) else none
  | .keyboardIrq scancode =>
      if canTake s 1 then some (irqStub 1 (keyboardIrqHandler scancode) s) else none
  | .getchar =>
      if s.control = .kernel then
        some { s with keyboard := s.keyboard.keyboardGetchar.2 } else none
  | .flush =>
      if s.control = .kernel then
        some { s with keyboard := s.keyboard.keyboardFlush } else none
  | .run => if s.control = .kernel then some (processRun s) else none
  | .saveRegisters => if s.control = .entering then some { s with saved := true } else none
  | .enterUser =>
      if s.control = .entering ∧ s.saved = true then some (enterUserMode s) else none
  | .int80 eax ebx =>
      if s.control = .user then
        some { throughGate syscallGate s with control := .syscall eax ebx s.interruptFlag }
      else none
  | .serve =>
      match s.control with
      | .syscall eax ebx savedIf => some (syscallHandler eax ebx savedIf s)
      | .sleeping target savedIf =>
          if s.timerTicks < target then none else some (syscallReturn sysSleep savedIf s)
      | _ => none
  | .resume =>
      if s.control = .exiting then some (kernelResumeAfterExit s) else none

/-! ### What an interrupt does -/

@[simp] theorem assign_self (f : ℕ → Bool) (line : ℕ) (v : Bool) :
    assign f line v line = v := by
  simp [assign]

theorem assign_of_ne (f : ℕ → Bool) (v : Bool) {line l : ℕ} (h : l ≠ line) :
    assign f line v l = f l := by
  simp [assign, h]

theorem assign_assign_eq {f : ℕ → Bool} {line : ℕ} (h : f line = false) (v : Bool) :
    assign (assign f line v) line false = f := by
  funext l
  by_cases hl : l = line
  · rw [hl, assign_self, h]
  · rw [assign_of_ne _ _ hl, assign_of_ne _ _ hl]

theorem canTake_iff {s : Machine} {line : ℕ} :
    canTake s line = true ↔ s.interruptFlag = true ∧ ∀ l ≤ line, s.inService l = false := by
  simp only [canTake, Bool.and_eq_true, List.all_eq_true, List.mem_range, Nat.lt_succ_iff,
    Bool.not_eq_true']

/-- The gate of the IRQs clears IF. -/
theorem throughGate_irqGate (s : Machine) :
    throughGate irqGate s = { s with interruptFlag := false } := by
  rw [throughGate, show (irqGate &&& 0x0F != 0x0E) = false by decide, Bool.and_false]

/-- The gate of the system calls leaves IF alone. -/
theorem throughGate_syscallGate (s : Machine) : throughGate syscallGate s = s := by
  rw [throughGate, show (syscallGate &&& 0x0F != 0x0E) = true by decide, Bool.and_true]

theorem takeIrq_eq (line : ℕ) (s : Machine) :
    takeIrq line s =
      { s with
        interruptFlag := false
        inService := assign s.inService line true
        taken := bump s.taken line } :=
  throughGate_irqGate _

/-- The end of interrupt for the line just taken. -/
theorem picSendEoi_of_taken {s t : Machine} {line : ℕ} (hline : line < 8)
    (hs : ∀ l ≤ line, s.inService l = false) (ht : t.inService = assign s.inService line true) :
    picSendEoi t = { t with inService := s.inService, acked := bump t.acked line } := by
  have hhighest : highestInService t = some line := by
    rw [highestInService, List.find?_range_eq_some, ht]
    refine ⟨assign_self _ _ _, List.mem_range.2 hline, fun l hl => ?_⟩
    rw [assign_of_ne _ _ hl.ne, hs l hl.le]
    rfl
  simp only [picSendEoi, hhighest]
  rw [ht, assign_assign_eq (hs line le_rfl)]

/-- A tick kills the current process when a kill is pending. -/
def KillsNow (s : Machine) : Prop := s.killPending = true ∧ s.currentProcess ≠ none

theorem irqStub_timer {s : Machine} (h : canTake s 0 = true) (hkill : ¬ KillsNow s) :
    irqStub 0 timerHandler s =
      { s with
        timerTicks := s.timerTicks + 1, taken := bump s.taken 0, acked := bump s.acked 0 } := by
  obtain ⟨-, hfree⟩ := canTake_iff.1 h
  have hskip : s.killPending = false ∨ s.currentProcess = none := by
    by_contra hno
    rw [not_or] at hno
    exact hkill ⟨by simpa using hno.1, hno.2⟩
  have hcheck : timerHandler (takeIrq 0 s) =
      .ok { takeIrq 0 s with timerTicks := s.timerTicks + 1 } :=
    if_pos hskip
  rw [irqStub, irqDispatch, hcheck, takeIrq_eq]
  simp only [bind, Except.bind, pure, Except.pure]
  rw [picSendEoi_of_taken (by decide) hfree rfl]

/-- A tick that finds a kill pending leaves the process with IF clear. -/
theorem irqStub_timer_kill {s : Machine} {p : ℕ} (h : canTake s 0 = true)
    (hpending : s.killPending = true) (hcurrent : s.currentProcess = some p) :
    irqStub 0 timerHandler s =
      { s with
        control := if s.saved then .kernel else .lost
        interruptFlag := false
        timerTicks := s.timerTicks + 1
        currentProcess := none
        killPending := false
        exitCode := fun q => if q = p then 1 else s.exitCode q
        taken := bump s.taken 0
        acked := bump s.acked 0
        requests := []
        kills := (p, s.requests) :: s.kills } := by
  obtain ⟨-, hfree⟩ := canTake_iff.1 h
  have hcheck : timerHandler (takeIrq 0 s) =
      processExit 1 (picSendEoi (noteKill
        { takeIrq 0 s with timerTicks := s.timerTicks + 1, killPending := false })) := by
    rw [timerHandler, processCheckKill, takeIrq_eq, if_neg]
    simp [hpending, hcurrent]
  rw [irqStub, irqDispatch, hcheck, takeIrq_eq]
  simp only [noteKill, hcurrent]
  rw [picSendEoi_of_taken (by decide) hfree rfl]
  simp only [processExit, bind, Except.bind, kernelResumeAfterExit, clearCurrent]

theorem irqStub_keyboard {s : Machine} (h : canTake s 1 = true) (scancode : UInt8) :
    irqStub 1 (keyboardIrqHandler scancode) s =
      { (if (s.keyboard.keyboardHandler (processIsRunning s) scancode).2
          then processSignalKill s else s) with
        keyboard := (s.keyboard.keyboardHandler (processIsRunning s) scancode).1
        taken := bump s.taken 1
        acked := bump s.acked 1 } := by
  obtain ⟨-, hfree⟩ := canTake_iff.1 h
  have hrunning : processIsRunning (takeIrq 1 s) = processIsRunning s := by
    rw [takeIrq_eq]
    rfl
  rw [irqStub, irqDispatch, keyboardIrqHandler, hrunning, takeIrq_eq]
  simp only [bind, Except.bind, pure, Except.pure]
  rw [picSendEoi_of_taken (by decide) hfree (by split <;> rfl)]
  split <;> rfl

end Process

end Yotos
