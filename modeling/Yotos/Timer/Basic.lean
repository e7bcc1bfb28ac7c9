import Yotos.Library.Run
import Mathlib.Data.Nat.Notation

/-!
# The timer

`drivers/timer.c`: a counter of timer interrupts, and `sleep`, which waits until the
counter passes a target. Interrupts come at any moment, so `sleep` is a machine that
runs between them: it computes the number of ticks, reads the counter for the target,
and reads it again in a loop. `interrupts` counts the interrupts since the call.
-/

namespace Yotos

/-- The counter, the frequency, and the divisor that the timer chip was given. -/
structure Timer where
  timerTicks : UInt32
  timerFrequency : UInt32
  divisor : UInt16

namespace Timer

/-- `PIT_BASE_FREQUENCY`. -/
def pitBaseFrequency : UInt32 := 1193180

/-- `timer_handler`. -/
def timerHandler (t : Timer) : Timer := { t with timerTicks := t.timerTicks + 1 }

/-- `timer_set_frequency`: the chip takes the low 16 bits of the divisor. -/
def timerSetFrequency (frequencyHz : UInt32) (t : Timer) : Timer :=
  let frequencyHz := if frequencyHz = 0 then 100 else frequencyHz
  let divisor := pitBaseFrequency / frequencyHz
  let divisor := if divisor = 0 then 1 else divisor
  { t with timerFrequency := frequencyHz, divisor := divisor.toUInt16 }

/-- `timer_install`, without the handler. -/
def timerInstall (frequencyHz : UInt32) (t : Timer) : Timer :=
  timerSetFrequency frequencyHz { t with timerTicks := 0 }

/-- The number of ticks `sleep` waits for. -/
def sleepTicks (t : Timer) (milliseconds : UInt32) : UInt32 :=
  let ticks := milliseconds * t.timerFrequency / 1000
  if ticks = 0 ∧ 0 < milliseconds then 1 else ticks

/-- How far a call of `sleep` is. -/
inductive Control where
  | sleep (milliseconds : UInt32)
  | timerWait (ticks : UInt32)
  | spin (target : UInt32)
  | returned
  deriving DecidableEq

/-- A call of `sleep`. -/
structure Sleeper where
  timer : Timer
  control : Control
  interrupts : ℕ

inductive Event where
  | timerIrq
  | cpu

def step (s : Sleeper) : Event → Option Sleeper
  | .timerIrq =>
      if s.control = .returned then none
      else some { s with timer := timerHandler s.timer, interrupts := s.interrupts + 1 }
  | .cpu =>
      match s.control with
      | .sleep milliseconds => some { s with control := .timerWait (sleepTicks s.timer milliseconds) }
      | .timerWait ticks => some { s with control := .spin (s.timer.timerTicks + ticks) }
      | .spin target =>
          if s.timer.timerTicks < target then some s else some { s with control := .returned }
      | .returned => none

/-- A call of `sleep`, at its start. -/
def call (t : Timer) (milliseconds : UInt32) : Sleeper := ⟨t, .sleep milliseconds, 0⟩

end Timer

end Yotos
