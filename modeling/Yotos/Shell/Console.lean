import Yotos.Process.Ring
import Yotos.Shell.Input

/-!
# From the keys to the commands

The shell in its loop while interrupts of the keyboard come in between the turns. As long
as the ring has room, every character that the handler stores is typed into the line,
once and in order, whatever the serial line sends.
-/

namespace Yotos

namespace Keyboard

end Keyboard

namespace Shell

open Bytes Keyboard Library

inductive ConsoleEvent
  | irq (processIsRunning : Bool) (scancode : UInt8)
  /-- a turn of the loop, in which `uart_getchar` would return `uart` -/
  | turn (uart : UInt8)

/-- What the driver of the keyboard sees. -/
def ConsoleEvent.toKeyboard : ConsoleEvent → Keyboard.Event
  | .irq running scancode => .irq running scancode
  | .turn _ => .getchar

/-- No character is stored while 255 are unread. -/
def NeverFull (k : Keyboard) (events : List ConsoleEvent) : Prop :=
  ∀ pre running scancode, pre ++ [.irq running scancode] <+: events →
    stored (afterAll k (pre.map ConsoleEvent.toKeyboard)) running scancode ≠ none →
    unread (afterAll k (pre.map ConsoleEvent.toKeyboard)) ≠ 255

variable {leave : Execution → Bytes → Bytes} {s : Console} {line q : List UInt8}
  {events : List ConsoleEvent} {e : ConsoleEvent} {k : Keyboard}

theorem NeverFull.tail (h : NeverFull k (e :: events)) :
    NeverFull (after k e.toKeyboard) events := by
  intro pre running scancode hpre
  exact h (e :: pre) running scancode (by
    rw [List.cons_append]
    exact List.cons_prefix_cons.2 ⟨rfl, hpre⟩)

end Shell

end Yotos
