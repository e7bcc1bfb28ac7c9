import Mathlib.Tactic.SplitIfs

/-!
# The keyboard driver

`drivers/keyboard.c`: the handler of IRQ 1 turns scancodes into characters in a ring
buffer of 256 bytes whose indices wrap by themselves, follows the modifier keys, and
signals a kill on Ctrl+C while a process runs.
-/

namespace Yotos

/-- The static variables of the driver. -/
structure Keyboard where
  keyBuffer : UInt8 → UInt8
  bufHead : UInt8
  bufTail : UInt8
  caps : Bool
  shift : Bool
  ctrl : Bool

namespace Keyboard

def initial : Keyboard where
  keyBuffer _ := 0
  bufHead := 0
  bufTail := 0
  caps := false
  shift := false
  ctrl := false

/-- The characters of a table row. -/
def chars (s : String) : List UInt8 := s.toList.map fun c => c.toNat.toUInt8

def scancodeToAscii : List UInt8 :=
  [0, 0] ++ chars "1234567890-=\x08" ++ chars "\tqwertyuiop[]\n" ++ 0 :: chars "asdfghjkl;'`" ++
    0 :: chars "\\zxcvbnm,./" ++ [0] ++ chars "*" ++ [0] ++ chars " "

def scancodeToAsciiUpper : List UInt8 :=
  [0, 0] ++ chars "!@#$%^&*()-=" ++ [0] ++ chars "\tQWERTYUIOP\x7b\x7d\n" ++
    0 :: chars "ASDFGHJKL:\"~" ++ 0 :: chars "|ZXCVBNM<>?" ++ [0] ++ chars "*" ++ [0] ++ chars " "

/-- The letter that `caps` makes of a character. -/
def capitalise (c : UInt8) : UInt8 := if 97 ≤ c ∧ c ≤ 122 then c - 32 else c

/-- The character a key press gives, `0` for none. -/
def decode (k : Keyboard) (scancode : UInt8) : UInt8 :=
  let c := (if k.shift then scancodeToAsciiUpper else scancodeToAscii).getD scancode.toNat 0
  if k.caps then capitalise c else c

def push (k : Keyboard) (c : UInt8) : Keyboard :=
  { k with
    keyBuffer := fun i => if i = k.bufTail then c else k.keyBuffer i
    bufTail := k.bufTail + 1 }

/-- `keyboard_handler` for the byte read from the data port, with the answer of
`process_is_running`; the flag says whether it calls `process_signal_kill`. -/
def keyboardHandler (processIsRunning : Bool) (scancode : UInt8) (k : Keyboard) :
    Keyboard × Bool :=
  if scancode &&& 0x80 ≠ 0 then
    let k := if scancode = 0xAA ∨ scancode = 0xB6 then { k with shift := false } else k
    let k := if scancode = 0x9D then { k with ctrl := false } else k
    (k, false)
  else if scancode = 0x1D then
    ({ k with ctrl := true }, false)
  else if scancode = 0x2A ∨ scancode = 0x36 then
    ({ k with shift := true }, false)
  else if k.ctrl ∧ scancode = 0x2E then
    (k, processIsRunning)
  else if scancode = 0x3A then
    ({ k with caps := !k.caps }, false)
  else if scancode.toNat < scancodeToAscii.length ∧ decode k scancode ≠ 0 then
    (push k (decode k scancode), false)
  else
    (k, false)

/-- `keyboard_getchar`: the next character, `0` when the buffer is empty. -/
def keyboardGetchar (k : Keyboard) : UInt8 × Keyboard :=
  if k.bufHead = k.bufTail then (0, k)
  else (k.keyBuffer k.bufHead, { k with bufHead := k.bufHead + 1 })

def keyboardFlush (k : Keyboard) : Keyboard := { k with bufHead := k.bufTail }

/-- The handler signals a kill only for a running process. -/
theorem running_of_keyboardHandler {running : Bool} {scancode : UInt8} {k : Keyboard}
    (h : (keyboardHandler running scancode k).2 = true) : running = true := by
  unfold keyboardHandler at h
  split_ifs at h
  simp_all

end Keyboard

end Yotos
